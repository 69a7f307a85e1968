import Barelog.Proofs.LowestClus

/-! The root directory after the creation of a file. The slot comes from the scan for the name; the
allocation and the zero-fill behind it do not touch the directory when the clusters of the file are
consecutive, and the write of the entry changes that slot only. -/

namespace Barelog

open Prog Links

/-- The slot has an entry of the directory: it is before the end marker and not deleted. -/
def LiveEntry (card : ℕ → Sector) (slots : List Slot) (p : Slot) : Prop :=
  p ∈ liveSlots card slots ∧ slotByte card p 0 ≠ 0xE5

/-- Behind the first slot that starts with 0x00 all do. -/
def EndsClean (card : ℕ → Sector) (slots : List Slot) : Prop :=
  ∀ p ∈ slots.dropWhile (fun p => slotByte card p 0 ≠ 0x00), slotByte card p 0 = 0x00

/-- `n` is the number of the first name that is free, no file is resumed before it, and `sc` is the
scan for it. -/
structure FindsName (s : Machine) (n : ℕ) (sc : Scan) : Prop where
  lt : n < 65535
  le : s.ram.cfg.logNum ≤ n
  skips : Skips s.ram.vol s.card (preallocSize s) s.ram.cfg.logNum n
  scan : ScansTo s.ram.vol s.card (makeLogname n) false sc

/-- The directory of `s'` is that of `s` with a file of the name `name` in slot `p`, which starts
at the first cluster of the log file. -/
structure Enters (s s' : Machine) (slots : List Slot) (name : Name) (p : Slot) : Prop where
  mem : p ∈ slots
  free : IsFree s.card p
  kept : ∀ q ∈ slots, q ≠ p → ∀ i, i < 32 → slotByte s'.card q i = slotByte s.card q i
  live_iff : ∀ q, LiveEntry s'.card slots q ↔ LiveEntry s.card slots q ∨ q = p
  name_eq : ∀ j, j < 11 → slotByte s'.card p j = name j
  attr : slotByte s'.card p deAttr = 0x20
  first : firstClusOf s'.card p = s'.ram.logfile.firstClus
  size : fileSize s'.card p = preallocSize s

variable {env : Env} {s s' : Machine} {v : Vol} {disk card : ℕ → Sector} {slots : List Slot}
  {l : List ℕ} {name : Name} {p q : Slot} {sc : Scan} {fuel n m c lba firstClus preallocSz : ℕ}

/-! The entry. -/

theorem makeLogname_zero (n : ℕ) : makeLogname n 0 ≠ 0x00 ∧ makeLogname n 0 ≠ 0xE5 := by
  rw [makeLogname_first]
  decide

theorem entryByte_name {j : ℕ} (hj : j < 11) : entryByte name firstClus preallocSz j = name j :=
  if_pos hj

theorem HoldsEntry.first (h : HoldsEntry card p (entryByte name firstClus preallocSz))
    (hfirst : firstClus < 2 ^ 32) : firstClusOf card p = firstClus := by
  have hhi : le16 (slotByte card p) deFstClusHi = firstClus / 2 ^ 16 % 2 ^ 16 :=
    le16_of_bytes (h deFstClusHi (by decide)) (h (deFstClusHi + 1) (by decide))
  have hlo : le16 (slotByte card p) deFstClusLo = firstClus % 2 ^ 16 % 2 ^ 16 :=
    le16_of_bytes (h deFstClusLo (by decide)) (h (deFstClusLo + 1) (by decide))
  rw [firstClusOf, hhi, hlo]
  omega

theorem HoldsEntry.size (h : HoldsEntry card p (entryByte name firstClus preallocSz))
    (hsize : preallocSz < 2 ^ 32) : fileSize card p = preallocSz := by
  have hle : le32 (slotByte card p) deFileSize = preallocSz % 2 ^ 32 :=
    le32_of_bytes (h deFileSize (by decide)) (h (deFileSize + 1) (by decide))
      (h (deFileSize + 2) (by decide)) (h (deFileSize + 3) (by decide))
  rw [fileSize, hle, Nat.mod_eq_of_lt hsize]

theorem HoldsEntry.isFile (h : HoldsEntry card p (entryByte (makeLogname n) firstClus preallocSz)) :
    IsFile card (makeLogname n) p := by
  have hname : ∀ j, j < 11 → slotByte card p j = makeLogname n j :=
    fun j hj => (h j (by omega)).trans (entryByte_name hj)
  have hattr : slotByte card p deAttr = 0x20 := h deAttr (by decide)
  refine ⟨?_, by rw [hattr]; decide, by rw [hattr]; decide, hname⟩
  rw [IsFree, hname 0 (by decide)]
  exact not_or.mpr (makeLogname_zero n)

/-! The list of the slots. -/

/-- The slots that do not start with 0x00 are live, if those before are. -/
theorem liveSlots_append {a b : List Slot} (ha : ∀ q ∈ a, slotByte disk q 0 ≠ 0x00) :
    liveSlots disk (a ++ b) = a ++ liveSlots disk b :=
  List.takeWhile_append_of_pos fun q hq => by simpa using ha q hq

theorem mem_of_liveSlots (h : p ∈ liveSlots disk slots) : p ∈ slots :=
  (List.takeWhile_sublist _).subset h

theorem slotByte_of_liveSlots (h : p ∈ liveSlots disk slots) : slotByte disk p 0 ≠ 0x00 := by
  have hall := List.all_eq_true.mp List.all_takeWhile p h
  simpa using hall

theorem liveSlots_congr (h : ∀ q ∈ slots, slotByte card q 0 = 0x00 ↔ slotByte disk q 0 = 0x00) :
    liveSlots card slots = liveSlots disk slots := by
  induction slots with
  | nil => rfl
  | cons q rest ih =>
    by_cases hend : slotByte disk q 0 = 0x00
    · rw [liveSlots_end hend, liveSlots_end ((h q List.mem_cons_self).mpr hend)]
    · rw [liveSlots_cons hend, liveSlots_cons (mt (h q List.mem_cons_self).mp hend),
        ih fun x hx => h x (List.mem_cons_of_mem _ hx)]

/-- The slots before the first free one, that slot, and the rest. -/
theorem first_free (h : slots.find? (IsFree disk ·) = some p) : IsFree disk p ∧
    ∃ a b, slots = a ++ p :: b ∧ ∀ q ∈ a, ¬ IsFree disk q := by
  obtain ⟨hfree, a, b, hslots, ha⟩ := List.find?_eq_some_iff_append.mp h
  exact ⟨by simpa using hfree, a, b, hslots, by simpa using ha⟩

/-- With `p` filled, the same slots but `p` are in front of the end marker. -/
theorem liveSlots_insert (hfind : slots.find? (IsFree disk ·) = some p)
    (hclean : EndsClean disk slots)
    (hkept : ∀ q ∈ slots, q ≠ p → slotByte card q 0 = slotByte disk q 0)
    (hnew : ¬ IsFree card p) : p ∈ liveSlots card slots ∧
      ∀ q, q ≠ p → (q ∈ liveSlots card slots ↔ q ∈ liveSlots disk slots) := by
  obtain ⟨hfree, a, b, rfl, ha⟩ := first_free hfind
  have hnew0 := (not_or.mp hnew).1
  have ha0 : ∀ x ∈ a, slotByte disk x 0 ≠ 0x00 := fun x hx => (not_or.mp (ha x hx)).1
  have hcard : liveSlots card (a ++ p :: b) = a ++ p :: liveSlots card b := by
    rw [liveSlots_append, liveSlots_cons hnew0]
    intro x hx
    have hxp : x ≠ p := by
      rintro rfl
      exact ha _ hx hfree
    rw [hkept x (List.mem_append_left _ hx) hxp]
    exact ha0 x hx
  rw [hcard, liveSlots_append ha0]
  refine ⟨List.mem_append_right _ List.mem_cons_self, fun q hq => ?_⟩
  rcases hfree with hend | hdel
  · -- the slots behind the end marker all start with 0x00
    have hzero : ∀ x ∈ b, slotByte disk x 0 = 0x00 := by
      intro x hx
      refine hclean x ?_
      rw [List.dropWhile_append_of_pos fun y hy => by simpa using ha0 y hy,
        List.dropWhile_cons_of_neg (by simp [hend])]
      exact List.mem_cons_of_mem _ hx
    have hnone : q ∉ liveSlots card b := by
      intro hb
      have hmem := mem_of_liveSlots hb
      have hbyte := hkept q (by simp [hmem]) hq
      rw [hzero q hmem] at hbyte
      exact slotByte_of_liveSlots hb hbyte
    rw [liveSlots_end hend, List.append_nil, List.mem_append, List.mem_cons, or_iff_left]
    rintro (h | h)
    · exact hq h
    · exact hnone h
  · -- a deleted slot was in the list before
    have hdel0 : slotByte disk p 0 ≠ 0x00 := by
      rw [hdel]
      decide
    have hb : liveSlots card b = liveSlots disk b := by
      refine liveSlots_congr fun x hx => ?_
      by_cases hxp : x = p
      · rw [hxp]
        exact iff_of_false hnew0 hdel0
      · rw [hkept x (by simp [hx]) hxp]
    rw [liveSlots_cons hdel0, hb]

/-- A new first byte in the first free slot makes that slot live, and no other. -/
theorem liveEntry_insert (hfind : slots.find? (IsFree disk ·) = some p)
    (hclean : EndsClean disk slots)
    (hkept : ∀ q ∈ slots, q ≠ p → slotByte card q 0 = slotByte disk q 0)
    (hnew : ¬ IsFree card p) (q : Slot) :
    LiveEntry card slots q ↔ LiveEntry disk slots q ∨ q = p := by
  obtain ⟨hp, hmem⟩ := liveSlots_insert hfind hclean hkept hnew
  by_cases hq : q = p
  · subst hq
    exact iff_of_true ⟨hp, (not_or.mp hnew).2⟩ (.inr rfl)
  · rw [or_iff_left hq, LiveEntry, LiveEntry, hmem q hq]
    refine and_congr_right fun hlive => ?_
    rw [hkept q (mem_of_liveSlots hlive) hq]

theorem IsFile.congr (h : ∀ i, i < 32 → slotByte card p i = slotByte disk p i) :
    IsFile card name p ↔ IsFile disk name p := by
  have hname : (∀ j, j < 11 → slotByte card p j = name j) ↔
      ∀ j, j < 11 → slotByte disk p j = name j :=
    forall_congr' fun j => imp_congr_right fun hj => by rw [h j (by omega)]
  rw [IsFile, IsFile, IsFree, IsFree, h 0 (by decide), h deAttr (by decide), hname]

/-- A file in the first free slot is the first of its name, if there was none. -/
theorem find_inserted (hfind : slots.find? (IsFree disk ·) = some p)
    (hnone : ¬ ∃ q ∈ liveSlots disk slots, IsFile disk name q)
    (hkept : ∀ q ∈ slots, q ≠ p → ∀ i, i < 32 → slotByte card q i = slotByte disk q i)
    (hfile : IsFile card name p) :
    (liveSlots card slots).find? (IsFile card name ·) = some p := by
  obtain ⟨hfree, a, b, rfl, ha⟩ := first_free hfind
  have hkept' : ∀ x ∈ a, ∀ i, i < 32 → slotByte card x i = slotByte disk x i := by
    intro x hx
    refine hkept x (List.mem_append_left _ hx) ?_
    rintro rfl
    exact ha _ hx hfree
  have ha0 : ∀ x ∈ a, slotByte disk x 0 ≠ 0x00 := fun x hx => (not_or.mp (ha x hx)).1
  have hnot : a.find? (IsFile card name ·) = none := by
    refine List.find?_eq_none.mpr fun x hx => ?_
    rw [decide_eq_true_eq, IsFile.congr (hkept' x hx)]
    intro hx'
    refine hnone ⟨x, ?_, hx'⟩
    rw [liveSlots_append ha0]
    exact List.mem_append_left _ hx
  rw [liveSlots_append fun x hx => by rw [hkept' x hx 0 (by decide)]; exact ha0 x hx,
    liveSlots_cons fun h => hfile.1 (.inl h), List.find?_append, hnot,
    List.find?_cons_of_pos (by simpa using hfile)]
  rfl

/-! What the creation does to the directory. -/

theorem FreeAhead.room (hv : Geometry s.ram.vol) (h : FreeAhead s) :
    clusWanted s ≤ (freeClus s.ram.vol s.card).length := by
  have hsub : List.range' (firstFree s) (clusWanted s) ⊆ freeClus s.ram.vol s.card := by
    intro x hx
    obtain ⟨hlo, hhi⟩ := List.mem_range'_1.mp hx
    obtain ⟨hdata, hfree⟩ := h (x - firstFree s) (by omega)
    rw [Nat.add_sub_cancel' hlo] at hdata hfree
    exact mem_freeBelow.mpr ⟨Nat.lt_succ_of_le hdata.2, hdata.1, (hdata.fatTable hv).trans hfree⟩
  have hlen := (List.subperm_of_subset List.nodup_range' hsub).length_le
  rwa [List.length_range'] at hlen

theorem FreeAhead.root_outside (hv : Geometry s.ram.vol) (h : FreeAhead s)
    (hl : RootChain s.ram.vol s.card l) (hc : c ∈ l) (hdata : IsDataClus s.ram.vol c)
    (hin : InClus s.ram.vol c lba) :
    lba < clusToLba s.ram.vol (firstFree s) ∨
      clusToLba s.ram.vol (firstFree s) + preallocSectors s ≤ lba := by
  by_contra hnot
  rw [not_or, not_lt, not_le] at hnot
  have hwant : 0 < clusWanted s := clusNeeded_pos hv.secPerClus (preallocSectors_pos s)
  obtain ⟨j, hj, hin'⟩ := mem_clus_run hv (h 0 hwant).1.1 (fun j hj => (h j hj).1) hnot.1 hnot.2
  obtain ⟨hdata', hfree⟩ := h j hj
  rw [hin'.unique hv hdata' hdata hin] at hfree
  exact hl.used hc hfree

theorem RootChain.created (hl : RootChain v disk l) (hv : Geometry v) (hroot : RootOk v disk)
    {own : List ℕ} (h : NewChain (fatTable v disk) (fatTable v card) own)
    (hfree : ∀ x ∈ own, fatTable v disk x = 0) : RootChain v card l := by
  have hentry : ∀ x ∈ l, fatEntry v card x = fatEntry v disk x := by
    intro x hx
    have hdata := hroot x (hl.isRootClus.mpr hx)
    rw [← hdata.fatTable hv, ← hdata.fatTable hv]
    refine h.rest x fun hown => hl.used hx ?_
    rw [← hdata.fatTable hv]
    exact hfree x hown
  have hne : l ≠ [] := by
    rintro rfl
    cases hl.head
  refine ⟨hl.head, hl.link, hl.linked.congr fun x hx => hentry x (List.mem_of_mem_dropLast hx), ?_⟩
  rw [hentry _ (getLastD_mem hne)]
  exact hl.ends

theorem Created.frame (hv : Geometry s.ram.vol) (hroot : RootOk s.ram.vol s.card)
    (hl : RootChain s.ram.vol s.card l) (hahead : FreeAhead s)
    (h : Created (s.withLogNum m) (preallocSize s) (preallocSectors s) (taken s (clusWanted s)) name
      p s') (hp : p ∈ slotsOf s.ram.vol l) :
    (∀ q ∈ slotsOf s.ram.vol l, q ≠ p → ∀ i, i < 32 →
      slotByte s'.card q i = slotByte s.card q i) ∧
      HoldsEntry s'.card p (entryByte name (firstFree s) (preallocSize s)) := by
  have hwant : 0 < clusWanted s := clusNeeded_pos hv.secPerClus (preallocSectors_pos s)
  have hhead := taken_head (hahead.room hv) hwant
  have hcleared : ∀ q ∈ slotsOf s.ram.vol l,
      q.1 < clusToLba s.ram.vol ((taken s (clusWanted s)).headD 0) ∨
        clusToLba s.ram.vol ((taken s (clusWanted s)).headD 0) + preallocSectors s ≤ q.1 := by
    intro q hq
    obtain ⟨c, _, hc, hdata, hin, -, -⟩ := hl.place hv hroot hq
    rw [hhead]
    exact hahead.root_outside hv hl hc hdata hin
  obtain ⟨d, hd, hkeep⟩ := h.slot
  have hd' : d = s.card p.1 := hkeep (hcleared p hp)
  subst hd'
  obtain ⟨_, k, -, -, -, hk, hoff⟩ := hl.place hv hroot hp
  constructor
  · intro q hq hqp i hi
    obtain ⟨c, j, -, hdata, hin, hj, hoff'⟩ := hl.place hv hroot hq
    by_cases hlba : q.1 = p.1
    · have hne : q.2 ≠ p.2 := fun he => hqp (Prod.ext hlba he)
      rw [slotByte, slotByte, hlba, hd, byte_withEntry _ _ _ (by omega), stored,
        if_neg (by omega)]
    · have hdataLba := hv.dataLba_le hdata
      have hsame : s'.card q.1 = s.card q.1 :=
        h.outside q.1 (fun hfat => absurd hfat.2 (not_lt.mpr (hdataLba.trans hin.1))) hlba
          (hcleared q hq)
      rw [slotByte, slotByte, hsame]
  · intro i hi
    rw [slotByte, hd, byte_withEntry _ _ _ (by omega), stored, if_pos (by omega),
      Nat.add_sub_cancel_left, hhead]

/-- A free name is the only one that the search can end with. -/
theorem FindsName.name_eq (h : FindsName s n sc) {sc' : Scan} (h' : Unnamed s name sc') :
    name = makeLogname n := by
  have hskipped : ∀ m, n < m → Skips s.ram.vol s.card (preallocSize s) s.ram.cfg.logNum m → False := by
    intro m hlt hskips
    obtain ⟨sc1, hfound, -⟩ := hskips n h.le hlt
    cases (hfound.unique h.scan).1
  rcases h' with ⟨m, hm, hle, hskips, rfl, hscan⟩ | ⟨-, hskips, -, -⟩
  · rcases Nat.lt_trichotomy m n with hlt | rfl | hlt
    · obtain ⟨sc1, hfound, -⟩ := h.skips m hle hlt
      cases (hfound.unique hscan).1
    · rfl
    · exact (hskipped m hlt hskips).elim
  · exact (hskipped _ h.lt hskips).elim

/-- A call that finds a free name and a slot for it enters the file in the root directory and
changes nothing else there; a scan for the name then finds it. -/
theorem create_enters_file (env : Env) (hgood : env.Good) (fuel : ℕ) (s : Machine) (l : List ℕ)
    (n : ℕ) (sc : Scan) (hv : Geometry s.ram.vol) (hroot : RootOk s.ram.vol s.card)
    (hl : RootChain s.ram.vol s.card l) (hclean : EndsClean s.card (slotsOf s.ram.vol l))
    (hname : FindsName s n sc) (hslot : sc.emptyLba ≠ 0) (hahead : FreeAhead s)
    (hfuel : l.length < fuel) (hclus : clusCount s.ram.vol < fuel) :
    ∃ s', (fat32OpenLog fuel).run (fwStep env) s = (.ok (), s') ∧
      RootChain s.ram.vol s'.card l ∧
      Enters s s' (slotsOf s.ram.vol l) (makeLogname n) sc.slot ∧
      ∀ (env' : Env) (fuel' : ℕ), env'.Good → l.length < fuel' → ∃ sc' s'',
        (scanRootDir fuel' (makeLogname n)).run (fwStep env') s' = (.ok (true, sc'), s'') ∧
          sc'.found = sc.slot := by
  have hroom := hahead.room hv
  have hwant : 0 < clusWanted s := clusNeeded_pos hv.secPerClus (preallocSectors_pos s)
  have hmbr := hl.ne_zero hv hroot
  have hunnamed : Unnamed s (makeLogname n) sc :=
    .inl ⟨n, hname.lt, hname.le, hname.skips, rfl, hname.scan⟩
  have hneeds : NeedsClus s := ⟨_, sc, hunnamed, hslot⟩
  have hflat := hname.scan.flat hl hmbr
  have hfind : (slotsOf s.ram.vol l).find? (IsFree s.card ·) = some sc.slot := hflat.empty rfl hslot
  have hmem : sc.slot ∈ slotsOf s.ram.vol l := List.mem_of_find?_eq_some hfind
  have hnone : ¬ ∃ q ∈ liveSlots s.card (slotsOf s.ram.vol l), IsFile s.card (makeLogname n) q :=
    fun h => Bool.false_ne_true (hflat.found_iff.mpr h)
  obtain ⟨s', hrun⟩ := openLog_returns hgood hv hroot hl hfuel hroom hclus hneeds
  obtain ⟨name, sc', m, s2, hunnamed', -, hle, -, hnamed, hcreated, rfl⟩ :=
    openLog_new hv hroot hneeds hroom hrun
  obtain rfl := hunnamed.unique hunnamed'
  obtain rfl := hname.name_eq hunnamed'
  obtain ⟨hkept, hholds⟩ := hcreated.frame hv hroot hl hahead hmem
  have hfirst : IsDataClus s.ram.vol (firstFree s) := (hahead 0 hwant).1
  have hfile := hholds.isFile
  have hram : s2.counted.ram.vol = s.ram.vol := by
    rw [Machine.counted, hcreated.ram]
    rfl
  have hfirst' : s2.counted.ram.logfile.firstClus = firstFree s := by
    rw [Machine.counted, hcreated.ram]
    exact taken_head hroom hwant
  have hl' : RootChain s.ram.vol s2.card l :=
    hl.created hv hroot hcreated.chain fun x hx => (mem_taken hx).2
  refine ⟨_, hrun, hl', ⟨hmem, ?_, hkept, ?_, ?_, ?_, ?_, ?_⟩, ?_⟩
  · simpa using List.find?_some hfind
  · exact liveEntry_insert hfind hclean (fun q hq hqp => hkept q hq hqp 0 (by decide)) hfile.1
  · exact fun j hj => (hholds j (by omega)).trans (entryByte_name hj)
  · exact hholds deAttr (by decide)
  · rw [hfirst']
    exact hholds.first (by have := hv.clus_lt hfirst; omega)
  · obtain ⟨-, hsectors, hsize⟩ := prealloc_bounds s.ram.cfg.preallocCode
    exact hholds.size (by rw [preallocSize]; omega)
  · intro env' fuel' hgood' hfuel'
    have hl'' : RootChain s2.counted.ram.vol s2.counted.card l := hram.symm ▸ hl'
    obtain ⟨b, sc', s'', hscan, -, hto⟩ := scanRootDir_returns hgood' hl'' hfuel' (makeLogname n)
    rw [hram] at hto
    have hflat' := hto.flat hl' hmbr
    have hfound := find_inserted hfind hnone hkept hfile
    have hb : b = true := hflat'.found_iff.mpr ⟨_, List.mem_of_find?_eq_some hfound, hfile⟩
    subst hb
    exact ⟨sc', s'', hscan, Option.some.inj ((hflat'.found rfl).symm.trans hfound)⟩

/-! A disk with one file. -/

theorem listedDisk_clean : EndsClean listedDisk.card (slotsOf listedDisk.ram.vol [2]) := by
  unfold EndsClean
  decide +kernel

/-- The first name is that of the file, the second one is free, and there is a slot for it. -/
theorem listedDisk_finds : ∃ sc, FindsName listedDisk (listedDisk.ram.cfg.logNum + 1) sc ∧
    sc.emptyLba ≠ 0 := by
  have hmbr := listedDisk_chain.ne_zero smallVol_geometry listedDisk_root
  have hscan : ∀ name, ∃ b sc, ScansTo listedDisk.ram.vol listedDisk.card name b sc ∧
      FlatScan listedDisk.card name (slotsOf listedDisk.ram.vol [2]) b sc := by
    intro name
    obtain ⟨b, sc, s', -, -, hto⟩ := scanRootDir_returns (fun _ => rfl : Env.ideal.Good)
      listedDisk_chain (Nat.lt_succ_self _) name
    exact ⟨b, sc, hto, hto.flat listedDisk_chain hmbr⟩
  obtain ⟨b, sc, hto, hflat⟩ := hscan (makeLogname (listedDisk.ram.cfg.logNum + 1))
  have hb : b = false := by
    by_contra hb
    obtain ⟨p, hp, hfile⟩ := hflat.found_iff.mp (Bool.eq_true_of_not_eq_false hb)
    rw [listedDisk_live, List.mem_singleton] at hp
    subst hp
    exact absurd hfile (by decide +kernel)
  subst hb
  refine ⟨sc, ⟨by decide, Nat.le_succ _, fun k hk hlt => ?_, hto⟩, fun hlba => ?_⟩
  · obtain rfl : k = listedDisk.ram.cfg.logNum := by omega
    obtain ⟨b', sc', hto', hflat'⟩ := hscan (makeLogname listedDisk.ram.cfg.logNum)
    have hfind : (liveSlots listedDisk.card (slotsOf listedDisk.ram.vol [2])).find?
        (IsFile listedDisk.card (makeLogname listedDisk.ram.cfg.logNum) ·) = some (11, 0) := by
      rw [listedDisk_live]
      decide +kernel
    obtain rfl : b' = true := hflat'.found_iff.mpr
      ⟨_, List.mem_of_find?_eq_some hfind, by simpa using List.find?_some hfind⟩
    have hfound : sc'.found = (11, 0) := Option.some.inj ((hflat'.found rfl).symm.trans hfind)
    refine ⟨sc', hto', ?_⟩
    rw [hfound]
    decide +kernel
  · have hslot : ((11, 32) : Slot) ∈ slotsOf listedDisk.ram.vol [2] :=
      List.mem_flatMap.mpr ⟨2, List.mem_singleton_self 2,
        List.mem_flatMap.mpr ⟨0, by decide, by decide⟩⟩
    exact (hflat.none_iff rfl).mp hlba _ hslot (by decide +kernel)

/-- The second file. -/
theorem create_enters_file_second : ∃ s' p,
    (fat32OpenLog 64).run (fwStep Env.ideal) listedDisk = (.ok (), s') ∧
      Enters listedDisk s' (slotsOf listedDisk.ram.vol [2])
        (makeLogname (listedDisk.ram.cfg.logNum + 1)) p := by
  obtain ⟨sc, hname, hslot⟩ := listedDisk_finds
  have hahead : FreeAhead listedDisk := by
    unfold FreeAhead
    decide +kernel
  obtain ⟨s', hrun, -, henters, -⟩ := create_enters_file Env.ideal (fun _ => rfl) 64 listedDisk [2] _
    sc smallVol_geometry listedDisk_root listedDisk_chain listedDisk_clean hname hslot hahead
    (by decide) (by decide)
  exact ⟨s', sc.slot, hrun, henters⟩

end Barelog
