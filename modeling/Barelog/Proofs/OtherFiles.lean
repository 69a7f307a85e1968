import Barelog.Proofs.FailedOpen
import Barelog.Proofs.LogReader

/-! The other files of the card. Whatever is done to the card when a log file is created, written or
flushed, and when free clusters are trimmed, a file that was on it before is read as before, also when
a request fails or the power goes at any point. -/

namespace Barelog

open Prog Labelled

variable {env : Env} {s s' s0 t t' : Machine} {v : Vol} {l : List ℕ} {card card' disk : ℕ → Sector}
  {p : Slot} {fuel : ℕ} {c : ℕ} {name : Name} {cs : List (CommitLog.Call Sector)}
  {lg : CommitLog.Log Sector}

/-- What files are made of is kept: the sectors before the FAT, the slots of the root directory in use,
the FAT entries in use, and the sectors of the clusters in use. The root directory has the clusters
`l`. -/
structure KeepsFiles (v : Vol) (l : List ℕ) (disk card : ℕ → Sector) : Prop where
  boot : ∀ lba, lba < v.fatLba → card lba = disk lba
  slots : ∀ q ∈ slotsOf v l, ¬ IsFree disk q → ∀ i, i < 32 → slotByte card q i = slotByte disk q i
  entries : ∀ c, IsDataClus v c → fatEntry v disk c ≠ 0 → fatEntry v card c = fatEntry v disk c
  sectors : ∀ c, IsDataClus v c → fatEntry v disk c ≠ 0 → c ∉ l → ∀ i, i < v.secPerClus →
    card (clusToLba v c + i) = disk (clusToLba v c + i)

/-- A file of the root directory, with clusters in use that are not those of the directory. -/
structure OtherFile (v : Vol) (l : List ℕ) (card : ℕ → Sector) (p : Slot) : Prop where
  mem : p ∈ slotsOf v l
  live : ¬ IsFree card p
  clus : ∀ n, ∀ c ∈ chainClus v card n (firstClusOf card p),
    IsDataClus v c ∧ fatEntry v card c ≠ 0 ∧ c ∉ l

/-! What is kept. -/

theorem KeepsFiles.refl (v : Vol) (l : List ℕ) (card : ℕ → Sector) : KeepsFiles v l card card :=
  ⟨fun _ _ => rfl, fun _ _ _ _ _ => rfl, fun _ _ _ => rfl, fun _ _ _ _ _ _ => rfl⟩

theorem isFree_congr {q : Slot} (h : ∀ i, i < 32 → slotByte card q i = slotByte disk q i) :
    IsFree card q ↔ IsFree disk q := by
  rw [IsFree, IsFree, h 0 (by decide)]

theorem KeepsFiles.trans (h : KeepsFiles v l disk card) (h' : KeepsFiles v l card card') :
    KeepsFiles v l disk card' := by
  refine ⟨fun lba hlba => ?_, fun q hq hused i hi => ?_, fun c hc hused => ?_, fun c hc hused hl i hi => ?_⟩
  · rw [h'.boot lba hlba, h.boot lba hlba]
  · have hlive : ¬ IsFree card q := fun hfree => hused ((isFree_congr (h.slots q hq hused)).mp hfree)
    rw [h'.slots q hq hlive i hi, h.slots q hq hused i hi]
  · have hentry := h.entries c hc hused
    rw [h'.entries c hc (hentry ▸ hused), hentry]
  · have hentry := h.entries c hc hused
    rw [h'.sectors c hc (hentry ▸ hused) hl i hi, h.sectors c hc hused hl i hi]

theorem KeepsFiles.readFile (h : KeepsFiles v l disk card) (hfile : OtherFile v l disk p) :
    readFile v card p = readFile v disk p := by
  refine readFile_congr (h.slots p hfile.mem hfile.live) (fun n c hc => ?_) fun n c hc => ?_
  · obtain ⟨hdata, hused, -⟩ := hfile.clus n c hc
    exact h.entries c hdata hused
  · obtain ⟨hdata, hused, hl⟩ := hfile.clus n c hc
    exact h.sectors c hdata hused hl

theorem OtherFile.chain_kept (hfile : OtherFile v l disk p) (h : KeepsFiles v l disk card) (n : ℕ) :
    chainClus v card n (firstClusOf card p) = chainClus v disk n (firstClusOf disk p) := by
  have hfirst : firstClusOf card p = firstClusOf disk p := by
    simp only [firstClusOf, le16, deFstClusHi, deFstClusLo, h.slots p hfile.mem hfile.live,
      Nat.reduceAdd, Nat.reduceLT]
  rw [hfirst]
  refine Links.follow_congr fun c hc => ?_
  obtain ⟨hdata, hused, -⟩ := hfile.clus n c hc
  exact h.entries c hdata hused

theorem OtherFile.kept (hfile : OtherFile v l disk p) (h : KeepsFiles v l disk card) :
    OtherFile v l card p := by
  refine ⟨hfile.mem, fun hfree => hfile.live ?_, fun n c hc => ?_⟩
  · exact (isFree_congr (h.slots p hfile.mem hfile.live)).mp hfree
  · rw [hfile.chain_kept h] at hc
    obtain ⟨hdata, hused, hl⟩ := hfile.clus n c hc
    exact ⟨hdata, (h.entries c hdata hused).symm ▸ hused, hl⟩

theorem RootChain.kept (hl : RootChain v disk l) (hroot : RootOk v disk) (h : KeepsFiles v l disk card) :
    RootChain v card l := by
  have hentry : ∀ x ∈ l, fatEntry v card x = fatEntry v disk x :=
    fun x hx => h.entries x (hroot x (hl.isRootClus.mpr hx)) (hl.used hx)
  have hne : l ≠ [] := by
    rintro rfl
    cases hl.head
  refine ⟨hl.head, hl.link, hl.linked.congr fun x hx => hentry x (List.mem_of_mem_dropLast hx), ?_⟩
  rw [hentry _ (getLastD_mem hne)]
  exact hl.ends

theorem RootOk.kept (hroot : RootOk v disk) (hl : RootChain v disk l) (hl' : RootChain v card l) :
    RootOk v card :=
  fun c hc => hroot c (hl.isRootClus.mpr (hl'.isRootClus.mp hc))

/-- Sectors of files are changed by nothing but the FAT, a slot that is written and free clusters. -/
theorem keepsFiles_of_rest (hv : Geometry v) (hroot : RootOk v disk) (hl : RootChain v disk l)
    (hslots : ∀ q ∈ slotsOf v l, ¬ IsFree disk q → ∀ i, i < 32 → slotByte card q i = slotByte disk q i)
    (hentries : ∀ c, IsDataClus v c → fatEntry v disk c ≠ 0 → fatEntry v card c = fatEntry v disk c)
    (hrest : ∀ lba, ¬ InFat v lba → (∀ q ∈ slotsOf v l, q.1 ≠ lba) → ¬ InFree v disk lba →
      card lba = disk lba) : KeepsFiles v l disk card := by
  have hfat := hv.fat
  refine ⟨fun lba hlba => ?_, hslots, hentries, fun c hc hused hcl i hi => ?_⟩
  · refine hrest lba (fun h => absurd h.1 (by omega)) (fun q hq => ?_) fun h => ?_
    · obtain ⟨c, -, -, hdata, hin, -, -⟩ := hl.place hv hroot hq
      have hle := (hv.dataLba_le hdata).trans hin.1
      omega
    · have hle := h.data
      omega
  · have hin : InClus v c (clusToLba v c + i) := ⟨Nat.le_add_right _ _, Nat.add_lt_add_left hi _⟩
    have hle := (hv.dataLba_le hc).trans hin.1
    refine hrest _ (fun h => absurd h.2 (by omega)) (fun q hq heq => ?_) (not_inFree hv hc hused hin)
    obtain ⟨d, -, hd, hdata, hind, -, -⟩ := hl.place hv hroot hq
    rw [heq] at hind
    exact hcl (hin.unique hv hc hdata hind ▸ hd)

theorem slots_outside (hv : Geometry v) (hroot : RootOk v disk) (hl : RootChain v disk l)
    (hp : p ∈ slotsOf v l) (hsame : ∀ q ∈ slotsOf v l, q.1 ≠ p.1 → card q.1 = disk q.1)
    (hbytes : ∀ i, i < p.2 ∨ p.2 + 32 ≤ i → (card p.1).byte i = (disk p.1).byte i) :
    ∀ q ∈ slotsOf v l, q ≠ p → ∀ i, i < 32 → slotByte card q i = slotByte disk q i := by
  intro q hq hne i hi
  by_cases hlba : q.1 = p.1
  · obtain ⟨-, k, -, -, -, -, hoff⟩ := hl.place hv hroot hp
    obtain ⟨-, j, -, -, -, -, hoff'⟩ := hl.place hv hroot hq
    have hoffs : q.2 ≠ p.2 := fun he => hne (Prod.ext hlba he)
    rw [slotByte, slotByte, hlba]
    exact hbytes _ (by omega)
  · rw [slotByte, slotByte, hsame q hq hlba]

/-! The creation of a log file. -/

/-- Behind the allocation the sectors of the file are cleared, and then the entry may be written. -/
theorem afterChain_cases {a : Alloc} {preallocSz nSectors : ℕ} {r : Except Stop Unit}
    (hsec : 0 < nSectors) (hsec32 : nSectors < 2 ^ 32) (hoff : p.2 + 32 ≤ 512)
    (hrun : (clearLog preallocSz nSectors p a >>= fun _ => enterLog preallocSz name p a).run
      (fwStep env) s = (r, s')) :
    ∃ card, (∀ x, x < clusToLba s.ram.vol a.firstClus ∨
      clusToLba s.ram.vol a.firstClus + nSectors ≤ x → card x = s.card x) ∧
      (s'.card = card ∨ s'.card = Function.update card p.1 (withEntry (card p.1) p.2
        (entryByte name a.firstClus preallocSz))) := by
  have hclear : ∀ {r t}, (clearLog preallocSz nSectors p a).run (fwStep env) s = (r, t) →
      ∀ x, x < clusToLba s.ram.vol a.firstClus ∨
        clusToLba s.ram.vol a.firstClus + nSectors ≤ x → t.card x = s.card x := by
    intro r t hrun x hx
    rw [clearLog_run] at hrun
    rcases clearSectors_cases (clusToLba_lt _ _) hsec hsec32 hrun with ⟨_, h⟩ | ⟨_, _, _, k, _, h⟩
    · exact h.outside hx
    · exact h.outside hx
  rcases bind_ended hrun with ⟨_, s1, hrun1, henter⟩ | ⟨e, hrun1, _⟩
  · refine ⟨s1.card, hclear hrun1, ?_⟩
    rcases enterLog_cases hoff henter with ⟨_, h⟩ | ⟨_, _, h | h⟩
    · exact .inr h.card
    · exact .inl h.card
    · exact .inr h.card
  · exact ⟨s'.card, hclear hrun1, .inl rfl⟩

/-- Behind the allocation the sectors of the file and the slot are written. -/
theorem afterChain_outside {a : Alloc} {preallocSz nSectors : ℕ} {r : Except Stop Unit}
    (hsec : 0 < nSectors) (hsec32 : nSectors < 2 ^ 32) (hoff : p.2 + 32 ≤ 512)
    (hrun : (clearLog preallocSz nSectors p a >>= fun _ => enterLog preallocSz name p a).run
      (fwStep env) s = (r, s')) {x : ℕ} (hx : x < clusToLba s.ram.vol a.firstClus ∨
        clusToLba s.ram.vol a.firstClus + nSectors ≤ x) :
    (x ≠ p.1 → s'.card x = s.card x) ∧
      ∀ i, i < p.2 ∨ p.2 + 32 ≤ i → (s'.card x).byte i = (s.card x).byte i := by
  obtain ⟨card, hsame, hcard | hcard⟩ := afterChain_cases hsec hsec32 hoff hrun
  · rw [hcard, hsame x hx]
    exact ⟨fun _ => rfl, fun _ _ => rfl⟩
  rw [hcard]
  refine ⟨fun hne => (Function.update_of_ne hne _ _).trans (hsame x hx), fun i hi => ?_⟩
  by_cases hxp : x = p.1
  · rw [hxp, Function.update_self, ← hxp, hsame x hx]
    by_cases hlt : i < 512
    · rw [byte_withEntry _ _ _ hlt, stored, if_neg (by omega)]
    · rw [Sector.byte, Sector.byte, dif_neg hlt, dif_neg hlt]
  · rw [Function.update_of_ne hxp, hsame x hx]

/-- The slot is as before, or it holds the entry. -/
theorem afterChain_slot {a : Alloc} {preallocSz nSectors : ℕ} {r : Except Stop Unit}
    (hsec : 0 < nSectors) (hsec32 : nSectors < 2 ^ 32) (hoff : p.2 + 32 ≤ 512)
    (hrun : (clearLog preallocSz nSectors p a >>= fun _ => enterLog preallocSz name p a).run
      (fwStep env) s = (r, s')) (hp : p.1 < clusToLba s.ram.vol a.firstClus ∨
        clusToLba s.ram.vol a.firstClus + nSectors ≤ p.1) :
    s'.card p.1 = s.card p.1 ∨ HoldsEntry s'.card p (entryByte name a.firstClus preallocSz) := by
  obtain ⟨card, hsame, hcard | hcard⟩ := afterChain_cases hsec hsec32 hoff hrun
  · rw [hcard]
    exact .inl (hsame p.1 hp)
  · refine .inr fun i hi => ?_
    rw [slotByte, hcard, Function.update_self, byte_withEntry _ _ _ (by omega), stored,
      if_pos (by omega), Nat.add_sub_cancel_left]

/-- A creation in consecutive free clusters and a free slot, wherever it stops. -/
structure Creating (env : Env) (fuel : ℕ) (s : Machine) (l : List ℕ) (name : Name) (p : Slot)
    (t' : Machine) : Prop where
  geometry : Geometry s.ram.vol
  root : RootOk s.ram.vol s.card
  chain : RootChain s.ram.vol s.card l
  ahead : FreeAhead s
  mem : p ∈ slotsOf s.ram.vol l
  free : IsFree s.card p
  run : ∃ t r, t.ram.vol = s.ram.vol ∧ t.card = s.card ∧
    (createFile fuel s name p).run (fwStep env) t = (r, t')

theorem Creating.place (h : Creating env fuel s l name p t') :
    s.ram.vol.dataLba ≤ p.1 ∧ p.2 + 32 ≤ 512 := by
  obtain ⟨cp, k, -, hdata, hin, hk, hoff⟩ := h.chain.place h.geometry h.root h.mem
  have := h.geometry.dataLba_le hdata
  exact ⟨this.trans hin.1, by omega⟩

theorem Creating.want (h : Creating env fuel s l name p t') : 0 < clusWanted s :=
  clusNeeded_pos h.geometry.secPerClus (preallocSectors_pos s)

theorem Creating.row (h : Creating env fuel s l name p t') {x : ℕ}
    (hnot : ¬ InFree s.ram.vol s.card x) : x < clusToLba s.ram.vol (firstFree s) ∨
      clusToLba s.ram.vol (firstFree s) + preallocSectors s ≤ x := by
  have hdata : ∀ j, j < clusWanted s → IsDataClus s.ram.vol (firstFree s + j) :=
    fun j hj => (h.ahead j hj).1
  by_contra hin
  rw [not_or, not_lt, not_le] at hin
  obtain ⟨j, hj, hinj⟩ := mem_clus_run h.geometry (hdata 0 h.want).1 hdata hin.1 hin.2
  exact hnot (inFree_of_clus h.geometry (hdata j hj) (h.ahead j hj).2 hinj)

/-- The allocation: it fails, or the chain is in the FAT. -/
theorem Creating.alloc (h : Creating env fuel s l name p t') : ∃ s1 : Machine,
    s1.ram.vol = s.ram.vol ∧ (∀ x, ¬ InFat s.ram.vol x → s1.card x = s.card x) ∧ (t' = s1 ∨
      ∃ (a : Alloc) (r : Except Stop Unit), a.firstClus = firstFree s ∧
        NewChain (fatTable s.ram.vol s.card) (fatTable s.ram.vol s1.card) (taken s (clusWanted s)) ∧
        (clearLog (preallocSize s) (preallocSectors s) p a >>= fun _ =>
          enterLog (preallocSize s) name p a).run (fwStep env) s1 = (r, t')) := by
  have hroom := h.ahead.room h.geometry
  have hhead := taken_head hroom h.want
  obtain ⟨t, r, hvol, hcard, hrun⟩ := h.run
  have hvt : Geometry t.ram.vol := hvol ▸ h.geometry
  have hroomt : clusWanted s ≤ (freeClus t.ram.vol t.card).length := by rwa [hvol, hcard]
  have htaken : taken t (clusWanted s) = taken s (clusWanted s) := by rw [taken, taken, hvol, hcard]
  rw [createFile, createLog_eq] at hrun
  rcases bind_ended hrun with ⟨a, s1, halloc, hrest⟩ | ⟨e, halloc, rfl⟩
  · rcases allocChain_cases hvt (carried_nothing env t) trivial hroomt h.want halloc with
      ⟨_, fat, ha, hedit, hchain, hfirst, -, -⟩ | ⟨_, _, hbad, _⟩
    swap
    · cases hbad
    cases ha
    refine ⟨s1, by rw [hedit.ram, hvol], fun x hx => ?_, .inr ⟨a, r, ?_, ?_, hrest⟩⟩
    · rw [hedit.rest (by rwa [hvol]), hcard]
    · rw [hfirst, htaken, hhead]
    · have htable := hedit.table
      rw [hvol] at htable
      rwa [htaken, hvol, hcard, ← htable] at hchain
  · rcases allocChain_cases hvt (carried_nothing env t) trivial hroomt h.want halloc with
      ⟨_, _, hbad, _⟩ | ⟨_, fat, _, hedit, -⟩
    · cases hbad
    · refine ⟨t', by rw [hedit.ram, hvol], fun x hx => ?_, .inl rfl⟩
      rw [hedit.rest (by rwa [hvol]), hcard]

/-- Outside the FAT only the slot and free clusters are written. -/
theorem Creating.outside (h : Creating env fuel s l name p t') {x : ℕ} (hfat : ¬ InFat s.ram.vol x)
    (hnot : ¬ InFree s.ram.vol s.card x) : (x ≠ p.1 → t'.card x = s.card x) ∧
      ∀ i, i < p.2 ∨ p.2 + 32 ≤ i → (t'.card x).byte i = (s.card x).byte i := by
  obtain ⟨s1, hvol, hs1, rfl | ⟨a, r, hfirst, -, hrun⟩⟩ := h.alloc
  · rw [hs1 x hfat]
    exact ⟨fun _ => rfl, fun _ _ => rfl⟩
  · have hrow := h.row hnot
    rw [← hvol, ← hfirst] at hrow
    have hafter := afterChain_outside (preallocSectors_pos s) (preallocSectors_lt s) h.place.2 hrun hrow
    rwa [hs1 x hfat] at hafter

theorem RootChain.slot_used (hl : RootChain v card l) (hv : Geometry v) (hroot : RootOk v card)
    (hp : p ∈ slotsOf v l) : ¬ InFat v p.1 ∧ ¬ InFree v card p.1 := by
  obtain ⟨c, -, hc, hcdata, hin, -, -⟩ := hl.place hv hroot hp
  have hle := (hv.dataLba_le hcdata).trans hin.1
  exact ⟨fun h => absurd h.2 (by omega), not_inFree hv hcdata (hl.used hc) hin⟩

theorem Creating.slots (h : Creating env fuel s l name p t') : ∀ q ∈ slotsOf s.ram.vol l, q ≠ p →
    ∀ i, i < 32 → slotByte t'.card q i = slotByte s.card q i := by
  have hused := fun q hq => h.chain.slot_used (p := q) h.geometry h.root hq
  refine slots_outside h.geometry h.root h.chain h.mem (fun q hq hne => ?_) ?_
  · exact (h.outside (hused q hq).1 (hused q hq).2).1 hne
  · exact (h.outside (hused p h.mem).1 (hused p h.mem).2).2

theorem Creating.keeps (h : Creating env fuel s l name p t') :
    KeepsFiles s.ram.vol l s.card t'.card := by
  have hv := h.geometry
  refine keepsFiles_of_rest hv h.root h.chain (fun q hq hlive => ?_) (fun c hc hused => ?_)
    fun x hfat hslot hnot => (h.outside hfat hnot).1 (hslot p h.mem).symm
  · refine h.slots q hq ?_
    rintro rfl
    exact hlive h.free
  · obtain ⟨t, r, hvol, hcard, hrun⟩ := h.run
    have hchanges : ChangesFree s.ram.vol s.card t'.card := by
      rw [← hvol, ← hcard]
      refine createLog_changesFree (hvol ▸ hv) ?_ h.want (preallocSectors_pos s)
        (preallocSectors_lt s) ?_ h.place.2 hrun
      · rw [hvol, hcard]
        exact h.ahead.room hv
      · rw [hvol]
        exact h.place.1
    rw [← copyEntry_first, ← copyEntry_first]
    exact hchanges 0 hv.numFats c (hv.lt_entries hc) fun hfree => hused hfree.2

/-- The slot is as before, or it has a file with the chain. -/
theorem Creating.entered (h : Creating env fuel s l name p t') :
    (∀ i, i < 32 → slotByte t'.card p i = slotByte s.card p i) ∨ firstClusOf t'.card p = firstFree s ∧
      NewChain (fatTable s.ram.vol s.card) (fatTable s.ram.vol t'.card) (taken s (clusWanted s)) := by
  have hv := h.geometry
  have hdata := (h.ahead 0 h.want).1
  obtain ⟨hpfat, hpfree⟩ := h.chain.slot_used hv h.root h.mem
  obtain ⟨s1, hvol, hs1, rfl | ⟨a, r, hfirst, hchain, hrun⟩⟩ := h.alloc
  · exact .inl fun i _ => by rw [slotByte, slotByte, hs1 _ hpfat]
  have hrow := h.row hpfree
  rw [← hvol, ← hfirst] at hrow
  rcases afterChain_slot (preallocSectors_pos s) (preallocSectors_lt s) h.place.2 hrun hrow with
    hkept | hentry
  · exact .inl fun i _ => by rw [slotByte, slotByte, hkept, hs1 _ hpfat]
  have hfirstLba : s1.ram.vol.dataLba ≤ clusToLba s1.ram.vol a.firstClus := by
    rw [hvol, hfirst]
    exact hv.dataLba_le hdata
  have htable : fatTable s.ram.vol t'.card = fatTable s.ram.vol s1.card := by
    refine fatTable_congr hv fun lba hlba => ?_
    rw [← hvol] at hlba
    exact afterChain_below hfirstLba (preallocSectors_pos s) (preallocSectors_lt s)
      (hvol ▸ h.place.1) h.place.2 hrun hlba
  refine .inr ⟨?_, htable ▸ hchain⟩
  rw [← hfirst]
  refine hentry.first ?_
  have := hv.small
  have := hdata.2
  rw [hfirst]
  omega

/-- A call leaves the card as it is, or creates a file. -/
theorem openLog_creating {r : Except Stop Unit} (hv : Geometry s.ram.vol)
    (hroot : RootOk s.ram.vol s.card) (hl : RootChain s.ram.vol s.card l)
    (hahead : NeedsClus s → FreeAhead s)
    (hrun : (fat32OpenLog fuel).run (fwStep env) s = (r, s')) : s'.card = s.card ∨
      ∃ name p t', Creating env fuel s l name p t' ∧ s'.card = t'.card := by
  rcases openLog_parts hv.secPerClus hrun with
    hcard | ⟨name, sc, t, r', t', hunnamed, hlba, hvol, hcard, hcreate, hcard', -⟩
  · exact .inl hcard
  · exact .inr ⟨name, sc.slot, t', ⟨hv, hroot, hl, hahead ⟨name, sc, hunnamed, hlba⟩,
      hunnamed.mem hlba hl, hunnamed.free hlba, t, r', hvol, hcard, hcreate⟩, hcard'⟩

/-! A log file in use. -/

theorem NewLog.slot_free (h : NewLog env fuel s s0 l) : IsFree s.card (logSlot s0) := by
  obtain ⟨n, p, hnew⟩ := h.made
  rw [hnew.slot_eq]
  exact hnew.free

/-- The free clusters of the card with the new file were free before. -/
theorem NewLog.free_before (h : NewLog env fuel s s0 l) {lba : ℕ}
    (hfree : InFree s.ram.vol s0.card lba) : InFree s.ram.vol s.card lba :=
  hfree.mono fun _ => h.placed.chain.zero h.not_zero

/-- Outside the FAT a log file in use has changed its slot and what was free. -/
theorem LogFile.outside (h : NewLog env fuel s s0 l) (hfile : LogFile s0 lg t) {lba : ℕ}
    (hfat : ¬ InFat s.ram.vol lba) (hnot : ¬ InFree s.ram.vol s.card lba)
    (hne : lba ≠ s0.ram.logfile.dirLba) : t.card lba = s.card lba := by
  have hv := h.geometry
  have hplaced := h.placed
  have hout : lba < s0.ram.logfile.curLba ∨ s0.ram.logfile.endLba ≤ lba := by
    rw [hplaced.cursor, hplaced.limit]
    by_contra hin
    rw [not_or, not_lt, not_le] at hin
    obtain ⟨j, hj, hinj⟩ := mem_clus_run hv (h.data h.want).1 hplaced.data hin.1 hin.2
    exact hnot (inFree_of_clus hv (hplaced.data j hj) (h.ahead j hj).2 hinj)
  have hkept := hfile.rest lba hne hout
  rw [hplaced.vol] at hkept
  rw [hkept fun hfree => hnot (h.free_before hfree)]
  exact hplaced.rest lba hfat hne hout

theorem LogFile.slots (h : NewLog env fuel s s0 l) (hfile : LogFile s0 lg t) :
    ∀ q ∈ slotsOf s.ram.vol l, q ≠ logSlot s0 → ∀ i, i < 32 →
      slotByte t.card q i = slotByte s.card q i := by
  intro q hq hne i hi
  have hplaced := h.placed
  obtain ⟨-, k, -, -, -, -, hoff'⟩ := h.chain.place h.geometry h.root hplaced.mem
  obtain ⟨-, j, -, -, -, -, hoff⟩ := h.chain.place h.geometry h.root hq
  have hoff0 : s0.ram.logfile.dirOffset = 32 * k := hoff'
  by_cases hlba : q.1 = s0.ram.logfile.dirLba
  · have hoffs : q.2 ≠ s0.ram.logfile.dirOffset := fun he => hne (Prod.ext hlba he)
    rw [← hplaced.slots q hq hne i hi, slotByte, slotByte, hlba]
    exact hfile.dir _ (by unfold deFileSize; omega)
  · obtain ⟨hfat, hfree⟩ := h.chain.slot_used h.geometry h.root hq
    rw [slotByte, slotByte, hfile.outside h hfat hfree hlba]

theorem LogFile.keeps (h : NewLog env fuel s s0 l) (hfile : LogFile s0 lg t) :
    KeepsFiles s.ram.vol l s.card t.card := by
  have hv := h.geometry
  have hplaced := h.placed
  have htable := hfile.table hplaced.empty
  rw [hplaced.vol] at htable
  refine keepsFiles_of_rest hv h.root h.chain (fun q hq hlive => ?_) (fun c hc hused => ?_)
    fun lba hfat hslot hnot => hfile.outside h hfat hnot (hslot _ hplaced.mem).symm
  · refine hfile.slots h q hq ?_
    rintro rfl
    exact hlive h.slot_free
  · rw [← hc.fatTable hv, htable, hplaced.chain.rest c, hc.fatTable hv]
    intro hmem
    obtain ⟨j, hj, rfl⟩ := List.mem_range'.mp hmem
    rw [Nat.one_mul] at hused
    exact hused (h.ahead j hj).2

/-! The trim. -/

theorem trim_slots {r : Except Stop Unit} (hv : Geometry s.ram.vol) (hroot : RootOk s.ram.vol s.card)
    (hl : RootChain s.ram.vol s.card l) (hw : NoWrap s.ram.vol)
    (hrun : fat32TrimFree.run (fwStep env) s = (r, s')) :
    ∀ q ∈ slotsOf s.ram.vol l, ∀ i, slotByte s'.card q i = slotByte s.card q i := by
  intro q hq i
  rw [slotByte, slotByte, trim_frame hv.trim hw hrun (hl.slot_used hv hroot hq).2]

theorem trim_keeps {r : Except Stop Unit} (hv : Geometry s.ram.vol) (hroot : RootOk s.ram.vol s.card)
    (hl : RootChain s.ram.vol s.card l) (hw : NoWrap s.ram.vol)
    (hrun : fat32TrimFree.run (fwStep env) s = (r, s')) : KeepsFiles s.ram.vol l s.card s'.card := by
  have hsame : ∀ lba, ¬ InFree s.ram.vol s.card lba → s'.card lba = s.card lba :=
    fun lba hlba => trim_frame hv.trim hw hrun hlba
  have htable : fatTable s.ram.vol s'.card = fatTable s.ram.vol s.card :=
    fatTable_congr hv fun lba hlba => hsame lba fun hfree => absurd hfree.data (by omega)
  refine keepsFiles_of_rest hv hroot hl (fun q hq _ i _ => trim_slots hv hroot hl hw hrun q hq i)
    (fun c hc _ => ?_) fun lba _ _ hnot => hsame lba hnot
  rw [← hc.fatTable hv, htable, hc.fatTable hv]

/-! The volume. -/

theorem volOf_congr (h : ∀ lba, lba < (volOf disk).fatLba → card lba = disk lba)
    (hboot : (volOf disk).partLba < (volOf disk).fatLba) : volOf card = volOf disk := by
  have hpart : partLbaOf card = partLbaOf disk := by
    rw [partLbaOf, partLbaOf, h 0 (by omega)]
  rw [volOf, volOf, hpart, h (partLbaOf disk) hboot]

end Barelog
