import Barelog.Proofs.DataClus

/-! `scan_root_dir` on a root directory whose cluster chain ends: with a card that answers it
returns, and what it returns is read off the list of the slots of the chain. -/

namespace Barelog

open Prog Links

/-- `l` is the cluster chain of the root directory, with an end-of-chain marker. -/
structure RootChain (v : Vol) (card : ℕ → Sector) (l : List ℕ) : Prop where
  head : l.head? = some v.rootClus
  link : ∀ c ∈ l, IsLink c
  linked : Linked (fatEntry v card) l
  ends : 0x0FFFFFF8 ≤ fatEntry v card (l.getLastD 0)

def slotsOf (v : Vol) (l : List ℕ) : List Slot := l.flatMap (clusSlots v)

/-- The slots before the first that starts with 0x00. -/
def liveSlots (card : ℕ → Sector) (l : List Slot) : List Slot :=
  l.takeWhile fun p => slotByte card p 0 ≠ 0x00

/-- What a scan of the slots tells: the first file of the name before the end marker, or the
first slot that is deleted or the end marker, with 0 for none. -/
structure FlatScan (card : ℕ → Sector) (name : Name) (slots : List Slot) (b : Bool) (sc : Scan) :
    Prop where
  found_iff : b = true ↔ ∃ p ∈ liveSlots card slots, IsFile card name p
  found : b = true →
    (liveSlots card slots).find? (IsFile card name ·) = some (sc.foundLba, sc.foundOff)
  none_iff : b = false → (sc.emptyLba = 0 ↔ ∀ p ∈ slots, ¬ IsFree card p)
  empty : b = false → sc.emptyLba ≠ 0 →
    slots.find? (IsFree card ·) = some (sc.emptyLba, sc.emptyOff)

variable {env : Env} {s : Machine} {v : Vol} {disk : ℕ → Sector} {name : Name} {sc : Scan}
  {l : List ℕ} {slots : List Slot} {p : Slot} {fuel n : ℕ} {b : Bool}

/-! The scan of a list of slots. -/

theorem liveSlots_cons (h : slotByte disk p 0 ≠ 0x00) :
    liveSlots disk (p :: slots) = p :: liveSlots disk slots :=
  List.takeWhile_cons_of_pos (decide_eq_true h)

theorem liveSlots_end (h : slotByte disk p 0 = 0x00) : liveSlots disk (p :: slots) = [] :=
  List.takeWhile_cons_of_neg (by simp [h])

theorem find_free (h : IsFree disk p) : (p :: slots).find? (IsFree disk ·) = some p :=
  List.find?_cons_of_pos (by simpa using h)

theorem find_free_skip (h : ¬ IsFree disk p) :
    (p :: slots).find? (IsFree disk ·) = slots.find? (IsFree disk ·) :=
  List.find?_cons_of_neg (by simpa using h)

theorem empty_eq (sc : Scan) (q : Slot) :
    ((sc.empty q.1 q.2).emptyLba, (sc.empty q.1 q.2).emptyOff) =
      if sc.gotEmpty then (sc.emptyLba, sc.emptyOff) else q := by
  rw [Scan.empty]
  split_ifs <;> rfl

theorem scanSlots_some (sc : Scan)
    (h : (liveSlots disk slots).find? (IsFile disk name ·) = some p) :
    ∃ sc', scanSlots disk name slots sc = (.found, sc') ∧ (sc'.foundLba, sc'.foundOff) = p ∧
      (sc'.emptyLba, sc'.emptyOff) = if sc.gotEmpty then (sc.emptyLba, sc.emptyOff)
        else ((slots.takeWhile (¬ IsFile disk name ·)).find? (IsFree disk ·)).getD
          (sc.emptyLba, sc.emptyOff) := by
  induction slots generalizing sc with
  | nil => cases h
  | cons q rest ih =>
    rw [scanSlots]
    by_cases hend : slotByte disk q 0 = 0x00
    · rw [liveSlots_end hend] at h
      cases h
    rw [liveSlots_cons hend, List.find?_cons] at h
    rw [if_neg hend]
    by_cases hfile : IsFile disk name q
    · simp only [hfile, decide_true, Option.some.injEq] at h
      rw [if_neg fun hdel => hfile.1 (.inr hdel), if_pos hfile,
        List.takeWhile_cons_of_neg (by simpa using hfile)]
      exact ⟨_, rfl, h, (ite_self _).symm⟩
    · simp only [hfile, decide_false] at h
      rw [if_neg hfile, List.takeWhile_cons_of_pos (by simpa using hfile)]
      by_cases hdel : slotByte disk q 0 = 0xE5
      · rw [if_pos hdel, find_free (.inr hdel), Option.getD_some, ← empty_eq sc q]
        exact ih { sc.empty q.1 q.2 with gotEmpty := true } h
      · rw [if_neg hdel, find_free_skip (not_or.mpr ⟨hend, hdel⟩)]
        exact ih _ h

theorem scanSlots_none (sc : Scan)
    (h : (liveSlots disk slots).find? (IsFile disk name ·) = none) :
    ∃ vd sc', scanSlots disk name slots sc = (vd, sc') ∧ vd ≠ .found ∧
      (sc'.emptyLba, sc'.emptyOff) = if sc.gotEmpty then (sc.emptyLba, sc.emptyOff)
        else (slots.find? (IsFree disk ·)).getD (sc.emptyLba, sc.emptyOff) := by
  induction slots generalizing sc with
  | nil => exact ⟨.next, sc, rfl, by decide, (ite_self _).symm⟩
  | cons q rest ih =>
    rw [scanSlots]
    by_cases hend : slotByte disk q 0 = 0x00
    · have hfree : IsFree disk q := .inl hend
      rw [if_pos hend, find_free hfree, Option.getD_some]
      exact ⟨.done, _, rfl, by decide, empty_eq sc q⟩
    rw [liveSlots_cons hend, List.find?_cons] at h
    rw [if_neg hend]
    have hfile : ¬ IsFile disk name q := by
      intro hfile
      simp [hfile] at h
    simp only [hfile, decide_false] at h
    by_cases hdel : slotByte disk q 0 = 0xE5
    · have hfree : IsFree disk q := .inr hdel
      rw [if_pos hdel, find_free hfree, Option.getD_some, ← empty_eq sc q]
      exact ih { sc.empty q.1 q.2 with gotEmpty := true } h
    · have hfree : ¬ IsFree disk q := not_or.mpr ⟨hend, hdel⟩
      rw [if_neg hdel, if_neg hfile, find_free_skip hfree]
      exact ih _ h

/-- A slot that is the first free one, or (0, 0), tells whether there is a free one. -/
theorem firstFree_zero_iff {p : Slot} (hmbr : ∀ q ∈ slots, q.1 ≠ 0)
    (hp : p = (slots.find? (IsFree disk ·)).getD (0, 0)) : p.1 = 0 ↔ ∀ q ∈ slots, ¬ IsFree disk q := by
  rcases hfree : slots.find? (IsFree disk ·) with _ | q
  · rw [hp, hfree]
    refine iff_of_true rfl ?_
    simpa using List.find?_eq_none.mp hfree
  · have hmem := List.mem_of_find?_eq_some hfree
    rw [hp, hfree]
    refine iff_of_false (hmbr q hmem) fun hnone => hnone q hmem ?_
    simpa using List.find?_some hfree

/-- The scan of the slots from the start of a search. -/
theorem scanSlots_flat (disk : ℕ → Sector) (name : Name)
    (hmbr : ∀ p ∈ slots, p.1 ≠ 0) : ∃ vd sc,
    scanSlots disk name slots .start = (vd, sc) ∧
      FlatScan disk name slots (decide (vd = .found)) sc := by
  rcases hfind : (liveSlots disk slots).find? (IsFile disk name ·) with _ | p
  · obtain ⟨vd, sc, hscan, hvd, hempty⟩ := scanSlots_none .start hfind
    have hb : decide (vd = .found) = false := decide_eq_false hvd
    have hno : ∀ p ∈ liveSlots disk slots, ¬ IsFile disk name p := by
      simpa using List.find?_eq_none.mp hfind
    change _ = (slots.find? (IsFree disk ·)).getD (0, 0) at hempty
    refine ⟨vd, sc, hscan, ?_, ?_, ?_, ?_⟩
    · rw [hb]
      exact ⟨nofun, fun ⟨p, hp, hfile⟩ => absurd hfile (hno p hp)⟩
    · rw [hb]
      exact nofun
    · exact fun _ => firstFree_zero_iff hmbr hempty
    · intro _ hne
      rcases hfree : slots.find? (IsFree disk ·) with _ | q
      · rw [hfree] at hempty
        exact absurd (congrArg Prod.fst hempty) hne
      · rw [hfree] at hempty
        rw [hempty]
        rfl
  · obtain ⟨sc, hscan, hp, -⟩ := scanSlots_some .start hfind
    refine ⟨.found, sc, hscan, ?_, ?_, nofun, nofun⟩
    · refine iff_of_true rfl ⟨p, List.mem_of_find?_eq_some hfind, ?_⟩
      simpa using List.find?_some hfind
    · intro _
      rw [hp]
      exact hfind

/-! The scan of the chain. -/

theorem RootChain.follow (h : RootChain v disk l) (n : ℕ) :
    chainClus v disk n v.rootClus = l.take n := by
  obtain ⟨c, rest, rfl⟩ : ∃ c rest, l = c :: rest := by
    cases l with
    | nil => cases h.head
    | cons c rest => exact ⟨c, rest, rfl⟩
  obtain rfl : c = v.rootClus := Option.some.inj h.head
  refine h.linked.follow h.link ?_ n
  have hends := h.ends
  rw [List.getLastD_cons, ← List.getLast_eq_getLastD (List.cons_ne_nil _ rest)] at hends
  exact fun hlink => absurd hlink.2 (not_lt.mpr hends)

theorem RootChain.used (h : RootChain v disk l) {c : ℕ} (hc : c ∈ l) : fatEntry v disk c ≠ 0 := by
  by_cases hlast : c ∈ l.dropLast
  · have hnext := (h.link _ (h.linked.next_mem hlast)).1
    omega
  · have hne : l ≠ [] := List.ne_nil_of_mem hc
    rw [← List.dropLast_append_getLast hne, List.mem_append, List.mem_singleton] at hc
    have hends := h.ends
    rw [List.getLastD_eq_getLast?, List.getLast?_eq_some_getLast hne, Option.getD_some,
      ← hc.resolve_left hlast] at hends
    omega

theorem RootChain.isRootClus (h : RootChain v disk l) {c : ℕ} : IsRootClus v disk c ↔ c ∈ l := by
  constructor
  · rintro ⟨n, hc⟩
    rw [h.follow] at hc
    exact List.mem_of_mem_take hc
  · intro hc
    exact ⟨l.length, by rwa [h.follow, List.take_length]⟩

theorem RootChain.isRootSlot (h : RootChain v disk l) : IsRootSlot v disk p ↔ p ∈ slotsOf v l := by
  constructor
  · rintro ⟨n, hp⟩
    rw [dirSlots, h.follow] at hp
    obtain ⟨c, hc, hpc⟩ := List.mem_flatMap.mp hp
    exact List.mem_flatMap.mpr ⟨c, List.mem_of_mem_take hc, hpc⟩
  · intro hp
    refine ⟨l.length, ?_⟩
    rwa [dirSlots, h.follow, List.take_length]

theorem RootChain.place (h : RootChain v disk l) (hv : Geometry v) (hroot : RootOk v disk)
    (hp : p ∈ slotsOf v l) : ∃ c k, c ∈ l ∧ IsDataClus v c ∧ InClus v c p.1 ∧ k < 16 ∧ p.2 = 32 * k := by
  obtain ⟨c, k, hc, hlo, hhi, hk, hoff⟩ := (h.isRootSlot.mpr hp).place hv hroot
  exact ⟨c, k, h.isRootClus.mp hc, hroot c hc, ⟨hlo, hhi⟩, hk, hoff⟩

/-- A root directory in data clusters has no slot in sector 0. -/
theorem RootChain.ne_zero (h : RootChain v disk l) (hv : Geometry v) (hroot : RootOk v disk) :
    ∀ p ∈ slotsOf v l, p.1 ≠ 0 := by
  intro p hp
  obtain ⟨c, -, hc, hlo, -⟩ := (h.isRootSlot.mpr hp).place hv hroot
  have hdata := hv.dataLba_le (hroot c hc)
  have hfat := hv.fat
  have hentries := hv.entries
  have hfats : 1 * v.fatSz32 ≤ v.numFats * v.fatSz32 := Nat.mul_le_mul_right _ hv.numFats
  omega

/-- The scan of the list of all slots is a scan of the directory. -/
theorem ScansTo.whole {vd : Verdict} (hl : RootChain v disk l)
    (h : scanSlots disk name (slotsOf v l) .start = (vd, sc)) :
    ScansTo v disk name (decide (vd = .found)) sc := by
  refine ⟨l.length, vd, ?_, rfl, fun _ m hm => ?_⟩
  · rw [dirSlots, hl.follow, List.take_length]
    exact h
  · rw [hl.follow, hl.follow, List.take_length, List.take_of_length_le hm]

/-- Every scan tells what the scan of the list of all slots does. -/
theorem ScansTo.flat (h : ScansTo v disk name b sc) (hl : RootChain v disk l)
    (hmbr : ∀ p ∈ slotsOf v l, p.1 ≠ 0) : FlatScan disk name (slotsOf v l) b sc := by
  obtain ⟨vd, sc', hscan, hflat⟩ := scanSlots_flat disk name hmbr
  obtain ⟨rfl, rfl⟩ := h.unique (.whole hl hscan)
  exact hflat

/-- A scan that finds the name has seen the slots before the entry only. -/
theorem ScansTo.empty_iff (h : ScansTo v disk name true sc) (hl : RootChain v disk l)
    (hmbr : ∀ p ∈ slotsOf v l, p.1 ≠ 0) : sc.emptyLba = 0 ↔
      ∀ p ∈ (slotsOf v l).takeWhile (¬ IsFile disk name ·), ¬ IsFree disk p := by
  have hfind := (h.flat hl hmbr).found rfl
  obtain ⟨sc', hscan, -, hempty⟩ := scanSlots_some .start hfind
  obtain ⟨-, rfl⟩ := h.unique (.whole hl hscan)
  exact firstFree_zero_iff (fun q hq => hmbr q ((List.takeWhile_sublist _).subset hq)) hempty

/-- With a card that answers and fuel for the chain, the scan ends. -/
theorem scanRootDir_returns (hgood : env.Good) (hl : RootChain s.ram.vol s.card l)
    (hfuel : l.length < fuel) (name : Name) : ∃ b sc s',
      (scanRootDir fuel name).run (fwStep env) s = (.ok (b, sc), s') ∧ Scratch s s' ∧
        ScansTo s.ram.vol s.card name b sc := by
  rcases hrun : (scanRootDir fuel name).run (fwStep env) s with ⟨r, s'⟩
  obtain ⟨hscratch, ⟨b, sc, rfl, hto⟩ | rfl | ⟨-, hlen⟩⟩ := scanRootDir_cases hrun
  · exact ⟨b, sc, s', rfl, hscratch, hto⟩
  · rw [scanRootDir, getRam_bind] at hrun
    exact absurd ⟨_, rfl⟩ (scanChain_noCode hgood _ _ _ _ _ _ _ hrun)
  · rw [hl.follow, List.length_take] at hlen
    omega

/-- `scan_root_dir` agrees with the flat reading of the directory. No slot is in sector 0, which is
what the code uses for none: a directory in data clusters has none there. -/
theorem scan_root_dir_flat (env : Env) (hgood : env.Good) (s : Machine) (l : List ℕ)
    (hl : RootChain s.ram.vol s.card l) (hmbr : ∀ p ∈ slotsOf s.ram.vol l, p.1 ≠ 0)
    (fuel : ℕ) (hfuel : l.length < fuel) (name : Name) : ∃ b sc s',
      (scanRootDir fuel name).run (fwStep env) s = (.ok (b, sc), s') ∧
        FlatScan s.card name (slotsOf s.ram.vol l) b sc := by
  obtain ⟨b, sc, s', hrun, -, hto⟩ := scanRootDir_returns hgood hl hfuel name
  exact ⟨b, sc, s', hrun, hto.flat hl hmbr⟩

theorem freshDisk_chain : RootChain freshDisk.ram.vol freshDisk.card [2] where
  head := rfl
  link := by decide
  linked := linked_singleton _ _
  ends := by decide

/-- A fresh disk with a file that has the first name and is empty. -/
def listedDisk : Machine :=
  { freshDisk with card := Function.update freshDisk.card 11 fun i =>
      if (i : ℕ) < 11 then makeLogname freshDisk.ram.cfg.logNum i else 0 }

theorem listedDisk_root : RootOk listedDisk.ram.vol listedDisk.card :=
  rootOk_single (by decide) (by decide)

theorem listedDisk_chain : RootChain listedDisk.ram.vol listedDisk.card [2] where
  head := rfl
  link := by decide
  linked := linked_singleton _ _
  ends := by decide

theorem listedDisk_live :
    liveSlots listedDisk.card (slotsOf listedDisk.ram.vol [2]) = [(11, 0)] := by
  obtain ⟨rest, hslots⟩ : ∃ rest, slotsOf listedDisk.ram.vol [2] = (11, 0) :: (11, 32) :: rest :=
    ⟨_, rfl⟩
  rw [hslots, liveSlots_cons (by decide +kernel), liveSlots_end (by decide +kernel)]

/-- A root directory of two clusters of one sector: a deleted slot, 15 files, and another one. -/
def deepDisk : Machine :=
  .mounted tinyVol fun lba i =>
    if lba = 10 then if i < 8 ∨ 12 ≤ i ∧ i < 16 then 0xFF else if i = 8 then 3 else 0
    else if lba = 11 then if i = 0 then 0xE5 else if (i : ℕ) % 32 = 0 then 0x41 else 0
    else if lba = 12 ∧ (i : ℕ) < 11 then makeLogname 1 i else 0

theorem deepDisk_chain : RootChain deepDisk.ram.vol deepDisk.card [2, 3] := by
  refine ⟨rfl, by decide, ?_, by decide +kernel⟩
  exact List.isChain_pair.mpr (by decide +kernel)

/-- The scan goes on to the second cluster. -/
theorem scan_root_dir_flat_deep : ∃ sc s',
    (scanRootDir 3 (makeLogname 1)).run (fwStep Env.ideal) deepDisk = (.ok (true, sc), s') ∧
      FlatScan deepDisk.card (makeLogname 1) (slotsOf deepDisk.ram.vol [2, 3]) true sc ∧
      sc.found = (12, 0) := by
  have hroot : RootOk deepDisk.ram.vol deepDisk.card := fun c hc =>
    (show ∀ c ∈ [2, 3], IsDataClus deepDisk.ram.vol c by decide) c
      (deepDisk_chain.isRootClus.mp hc)
  obtain ⟨b, sc, s', hrun, hflat⟩ := scan_root_dir_flat Env.ideal (fun _ => rfl) deepDisk [2, 3]
    deepDisk_chain (deepDisk_chain.ne_zero tinyVol_geometry hroot) 3 (by decide) (makeLogname 1)
  have hfind : (liveSlots deepDisk.card (slotsOf deepDisk.ram.vol [2, 3])).find?
      (IsFile deepDisk.card (makeLogname 1) ·) = some (12, 0) := by
    decide +kernel
  obtain rfl : b = true := hflat.found_iff.mpr
    ⟨_, List.mem_of_find?_eq_some hfind, by simpa using List.find?_some hfind⟩
  exact ⟨sc, s', hrun, hflat, Option.some.inj ((hflat.found rfl).symm.trans hfind)⟩

end Barelog
