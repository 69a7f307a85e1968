import Barelog.Proofs.DataClus

/-! The sectors of a new log file. The chain takes the lowest free clusters; the erase and the
zero-fill go over the sectors from the first of them on. The two agree when the clusters that
follow it are free as well. -/

namespace Barelog

open Prog

variable {env : Env} {s s' s0 : Machine} {v : Vol} {disk card : ℕ → Sector} {fat0 fat : ℕ → ℕ}
  {l : List ℕ} {a c lba n j : ℕ}

def CardEvent.Clears : CardEvent → ℕ → Prop
  | .write _ _, _ => False
  | .zero x, lba => lba = x
  | .erase a b, lba => a ≤ lba ∧ lba ≤ b

/-- A cluster that was free in `s` and is in the chain of the log file in `s'`. -/
def IsOwnClus (s s' : Machine) (c : ℕ) : Prop :=
  IsDataClus s.ram.vol c ∧ fatEntry s.ram.vol s.card c = 0 ∧
    ∃ n, c ∈ chainClus s.ram.vol s'.card n s'.ram.logfile.firstClus

/-- From `s` to `s'`, only sectors of such clusters have been cleared, and the only data sector
written is the one with the directory slot. -/
def ClearsOwn (s s' : Machine) : Prop := ∃ evs, s'.events = s.events ++ evs ∧
  (∀ e ∈ evs, ∀ lba, e.Clears lba → ∃ c, IsOwnClus s s' c ∧ InClus s.ram.vol c lba) ∧
  ∀ lba d, .write lba d ∈ evs → s.ram.vol.dataLba ≤ lba → lba = s'.ram.logfile.dirLba

def firstFree (s : Machine) : ℕ := (freeClus s.ram.vol s.card).headD 0

/-- The clusters from the lowest free one on are free, as many as the new file takes. -/
def FreeAhead (s : Machine) : Prop := ∀ j, j < clusWanted s →
  IsDataClus s.ram.vol (firstFree s + j) ∧ fatEntry s.ram.vol s.card (firstFree s + j) = 0

/-! Clusters and their sectors. -/

theorem clusToLba_add (hv : Geometry v) (h2 : 2 ≤ a) (hle : a + j ≤ clusCount v + 2) :
    clusToLba v (a + j) = clusToLba v a + j * v.secPerClus := by
  rw [hv.clusToLba_eq h2 (by omega), hv.clusToLba_eq (by omega) hle,
    show a + j - 2 = a - 2 + j by omega, Nat.add_mul, Nat.add_assoc]

theorem InClus.unique (hv : Geometry v) {c' : ℕ} (hc : IsDataClus v c) (hc' : IsDataClus v c')
    (h : InClus v c lba) (h' : InClus v c' lba) : c = c' := by
  wlog hle : c ≤ c' generalizing c c'
  · exact (this hc' hc h' h (by omega)).symm
  obtain ⟨j, rfl⟩ := Nat.exists_eq_add_of_le hle
  have hadd := clusToLba_add hv hc.1 (show c + j ≤ clusCount v + 2 by have := hc'.2; omega)
  by_contra hne
  have hmul : 1 * v.secPerClus ≤ j * v.secPerClus := Nat.mul_le_mul_right _ (by omega)
  have h1 := h.2
  have h2 := h'.1
  omega

theorem lt_clusNeeded (hspc : 1 ≤ v.secPerClus) : j < clusNeeded v n ↔ j * v.secPerClus < n := by
  rw [clusNeeded, Nat.lt_iff_add_one_le, Nat.le_div_iff_mul_le hspc, Nat.add_mul]
  omega

/-- The `n` sectors from the first sector of `a` on are those of the clusters from `a` on. -/
theorem mem_clus_run (hv : Geometry v) (h2 : 2 ≤ a)
    (hdata : ∀ j, j < clusNeeded v n → IsDataClus v (a + j)) (hlo : clusToLba v a ≤ lba)
    (hhi : lba < clusToLba v a + n) : ∃ j, j < clusNeeded v n ∧ InClus v (a + j) lba := by
  have hspc := hv.secPerClus
  set j := (lba - clusToLba v a) / v.secPerClus with hj
  have hdiv := Nat.div_add_mod (lba - clusToLba v a) v.secPerClus
  have hmod := Nat.mod_lt (lba - clusToLba v a) hspc
  rw [← hj, Nat.mul_comm] at hdiv
  have hlt : j < clusNeeded v n := (lt_clusNeeded hspc).mpr (by omega)
  have hadd := clusToLba_add hv h2 (show a + j ≤ clusCount v + 2 by have := (hdata j hlt).2; omega)
  exact ⟨j, hlt, by unfold InClus; omega⟩

theorem clus_run_end (hv : Geometry v) (h2 : 2 ≤ a) (hn : 0 < n)
    (hdata : ∀ j, j < clusNeeded v n → IsDataClus v (a + j)) :
    clusToLba v a + n ≤ v.partLba + v.totSec := by
  have hspc := hv.secPerClus
  obtain ⟨j, hj⟩ : ∃ j, clusNeeded v n = j + 1 :=
    ⟨clusNeeded v n - 1, by have := clusNeeded_pos hspc hn; omega⟩
  have hend := hv.clus_end (hdata j (by omega))
  rw [clusToLba_add hv h2 (by have := (hdata j (by omega)).2; omega)] at hend
  have hnot : ¬ (j + 1) * v.secPerClus < n := fun h => by
    have := (lt_clusNeeded (v := v) hspc).mpr h
    omega
  rw [Nat.add_mul] at hnot
  omega

/-! Free clusters in a row. -/

theorem freeBelow_row (h2 : 2 ≤ a) (hnone : freeBelow fat a = [])
    (hfree : ∀ j, j < n → fat (a + j) = 0) : freeBelow fat (a + n) = List.range' a n := by
  induction n with
  | zero => exact hnone
  | succ n ih =>
    rw [← Nat.add_assoc, freeBelow_succ (by omega), ih fun j hj => hfree j (by omega),
      if_pos (hfree n (by omega)), List.range'_concat, Nat.one_mul]

theorem freeBelow_head (h : freeBelow fat c = a :: l) : freeBelow fat a = [] := by
  have ha := mem_freeBelow.mp (h ▸ List.mem_cons_self : a ∈ freeBelow fat c)
  have hpre : freeBelow fat a <+: freeBelow fat c := freeBelow_initial ha.1.le
  rcases hl : freeBelow fat a with _ | ⟨x, rest⟩
  · rfl
  · rw [hl, h, List.cons_prefix_cons] at hpre
    have := (mem_freeBelow.mp (hl ▸ List.mem_cons_self : x ∈ freeBelow fat a)).1
    omega

theorem freeClus_cons (hroom : clusWanted s ≤ (freeClus s.ram.vol s.card).length)
    (hwant : 0 < clusWanted s) : ∃ rest, freeClus s.ram.vol s.card = firstFree s :: rest := by
  rw [firstFree]
  cases hl : freeClus s.ram.vol s.card with
  | nil => rw [hl, List.length_nil] at hroom; omega
  | cons x rest => exact ⟨rest, rfl⟩

theorem taken_head (hroom : clusWanted s ≤ (freeClus s.ram.vol s.card).length)
    (hwant : 0 < clusWanted s) : (taken s (clusWanted s)).headD 0 = firstFree s := by
  obtain ⟨rest, hl⟩ := freeClus_cons hroom hwant
  obtain ⟨k, hk⟩ : ∃ k, clusWanted s = k + 1 := ⟨clusWanted s - 1, by omega⟩
  rw [taken, hl, hk]
  rfl

/-- Free clusters in a row are what the allocation takes. -/
theorem FreeAhead.taken (hv : Geometry s.ram.vol) (h : FreeAhead s)
    (hroom : clusWanted s ≤ (freeClus s.ram.vol s.card).length) (hwant : 0 < clusWanted s) :
    taken s (clusWanted s) = List.range' (firstFree s) (clusWanted s) := by
  obtain ⟨rest, hl⟩ := freeClus_cons hroom hwant
  have h2 : 2 ≤ firstFree s := (h 0 hwant).1.1
  have hrow := freeBelow_row (n := clusWanted s) h2 (freeBelow_head hl)
    fun j hj => ((h j hj).1.fatTable hv).trans (h j hj).2
  have hend : firstFree s + clusWanted s ≤ clusCount s.ram.vol + 2 := by
    have := (h (clusWanted s - 1) (by omega)).1.2
    omega
  have hbelow : freeBelow (fatTable s.ram.vol s.card) (firstFree s + clusWanted s) <+:
      freeClus s.ram.vol s.card := freeBelow_initial hend
  have hpre := List.prefix_iff_eq_take.mp hbelow
  rw [hrow, List.length_range'] at hpre
  exact hpre.symm

/-- The chain of a new file, read from the card. -/
theorem NewChain.chainClus (hv : Geometry v) (h : NewChain fat0 (fatTable v card) l)
    (hl : ∀ x ∈ l, IsDataClus v x) (hne : l ≠ []) (n : ℕ) :
    chainClus v card n (l.headD 0) = l.take n := by
  obtain ⟨x, rest, rfl⟩ := List.exists_cons_of_ne_nil hne
  have hentry : ∀ y ∈ x :: rest, fatEntry v card y = fatTable v card y :=
    fun y hy => ((hl y hy).fatTable hv).symm
  have hlinked : Links.Linked (fatEntry v card) (x :: rest) :=
    h.linked.congr fun y hy => hentry y (List.mem_of_mem_dropLast hy)
  have hlink : ∀ y ∈ x :: rest, IsLink y := fun y hy => ⟨(hl y hy).1, by
    have := hv.small
    have := (hl y hy).2
    omega⟩
  refine hlinked.follow hlink ?_ n
  have hends := h.ends
  rw [List.getLastD_cons, ← List.getLast_eq_getLastD (List.cons_ne_nil x rest)] at hends
  rw [hentry _ (List.getLast_mem _), hends]
  decide

/-! What a creation clears. -/

theorem clearEvents_clears {x : ℕ} (hlba : lba < 2 ^ 32) (hn : 0 < n) (hn32 : n < 2 ^ 32) :
    (∃ e ∈ clearEvents lba n, e.Clears x) ↔ lba + n ≤ 2 ^ 32 ∧ lba ≤ x ∧ x < lba + n := by
  have hend : u32 (lba + n) = if lba + n < 2 ^ 32 then lba + n else lba + n - 2 ^ 32 := by
    unfold u32
    split <;> omega
  have hlast : u32 (u32 (lba + n) + 2 ^ 32 - 1) =
      if lba + n ≤ 2 ^ 32 then lba + n - 1 else lba + n - 2 ^ 32 - 1 := by
    unfold u32
    split <;> omega
  constructor
  · rintro ⟨e, he, hx⟩
    rcases List.mem_cons.mp he with rfl | he
    · rw [CardEvent.Clears, hlast] at hx
      split at hx <;> omega
    · obtain ⟨y, hy, rfl⟩ := List.mem_map.mp he
      rw [List.mem_range'_1, hend] at hy
      rw [CardEvent.Clears] at hx
      split at hy <;> omega
  · rintro ⟨hle, hlo, hhi⟩
    refine ⟨_, List.mem_cons_self, hlo, ?_⟩
    rw [hlast, if_pos hle]
    omega

section Created

variable {name : Name} {p : Slot} {m : ℕ}

theorem Created.isOwnClus (hv : Geometry s.ram.vol)
    (hroom : clusWanted s ≤ (freeClus s.ram.vol s.card).length)
    (h : Created (s.withLogNum m) (preallocSize s) (preallocSectors s) (taken s (clusWanted s)) name
      p s') (hc : c ∈ taken s (clusWanted s)) : IsOwnClus s s'.counted c := by
  have hdata : ∀ x ∈ taken s (clusWanted s), IsDataClus s.ram.vol x := fun x hx => (mem_taken hx).1
  obtain ⟨hcdata, hcfree⟩ := mem_taken hc
  have hchain : chainClus s.ram.vol s'.counted.card (clusWanted s)
      ((taken s (clusWanted s)).headD 0) = (taken s (clusWanted s)).take (clusWanted s) :=
    h.chain.chainClus hv hdata (List.ne_nil_of_mem hc) _
  have hfirst : s'.counted.ram.logfile.firstClus = (taken s (clusWanted s)).headD 0 := by
    rw [Machine.counted, h.ram]
    rfl
  refine ⟨hcdata, hcdata.fatTable hv ▸ hcfree, clusWanted s, ?_⟩
  rwa [hfirst, hchain, List.take_of_length_le (taken_length hroom).le]

/-- Only own clusters are cleared exactly when every sector of the cleared range is in one, or no
sector is cleared because the range wraps. -/
theorem Created.clearsOwn (hv : Geometry s.ram.vol)
    (hroom : clusWanted s ≤ (freeClus s.ram.vol s.card).length)
    (h : Created (s.withLogNum m) (preallocSize s) (preallocSectors s) (taken s (clusWanted s)) name
      p s') : ClearsOwn s s'.counted ↔
    (clusToLba s.ram.vol (firstFree s) + preallocSectors s ≤ 2 ^ 32 →
      ∀ x, clusToLba s.ram.vol (firstFree s) ≤ x →
        x < clusToLba s.ram.vol (firstFree s) + preallocSectors s →
        ∃ c, IsOwnClus s s'.counted c ∧ InClus s.ram.vol c x) := by
  have hwant : 0 < clusWanted s := clusNeeded_pos hv.secPerClus (preallocSectors_pos s)
  have hclears := fun x => clearEvents_clears (x := x) (clusToLba_lt s.ram.vol (firstFree s))
    (preallocSectors_pos s) (preallocSectors_lt s)
  obtain ⟨evs, hevents, hfat⟩ := h.events
  rw [taken_head hroom hwant] at hevents
  have hevents' : s'.counted.events = s.events ++ (evs ++
      clearEvents (clusToLba s.ram.vol (firstFree s)) (preallocSectors s) ++
        [.write p.1 (s'.card p.1)]) := by
    rw [← List.append_assoc, ← List.append_assoc]
    exact hevents
  have hwrites : ∀ e ∈ evs, ∃ lba d, e = .write lba d ∧ lba < s.ram.vol.dataLba := by
    intro e he
    obtain ⟨c, hc, f, d, hf, rfl⟩ := hfat e he
    exact ⟨_, d, rfl, (hv.fatCopySector_eq (hv.lt_entries hc) hf).2⟩
  constructor
  · rintro ⟨evs', hevs', hown, _⟩ hle x hlo hhi
    obtain rfl := List.append_cancel_left (hevs'.symm.trans hevents')
    obtain ⟨e, he, hx⟩ := (hclears x).mpr ⟨hle, hlo, hhi⟩
    exact hown e (by simp [he]) x hx
  · intro hown
    refine ⟨_, hevents', fun e he x hx => ?_, fun lba d he hlba => ?_⟩
    · rcases List.mem_append.mp he with he | he
      · rcases List.mem_append.mp he with he | he
        · obtain ⟨_, _, rfl, _⟩ := hwrites e he
          exact hx.elim
        · obtain ⟨hle, hlo, hhi⟩ := (hclears x).mp ⟨e, he, hx⟩
          exact hown hle x hlo hhi
      · obtain rfl := List.mem_singleton.mp he
        exact hx.elim
    · have hdir : s'.counted.ram.logfile.dirLba = p.1 := by
        rw [Machine.counted, h.ram]
        rfl
      rcases List.mem_append.mp he with he | he
      · rcases List.mem_append.mp he with he | he
        · obtain ⟨x, _, hx, hlt⟩ := hwrites _ he
          cases hx
          omega
        · rcases List.mem_cons.mp he with hbad | he
          · cases hbad
          · obtain ⟨_, _, hbad⟩ := List.mem_map.mp he
            cases hbad
      · cases List.mem_singleton.mp he
        exact hdir.symm

theorem Created.clearsOwn_iff (hv : Geometry s.ram.vol)
    (hroom : clusWanted s ≤ (freeClus s.ram.vol s.card).length)
    (h : Created (s.withLogNum m) (preallocSize s) (preallocSectors s) (taken s (clusWanted s)) name
      p s') : ClearsOwn s s'.counted ↔
    FreeAhead s ∨ 2 ^ 32 < clusToLba s.ram.vol (firstFree s) + preallocSectors s := by
  have hspc := hv.secPerClus
  have hwant : 0 < clusWanted s := clusNeeded_pos hspc (preallocSectors_pos s)
  rw [h.clearsOwn hv hroom]
  constructor
  · intro hown
    by_contra hnot
    rw [not_or, not_lt] at hnot
    obtain ⟨hahead, hle⟩ := hnot
    have hfirst : IsDataClus s.ram.vol (firstFree s) :=
      (mem_taken (taken_head hroom hwant ▸ headD_mem (taken_ne_nil hroom hwant))).1
    refine hahead fun j hj => ?_
    -- the first sector of cluster `firstFree s + j`
    have hj' := (lt_clusNeeded hspc).mp hj
    obtain ⟨c, ⟨hc, hfree, _⟩, hlo, hhi⟩ := hown hle
      (clusToLba s.ram.vol (firstFree s) + j * s.ram.vol.secPerClus) (by omega) (by omega)
    have hcount := hfirst.2
    have hcount' := hc.2
    rw [hv.clusToLba_eq hfirst.1 (by omega), hv.clusToLba_eq hc.1 (by omega)] at hlo hhi
    have hcj : c = firstFree s + j := by
      have hmul : (c - 2) * s.ram.vol.secPerClus ≤ (firstFree s - 2 + j) * s.ram.vol.secPerClus := by
        rw [Nat.add_mul]
        omega
      have hmul' : (firstFree s - 2 + j) * s.ram.vol.secPerClus <
          (c - 2 + 1) * s.ram.vol.secPerClus := by
        rw [Nat.add_mul, Nat.add_mul]
        omega
      have h1 := Nat.le_of_mul_le_mul_right hmul hspc
      have h2 := Nat.lt_of_mul_lt_mul_right hmul'
      have := hc.1
      have := hfirst.1
      omega
    exact hcj ▸ ⟨hc, hfree⟩
  · rintro (hahead | hwrap) hle x hlo hhi
    · obtain ⟨j, hj, hin⟩ := mem_clus_run hv (hahead 0 hwant).1.1 (fun j hj => (hahead j hj).1) hlo hhi
      refine ⟨_, h.isOwnClus hv hroom ?_, hin⟩
      rw [hahead.taken hv hroom hwant, List.mem_range'_1]
      exact ⟨Nat.le_add_right _ _, Nat.add_lt_add_left hj _⟩
    · omega

end Created

/-! Calls that succeed. -/

/-- Whether the search ends with a name and a slot for it. -/
def searchesSlot (env : Env) (fuel : ℕ) (s : Machine) : Bool :=
  match ((searchName fuel s).run (fwStep env) s).1 with
  | .ok (.create _ lba _) => lba != 0
  | _ => false

theorem searchesSlot_run {fuel : ℕ} (h : searchesSlot env fuel s = true) :
    ∃ (name : Name) (p : Slot) (s1 : Machine), p.1 ≠ 0 ∧
      (searchName fuel s).run (fwStep env) s = (.ok (.create name p.1 p.2), s1) := by
  unfold searchesSlot at h
  rcases hr : (searchName fuel s).run (fwStep env) s with ⟨r, s1⟩
  rw [hr] at h
  cases r with
  | error e => cases h
  | ok q =>
    cases q with
    | resumed => cases h
    | create name lba off => exact ⟨name, (lba, off), s1, by simpa using h, rfl⟩

/-- With free data clusters enough and no SD error, the creation succeeds. -/
theorem openLog_succeeds (fuel : ℕ) (hgood : env.Good) (hv : Geometry s.ram.vol)
    (hroot : RootOk s.ram.vol s.card) (hroom : clusWanted s ≤ (freeClus s.ram.vol s.card).length)
    (hfuel : clusCount s.ram.vol < fuel) (hsearch : searchesSlot env fuel s = true) :
    NeedsClus s ∧ ∃ s', (fat32OpenLog fuel).run (fwStep env) s = (.ok (), s') := by
  obtain ⟨name, p, s1, hp, hrun⟩ := searchesSlot_run hsearch
  obtain ⟨sc, hunnamed, rfl, _⟩ := searchName_create hrun
  obtain ⟨hvol, hcard⟩ := (searchName_cases hrun).vol
  refine ⟨⟨name, sc, hunnamed, hp⟩, ?_⟩
  rcases hcreate : (createFile fuel s name sc.slot).run (fwStep env) s1 with ⟨r, s2⟩
  rcases createFile_cases hv hroot hroom hunnamed hp hvol hcard hcreate with
    ⟨rfl, _⟩ | ⟨e, rfl, hend | ⟨_, hle⟩, _⟩
  · exact ⟨_, openLog_created hv.secPerClus hrun hp hcreate⟩
  · exact absurd hend (createLog_noCode hgood _ _ _ _ _ _ _ s1 e s2 hcreate)
  · omega

/-- A call of `fat32_open_log` that creates a file clears only sectors of its clusters exactly
when these are consecutive, or when the LBA of the end wraps and no sector is cleared. -/
theorem create_clears_own_iff (env : Env) (fuel : ℕ) (s s' : Machine) (hv : Geometry s.ram.vol)
    (hroot : RootOk s.ram.vol s.card) (hneeds : NeedsClus s)
    (hroom : clusWanted s ≤ (freeClus s.ram.vol s.card).length)
    (hrun : (fat32OpenLog fuel).run (fwStep env) s = (.ok (), s')) :
    ClearsOwn s s' ↔
      FreeAhead s ∨ 2 ^ 32 < clusToLba s.ram.vol (firstFree s) + preallocSectors s := by
  obtain ⟨_, _, _, _, _, _, _, _, _, h, rfl⟩ := openLog_new hv hroot hneeds hroom hrun
  exact h.clearsOwn_iff hv hroom

/-- On a fresh disk the free clusters are consecutive. -/
theorem create_clears_own_fresh :
    ∃ s', (fat32OpenLog 64).run (fwStep Env.ideal) freshDisk = (.ok (), s') ∧
      ClearsOwn freshDisk s' := by
  have hroom : clusWanted freshDisk ≤ (freeClus freshDisk.ram.vol freshDisk.card).length := by
    decide +kernel
  obtain ⟨hneeds, s', hrun⟩ := openLog_succeeds 64 (fun _ => rfl : Env.ideal.Good)
    smallVol_geometry freshDisk_root hroom (by decide) (by decide +kernel)
  refine ⟨s', hrun, (create_clears_own_iff Env.ideal 64 freshDisk s' smallVol_geometry
    freshDisk_root hneeds hroom hrun).mpr (.inl ?_)⟩
  unfold FreeAhead
  decide +kernel

/-- A disk on which cluster 4 is in use. -/
def gapDisk : Machine :=
  { freshDisk with card := blankCard fun i => if i < 12 ∨ 16 ≤ i ∧ i < 20 then 0xFF else 0 }

theorem gapDisk_root : RootOk gapDisk.ram.vol gapDisk.card :=
  rootOk_single (by decide) (by decide)

/-- The file takes clusters 3 and 5 to 19; the sectors of clusters 3 to 18 are cleared. -/
theorem create_clears_gap : fatEntry smallVol gapDisk.card 4 = eoc ∧
    clusWanted gapDisk ≤ (freeClus smallVol gapDisk.card).length ∧
    ∃ s', (fat32OpenLog 64).run (fwStep Env.ideal) gapDisk = (.ok (), s') ∧
      ¬ ClearsOwn gapDisk s' := by
  have hroom : clusWanted gapDisk ≤ (freeClus gapDisk.ram.vol gapDisk.card).length := by
    decide +kernel
  obtain ⟨hneeds, s', hrun⟩ := openLog_succeeds 64 (fun _ => rfl : Env.ideal.Good)
    smallVol_geometry gapDisk_root hroom (by decide) (by decide +kernel)
  refine ⟨by decide, hroom, s', hrun, fun hown => ?_⟩
  obtain ⟨_, _, _, _, _, _, _, _, _, h, rfl⟩ :=
    openLog_new smallVol_geometry gapDisk_root hneeds hroom hrun
  rcases (h.clearsOwn_iff smallVol_geometry hroom).mp hown with hahead | hwrap
  · have hone := (hahead 1 (by decide)).2
    exact absurd hone (by decide +kernel)
  · exact absurd hwrap (by decide +kernel)

end Barelog
