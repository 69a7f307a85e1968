import Barelog.Lib.Runs
import Barelog.Proofs.FatEntry
import Barelog.Spec.FatMount

/-! `fat32_trim_free` goes over the entries of the FAT in order and erases the maximal runs of
those that are 0, on every volume. Where the LBA of a cluster wraps, the range of a run may have
sectors of the FAT that is being read. Once such a range has been erased nothing is said of the
rest of the scan. -/

namespace Barelog

open Prog

def clusLba (v : Vol) (c : ℕ) : ℕ := v.dataLba + (c - 2) * v.secPerClus

/-- Entry `e` is 0 and the scan takes it for that of a cluster, whose number it has in 32 bits. -/
def EntryFree (v : Vol) (card : ℕ → Sector) (e : ℕ) : Prop :=
  2 ≤ e % 2 ^ 32 ∧ fatEntry v card e = 0

instance (v : Vol) (card : ℕ → Sector) : DecidablePred (EntryFree v card) :=
  fun _ => inferInstanceAs (Decidable (_ ∧ _))

/-- The range that `sd_erase` is given for the entries from `p.1` to `p.2 - 1`. -/
def eraseRange (v : Vol) (p : ℕ × ℕ) : ℕ × ℕ := (u32 (clusLba v p.1), u32 (clusLba v p.2 - 1))

def eraseEvent (v : Vol) (p : ℕ × ℕ) : CardEvent := .erase (eraseRange v p).1 (eraseRange v p).2

structure ScanGeometry (v : Vol) : Prop where
  secPerClus : 1 ≤ v.secPerClus
  wrap : 0 < v.fatSz32 → v.fatLba + v.fatSz32 < 2 ^ 32

theorem Geometry.scan {v : Vol} (hv : Geometry v) : ScanGeometry v := by
  have hfats : 1 * v.fatSz32 ≤ v.numFats * v.fatSz32 := Nat.mul_le_mul_right _ hv.numFats
  have hfat := hv.fat
  have hdata := hv.data
  have hwrap := hv.wrap
  exact ⟨hv.secPerClus, fun _ => by omega⟩

/-- The runs that have ended before entry `e`, and where the open one began. -/
def trimScan (s0 : Machine) (e : ℕ) : List (ℕ × ℕ) × Option ℕ :=
  Runs.scan (EntryFree s0.ram.vol s0.card) e

def trimRuns (s0 : Machine) : List (ℕ × ℕ) :=
  Runs.runs (EntryFree s0.ram.vol s0.card) (128 * s0.ram.vol.fatSz32)

def scanReq (s0 : Machine) (k : ℕ) : ℕ := s0.reqs + k + (trimScan s0 (128 * k)).1.length

def runOf (v : Vol) (e : ℕ) (o : Option ℕ) : Run := o.map fun a => eraseRange v (a, e)

/-- The scan has read `k` sectors and reached entry `e`, and the first FAT is as it was. -/
structure TrimScanned (s0 : Machine) (k e : ℕ) (s : Machine) : Prop where
  fat : ∀ i, i < s0.ram.vol.fatSz32 →
    s.card (s0.ram.vol.fatLba + i) = s0.card (s0.ram.vol.fatLba + i)
  ram : s.ram = s0.ram
  events : s.events = s0.events ++ (trimScan s0 e).1.map (eraseEvent s0.ram.vol)
  reqs : s.reqs = s0.reqs + k + (trimScan s0 e).1.length

/-- A run has been erased whose range has a sector of the first FAT. -/
def HitsFat (s0 s : Machine) : Prop :=
  ∃ evs, s.events = s0.events ++ evs ∧ ∃ p ∈ trimRuns s0, eraseEvent s0.ram.vol p ∈ evs ∧
    ∃ i < s0.ram.vol.fatSz32, (eraseEvent s0.ram.vol p).Touches (s0.ram.vol.fatLba + i)

variable {env : Env} {s0 s s' : Machine} {v : Vol} {c e k : ℕ} {o : Option ℕ}

theorem clusLba_succ (v : Vol) (hc : 2 ≤ c) : clusLba v (c + 1) = clusLba v c + v.secPerClus := by
  rw [clusLba, clusLba, show c + 1 - 2 = c - 2 + 1 by omega, Nat.add_mul, Nat.one_mul,
    Nat.add_assoc]

theorem clusLba_mono (v : Vol) {a b : ℕ} (h : a ≤ b) : clusLba v a ≤ clusLba v b :=
  Nat.add_le_add_left (Nat.mul_le_mul_right _ (by omega)) _

/-! The code's arithmetic in 32 bits. -/

theorem clusToLba_u32 (v : Vol) (he : 2 ≤ e % 2 ^ 32) : clusToLba v (u32 e) = u32 (clusLba v e) := by
  have hsub : (e % 2 ^ 32 + 2 ^ 32 - 2) % 2 ^ 32 = e % 2 ^ 32 - 2 := by omega
  have hmod : e % 2 ^ 32 - 2 ≡ e - 2 [MOD 2 ^ 32] := by
    unfold Nat.ModEq
    omega
  have hlba : v.dataLba + (e % 2 ^ 32 - 2) * v.secPerClus ≡ clusLba v e [MOD 2 ^ 32] :=
    (hmod.mul_right _).add_left _
  simp only [clusToLba, u32] at hlba ⊢
  rw [hsub, Nat.add_mod_mod]
  exact hlba

theorem lastLba_u32 (hspc : 1 ≤ v.secPerClus) (he : 2 ≤ e % 2 ^ 32) :
    u32 (clusToLba v (u32 e) + v.secPerClus + 2 ^ 32 - 1) = u32 (clusLba v (e + 1) - 1) := by
  have h2 : 2 ≤ e := he.trans (Nat.mod_le _ _)
  rw [clusToLba_u32 v he, clusLba_succ v h2]
  unfold u32
  omega

/-- A free entry after another: its cluster begins where the range of the run ends. -/
theorem joins_u32 (hspc : 1 ≤ v.secPerClus) (h3 : 3 ≤ e) (he : 2 ≤ e % 2 ^ 32) :
    clusToLba v (u32 e) = u32 (u32 (clusLba v e - 1) + 1) := by
  have hone : 1 ≤ (e - 2) * v.secPerClus := Nat.mul_pos (by omega) hspc
  have hpos : 1 ≤ clusLba v e := hone.trans (Nat.le_add_left _ _)
  rw [clusToLba_u32 v he]
  unfold u32
  omega

theorem u32_succ (e : ℕ) : u32 (u32 e + 1) = u32 (e + 1) := Nat.mod_add_mod _ _ _

theorem ScanGeometry.fatSector_eq (hv : ScanGeometry v) (he : e < 128 * v.fatSz32) :
    fatSector v e = v.fatLba + e / 128 := by
  have := hv.wrap (by omega)
  exact Nat.mod_eq_of_lt (by omega)

/-! Erased runs. -/

theorem HitsFat.run (h : HitsFat s0 s) {α : Type} (p : Fw α) (env : Env) :
    HitsFat s0 (p.run (fwStep env) s).2 := by
  obtain ⟨evs, hevs, q, hq, hmem, htouch⟩ := h
  obtain ⟨evs', hevs', -⟩ := run_untouched env p s
  exact ⟨evs ++ evs', by rw [hevs', hevs, List.append_assoc], q, hq, List.mem_append_left _ hmem,
    htouch⟩

theorem HitsFat.bind {α β : Type} {p : Fw α} (h : HitsFat s0 (p.run (fwStep env) s).2)
    (f : α → Fw β) : HitsFat s0 ((p >>= f).run (fwStep env) s).2 := by
  rw [run_bind]
  rcases hp : p.run (fwStep env) s with ⟨_ | a, s1⟩
  · rw [hp] at h
    exact h
  · rw [hp] at h
    exact h.run (f a) env

/-- `closeRun` erases the open run: nothing else changes but the sectors of its range. -/
structure RunClosed (v : Vol) (e : ℕ) (o : Option ℕ) (s s' : Machine) : Prop where
  card : ∀ lba, (∀ p ∈ Runs.closing o e, ¬ (eraseEvent v p).Touches lba) → s'.card lba = s.card lba
  ram : s'.ram = s.ram
  ring : s'.ring = s.ring
  events : s'.events = s.events ++ (Runs.closing o e).map (eraseEvent v)
  reqs : s'.reqs = s.reqs + (Runs.closing o e).length

theorem closeRun_run (env : Env) (v : Vol) (e : ℕ) (o : Option ℕ) (s : Machine) :
    ∃ s', (closeRun (runOf v e o)).run (fwStep env) s = (.ok (), s') ∧ RunClosed v e o s s' := by
  cases o with
  | none => exact ⟨s, rfl, fun _ _ => rfl, rfl, rfl, (List.append_nil _).symm, rfl⟩
  | some a =>
    refine ⟨_, rfl, fun lba hlba => if_neg ?_, rfl, rfl, rfl, rfl⟩
    exact hlba (a, e) (List.mem_singleton_self _)

theorem TrimScanned.start (s0 : Machine) : TrimScanned s0 0 0 s0 where
  fat _ _ := rfl
  ram := rfl
  events := (List.append_nil _).symm
  reqs := rfl

theorem TrimScanned.grow (hs : TrimScanned s0 k e s) (hfree : EntryFree s0.ram.vol s0.card e) :
    TrimScanned s0 k (e + 1) s := by
  have hscan : (trimScan s0 (e + 1)).1 = (trimScan s0 e).1 := by
    rw [trimScan, Runs.scan_free hfree, trimScan]
  exact ⟨hs.fat, hs.ram, hscan ▸ hs.events, hscan ▸ hs.reqs⟩

/-- An entry in use ends the open run, which is erased. -/
theorem TrimScanned.close (hs : TrimScanned s0 k e s) (he : e < 128 * s0.ram.vol.fatSz32)
    (hused : ¬ EntryFree s0.ram.vol s0.card e)
    (hclose : RunClosed s0.ram.vol e (trimScan s0 e).2 s s') :
    TrimScanned s0 k (e + 1) s' ∨ HitsFat s0 s' := by
  have hscan : (trimScan s0 (e + 1)).1 = (trimScan s0 e).1 ++ Runs.closing (trimScan s0 e).2 e :=
    congrArg Prod.fst (Runs.scan_used hused)
  have hevents : s'.events = s0.events ++ (trimScan s0 (e + 1)).1.map (eraseEvent s0.ram.vol) := by
    rw [hclose.events, hs.events, hscan, List.map_append, List.append_assoc]
  by_cases hhit : ∃ p ∈ Runs.closing (trimScan s0 e).2 e, ∃ i < s0.ram.vol.fatSz32,
      (eraseEvent s0.ram.vol p).Touches (s0.ram.vol.fatLba + i)
  · obtain ⟨p, hp, htouch⟩ := hhit
    have hended : p ∈ (trimScan s0 (e + 1)).1 := hscan ▸ List.mem_append_right _ hp
    exact .inr ⟨_, hevents, p, Runs.mem_runs_iff.mpr (Runs.isRun_of_ended hended he),
      List.mem_map_of_mem hended, htouch⟩
  · refine .inl ⟨fun i hi => ?_, hclose.ram.trans hs.ram, hevents, ?_⟩
    · rw [hclose.card _ fun p hp htouch => hhit ⟨p, hp, i, hi, htouch⟩]
      exact hs.fat i hi
    · rw [hclose.reqs, hs.reqs, hscan, List.length_append, Nat.add_assoc]

/-! The scan. -/

def EntryBuffered (s0 s : Machine) (off e : ℕ) : Prop :=
  entryValue (s.ring off) (s.ring (off + 1)) (s.ring (off + 2)) (s.ring (off + 3)) =
    fatEntry s0.ram.vol s0.card e

theorem entryBuffered (hv : ScanGeometry s0.ram.vol) {j : ℕ} (hj : j < 128)
    (hk : k < s0.ram.vol.fatSz32)
    (hring : ∀ i, i < 512 → s.ring i = (s0.card (s0.ram.vol.fatLba + k)).byte i) :
    EntryBuffered s0 s (j * 4) (128 * k + j) := by
  have hdiv : (128 * k + j) / 128 = k := by omega
  have hmod : fatOffset (128 * k + j) = j * 4 := by
    unfold fatOffset
    omega
  rw [EntryBuffered, fatEntry, hv.fatSector_eq (by omega), hdiv, hmod, hring _ (by omega),
    hring _ (by omega), hring _ (by omega), hring _ (by omega)]

/-- A free entry: a run begins, or the open one is extended. -/
theorem trimEntries_free (env : Env) (hspc : 1 ≤ s0.ram.vol.secPerClus) {n off : ℕ}
    (hfree : EntryFree s0.ram.vol s0.card e) (hbuf : EntryBuffered s0 s off e) :
    (trimEntries s0.ram.vol (n + 1) off (u32 e) (runOf s0.ram.vol e (trimScan s0 e).2)).run
        (fwStep env) s =
      (trimEntries s0.ram.vol n (off + 4) (u32 (e + 1))
        (runOf s0.ram.vol (e + 1) (trimScan s0 (e + 1)).2)).run (fwStep env) s := by
  have hnext : (trimScan s0 (e + 1)).2 = some ((trimScan s0 e).2.getD e) := by
    rw [trimScan, Runs.scan_free hfree, trimScan]
  have hentry : entryValue (s.ring off) (s.ring (off + 1)) (s.ring (off + 2)) (s.ring (off + 3)) =
    fatEntry s0.ram.vol s0.card e := hbuf
  rw [hnext, trimEntries, if_neg (show ¬ u32 e < 2 from Nat.not_lt.mpr hfree.1)]
  simp only [run_bind, ringGet_run, hentry]
  rw [if_pos hfree.2, u32_succ, lastLba_u32 hspc hfree.1]
  cases ho : (trimScan s0 e).2 with
  | none =>
    rw [clusToLba_u32 _ hfree.1]
    rfl
  | some a =>
    -- the open run began at a cluster, so this entry is the third at least
    have hopen := Runs.opened_of_scan ho
    have h2 : 2 ≤ a := (hopen.all a le_rfl hopen.lt).1.trans (Nat.mod_le _ _)
    have hlt := hopen.lt
    simp only [runOf, eraseRange, Option.map_some]
    rw [if_pos (joins_u32 hspc (by omega) hfree.1)]
    rfl

/-- Clusters 0 and 1, and a cluster in use, end an open run. -/
theorem trimEntries_used (env : Env) {n off : ℕ} (hused : ¬ EntryFree s0.ram.vol s0.card e)
    (hbuf : EntryBuffered s0 s off e) :
    (trimEntries s0.ram.vol (n + 1) off (u32 e) (runOf s0.ram.vol e (trimScan s0 e).2)).run
        (fwStep env) s =
      (closeRun (runOf s0.ram.vol e (trimScan s0 e).2) >>= fun _ =>
        trimEntries s0.ram.vol n (off + 4) (u32 (e + 1))
          (runOf s0.ram.vol (e + 1) (trimScan s0 (e + 1)).2)).run (fwStep env) s := by
  have hnext : (trimScan s0 (e + 1)).2 = none := by
    rw [trimScan, Runs.scan_used hused]
  have hentry : entryValue (s.ring off) (s.ring (off + 1)) (s.ring (off + 2)) (s.ring (off + 3)) =
    fatEntry s0.ram.vol s0.card e := hbuf
  rw [hnext, trimEntries, u32_succ]
  by_cases hlow : u32 e < 2
  · rw [if_pos hlow]
    rfl
  · rw [if_neg hlow]
    simp only [run_bind, ringGet_run, hentry]
    rw [if_neg fun hzero => hused ⟨Nat.not_lt.mp hlow, hzero⟩, run_bind]
    rfl

/-- One sector of the FAT, from its entry `j` on. -/
theorem trimEntries_run (env : Env) (hv : ScanGeometry s0.ram.vol) {n j m : ℕ} (hjn : j + n = 128)
    (hk : k < s0.ram.vol.fatSz32) (hs : TrimScanned s0 m (128 * k + j) s)
    (hring : ∀ i, i < 512 → s.ring i = (s0.card (s0.ram.vol.fatLba + k)).byte i) :
    HitsFat s0 ((trimEntries s0.ram.vol n (j * 4) (u32 (128 * k + j))
        (runOf s0.ram.vol (128 * k + j) (trimScan s0 (128 * k + j)).2)).run (fwStep env) s).2 ∨
      ∃ s', (trimEntries s0.ram.vol n (j * 4) (u32 (128 * k + j))
          (runOf s0.ram.vol (128 * k + j) (trimScan s0 (128 * k + j)).2)).run (fwStep env) s =
            (.ok (u32 (128 * (k + 1)),
              runOf s0.ram.vol (128 * (k + 1)) (trimScan s0 (128 * (k + 1))).2), s') ∧
        TrimScanned s0 m (128 * (k + 1)) s' := by
  induction n generalizing j s with
  | zero =>
    obtain rfl : j = 128 := by omega
    exact .inr ⟨s, rfl, hs⟩
  | succ n ih =>
    have hbuf := entryBuffered hv (j := j) (by omega) hk hring
    have hoff : j * 4 + 4 = (j + 1) * 4 := by omega
    by_cases hfree : EntryFree s0.ram.vol s0.card (128 * k + j)
    · rw [trimEntries_free env hv.secPerClus hfree hbuf, hoff]
      exact ih (j := j + 1) (by omega) (hs.grow hfree) hring
    · obtain ⟨s1, hrun, hclose⟩ := closeRun_run env s0.ram.vol (128 * k + j)
        (trimScan s0 (128 * k + j)).2 s
      rw [trimEntries_used env hfree hbuf, run_bind_ok hrun, hoff]
      rcases hs.close (by omega) hfree hclose with hs1 | hhit
      · exact ih (j := j + 1) (by omega) hs1 fun i hi => by rw [hclose.ring]; exact hring i hi
      · exact .inl (hhit.run _ env)

/-- The sectors of the FAT from sector `k` on: all of them are scanned unless a read fails. -/
theorem trimSectors_run (env : Env) (hv : ScanGeometry s0.ram.vol) {n : ℕ}
    (hkn : k + n = s0.ram.vol.fatSz32) (hs : TrimScanned s0 k (128 * k) s) {r : Except Stop Run}
    (hrun : (trimSectors s0.ram.vol n (s0.ram.vol.fatLba + k) (u32 (128 * k))
      (runOf s0.ram.vol (128 * k) (trimScan s0 (128 * k)).2)).run (fwStep env) s = (r, s')) :
    HitsFat s0 s' ∨
      (r = .ok (runOf s0.ram.vol (128 * s0.ram.vol.fatSz32)
          (trimScan s0 (128 * s0.ram.vol.fatSz32)).2) ∧
        TrimScanned s0 s0.ram.vol.fatSz32 (128 * s0.ram.vol.fatSz32) s' ∧
        ∀ j, k ≤ j → j < s0.ram.vol.fatSz32 → env.answer (scanReq s0 j) = .good) ∨
      ∃ j, k ≤ j ∧ j < s0.ram.vol.fatSz32 ∧
        r = .error (.code (env.answer (scanReq s0 j)).readCode) ∧
        (∃ s1, TrimScanned s0 j (128 * j) s1 ∧ s' = s1.asked) ∧
        (∀ i, k ≤ i → i < j → env.answer (scanReq s0 i) = .good) ∧
        env.answer (scanReq s0 j) ≠ .good := by
  induction n generalizing k s with
  | zero =>
    obtain rfl : k = s0.ram.vol.fatSz32 := by omega
    obtain ⟨rfl, rfl⟩ := Prod.mk.inj hrun
    exact .inr (.inl ⟨rfl, hs, fun j hle hlt => by omega⟩)
  | succ n ih =>
    have hreq : s.reqs = scanReq s0 k := hs.reqs
    by_cases hanswer : env.answer s.reqs = .good
    · set s1 : Machine := { s.asked with
        ring := load s.ring 0 (s.card (s0.ram.vol.fatLba + k)) 512 } with hs1
      have hread : (sdReadSector (s0.ram.vol.fatLba + k) 0).run (fwStep env) s = (.ok (), s1) := by
        rw [sdReadSector_run, if_pos hanswer]
      have hring : ∀ i, i < 512 → s1.ring i = (s0.card (s0.ram.vol.fatLba + k)).byte i := by
        intro i hi
        rw [← hs.fat k (by omega)]
        exact load_inside hi
      have hs1' : TrimScanned s0 (k + 1) (128 * k + 0) s1 := by
        refine ⟨hs.fat, hs.ram, hs.events, ?_⟩
        change s.reqs + 1 = s0.reqs + (k + 1) + (trimScan s0 (128 * k)).1.length
        rw [hs.reqs]
        omega
      have hgood : env.answer (scanReq s0 k) = .good := hreq ▸ hanswer
      rw [trimSectors, run_bind_ok hread] at hrun
      rcases trimEntries_run env hv (n := 128) (by omega) (by omega) hs1' hring with
        hhit | ⟨s2, hrun2, hs2⟩
      · rw [Nat.zero_mul, Nat.add_zero] at hhit
        have hend := hhit.bind (fun x : ℕ × Run =>
          trimSectors s0.ram.vol n (s0.ram.vol.fatLba + k + 1) x.1 x.2)
        rw [hrun] at hend
        exact .inl hend
      · rw [Nat.zero_mul, Nat.add_zero] at hrun2
        rw [run_bind_ok hrun2] at hrun
        rcases ih (by omega) hs2 hrun with hhit | ⟨hr, hs', hall⟩ |
          ⟨j, hkj, hj, hr, hs', hall, hbad⟩
        · exact .inl hhit
        · refine .inr (.inl ⟨hr, hs', fun j hle hlt => ?_⟩)
          rcases hle.eq_or_lt with rfl | hlt'
          · exact hgood
          · exact hall j hlt' hlt
        · refine .inr (.inr ⟨j, by omega, hj, hr, hs', fun i hle hlt => ?_, hbad⟩)
          rcases hle.eq_or_lt with rfl | hlt'
          · exact hgood
          · exact hall i hlt' hlt
    · have hread : (sdReadSector (s0.ram.vol.fatLba + k) 0).run (fwStep env) s =
          (.error (.code (env.answer s.reqs).readCode), s.asked) := by
        rw [sdReadSector_run, if_neg hanswer]
      rw [trimSectors, run_bind_error hread] at hrun
      obtain ⟨rfl, rfl⟩ := Prod.mk.inj hrun
      rw [hreq] at hanswer ⊢
      exact .inr (.inr ⟨k, le_rfl, by omega, rfl, ⟨s, hs, rfl⟩, fun i hle hlt => by omega, hanswer⟩)

theorem ScanGeometry.size_eq (hv : ScanGeometry v) :
    u32 (v.fatLba + v.fatSz32) - v.fatLba = v.fatSz32 := by
  rcases Nat.eq_zero_or_pos v.fatSz32 with hzero | hpos
  · rw [hzero, Nat.add_zero, u32]
    have := Nat.mod_le v.fatLba (2 ^ 32)
    omega
  · rw [u32, Nat.mod_eq_of_lt (hv.wrap hpos)]
    omega

/-- `fat32_trim_free` erases the maximal runs of free entries: all of them, or those that end in
the sectors before the first that could not be read. -/
theorem fat32TrimFree_scan (env : Env) (hv : ScanGeometry s0.ram.vol) {r : Except Stop Unit}
    (hrun : fat32TrimFree.run (fwStep env) s0 = (r, s)) :
    HitsFat s0 s ∨ s.ram = s0.ram ∧
      ((r = .ok () ∧ s.events = s0.events ++ (trimRuns s0).map (eraseEvent s0.ram.vol) ∧
          ∀ j < s0.ram.vol.fatSz32, env.answer (scanReq s0 j) = .good) ∨
        ∃ k < s0.ram.vol.fatSz32, r = .error (.code (env.answer (scanReq s0 k)).readCode) ∧
          s.events = s0.events ++ (trimScan s0 (128 * k)).1.map (eraseEvent s0.ram.vol) ∧
          (∀ j < k, env.answer (scanReq s0 j) = .good) ∧ env.answer (scanReq s0 k) ≠ .good) := by
  rw [fat32TrimFree, getRam_bind] at hrun
  dsimp only at hrun
  rw [hv.size_eq] at hrun
  rcases hscan : (trimSectors s0.ram.vol s0.ram.vol.fatSz32 s0.ram.vol.fatLba 0 none).run
    (fwStep env) s0 with ⟨r1, s1⟩
  rcases trimSectors_run env hv (n := s0.ram.vol.fatSz32) (k := 0) (by omega) (.start s0) hscan
    with hhit | ⟨rfl, hs1, hall⟩ | ⟨k, -, hk, rfl, ⟨s2, hs2, rfl⟩, hall, hbad⟩
  · have hend : HitsFat s0 ((trimSectors s0.ram.vol s0.ram.vol.fatSz32 s0.ram.vol.fatLba 0 none).run
      (fwStep env) s0).2 := by rw [hscan]; exact hhit
    have hlast := hend.bind fun run : Run => closeRun run
    rw [hrun] at hlast
    exact .inl hlast
  · obtain ⟨s2, hclose, hs2⟩ := closeRun_run env s0.ram.vol (128 * s0.ram.vol.fatSz32)
      (trimScan s0 (128 * s0.ram.vol.fatSz32)).2 s1
    rw [run_bind_ok hscan, hclose] at hrun
    obtain ⟨rfl, rfl⟩ := Prod.mk.inj hrun
    refine .inr ⟨hs2.ram.trans hs1.ram, .inl ⟨rfl, ?_, fun j => hall j (Nat.zero_le j)⟩⟩
    rw [hs2.events, hs1.events, List.append_assoc, ← List.map_append]
    rfl
  · rw [run_bind_error hscan] at hrun
    obtain ⟨rfl, rfl⟩ := Prod.mk.inj hrun
    exact .inr ⟨hs2.ram, .inr ⟨k, hk, rfl, hs2.events, fun j => hall j (Nat.zero_le j), hbad⟩⟩

end Barelog
