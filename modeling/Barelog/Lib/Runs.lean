import Mathlib.Data.List.Basic
import Mathlib.Tactic

/-! Maximal runs of places that satisfy a predicate, found in one pass: the scan keeps the runs
that have ended and the place where the open one began. -/

namespace Runs

variable {free : ℕ → Prop} {n a b c : ℕ} {p : ℕ × ℕ}

/-- The open run, if there is one, ends before `n`. -/
def closing (o : Option ℕ) (n : ℕ) : List (ℕ × ℕ) := (o.map fun a => (a, n)).toList

/-- The places below `n`: the runs that have ended, and where the open one began. -/
def scan (free : ℕ → Prop) [DecidablePred free] : ℕ → List (ℕ × ℕ) × Option ℕ
  | 0 => ([], none)
  | n + 1 =>
    let r := scan free n
    if free n then (r.1, some (r.2.getD n)) else (r.1 ++ closing r.2 n, none)

def runs (free : ℕ → Prop) [DecidablePred free] (n : ℕ) : List (ℕ × ℕ) :=
  (scan free n).1 ++ closing (scan free n).2 n

/-- The places from `a` to `b - 1` satisfy the predicate, and the one before does not. -/
structure Opened (free : ℕ → Prop) (a b : ℕ) : Prop where
  lt : a < b
  all : ∀ c, a ≤ c → c < b → free c
  first : a = 0 ∨ ¬ free (a - 1)

/-- A maximal run of the places below `n`: those from `a` to `b - 1`. -/
structure IsRun (free : ℕ → Prop) (n a b : ℕ) : Prop extends Opened free a b where
  le : b ≤ n
  last : b = n ∨ ¬ free b

theorem mem_closing {o : Option ℕ} : p ∈ closing o n ↔ o = some p.1 ∧ p.2 = n := by
  obtain ⟨x, y⟩ := p
  cases o with
  | none => simp [closing]
  | some a => simp [closing, eq_comm]

/-- No place before the first is in a run with it. -/
theorem Opened.first_unique (h : Opened free a n) (h' : Opened free b n) : a = b := by
  rcases Nat.lt_trichotomy a b with hlt | heq | hlt
  · rcases h'.first with rfl | hnot
    · omega
    · exact absurd (h.all (b - 1) (by omega) (by have := h'.lt; omega)) hnot
  · exact heq
  · rcases h.first with rfl | hnot
    · omega
    · exact absurd (h'.all (a - 1) (by omega) (by have := h.lt; omega)) hnot

theorem Opened.grow (h : Opened free a n) (hn : free n) : Opened free a (n + 1) where
  lt := Nat.lt_succ_of_lt h.lt
  all c hac hc := by
    rcases Nat.lt_succ_iff_lt_or_eq.mp hc with hlt | rfl
    · exact h.all c hac hlt
    · exact hn
  first := h.first

theorem opened_one (hn : free n) (hprev : n = 0 ∨ ¬ free (n - 1)) : Opened free n (n + 1) where
  lt := Nat.lt_succ_self n
  all c hnc hc := by
    obtain rfl : c = n := Nat.le_antisymm (Nat.lt_succ_iff.mp hc) hnc
    exact hn
  first := hprev

variable [DecidablePred free]

theorem scan_free (h : free n) :
    scan free (n + 1) = ((scan free n).1, some ((scan free n).2.getD n)) := if_pos h

theorem scan_used (h : ¬ free n) :
    scan free (n + 1) = ((scan free n).1 ++ closing (scan free n).2 n, none) := if_neg h

theorem isSome_iff : ((scan free n).2).isSome ↔ 0 < n ∧ free (n - 1) := by
  cases n with
  | zero => simp [scan]
  | succ n =>
    by_cases hn : free n
    · simp [scan_free hn, hn]
    · simp [scan_used hn, hn]

theorem opened_of_scan (h : (scan free n).2 = some a) : Opened free a n := by
  induction n generalizing a with
  | zero => cases h
  | succ n ih =>
    by_cases hn : free n
    · rw [scan_free hn] at h
      obtain rfl := Option.some.inj h
      cases ho : (scan free n).2 with
      | none =>
        refine opened_one hn ?_
        have hnone : ((scan free n).2).isSome ↔ 0 < n ∧ free (n - 1) := isSome_iff
        rw [ho] at hnone
        by_contra hnot
        obtain ⟨h0, hfree⟩ := not_or.mp hnot
        exact absurd (hnone.mpr ⟨Nat.pos_of_ne_zero h0, not_not.mp hfree⟩) (by simp)
      | some a => exact (ih ho).grow hn
    · rw [scan_used hn] at h
      cases h

theorem scan_open_iff : (scan free n).2 = some a ↔ Opened free a n := by
  refine ⟨opened_of_scan, fun h => ?_⟩
  have hlt := h.lt
  have hsome : ((scan free n).2).isSome :=
    isSome_iff.mpr ⟨by omega, h.all _ (by omega) (by omega)⟩
  obtain ⟨b, hb⟩ := Option.isSome_iff_exists.mp hsome
  rw [hb, (opened_of_scan hb).first_unique h]

/-- The runs that have ended are those with a place after them that is not free. -/
theorem mem_ended_iff : p ∈ (scan free n).1 ↔ Opened free p.1 p.2 ∧ p.2 < n ∧ ¬ free p.2 := by
  induction n with
  | zero => simp [scan]
  | succ n ih =>
    by_cases hn : free n
    · rw [scan_free hn, ih]
      refine and_congr_right fun _ => ⟨fun h => ⟨Nat.lt_succ_of_lt h.1, h.2⟩, fun ⟨hlt, hnot⟩ => ?_⟩
      rcases Nat.lt_succ_iff_lt_or_eq.mp hlt with hlt | heq
      · exact ⟨hlt, hnot⟩
      · exact absurd (heq ▸ hn) hnot
    · rw [scan_used hn, List.mem_append, ih, mem_closing, scan_open_iff]
      constructor
      · rintro (⟨hopen, hlt, hnot⟩ | ⟨hopen, heq⟩)
        · exact ⟨hopen, Nat.lt_succ_of_lt hlt, hnot⟩
        · exact ⟨heq ▸ hopen, heq ▸ Nat.lt_succ_self n, heq ▸ hn⟩
      · rintro ⟨hopen, hlt, hnot⟩
        rcases Nat.lt_succ_iff_lt_or_eq.mp hlt with hlt | heq
        · exact .inl ⟨hopen, hlt, hnot⟩
        · exact .inr ⟨heq ▸ hopen, heq⟩

theorem mem_runs_iff : p ∈ runs free n ↔ IsRun free n p.1 p.2 := by
  rw [runs, List.mem_append, mem_ended_iff, mem_closing, scan_open_iff]
  constructor
  · rintro (⟨hopen, hlt, hnot⟩ | ⟨hopen, heq⟩)
    · exact ⟨hopen, hlt.le, .inr hnot⟩
    · exact ⟨heq ▸ hopen, heq.le, .inl heq⟩
  · rintro ⟨hopen, hle, hlast⟩
    rcases hle.lt_or_eq with hlt | heq
    · exact .inl ⟨hopen, hlt, hlast.resolve_left hlt.ne⟩
    · exact .inr ⟨heq ▸ hopen, heq⟩

theorem isRun_of_ended {m : ℕ} (hp : p ∈ (scan free n).1) (hnm : n ≤ m) : IsRun free m p.1 p.2 := by
  obtain ⟨hopen, hlt, hnot⟩ := mem_ended_iff.mp hp
  exact ⟨hopen, hlt.le.trans hnm, .inr hnot⟩

theorem exists_run (hc : c < n) (hfree : free c) : ∃ p ∈ runs free n, p.1 ≤ c ∧ c < p.2 := by
  have hcover : (∃ p ∈ (scan free n).1, p.1 ≤ c ∧ c < p.2) ∨
      ∃ a, (scan free n).2 = some a ∧ a ≤ c := by
    induction n with
    | zero => omega
    | succ n ih =>
      by_cases hn : free n
      · rw [scan_free hn]
        rcases Nat.lt_succ_iff_lt_or_eq.mp hc with hlt | rfl
        · refine (ih hlt).imp_right ?_
          rintro ⟨a, ha, hle⟩
          exact ⟨a, by rw [ha]; rfl, hle⟩
        · refine .inr ⟨_, rfl, ?_⟩
          cases ho : (scan free c).2 with
          | none => exact le_rfl
          | some a => exact (opened_of_scan ho).lt.le
      · have hlt : c < n := (Nat.lt_succ_iff.mp hc).lt_of_ne fun heq => hn (heq ▸ hfree)
        rw [scan_used hn]
        rcases ih hlt with ⟨p, hp, hin⟩ | ⟨a, ha, hle⟩
        · exact .inl ⟨p, List.mem_append_left _ hp, hin⟩
        · exact .inl ⟨(a, n), List.mem_append_right _ (mem_closing.mpr ⟨ha, rfl⟩), hle, hlt⟩
  rcases hcover with ⟨p, hp, hin⟩ | ⟨a, ha, hle⟩
  · exact ⟨p, List.mem_append_left _ hp, hin⟩
  · exact ⟨(a, n), List.mem_append_right _ (mem_closing.mpr ⟨ha, rfl⟩), hle, hc⟩

/-- A run that has ended is before the open one. -/
theorem ended_lt_open (hp : p ∈ (scan free n).1) (ha : (scan free n).2 = some a) : p.2 < a := by
  obtain ⟨-, hlt, hnot⟩ := mem_ended_iff.mp hp
  have hopen := opened_of_scan ha
  by_contra hle
  exact hnot (hopen.all _ (by omega) hlt)

theorem closing_apart (h : (scan free n).1.Pairwise fun p q => p.2 < q.1) :
    (runs free n).Pairwise fun p q => p.2 < q.1 := by
  refine List.pairwise_append.mpr ⟨h, ?_, fun p hp q hq => ended_lt_open hp (mem_closing.mp hq).1⟩
  cases (scan free n).2 with
  | none => exact .nil
  | some a => exact List.pairwise_singleton _ _

theorem ended_apart (free : ℕ → Prop) [DecidablePred free] (n : ℕ) :
    (scan free n).1.Pairwise fun p q => p.2 < q.1 := by
  induction n with
  | zero => exact .nil
  | succ n ih =>
    by_cases hn : free n
    · rw [scan_free hn]
      exact ih
    · rw [scan_used hn]
      exact closing_apart ih

/-- Between two runs there is a place that does not satisfy the predicate. -/
theorem runs_apart (free : ℕ → Prop) [DecidablePred free] (n : ℕ) :
    (runs free n).Pairwise fun p q => p.2 < q.1 := closing_apart (ended_apart free n)

end Runs
