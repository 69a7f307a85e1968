import Mathlib.Logic.Basic
import Mathlib.Data.List.Basic

/-! Runs of a labelled transition system, with the labels in order, and the forward simulation of
one such system by another. A step without a label cannot be seen from outside. -/

namespace Labelled

variable {σ τ κ : Type} {step : σ → Option κ → σ → Prop} {s t u : σ} {cs ds : List κ} {c : κ}

inductive Trace (step : σ → Option κ → σ → Prop) (s : σ) : List κ → σ → Prop
  | start : Trace step s [] s
  | silent {cs : List κ} {t u : σ} (h : Trace step s cs t) (h1 : step t none u) : Trace step s cs u
  | seen {cs : List κ} {c : κ} {t u : σ} (h : Trace step s cs t) (h1 : step t (some c) u) :
      Trace step s (cs ++ [c]) u

theorem Trace.append (h : Trace step s cs t) (h' : Trace step t ds u) :
    Trace step s (cs ++ ds) u := by
  induction h' with
  | start =>
    rw [List.append_nil]
    exact h
  | silent _ h1 ih => exact ih.silent h1
  | seen _ h1 ih =>
    rw [← List.append_assoc]
    exact ih.seen h1

/-- The system that makes each step of `spec`, and no silent one. -/
def visible (spec : τ → κ → τ → Prop) (a : τ) (c : Option κ) (b : τ) : Prop :=
  ∃ k, c = some k ∧ spec a k b

variable {spec : τ → κ → τ → Prop} {R : τ → σ → Prop} {a : τ}

/-- The states of a run simulate a run with the same labels. -/
theorem Trace.simulate (h : Trace step s cs t)
    (hsilent : ∀ a s s', R a s → step s none s' → R a s')
    (hseen : ∀ a s c s', R a s → step s (some c) s' → ∃ b, spec a c b ∧ R b s') (ha : R a s) :
    ∃ b, Trace (visible spec) a cs b ∧ R b t := by
  induction h with
  | start => exact ⟨a, .start, ha⟩
  | silent _ h1 ih =>
    obtain ⟨b, hrun, hb⟩ := ih
    exact ⟨b, hrun, hsilent _ _ _ hb h1⟩
  | seen _ h1 ih =>
    obtain ⟨b, hrun, hb⟩ := ih
    obtain ⟨b', hstep, hb'⟩ := hseen _ _ _ _ hb h1
    exact ⟨b', hrun.seen ⟨_, rfl, hstep⟩, hb'⟩

/-- What every step keeps holds at the end of a run. -/
theorem Trace.invariant {I : σ → Prop} (h : Trace step s cs t)
    (hI : ∀ s c s', I s → step s c s' → I s') (hs : I s) : I t := by
  induction h with
  | start => exact hs
  | silent _ h1 ih => exact hI _ _ _ ih h1
  | seen _ h1 ih => exact hI _ _ _ ih h1

/-- Labels that lie between the counts before and after their steps increase along a run. -/
theorem Trace.increasing {I : σ → Prop} {count : σ → ℕ} {val : κ → ℕ} (h : Trace step s cs t)
    (hsilent : ∀ s t, I s → step s none t → I t ∧ count s ≤ count t)
    (hseen : ∀ s c t, I s → step s (some c) t → I t ∧ count s ≤ val c ∧ val c < count t)
    (hs : I s) : (I t ∧ count s ≤ count t) ∧ (∀ c ∈ cs, count s ≤ val c ∧ val c < count t) ∧
      cs.Pairwise fun c d => val c < val d := by
  induction h with
  | start => exact ⟨⟨hs, Nat.le_refl _⟩, fun c hc => absurd hc List.not_mem_nil, .nil⟩
  | silent _ h1 ih =>
    obtain ⟨⟨ht, hle⟩, hin, hinc⟩ := ih
    obtain ⟨hu, hle'⟩ := hsilent _ _ ht h1
    exact ⟨⟨hu, Nat.le_trans hle hle'⟩,
      fun c hc => ⟨(hin c hc).1, Nat.lt_of_lt_of_le (hin c hc).2 hle'⟩, hinc⟩
  | @seen cs c t u _ h1 ih =>
    obtain ⟨⟨ht, hle⟩, hin, hinc⟩ := ih
    obtain ⟨hu, hlo, hhi⟩ := hseen _ _ _ ht h1
    have hstep := Nat.lt_of_le_of_lt hlo hhi
    refine ⟨⟨hu, Nat.le_trans hle (Nat.le_of_lt hstep)⟩, fun d hd => ?_, ?_⟩
    · rcases List.mem_append.mp hd with hd | hd
      · exact ⟨(hin d hd).1, Nat.lt_trans (hin d hd).2 hstep⟩
      · obtain rfl := List.mem_singleton.mp hd
        exact ⟨Nat.le_trans hle hlo, hhi⟩
    · refine List.pairwise_append.mpr ⟨hinc, List.pairwise_singleton _ _, fun d hd d' hd' => ?_⟩
      obtain rfl := List.mem_singleton.mp hd'
      exact Nat.lt_of_lt_of_le (hin d hd).2 hlo

end Labelled
