import Mathlib.Data.List.Basic
import Mathlib.Tactic

/-! A stream cut in blocks of one length. A block may be filled up with padding, so the stream is in
the blocks in order, and if it has no padding in it, it is what is left when that is dropped. -/

namespace Blocks

variable {α : Type} {n : ℕ} {pad : α} {bs xs : List α} {ls : List (List α)}

def padded (n : ℕ) (pad : α) (xs : List α) : List α := xs ++ List.replicate (n - xs.length) pad

/-- The blocks `ls` hold the stream `bs`. -/
inductive Packed (n : ℕ) (pad : α) : List α → List (List α) → Prop
  | nil : Packed n pad [] []
  | block {bs : List α} {ls : List (List α)} (h : Packed n pad bs ls) (xs : List α)
      (hc : xs.length ≤ n) : Packed n pad (bs ++ xs) (ls ++ [padded n pad xs])

theorem padded_length (hc : xs.length ≤ n) : (padded n pad xs).length = n := by
  rw [padded, List.length_append, List.length_replicate]
  omega

theorem padded_getElem {i : ℕ} (h : i < (padded n pad xs).length) :
    (padded n pad xs)[i] = if hi : i < xs.length then xs[i] else pad := by
  simp only [padded, List.getElem_append, List.getElem_replicate]

theorem padded_full (hc : xs.length = n) : padded n pad xs = xs := by
  rw [padded, hc, Nat.sub_self, List.replicate_zero, List.append_nil]

theorem Packed.full (h : Packed n pad bs ls) (hc : xs.length = n) :
    Packed n pad (bs ++ xs) (ls ++ [xs]) := by
  have hblock := h.block xs hc.le
  rwa [padded_full hc] at hblock

theorem Packed.filter [DecidableEq α] (h : Packed n pad bs ls) (hpad : pad ∉ bs) :
    ls.flatten.filter (· ≠ pad) = bs := by
  induction h with
  | nil => rfl
  | block _ xs _ ih =>
    rw [List.mem_append, not_or] at hpad
    have hkeep : xs.filter (· ≠ pad) = xs := by
      refine List.filter_eq_self.mpr fun x hx => ?_
      simpa using fun he : x = pad => hpad.2 (he ▸ hx)
    have hdrop : (List.replicate (n - xs.length) pad).filter (· ≠ pad) = [] := by
      refine List.filter_eq_nil_iff.mpr fun x hx => ?_
      simp [List.eq_of_mem_replicate hx]
    rw [List.flatten_append, List.flatten_singleton, List.filter_append, ih hpad.1, padded,
      List.filter_append, hkeep, hdrop, List.append_nil]

end Blocks
