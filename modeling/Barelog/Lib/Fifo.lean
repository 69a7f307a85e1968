import Mathlib.Tactic

/-! Circular buffers. `count` cells from `tail`, taken modulo the capacity, are a queue;
storing one past its end and advancing its start are the queue operations. A buffer of
capacity `N` that keeps one cell free holds up to `N - 1` elements. -/

namespace Fifo

variable {β : Type} {N : ℕ}

def contents (N : ℕ) (cells : ℕ → β) (tail n : ℕ) : List β :=
  (List.range n).map fun i => cells ((tail + i) % N)

def count (N head tail : ℕ) : ℕ := (head + N - tail) % N

@[simp] theorem contents_length (cells : ℕ → β) (tail n : ℕ) :
    (contents N cells tail n).length = n := by simp [contents]

@[simp] theorem contents_zero (cells : ℕ → β) (tail : ℕ) : contents N cells tail 0 = [] := rfl

theorem contents_getElem (cells : ℕ → β) {tail n i : ℕ} (hi : i < (contents N cells tail n).length) :
    (contents N cells tail n)[i] = cells ((tail + i) % N) := by simp [contents]

theorem contents_succ (cells : ℕ → β) (tail n : ℕ) :
    contents N cells tail (n + 1) = contents N cells tail n ++ [cells ((tail + n) % N)] := by
  simp [contents, List.range_succ]

theorem contents_congr {cells cells' : ℕ → β} {tail n : ℕ}
    (h : ∀ i, i < n → cells ((tail + i) % N) = cells' ((tail + i) % N)) :
    contents N cells tail n = contents N cells' tail n :=
  List.map_congr_left fun i hi => h i (List.mem_range.mp hi)

theorem contents_drop (cells : ℕ → β) (tail n k : ℕ) :
    (contents N cells tail n).drop k = contents N cells ((tail + k) % N) (n - k) := by
  refine List.ext_getElem (by simp) fun i h1 h2 => ?_
  rw [List.getElem_drop, contents_getElem, contents_getElem, Nat.mod_add_mod, Nat.add_assoc]

/-- Different places of a window no longer than the buffer are different cells. -/
theorem cell_inj {tail i j : ℕ} (hi : i < N) (hj : j < N)
    (h : (tail + i) % N = (tail + j) % N) : i = j := by
  have hmod : i % N = j % N := Nat.ModEq.add_left_cancel' tail h
  rwa [Nat.mod_eq_of_lt hi, Nat.mod_eq_of_lt hj] at hmod

theorem contents_update_outside (cells : ℕ → β) {tail n k : ℕ} (b : β)
    (hk : ∀ i, i < n → (tail + i) % N ≠ k) :
    contents N (Function.update cells k b) tail n = contents N cells tail n :=
  contents_congr fun i hi => Function.update_of_ne (hk i hi) _ _

/-- Storing one past the end of a queue that is not full appends to it. -/
theorem contents_push (cells : ℕ → β) {tail n : ℕ} (b : β) (hn : n < N) :
    contents N (Function.update cells ((tail + n) % N) b) tail (n + 1) =
      contents N cells tail n ++ [b] := by
  rw [contents_succ, contents_update_outside _ _ fun i hi h =>
    absurd (cell_inj (by omega) hn h) (by omega), Function.update_self]

theorem tail_add_count {head tail : ℕ} (hh : head < N) (ht : tail < N) :
    (tail + count N head tail) % N = head := by
  unfold count
  rw [Nat.add_mod_mod, show tail + (head + N - tail) = head + N by omega, Nat.add_mod_right,
    Nat.mod_eq_of_lt hh]

theorem count_lt {head tail : ℕ} (hN : 0 < N) : count N head tail < N := Nat.mod_lt _ hN

/-- The queue ends where it starts plus its length, so the length is determined by the end. -/
theorem count_of_head {tail n : ℕ} (ht : tail < N) (hn : n < N) :
    count N ((tail + n) % N) tail = n := by
  have hN : 0 < N := by omega
  exact cell_inj (count_lt hN) hn (tail_add_count (Nat.mod_lt _ hN) ht)

/-- The cell after the end is the start exactly when the queue is full. -/
theorem next_eq_tail_iff {head tail : ℕ} (hh : head < N) (ht : tail < N) :
    (head + 1) % N = tail ↔ count N head tail + 1 = N := by
  have hlt : count N head tail < N := count_lt (by omega)
  have hhead := tail_add_count hh ht
  have hnext : (head + 1) % N = (tail + (count N head tail + 1)) % N := by
    rw [← hhead, Nat.mod_add_mod, Nat.add_assoc, hhead]
  rw [hnext]
  constructor
  · intro h
    by_contra hne
    have hcell : (tail + (count N head tail + 1)) % N = (tail + 0) % N := by
      rw [h, Nat.add_zero, Nat.mod_eq_of_lt ht]
    exact absurd (cell_inj (by omega) (by omega) hcell) (by omega)
  · intro h
    rw [h, Nat.add_mod_right, Nat.mod_eq_of_lt ht]

theorem count_push {head tail : ℕ} (hh : head < N) (ht : tail < N)
    (hroom : (head + 1) % N ≠ tail) : count N ((head + 1) % N) tail = count N head tail + 1 := by
  have hlt : count N head tail < N := count_lt (by omega)
  have hne : count N head tail + 1 ≠ N := fun h => hroom ((next_eq_tail_iff hh ht).mpr h)
  have hnext : (head + 1) % N = (tail + (count N head tail + 1)) % N := by
    conv_lhs => rw [← tail_add_count hh ht, Nat.mod_add_mod, Nat.add_assoc]
  rw [hnext, count_of_head ht (by omega)]

theorem count_advance {head tail k : ℕ} (hh : head < N) (ht : tail < N)
    (hk : k ≤ count N head tail) : count N head ((tail + k) % N) = count N head tail - k := by
  have hlt : count N head tail < N := count_lt (by omega)
  have hhead : head = ((tail + k) % N + (count N head tail - k)) % N := by
    rw [Nat.mod_add_mod, Nat.add_assoc, Nat.add_sub_cancel' hk, tail_add_count hh ht]
  conv_lhs => rw [hhead]
  exact count_of_head (Nat.mod_lt _ (by omega)) (by omega)

end Fifo
