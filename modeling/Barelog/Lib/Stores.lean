import Mathlib.Tactic

/-! Stores into a memory, one after the other, and what the memory holds when only the first of them
have been made. -/

namespace Stores

variable {α β : Type} {m : α → β} {l l' : List (α × β)} {a : α} {v w : α × β} {n : ℕ}

def Once (l : List (α × β)) : Prop := (l.map Prod.fst).Nodup

theorem Once.head (h : Once (w :: l)) : ∀ v ∈ l, v.1 ≠ w.1 := by
  intro v hv heq
  exact (List.nodup_cons.mp h).1 (List.mem_map.mpr ⟨v, hv, heq⟩)

theorem Once.of_cons (h : Once (w :: l)) : Once l := (List.nodup_cons.mp h).2

theorem Once.sublist (h : Once l) (hl : List.Sublist l' l) : Once l' := List.Nodup.sublist (hl.map _) h

theorem Once.take_ne_drop (h : Once l) (hv : v ∈ l.take n) (hw : w ∈ l.drop n) : v.1 ≠ w.1 := by
  rw [Once, ← List.take_append_drop n l, List.map_append] at h
  intro heq
  have hmem : w.1 ∈ (l.take n).map Prod.fst := heq ▸ List.mem_map_of_mem hv
  exact List.disjoint_of_nodup_append h hmem (List.mem_map_of_mem hw)

theorem once_range (b : ℕ) (f : ℕ → β) (n : ℕ) :
    Once ((List.range n).map fun i => (b + i, f i)) := by
  rw [Once, List.map_map]
  exact List.nodup_range.map fun i j h => Nat.add_left_cancel h

variable [DecidableEq α]

def store (m : α → β) (l : List (α × β)) : α → β :=
  l.foldl (fun m w => Function.update m w.1 w.2) m

theorem store_cons : store m (w :: l) = store (Function.update m w.1 w.2) l := rfl

theorem store_append : store m (l ++ l') = store (store m l) l' := List.foldl_append

theorem store_outside (h : ∀ w ∈ l, w.1 ≠ a) : store m l a = m a := by
  induction l generalizing m with
  | nil => rfl
  | cons w l ih =>
    rw [store_cons, ih fun v hv => h v (List.mem_cons_of_mem _ hv),
      Function.update_of_ne (h w List.mem_cons_self).symm]

theorem store_mem (h : Once l) (hw : w ∈ l) : store m l w.1 = w.2 := by
  induction l generalizing m with
  | nil => cases hw
  | cons v l ih =>
    rw [store_cons]
    rcases List.mem_cons.mp hw with rfl | hw
    · rw [store_outside h.head, Function.update_self]
    · exact ih h.of_cons hw

/-- The memory is as it was if every store found its value there. -/
theorem store_eq_self_iff (h : Once l) : store m l = m ↔ ∀ w ∈ l, m w.1 = w.2 := by
  constructor
  · intro heq w hw
    rw [← store_mem (m := m) h hw, heq]
  · intro hall
    funext a
    by_cases ha : ∃ w ∈ l, w.1 = a
    · obtain ⟨w, hw, rfl⟩ := ha
      rw [store_mem h hw, hall w hw]
    · exact store_outside fun w hw heq => ha ⟨w, hw, heq⟩

/-! The first `n` stores. -/

theorem store_take_eq_old (h : Once l) : store m (l.take n) = m ↔ ∀ w ∈ l.take n, m w.1 = w.2 :=
  store_eq_self_iff (h.sublist (List.take_sublist _ _))

theorem store_take_eq_new (h : Once l) :
    store m (l.take n) = store m l ↔ ∀ w ∈ l.drop n, m w.1 = w.2 := by
  have hall : store m l = store (store m (l.take n)) (l.drop n) := by
    rw [← store_append, List.take_append_drop]
  rw [hall, eq_comm, store_eq_self_iff (h.sublist (List.drop_sublist _ _))]
  refine forall₂_congr fun w hw => ?_
  rw [store_outside fun v hv => h.take_ne_drop hv hw]

/-- When every store changes something, the memory is as before or as after only if none or all of
them have been made. -/
theorem torn_iff (h : Once l) (hchange : ∀ w ∈ l, m w.1 ≠ w.2) :
    store m (l.take n) = m ∨ store m (l.take n) = store m l ↔ n = 0 ∨ l.length ≤ n := by
  have hnone : ∀ l' : List (α × β), List.Sublist l' l → ((∀ w ∈ l', m w.1 = w.2) ↔ l' = []) := by
    intro l' hl
    refine ⟨fun hall => List.eq_nil_iff_forall_not_mem.mpr fun w hw => ?_, ?_⟩
    · exact hchange w (hl.subset hw) (hall w hw)
    · rintro rfl w hw
      cases hw
  rw [store_take_eq_old h, store_take_eq_new h, hnone _ (List.take_sublist _ _),
    hnone _ (List.drop_sublist _ _), List.take_eq_nil_iff, List.drop_eq_nil_iff]
  constructor
  · rintro ((hn | rfl) | hn)
    · exact .inl hn
    · exact .inr (Nat.zero_le n)
    · exact .inr hn
  · exact Or.imp .inl id

/-- The first `k` of `n` stores to addresses in a row. -/
theorem store_range_take {m : ℕ → β} (b : ℕ) (f : ℕ → β) (n k a : ℕ) :
    store m (((List.range n).map fun i => (b + i, f i)).take k) a =
      if b ≤ a ∧ a < b + min k n then f (a - b) else m a := by
  rw [← List.map_take, List.take_range]
  split_ifs with ha
  · have hmem : (b + (a - b), f (a - b)) ∈ (List.range (min k n)).map fun i => (b + i, f i) :=
      List.mem_map_of_mem (List.mem_range.mpr (by omega))
    have hstore := store_mem (m := m) (once_range b f (min k n)) hmem
    rwa [Nat.add_sub_cancel' ha.1] at hstore
  · refine store_outside fun w hw => ?_
    obtain ⟨i, hi, rfl⟩ := List.mem_map.mp hw
    have := List.mem_range.mp hi
    exact fun heq => ha ⟨by omega, by omega⟩

end Stores
