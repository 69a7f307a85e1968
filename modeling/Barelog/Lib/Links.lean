import Mathlib.Tactic
import Mathlib.Data.List.Chain

/-! Linked lists in a table: `next` gives the successor of each cell, and a list goes on while
its cells satisfy `ok`. -/

namespace Links

variable {α : Type} {next next' : α → α} {l : List α} {a b x : α} {n m : ℕ}

def Linked (next : α → α) (l : List α) : Prop := l.IsChain fun a b => next a = b

theorem linked_singleton (next : α → α) (a : α) : Linked next [a] := List.isChain_singleton a

theorem Linked.congr (h : Linked next l) (heq : ∀ x ∈ l.dropLast, next' x = next x) :
    Linked next' l := by
  rw [Linked, List.isChain_iff_getElem] at h ⊢
  intro i hi
  have hlt : i < l.dropLast.length := by
    rw [List.length_dropLast]
    omega
  have hmem : l[i] ∈ l.dropLast := List.getElem_dropLast hlt ▸ List.getElem_mem hlt
  rw [heq _ hmem, h i hi]

theorem Linked.next_mem (h : Linked next l) (hx : x ∈ l.dropLast) : next x ∈ l := by
  rw [Linked, List.isChain_iff_getElem] at h
  obtain ⟨i, hi, rfl⟩ := List.mem_iff_getElem.mp hx
  rw [List.length_dropLast] at hi
  rw [List.getElem_dropLast, h i (by omega)]
  exact List.getElem_mem _

theorem Linked.push [DecidableEq α] (h : Linked next (l ++ [a])) (ha : a ∉ l) :
    Linked (Function.update next a b) (l ++ [a] ++ [b]) := by
  have hold : Linked (Function.update next a b) (l ++ [a]) := by
    refine h.congr fun x hx => Function.update_of_ne ?_ _ _
    rw [List.dropLast_concat] at hx
    rintro rfl
    exact ha hx
  refine List.IsChain.append hold (List.isChain_singleton b) fun x hx y hy => ?_
  rw [List.getLast?_concat, Option.mem_some_iff] at hx
  rw [List.head?_singleton, Option.mem_some_iff] at hy
  rw [← hx, ← hy, Function.update_self]

def follow (next : α → α) (ok : α → Prop) [DecidablePred ok] : ℕ → α → List α
  | 0, _ => []
  | n + 1, a => if ok a then a :: follow next ok n (next a) else []

variable {ok : α → Prop} [DecidablePred ok]

theorem follow_succ (h : ok a) : follow next ok (n + 1) a = a :: follow next ok n (next a) :=
  if_pos h

theorem follow_of_not (h : ¬ ok a) (n : ℕ) : follow next ok n a = [] := by
  cases n with
  | zero => rfl
  | succ n => exact if_neg h

theorem follow_prefix (h : n ≤ m) : follow next ok n a <+: follow next ok m a := by
  induction n generalizing a m with
  | zero => exact List.nil_prefix
  | succ n ih =>
    obtain ⟨m, rfl⟩ : ∃ m', m = m' + 1 := ⟨m - 1, by omega⟩
    rw [follow, follow]
    split
    · exact (List.prefix_cons_inj _).mpr (ih (by omega))
    · exact List.prefix_refl _

/-- What is followed depends on the links of its cells only. -/
theorem follow_congr (h : ∀ x ∈ follow next ok n a, next' x = next x) :
    follow next' ok n a = follow next ok n a := by
  induction n generalizing a with
  | zero => rfl
  | succ n ih =>
    by_cases ha : ok a
    · rw [follow_succ ha] at h ⊢
      rw [follow_succ ha, h a List.mem_cons_self,
        ih fun x hx => h x (List.mem_cons_of_mem _ hx)]
    · rw [follow_of_not ha, follow_of_not ha]

/-- A linked list of cells, the last of which points to none, is what is followed. -/
theorem Linked.follow (h : Linked next (a :: l)) (hok : ∀ x ∈ a :: l, ok x)
    (hend : ¬ ok (next ((a :: l).getLast (List.cons_ne_nil a l)))) (n : ℕ) :
    follow next ok n a = (a :: l).take n := by
  induction l generalizing a n with
  | nil =>
    cases n with
    | zero => rfl
    | succ n =>
      change ¬ ok (next a) at hend
      rw [follow_succ (hok a List.mem_cons_self), follow_of_not hend, List.take_succ_cons,
        List.take_nil]
  | cons b l ih =>
    cases n with
    | zero => rfl
    | succ n =>
      obtain ⟨hab, hbl⟩ := List.isChain_cons_cons.mp h
      rw [follow_succ (hok a List.mem_cons_self), hab,
        ih hbl (fun x hx => hok x (List.mem_cons_of_mem _ hx)) hend]
      rfl

/-- `b` is reached from `a` through cells that satisfy `ok`. -/
def Reach (next : α → α) (ok : α → Prop) : α → α → Prop :=
  Relation.ReflTransGen fun x y => next x = y ∧ ok y

theorem Reach.refl (next : α → α) (ok : α → Prop) (a : α) : Reach next ok a a :=
  Relation.ReflTransGen.refl

theorem Reach.step {ok : α → Prop} (h : Reach next ok a x) (hok : ok (next x)) :
    Reach next ok a (next x) :=
  Relation.ReflTransGen.tail h ⟨rfl, hok⟩

theorem Linked.reach {ok : α → Prop} (h : Linked next (a :: l)) (hok : ∀ x ∈ l, ok x)
    (hx : x ∈ a :: l) : Reach next ok a x := by
  induction l generalizing a with
  | nil =>
    rw [List.mem_singleton.mp hx]
    exact .refl next ok a
  | cons b l ih =>
    obtain ⟨hab, hbl⟩ := List.isChain_cons_cons.mp h
    rcases List.mem_cons.mp hx with rfl | hx
    · exact .refl next ok x
    · have hrest := ih hbl (fun y hy => hok y (List.mem_cons_of_mem _ hy)) hx
      exact Relation.ReflTransGen.head ⟨hab, hok b List.mem_cons_self⟩ hrest

theorem reach_mem {ok : α → Prop} (h : Reach next ok a x) (ha : a ∈ l)
    (hclosed : ∀ y ∈ l, ok (next y) → next y ∈ l) : x ∈ l := by
  induction h with
  | refl => exact ha
  | tail _ hstep ih =>
    obtain ⟨rfl, hok⟩ := hstep
    exact hclosed _ ih hok

/-! Whether a chain ends. -/

/-- Within `n` links from `a` comes a value that does not satisfy `ok`. -/
def EndsWithin (next : α → α) (ok : α → Prop) (n : ℕ) (a : α) : Prop := ∃ i, i ≤ n ∧ ¬ ok (next^[i] a)

theorem EndsWithin.mono {ok : α → Prop} (h : EndsWithin next ok n a) (hnm : n ≤ m) :
    EndsWithin next ok m a := by
  obtain ⟨i, hi, hend⟩ := h
  exact ⟨i, hi.trans hnm, hend⟩

theorem endsWithin_succ {ok : α → Prop} :
    EndsWithin next ok (n + 1) a ↔ ¬ ok a ∨ EndsWithin next ok n (next a) := by
  constructor
  · rintro ⟨i, hi, hend⟩
    cases i with
    | zero => exact .inl hend
    | succ i => exact .inr ⟨i, by omega, hend⟩
  · rintro (hend | ⟨i, hi, hend⟩)
    · exact ⟨0, Nat.zero_le _, hend⟩
    · exact ⟨i + 1, by omega, hend⟩

/-- The list that is followed is shorter than the count exactly if the chain ends. -/
theorem follow_length_lt :
    (follow next ok (n + 1) a).length < n + 1 ↔ EndsWithin next ok n a := by
  induction n generalizing a with
  | zero =>
    by_cases h : ok a
    · rw [follow_succ h]
      exact iff_of_false (Nat.lt_irrefl 1) fun ⟨i, hi, hend⟩ => hend (by
        rw [Nat.le_zero.mp hi]
        exact h)
    · rw [follow_of_not h]
      exact iff_of_true Nat.one_pos ⟨0, le_rfl, h⟩
  | succ n ih =>
    rw [endsWithin_succ]
    by_cases h : ok a
    · rw [follow_succ h, List.length_cons, Nat.succ_lt_succ_iff, ih]
      exact ⟨.inr, fun hor => hor.resolve_left fun hno => hno h⟩
    · rw [follow_of_not h]
      exact iff_of_true (Nat.succ_pos _) (.inl h)

/-- The chain from `a` stays below `n` and does not come back to a cell. -/
structure Simple (next : ℕ → ℕ) (ok : ℕ → Prop) (n a : ℕ) : Prop where
  inside : ∀ i, (∀ j, j ≤ i → ok (next^[j] a)) → next^[i] a < n
  once : ∀ i j, i < j → (∀ k, k ≤ j → ok (next^[k] a)) → next^[i] a ≠ next^[j] a

/-- A chain through at most `n` cells that does not come back to one ends within `n` links. -/
theorem Simple.ends {next : ℕ → ℕ} {ok : ℕ → Prop} {n a : ℕ} (h : Simple next ok n a) :
    EndsWithin next ok n a := by
  by_contra hno
  have hok : ∀ i, i ≤ n → ok (next^[i] a) := fun i hi => by_contra fun hend => hno ⟨i, hi, hend⟩
  have hmaps : ∀ i ∈ Finset.range (n + 1), next^[i] a ∈ Finset.range n := by
    intro i hi
    have hle : i ≤ n := Nat.lt_succ_iff.mp (Finset.mem_range.mp hi)
    exact Finset.mem_range.mpr (h.inside i fun j hj => hok j (hj.trans hle))
  obtain ⟨i, hi, j, hj, hne, heq⟩ := Finset.exists_ne_map_eq_of_card_lt_of_maps_to
    (by simp) hmaps
  have hle : ∀ {i}, i ∈ Finset.range (n + 1) → i ≤ n := fun h =>
    Nat.lt_succ_iff.mp (Finset.mem_range.mp h)
  rcases Nat.lt_or_gt_of_ne hne with hij | hij
  · exact h.once i j hij (fun k hk => hok k (hk.trans (hle hj))) heq
  · exact h.once j i hij (fun k hk => hok k (hk.trans (hle hi))) heq.symm

/-- A chain that comes back to a cell does not end. -/
theorem not_endsWithin_of_back {ok : α → Prop} {i j : ℕ} (hij : i < j) (hok : ∀ k, k ≤ j → ok (next^[k] a))
    (heq : next^[i] a = next^[j] a) (n : ℕ) : ¬ EndsWithin next ok n a := by
  have hall : ∀ k, ok (next^[k] a) := by
    intro k
    induction k using Nat.strong_induction_on with
    | _ k ih =>
      by_cases hk : k ≤ j
      · exact hok k hk
      · have hback : next^[k] a = next^[k - j + i] a := by
          rw [Function.iterate_add_apply, heq, ← Function.iterate_add_apply]
          congr 1
          omega
        rw [hback]
        exact ih _ (by omega)
  rintro ⟨k, -, hend⟩
  exact hend (hall k)

end Links
