import Mathlib.Tactic

/-! Owners of cells, as the files of a volume are. An owner that is added takes cells that are not in
use, so no cell gets a second owner. -/

/-- The owners that there are, the cells that each of them has, and the cells in use. -/
structure Owners (α β : Type) where
  live : α → Prop
  own : α → β → Prop
  used : β → Prop

namespace Owners

variable {α β : Type} {o o' : Owners α β} {a b : α} {x : β}

/-- The cells of an owner are in use, and they are those of no other owner. -/
structure Sound (o : Owners α β) : Prop where
  used : ∀ a x, o.live a → o.own a x → o.used x
  one : ∀ a b x, o.live a → o.live b → o.own a x → o.own b x → a = b

/-- The owners have what they had. At most one is new, with cells that were not in use. -/
structure Adds (o o' : Owners α β) : Prop where
  own : ∀ a x, o.live a → (o'.own a x ↔ o.own a x)
  used : ∀ x, o.used x → o'.used x
  fresh : ∀ a x, o'.live a → ¬ o.live a → o'.own a x → ¬ o.used x ∧ o'.used x
  once : ∀ a b, o'.live a → ¬ o.live a → o'.live b → ¬ o.live b → a = b

/-- A cell of an owner that was there is not one of a new owner. -/
theorem Adds.old_new (h : Adds o o') (hs : Sound o) (ha : o.live a) (hb' : o'.live b)
    (hb : ¬ o.live b) (hx : o'.own a x) : ¬ o'.own b x := fun hy =>
  (h.fresh b x hb' hb hy).1 (hs.used a x ha ((h.own a x ha).mp hx))

theorem Sound.adds (hs : Sound o) (h : Adds o o') : Sound o' := by
  constructor
  · intro a x ha hx
    by_cases hold : o.live a
    · exact h.used x (hs.used a x hold ((h.own a x hold).mp hx))
    · exact (h.fresh a x ha hold hx).2
  · intro a b x ha hb hx hy
    by_cases hold : o.live a <;> by_cases hold' : o.live b
    · exact hs.one a b x hold hold' ((h.own a x hold).mp hx) ((h.own b x hold').mp hy)
    · exact (h.old_new hs hold hb hold' hx hy).elim
    · exact (h.old_new hs hold' ha hold hy hx).elim
    · exact h.once a b ha hold hb hold'

end Owners
