import Barelog.Proofs.Drain
import Barelog.Proofs.NoCode

/-! The sector that `log_flush` builds at the start of the ring. A copy to lower cells moves
the bytes; the copy of span b goes to higher cells, and where it reaches its own source it
repeats the first bytes. -/

namespace Barelog

open Prog

variable {env : Env} {s s' : Machine} {ring : ℕ → Byte} {tail avail dst src n i : ℕ}

/-- `for (k = 0; k < n; k++) ring[dst + k] = ring[src + k];` -/
def copyCells (ring : ℕ → Byte) (dst src : ℕ) : ℕ → ℕ → Byte
  | 0 => ring
  | n + 1 =>
    let r := copyCells ring dst src n
    Function.update r (dst + n) (r (src + n))

theorem copyLoop_run (env : Env) (dst src n : ℕ) (s : Machine) :
    (forUp 0 n fun k => do let x ← ringGet (src + k); ringSet (dst + k) x).run (fwStep env) s =
      (.ok (), s.withRing (copyCells s.ring dst src n)) := by
  have hloop : (forUp 0 n fun k => do let x ← ringGet (src + k); ringSet (dst + k) x).run
      (fwStep env) (s.withRing (copyCells s.ring dst src 0)) =
        (.ok (), s.withRing (copyCells s.ring dst src (0 + n))) :=
    forUp_run (fun k => s.withRing (copyCells s.ring dst src k)) fun k _ _ => rfl
  rwa [Nat.zero_add] at hloop

/-- A copy to cells not above the source moves the bytes. -/
theorem copyCells_down (h : dst ≤ src) : copyCells ring dst src n i =
    if dst ≤ i ∧ i < dst + n then ring (src + (i - dst)) else ring i := by
  induction n generalizing i with
  | zero => rw [if_neg (by omega), copyCells]
  | succ n ih =>
    rw [copyCells]
    by_cases hi : i = dst + n
    · rw [hi, Function.update_self, ih, if_neg (by omega), if_pos (by omega),
        Nat.add_sub_cancel_left]
    · rw [Function.update_of_ne hi, ih]
      exact if_congr (by omega) rfl rfl

/-- A copy of the first cells to cell `dst` on repeats the first `dst` bytes. -/
theorem copyCells_up (h : 0 < dst) : copyCells ring dst 0 n i =
    if dst ≤ i ∧ i < dst + n then ring (i % dst) else ring i := by
  induction n generalizing i with
  | zero => rw [if_neg (by omega), copyCells]
  | succ n ih =>
    rw [copyCells]
    by_cases hi : i = dst + n
    · rw [hi, Function.update_self, ih, if_pos (show dst ≤ dst + n ∧ dst + n < dst + (n + 1) by omega),
        Nat.add_mod_left, Nat.zero_add]
      split_ifs with hn
      · rfl
      · rw [Nat.mod_eq_of_lt (by omega)]
    · rw [Function.update_of_ne hi, ih]
      exact if_congr (by omega) rfl rfl

/-- `for (j = lo; j < lo + n; j++) ring[j] = 0x00;` -/
def zeroCells (ring : ℕ → Byte) (lo k : ℕ) : ℕ → Byte := fun i => if lo ≤ i ∧ i < k then 0 else ring i

theorem zeroLoop_run (env : Env) (lo n : ℕ) (s : Machine) :
    (forUp lo n fun j => ringSet j 0x00).run (fwStep env) s =
      (.ok (), s.withRing (zeroCells s.ring lo (lo + n))) := by
  have hstart : zeroCells s.ring lo lo = s.ring := funext fun i => if_neg (by omega)
  have hloop : (forUp lo n fun j => ringSet j 0x00).run (fwStep env)
      (s.withRing (zeroCells s.ring lo lo)) = (.ok (), s.withRing (zeroCells s.ring lo (lo + n))) := by
    refine forUp_run (fun k => s.withRing (zeroCells s.ring lo k)) fun k hk _ => ?_
    have hstep : Function.update (zeroCells s.ring lo k) k 0 = zeroCells s.ring lo (k + 1) := by
      funext i
      unfold zeroCells
      by_cases hi : i = k
      · rw [hi, Function.update_self, if_pos (by omega)]
      · rw [Function.update_of_ne hi]
        exact if_congr (by omega) rfl rfl
    rw [ringSet_run, ← hstep]
    rfl
  rw [hstart] at hloop
  exact hloop

/-- The ring once the `avail` bytes from the tail are copied to its start and padded. -/
def padRing (ring : ℕ → Byte) (tail avail : ℕ) : ℕ → Byte :=
  let (lenA, spanB, lenB) := spans tail avail
  let ring1 := match spanB with
    | some b => copyCells ring lenA b lenB
    | none => ring
  let ring2 := copyCells ring1 0 tail lenA
  zeroCells ring2 (lenA + lenB) (lenA + lenB + (512 - (lenA + lenB)))

theorem padSector_run (env : Env) (avail : ℕ) (s : Machine) : (padSector avail).run (fwStep env) s =
    (.ok (), s.withRing (padRing s.ring s.ringTail avail)) := by
  rw [padSector, run_bind_ok (getTail_run env s), padRing]
  rcases spans s.ringTail avail with ⟨lenA, spanB, lenB⟩
  have hdown : ∀ t : Machine, (forUp 0 lenA fun j => do
      let x ← ringGet (s.ringTail + j)
      ringSet j x).run (fwStep env) t = (.ok (), t.withRing (copyCells t.ring 0 s.ringTail lenA)) := by
    intro t
    have hloop := copyLoop_run env 0 s.ringTail lenA t
    simp only [Nat.zero_add] at hloop
    exact hloop
  cases spanB with
  | none =>
    dsimp only
    rw [copySpan, run_bind_ok (run_pure _ _ s), run_bind_ok (hdown s)]
    exact zeroLoop_run env _ _ _
  | some b =>
    dsimp only
    rw [copySpan, run_bind_ok (copyLoop_run env lenA b lenB s), run_bind_ok (hdown _)]
    exact zeroLoop_run env _ _ _

/-- The padded sector: span a where it is, span b with the first bytes repeated, zeros. -/
theorem padRing_low (ht : tail < 1024) (havail : avail ≤ 512) (hi : i < 512) :
    padRing ring tail avail i =
      if avail ≤ i then 0
      else if tail + i < 1024 then ring (tail + i)
      else ring (i % (1024 - tail)) := by
  rcases spans_cases ht avail with ⟨hfit, hsp⟩ | ⟨hwrap, hsp⟩
  · rw [padRing, hsp]
    dsimp only
    rw [zeroCells]
    by_cases ha : avail ≤ i
    · rw [if_pos (by omega), if_pos ha]
    · rw [if_neg (by omega), if_neg ha, if_pos (by omega), copyCells_down (Nat.zero_le _),
        if_pos (by omega), Nat.sub_zero]
  · rw [padRing, hsp]
    dsimp only
    rw [zeroCells]
    by_cases ha : avail ≤ i
    · rw [if_pos (by omega), if_pos ha]
    rw [if_neg (by omega), if_neg ha, copyCells_down (Nat.zero_le _)]
    by_cases hA : tail + i < 1024
    · -- the source of span a is above what the copy of span b has stored
      rw [if_pos (by omega), if_pos hA, copyCells_up (by omega), if_neg (by omega), Nat.sub_zero]
    · rw [if_neg (by omega), if_neg hA, copyCells_up (by omega), if_pos (by omega)]

end Barelog
