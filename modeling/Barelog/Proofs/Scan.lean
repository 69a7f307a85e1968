import Barelog.Proofs.PadSector

/-! `scan_escape` as a function of the bytes it scans and of the escape counter. -/

namespace Barelog

open Prog

variable {env : Env} {c : Config} {seen : ℕ}

/-- Whether the escape sequence ends in the bytes, and the counter after the scan. -/
def scanBytes (c : Config) : List Byte → ℕ → Bool × ℕ
  | [], seen => (false, seen)
  | b :: bs, seen =>
    if b = c.escChar then
      if (seen + 1) % 2 ^ 8 ≥ c.escCount then (true, (seen + 1) % 2 ^ 8)
      else scanBytes c bs ((seen + 1) % 2 ^ 8)
    else scanBytes c bs 0

def Machine.withEscSeen (s : Machine) (seen : ℕ) : Machine :=
  { s with ram := { s.ram with escSeen := seen } }

theorem scanEscape_run (env : Env) (len buf : ℕ) (s : Machine) :
    (scanEscape len buf).run (fwStep env) s =
      (.ok (scanBytes s.ram.cfg ((List.range len).map fun i => s.ring (buf + i)) s.ram.escSeen).1,
        s.withEscSeen
          (scanBytes s.ram.cfg ((List.range len).map fun i => s.ring (buf + i)) s.ram.escSeen).2) := by
  induction len generalizing buf s with
  | zero => rfl
  | succ len ih =>
    have hshift : (List.range (len + 1)).map (fun i => s.ring (buf + i)) =
        s.ring buf :: (List.range len).map fun i => s.ring (buf + 1 + i) := by
      rw [List.range_succ_eq_map, List.map_cons, List.map_map, Nat.add_zero]
      refine congrArg _ (List.map_congr_left fun i _ => ?_)
      rw [Function.comp_apply, Nat.add_assoc, Nat.add_comm 1 i]
    rw [scanEscape, run_bind_ok (ringGet_run env s buf), getRam_bind, hshift, scanBytes]
    by_cases hb : s.ring buf = s.ram.cfg.escChar
    · rw [if_pos hb, if_pos hb]
      by_cases hn : (s.ram.escSeen + 1) % 2 ^ 8 ≥ s.ram.cfg.escCount
      · rw [if_pos hn, run_bind_ok (setRam_run ..), if_pos hn]
        rfl
      · rw [if_neg hn, run_bind_ok (setRam_run ..), if_neg hn]
        exact ih (buf + 1) (s.withEscSeen ((s.ram.escSeen + 1) % 2 ^ 8))
    · rw [if_neg hb, if_neg hb, run_bind_ok (setRam_run ..)]
      exact ih (buf + 1) (s.withEscSeen 0)

/-- A scan of two pieces goes on with the counter of the first, unless that found the end. -/
theorem scanBytes_append (bs bs' : List Byte) (seen : ℕ) : scanBytes c (bs ++ bs') seen =
    if (scanBytes c bs seen).1 then scanBytes c bs seen
    else scanBytes c bs' (scanBytes c bs seen).2 := by
  induction bs generalizing seen with
  | nil => rfl
  | cons b bs ih =>
    rw [List.cons_append, scanBytes, scanBytes]
    by_cases hb : b = c.escChar
    · rw [if_pos hb, if_pos hb]
      by_cases hn : (seen + 1) % 2 ^ 8 ≥ c.escCount
      · rw [if_pos hn, if_pos hn]
        rfl
      · rw [if_neg hn, if_neg hn, ih]
    · rw [if_neg hb, if_neg hb, ih]

end Barelog
