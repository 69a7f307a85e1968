import Barelog.Proofs.Mount
import Barelog.Spec.MainLoop

/-! The two flags of the idle flush. Nothing ever sets the one that `main` tests, so the main
loop never gets to its flush, whatever the timer does. -/

namespace Barelog

open Prog

variable {env : Env} {card : ℕ → Sector} {eeprom : ℕ → Byte} {s t t' : Linked} {q : Main Unit}

def FlagDown : (o : MainOp) → o.Reply → Prop
  | .logFlushPending, b => b = 0
  | _, _ => True

def NoClear : MainOp → Prop
  | .logClearFlushPending => False
  | _ => True

/-- The flag has never been set, and every tick so far came since the flag was cleared. -/
structure Deaf (t : Linked) : Prop where
  flag : t.flushPending = 0
  ticked : t.ticked = true ↔ t.ticks ≠ 0

theorem ofFw_only {α : Type} (p : Fw α) : (ofFw p).Only FlagDown NoClear := by
  induction p with
  | ret a => trivial
  | fail e => trivial
  | act o k ih => exact ⟨trivial, fun r _ => ih r⟩

/-- While the flag reads 0 the loop does not clear it. -/
theorem mainTurn_only (fuel turns : ℕ) : (mainTurn fuel turns).Only FlagDown NoClear := by
  refine only_bind (ofFw_only _) fun _ => ⟨trivial, fun pending hdown => ?_⟩
  rw [show pending = 0 from hdown]
  trivial

theorem mainLoop_only (fuel turns n : ℕ) : (mainLoop fuel turns n).Only FlagDown NoClear := by
  induction n with
  | zero => trivial
  | succ n ih => exact only_bind (mainTurn_only fuel turns) fun _ => ih

theorem mainProgram_only (fuel turns n : ℕ) (rxLow : Bool) (repl : Fw Unit) :
    (mainProgram fuel turns n rxLow repl).Only FlagDown NoClear := by
  refine only_handle ?_ fun e => ?_
  · refine only_bind (ofFw_only _) fun _ => only_bind (only_perform trivial) fun _ => ?_
    exact mainLoop_only fuel turns n
  · cases e with
    | repl => exact ofFw_only repl
    | code c => trivial
    | hang => trivial
    | undef => trivial

theorem Deaf.step (o : MainOp) (ho : NoClear o) (h : Deaf t) :
    FlagDown o (mainStep env o t).1 ∧ Deaf (mainStep env o t).2 := by
  cases o with
  | fw o => exact ⟨trivial, h.flag, h.ticked⟩
  | sei => exact ⟨trivial, h.flag, h.ticked⟩
  | logFlushPending => exact ⟨h.flag, h⟩
  | logClearFlushPending => cases ho

theorem Deaf.interrupted (hi : Interrupted t t') (h : Deaf t) : Deaf t' := by
  cases hi with
  | rx _ _ => exact ⟨h.flag, h.ticked⟩
  | timer1 _ => exact ⟨h.flag, by simp [timer1Isr]⟩

theorem MainReach.deaf {fuel turns n : ℕ} {rxLow : Bool} {repl : Fw Unit}
    (h : MainReach env card eeprom (mainProgram fuel turns n rxLow repl) q t) :
    q.Only FlagDown NoClear ∧ Deaf t :=
  Steps.invariant h (mainProgram_only ..) (fun o _ ho => Deaf.step o ho)
    (fun _ _ _ hi => Deaf.interrupted hi) ⟨rfl, by simp [Linked.powerUp]⟩

/-- In every state of the firmware the flag that `main` tests tells whether there was a tick
since it was cleared exactly when there was no tick at all; the main loop never gets to
clear it, and so never to its `log_flush`. -/
theorem flush_pending_iff (env : Env) (card : ℕ → Sector) (eeprom : ℕ → Byte)
    (fuel turns n : ℕ) (rxLow : Bool) (repl : Fw Unit) (q : Main Unit) (t : Linked)
    (h : MainReach env card eeprom (mainProgram fuel turns n rxLow repl) q t) :
    ((t.flushPending ≠ 0 ↔ t.ticked = true) ↔ t.ticks = 0) ∧
      ∀ k, q ≠ .act .logClearFlushPending k := by
  obtain ⟨honly, hflag, hticked⟩ := h.deaf
  refine ⟨?_, ?_⟩
  · rw [hticked, hflag]
    simp
  · rintro k rfl
    exact honly.1

theorem ofFw_run {α : Type} (p : Fw α) (s : Linked) : (ofFw p).run (mainStep env) s =
    ((p.run (fwStep env) s.machine).1, { s with machine := (p.run (fwStep env) s.machine).2 }) := by
  induction p generalizing s with
  | ret a => rfl
  | fail e => rfl
  | act o k ih => exact ih _ _

/-- A boot that succeeds gets to the main loop, where the timer interrupt can run. -/
theorem tick_reached {fuel : ℕ} {rxLow : Bool} {m : Machine} (turns n : ℕ) (repl : Fw Unit)
    (hboot : (boot fuel rxLow).run (fwStep env) (.powerUp card eeprom) = (.ok (), m)) :
    ∃ q, MainReach env card eeprom (mainProgram fuel turns n rxLow repl) q
      (timer1Isr ⟨m, true, 0, 0, false, 0⟩) := by
  have hrun : (ofFw (boot fuel rxLow)).run (mainStep env) (.powerUp card eeprom) =
      (.ok (), ⟨m, false, 0, 0, false, 0⟩) := by
    rw [ofFw_run]
    simp only [Linked.powerUp, hboot]
  have hsteps : MainReach env card eeprom (mainProgram fuel turns n rxLow repl) _ _ :=
    Steps.elim (Steps.elim (steps_run (fun _ => Interrupted) hrun))
  exact ⟨_, .env (.act hsteps) (.timer1 rfl)⟩

theorem flush_pending_after_tick : ∃ q t,
    MainReach Env.ideal bootCard bootEeprom (mainProgram 64 64 1 false (pure ())) q t ∧
      t.ticks = 1 ∧ ((t.flushPending ≠ 0 ↔ t.ticked = true) ↔ t.ticks = 0) ∧
        ∀ k, q ≠ .act .logClearFlushPending k := by
  obtain ⟨m, hboot⟩ := bootCard_boots
  obtain ⟨q, hq⟩ := tick_reached 64 1 (pure ()) hboot
  exact ⟨q, _, hq, rfl, flush_pending_iff _ _ _ _ _ _ _ _ _ _ hq⟩

/-- After the first tick the flag is still 0. -/
theorem tick_not_seen : ∃ q t,
    MainReach Env.ideal bootCard bootEeprom (mainProgram 64 64 1 false (pure ())) q t ∧
      ¬ (t.flushPending ≠ 0 ↔ t.ticked = true) := by
  obtain ⟨m, hboot⟩ := bootCard_boots
  obtain ⟨q, hq⟩ := tick_reached 64 1 (pure ()) hboot
  exact ⟨q, _, hq, by simp [timer1Isr]⟩

end Barelog
