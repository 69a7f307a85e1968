import Barelog.Spec.Log

/-! The firmware that the Makefile links for the atmega328p: `main.c` with `log.c` and
`platform_atmega328p.c`. Both of the last two have a variable for a pending idle flush:
`log_state.flush_pending`, which `main` tests and clears, and `timer_pending`, which the
Timer1 interrupt sets. Once interrupts are enabled they come between any two operations. -/

namespace Barelog

inductive MainOp
  | fw (o : FwOp)
  | sei
  | logFlushPending
  | logClearFlushPending

abbrev MainOp.Reply : MainOp → Type
  | fw o => o.Reply
  | logFlushPending => Byte
  | _ => Unit

abbrev mainSig : Sig := ⟨MainOp, MainOp.Reply⟩

abbrev Main (α : Type) := Prog mainSig Stop α

def ofFw {α : Type} : Fw α → Main α
  | .ret a => .ret a
  | .fail e => .fail e
  | .act o k => .act (.fw o) fun r => ofFw (k r)

def sei : Main Unit := Prog.perform (S := mainSig) .sei
def logFlushPending : Main Byte := Prog.perform (S := mainSig) .logFlushPending
def logClearFlushPending : Main Unit := Prog.perform (S := mainSig) .logClearFlushPending

structure Linked where
  machine : Machine
  /-- the I bit of SREG -/
  interrupts : Bool
  /-- `log_state.flush_pending` -/
  flushPending : Byte
  /-- `timer_pending` -/
  timerPending : Byte
  /-- the Timer1 compare interrupt has run since `flush_pending` was last cleared -/
  ticked : Bool
  /-- how often the Timer1 compare interrupt has run -/
  ticks : ℕ

def mainStep (env : Env) : Handler mainSig Linked
  | .fw o, s => ((fwStep env o s.machine).1, { s with machine := (fwStep env o s.machine).2 })
  | .sei, s => ((), { s with interrupts := true })
  | .logFlushPending, s => (s.flushPending, s)
  | .logClearFlushPending, s => ((), { s with flushPending := 0, ticked := false })

def timer1Isr (s : Linked) : Linked :=
  { s with timerPending := 1, ticked := true, ticks := s.ticks + 1 }

inductive Interrupted : Linked → Linked → Prop
  | rx {s : Linked} {m : Machine} (hi : s.interrupts = true) (hrx : RxStep s.machine m) :
      Interrupted s { s with machine := m }
  | timer1 {s : Linked} (hi : s.interrupts = true) : Interrupted s (timer1Isr s)

/-- The body of the loop of `main`. The stack canary and the sleep at its end touch nothing
modelled here. -/
def mainTurn (fuel turns : ℕ) : Main Unit := do
  ofFw (logProcess fuel turns)
  let pending ← logFlushPending
  if pending ≠ 0 then
    let avail ← ofFw uartAvailable
    if avail < 512 then
      logClearFlushPending
      ofFw (logFlush fuel)
    else pure ()
  else pure ()

def mainLoop (fuel turns : ℕ) : ℕ → Main Unit
  | 0 => .fail .hang
  | n + 1 => do
    mainTurn fuel turns
    mainLoop fuel turns n

/-- `main`; `repl` is the code of the command loop, which log.c enters and never leaves. -/
def mainProgram (fuel turns n : ℕ) (rxLow : Bool) (repl : Fw Unit) : Main Unit :=
  (do ofFw (boot fuel rxLow); sei; mainLoop fuel turns n).handle fun
    | .repl => ofFw repl
    | e => .fail e

def Linked.powerUp (card : ℕ → Sector) (eeprom : ℕ → Byte) : Linked :=
  ⟨.powerUp card eeprom, false, 0, 0, false, 0⟩

/-- The configurations of the firmware: what is left of `main`, and the state. -/
def MainReach (env : Env) (card : ℕ → Sector) (eeprom : ℕ → Byte) (p q : Main Unit)
    (t : Linked) : Prop :=
  Prog.Steps (mainStep env) (fun _ => Interrupted) p (.powerUp card eeprom) q t

end Barelog
