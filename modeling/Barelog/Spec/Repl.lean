import Barelog.Spec.Log
import Barelog.Spec.SdWire

/-! The commands of `repl.c`, and the life of the board around them: `main`, the logger, the
command loop, the reset that leads back to `main`, and cards being swapped at any time. -/

namespace Barelog

open Wire (Spi SpiOp SpiRegs Bus Device spiSig spiStep)

/-- Operations of the firmware above the bus, and on the bus itself. -/
inductive SysOp
  | fw (o : FwOp)
  | spi (o : SpiOp)

abbrev SysOp.Reply : SysOp → Type
  | fw o => o.Reply
  | spi o => o.Reply

abbrev sysSig : Sig := ⟨SysOp, SysOp.Reply⟩

abbrev Sys (α : Type) := Prog sysSig Stop α

def onMachine {α : Type} : Fw α → Sys α
  | .ret a => .ret a
  | .fail e => .fail e
  | .act o k => .act (.fw o) fun r => onMachine (k r)

def onBus {α : Type} : Spi α → Prog sysSig ℤ α
  | .ret a => .ret a
  | .fail e => .fail e
  | .act o k => .act (.spi o) fun r => onBus (k r)

def sdInitCode : Sys ℤ := (onBus Wire.sdInit >>= fun _ => pure 0).handle fun c => pure c

def errorHalt : Sys Unit := .fail .hang

/-- `if (f() != 0) error_halt(code);` -/
def orHalt (f : Sys ℤ) : Sys Unit := do
  let ret ← f
  if ret ≠ 0 then errorHalt else pure ()

/-- `main` up to the opening of the log file. -/
def startUp (fuel : ℕ) (rxLow : Bool) : Sys Unit := do
  onMachine configLoad
  let r ← onMachine getRam
  if rxLow = true ∧ r.cfg.flags &&& cfgFlIgnoreRxRst = 0 then onMachine factoryReset else pure ()
  Prog.perform (S := sysSig) (.spi .spiInit)
  orHalt sdInitCode
  orHalt (onMachine fat32Mount.returnCode)
  orHalt (onMachine (fat32OpenLog fuel).returnCode)

inductive Command
  | help
  | disk
  | init
  | sync
  | reset
  | trimFree
  | trimFuller
  | trimFull
  | unknown
deriving DecidableEq

def cmdInit : Sys Unit := do
  let ret ← sdInitCode
  if ret = 0 then onMachine fat32Mount.ignoreCode else pure ()

/-- `cmd_init`, with what it prints: whether it is `ok`. -/
def cmdInitReport : Sys Bool := do
  let ret ← sdInitCode
  if ret ≠ 0 then pure false
  else do
    let ret ← onMachine fat32Mount.returnCode
    pure (ret = 0)

def cmdSync (fuel : ℕ) : Sys Unit := onMachine (logFlush fuel)

/-- What a command does apart from its output. `reset` waits for the watchdog. -/
def Command.code (fuel : ℕ) : Command → Sys Unit
  | init => cmdInit
  | sync => cmdSync fuel
  | trimFree => onMachine fat32TrimFree.ignoreCode
  | trimFuller => onMachine fat32TrimFuller
  | trimFull => onMachine fat32TrimFull
  | _ => pure ()

structure Board (κ : Type) where
  machine : Machine
  bus : Bus κ
  /-- which card is in the slot -/
  slot : ℕ
  /-- the content of the cards that are not -/
  cards : ℕ → ℕ → Sector
  /-- the card on which `fat32_open_log` opened the log file -/
  opened : ℕ

section Board

variable {κ : Type}

def sysStep (env : Env) (dev : Device κ) : Handler sysSig (Board κ)
  | .fw o, s => ((fwStep env o s.machine).1, { s with machine := (fwStep env o s.machine).2 })
  | .spi o, s => ((spiStep dev o s.bus).1, { s with bus := (spiStep dev o s.bus).2 })

def Machine.restarted (s : Machine) : Machine :=
  { Machine.powerUp s.card s.eeprom with reqs := s.reqs, events := s.events }

def Board.restarted (s : Board κ) : Board κ :=
  { s with
    machine := s.machine.restarted
    bus := { s.bus with regs := ⟨false, false, false⟩, sdhc := false } }

/-- Card `k` in state `d` is put in the slot in the place of the one that is there. -/
def Board.swap (s : Board κ) (k : ℕ) (d : κ) : Board κ :=
  let cards := Function.update s.cards s.slot s.machine.card
  { s with
    machine := { s.machine with card := cards k }
    bus := { s.bus with device := d }
    slot := k
    cards := cards }

def Board.withMachine (s : Board κ) (m : Machine) : Board κ := { s with machine := m }

inductive Mode
  | off
  | logging
  | command
  | stopped
deriving DecidableEq

/-- A run of the board: the commands executed, and the mode and the state it has come to. Power
may be cut between any two calls. -/
inductive BoardRun (env : Env) (dev : Device κ) (fuel : ℕ) (s0 : Board κ) :
    List Command → Mode → Board κ → Prop
  | start : BoardRun env dev fuel s0 [] .off s0
  | swap {cs : List Command} {mode : Mode} {s : Board κ} (k : ℕ) (d : κ)
      (hs : BoardRun env dev fuel s0 cs mode s) : BoardRun env dev fuel s0 cs mode (s.swap k d)
  | boot {cs : List Command} {s s' : Board κ} {rxLow : Bool}
      (hs : BoardRun env dev fuel s0 cs .off s)
      (hrun : (startUp fuel rxLow).run (sysStep env dev) s.restarted = (.ok (), s')) :
      BoardRun env dev fuel s0 cs .logging { s' with opened := s'.slot }
  | halt {cs : List Command} {s s' : Board κ} {rxLow : Bool} {e : Stop}
      (hs : BoardRun env dev fuel s0 cs .off s)
      (hrun : (startUp fuel rxLow).run (sysStep env dev) s.restarted = (.error e, s')) :
      BoardRun env dev fuel s0 cs .stopped s'
  | rx {cs : List Command} {s : Board κ} {m : Machine}
      (hs : BoardRun env dev fuel s0 cs .logging s) (hrx : RxStep s.machine m) :
      BoardRun env dev fuel s0 cs .logging (s.withMachine m)
  | turn {cs : List Command} {s : Board κ} {m : Machine} {b : Bool}
      (hs : BoardRun env dev fuel s0 cs .logging s)
      (hrun : Prog.Exec (fwStep env) (fun _ => RxStep) (logProcessTurn fuel) s.machine (.ok b) m) :
      BoardRun env dev fuel s0 cs .logging (s.withMachine m)
  | flush {cs : List Command} {s : Board κ} {m : Machine}
      (hs : BoardRun env dev fuel s0 cs .logging s)
      (hrun : Prog.Exec (fwStep env) (fun _ => RxStep) (logFlush fuel) s.machine (.ok ()) m) :
      BoardRun env dev fuel s0 cs .logging (s.withMachine m)
  | enter {cs : List Command} {s : Board κ} {m : Machine}
      (hs : BoardRun env dev fuel s0 cs .logging s)
      (hrun : Prog.Exec (fwStep env) (fun _ => RxStep) (logProcessTurn fuel) s.machine
        (.error .repl) m) : BoardRun env dev fuel s0 cs .command (s.withMachine m)
  | command {cs : List Command} {s s' : Board κ} (c : Command)
      (hs : BoardRun env dev fuel s0 cs .command s) (hc : c ≠ .reset)
      (hrun : (c.code fuel).run (sysStep env dev) s = (.ok (), s')) :
      BoardRun env dev fuel s0 (cs ++ [c]) .command s'
  | hang {cs : List Command} {s s' : Board κ} {e : Stop} (c : Command)
      (hs : BoardRun env dev fuel s0 cs .command s) (hc : c ≠ .reset)
      (hrun : (c.code fuel).run (sysStep env dev) s = (.error e, s')) :
      BoardRun env dev fuel s0 (cs ++ [c]) .stopped s'
  | power {cs : List Command} {mode : Mode} {s : Board κ}
      (hs : BoardRun env dev fuel s0 cs mode s) : BoardRun env dev fuel s0 cs .off s
  | reset {cs : List Command} {s : Board κ} (hs : BoardRun env dev fuel s0 cs .command s) :
      BoardRun env dev fuel s0 (cs ++ [.reset]) .off s

end Board

end Barelog
