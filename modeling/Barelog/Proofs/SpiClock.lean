import Barelog.Proofs.ChipSelect
import Barelog.Proofs.Mount
import Barelog.Spec.Repl

/-! The SPI clock over the life of the board. Only `spi_init` makes it slow, in `main`; after a
successful `sd_init` it is fast until the next reset. -/

namespace Barelog

open Prog Wire

variable {κ : Type} {env : Env} {dev : Device κ} {fuel : ℕ} {s0 s s' : Board κ}

theorem onMachine_run {α : Type} (p : Fw α) (s : Board κ) :
    (onMachine p).run (sysStep env dev) s =
      ((p.run (fwStep env) s.machine).1, s.withMachine (p.run (fwStep env) s.machine).2) := by
  induction p generalizing s with
  | ret a => rfl
  | fail e => rfl
  | act o k ih => exact ih _ _

theorem onBus_run {α : Type} (p : Spi α) (s : Board κ) :
    (onBus p).run (sysStep env dev) s =
      ((p.run (spiStep dev) s.bus).1, { s with bus := (p.run (spiStep dev) s.bus).2 }) := by
  induction p generalizing s with
  | ret a => rfl
  | fail e => rfl
  | act o k ih => exact ih _ _

theorem run_slot (env : Env) (dev : Device κ) {α : Type} (p : Sys α) (s : Board κ) :
    (p.run (sysStep env dev) s).2.slot = s.slot ∧ (p.run (sysStep env dev) s).2.cards = s.cards := by
  induction p generalizing s with
  | ret a => exact ⟨rfl, rfl⟩
  | fail e => exact ⟨rfl, rfl⟩
  | act o k ih =>
    have hstep : (sysStep env dev o s).2.slot = s.slot ∧ (sysStep env dev o s).2.cards = s.cards := by
      cases o <;> exact ⟨rfl, rfl⟩
    obtain ⟨hslot, hcards⟩ := ih (sysStep env dev o s).1 (sysStep env dev o s).2
    exact ⟨hslot.trans hstep.1, hcards.trans hstep.2⟩

/-! `sd_init`. -/

/-- Neither the clock, the history of `sd_init` nor the memory is touched. -/
def KeepsClock : SpiOp → Prop
  | .spiInit => False
  | .spiSetFast => False
  | .enterInit => False
  | .memGet _ => False
  | .memSet _ _ => False
  | _ => True

/-- Neither is touched, and a failure has a return code other than `SD_OK`. -/
abbrev Calm {α : Type} (p : Spi α) : Prop := p.Exits KeepsClock SpiOp.csRelease fun c => c ≠ 0

theorem Calm.run {α : Type} {p : Spi α} (hp : Calm p) (dev : Device κ) (b : Bus κ) :
    (p.run (spiStep dev) b).2.regs = b.regs ∧ (p.run (spiStep dev) b).2.inits = b.inits := by
  have hstep : ∀ (o : SpiOp) (t : Bus κ), KeepsClock o → t.regs = b.regs ∧ t.inits = b.inits →
      True ∧ (spiStep dev o t).2.regs = b.regs ∧ (spiStep dev o t).2.inits = b.inits := by
    intro o t ho ht
    cases o with
    | spiInit => exact ho.elim
    | spiSetFast => exact ho.elim
    | enterInit => exact ho.elim
    | memGet i => exact ho.elim
    | memSet i b => exact ho.elim
    | _ => exact ⟨trivial, ht⟩
  exact Only.invariant (Exits.only hp trivial) hstep ⟨rfl, rfl⟩

/-- `sd_init` up to where it makes the clock fast. -/
def initSlow : Spi Unit := do
  spiCsRelease
  forUp 0 10 fun _ => clock 0xFF
  spiCsAssert
  initCommands
  spiCsRelease

theorem calm_initSlow : Calm initSlow := by
  have hcommands : Calm initCommands := by
    refine Exits.mono probes_initCommands fun o ho => ?_
    cases o with
    | transfer b => exact trivial
    | getSdhc => exact trivial
    | setSdhc b => exact trivial
    | _ => exact ho.elim
  have hclock : Calm (clock 0xFF) := exits_bind (exits_perform trivial) fun _ => exits_pure ()
  exact exits_bind (exits_perform trivial) fun _ => exits_bind (exits_forUp fun _ => hclock) fun _ =>
    exits_bind (exits_perform trivial) fun _ => exits_bind hcommands fun _ => exits_perform trivial

theorem sdInit_eq : sdInit = (spiOp .enterInit >>= fun _ => initSlow >>= fun _ => spiSetFast) := by
  rw [initSlow]
  simp only [bind_assoc]
  rfl

def enteredBus (b : Bus κ) : Bus κ := { b with inits := b.inits ++ [b.regs] }

theorem sdInit_run (dev : Device κ) (b : Bus κ) : sdInit.run (spiStep dev) b =
    (initSlow >>= fun _ => spiSetFast).run (spiStep dev) (enteredBus b) := by
  have henter : (spiOp .enterInit).run (spiStep dev) b = (.ok (), enteredBus b) := rfl
  rw [sdInit_eq, run_bind_ok henter]

theorem sdInitCode_ok (env : Env) {a : Unit} {b : Bus κ}
    (hslow : initSlow.run (spiStep dev) (enteredBus s.bus) = (.ok a, b)) :
    sdInitCode.run (sysStep env dev) s = (.ok 0, { s with bus := { b with regs := .fast } }) := by
  have hfast : spiSetFast.run (spiStep dev) b = (.ok (), { b with regs := .fast }) := rfl
  have hboard : (onBus sdInit).run (sysStep env dev) s =
      (.ok (), { s with bus := { b with regs := .fast } }) := by
    rw [onBus_run, sdInit_run, run_bind_ok hslow, hfast]
  rw [sdInitCode, handle_run, run_bind_ok hboard]
  rfl

/-- `sd_init` notes the clock it starts with. It makes the clock fast if it succeeds, and else
leaves it as it is. -/
theorem sdInitCode_run (env : Env) (dev : Device κ) (s : Board κ) :
    ∃ ret b, sdInitCode.run (sysStep env dev) s = (.ok ret, { s with bus := b }) ∧
      b.inits = s.bus.inits ++ [s.bus.regs] ∧
      (b.regs = .fast ∨ ret ≠ 0 ∧ b.regs = s.bus.regs) := by
  obtain ⟨hregs, hinits⟩ := calm_initSlow.run dev (enteredBus s.bus)
  rcases hslow : initSlow.run (spiStep dev) (enteredBus s.bus) with ⟨r, b⟩
  rw [hslow] at hregs hinits
  cases r with
  | ok a => exact ⟨0, { b with regs := .fast }, sdInitCode_ok env hslow, hinits, .inl rfl⟩
  | error e =>
    have hboard : (onBus sdInit).run (sysStep env dev) s = (.error e, { s with bus := b }) := by
      rw [onBus_run, sdInit_run, run_bind_error hslow]
    have hexec : Exec (spiStep dev) (fun _ _ _ => False) initSlow _ (.error e) b := exec_of_run hslow
    refine ⟨e, b, ?_, hinits, .inr ⟨hexec.fails (Exits.fails calm_initSlow), hregs⟩⟩
    rw [sdInitCode, handle_run, run_bind_error hboard]
    rfl

/-! `main`. -/

theorem onMachine_bus {α : Type} {p : Fw α} {r : Except Stop α}
    (hrun : (onMachine p).run (sysStep env dev) s = (r, s')) : s'.bus = s.bus := by
  rw [onMachine_run] at hrun
  rw [← (Prod.mk.inj hrun).2]
  rfl

theorem orHalt_cases {f : Sys ℤ} {r : Except Stop Unit}
    (hrun : (orHalt f).run (sysStep env dev) s = (r, s')) :
    (∃ ret, f.run (sysStep env dev) s = (.ok ret, s') ∧ (r = .ok () → ret = 0)) ∨
      ∃ e, f.run (sysStep env dev) s = (.error e, s') ∧ r = .error e := by
  rcases bind_ended hrun with ⟨ret, s1, hf, hrun⟩ | ⟨e, hf, hr⟩
  swap
  · exact .inr ⟨e, hf, hr⟩
  · by_cases hret : ret = 0
    · rw [if_neg (not_not.mpr hret)] at hrun
      cases hrun
      exact .inl ⟨ret, hf, fun _ => hret⟩
    · rw [if_pos hret] at hrun
      cases hrun
      exact .inl ⟨ret, hf, nofun⟩

theorem orHalt_bus {p : Fw ℤ} {r : Except Stop Unit}
    (hrun : (orHalt (onMachine p)).run (sysStep env dev) s = (r, s')) : s'.bus = s.bus := by
  rcases orHalt_cases hrun with ⟨ret, hp, -⟩ | ⟨e, hp, -⟩
  · exact onMachine_bus hp
  · exact onMachine_bus hp

def startCard (fuel : ℕ) : Sys Unit := do
  Prog.perform (S := sysSig) (.spi .spiInit)
  orHalt sdInitCode
  orHalt (onMachine fat32Mount.returnCode)
  orHalt (onMachine (fat32OpenLog fuel).returnCode)

theorem startCard_clock {r : Except Stop Unit}
    (hrun : (startCard fuel).run (sysStep env dev) s = (r, s')) :
    s'.bus.inits = s.bus.inits ++ [.slow] ∧ (r = .ok () → s'.bus.regs = .fast) := by
  have hspi : (Prog.perform (S := sysSig) (.spi .spiInit) : Sys Unit).run (sysStep env dev) s =
      (.ok (), { s with bus := { s.bus with regs := .slow, csHigh := true } }) := rfl
  rw [startCard, run_bind_ok hspi] at hrun
  obtain ⟨ret, b, hinit, hinits, hfast⟩ := sdInitCode_run env dev
    { s with bus := { s.bus with regs := .slow, csHigh := true } }
  rcases bind_ended hrun with ⟨_, s1, hhalt, hrun⟩ | ⟨e, hhalt, rfl⟩
  swap
  · rcases orHalt_cases hhalt with ⟨ret', h, -⟩ | ⟨e', h, -⟩
    all_goals
      rw [hinit] at h
      cases h
    exact ⟨hinits, nofun⟩
  · rcases orHalt_cases hhalt with ⟨ret', h, hret⟩ | ⟨e', h, -⟩
    all_goals
      rw [hinit] at h
      cases h
    have hbus : s'.bus = b := by
      rcases bind_ended hrun with ⟨_, s2, hmount, hrun⟩ | ⟨e, hmount, -⟩
      · exact (orHalt_bus hrun).trans (orHalt_bus hmount)
      · exact orHalt_bus hmount
    rw [hbus]
    exact ⟨hinits, fun _ => hfast.resolve_right fun h => h.1 (hret rfl)⟩

theorem startUp_eq (fuel : ℕ) (rxLow : Bool) : startUp fuel rxLow = (onMachine configLoad >>= fun _ =>
    onMachine getRam >>= fun r =>
    if rxLow = true ∧ r.cfg.flags &&& cfgFlIgnoreRxRst = 0 then
      onMachine factoryReset >>= fun _ => startCard fuel
    else startCard fuel) := rfl

/-- `main` enters `sd_init` with a slow clock, and gets to the logger with a fast one. -/
theorem startUp_clock {rxLow : Bool} {r : Except Stop Unit}
    (hrun : (startUp fuel rxLow).run (sysStep env dev) s = (r, s')) :
    (s'.bus.inits = s.bus.inits ∨ s'.bus.inits = s.bus.inits ++ [.slow]) ∧
      (r = .ok () → s'.bus.regs = .fast) := by
  rw [startUp_eq] at hrun
  rcases bind_ended hrun with ⟨_, s1, hload, hrun⟩ | ⟨e, hload, rfl⟩
  swap
  · exact ⟨.inl (congrArg Bus.inits (onMachine_bus hload)), nofun⟩
  rcases bind_ended hrun with ⟨ram, s2, hram, hrun⟩ | ⟨e, hram, rfl⟩
  swap
  · exact ⟨.inl (congrArg Bus.inits ((onMachine_bus hram).trans (onMachine_bus hload))), nofun⟩
  have hbus : s2.bus = s.bus := (onMachine_bus hram).trans (onMachine_bus hload)
  split at hrun
  · rcases bind_ended hrun with ⟨_, s3, hreset, hrun⟩ | ⟨e, hreset, rfl⟩
    · obtain ⟨hinits, hfast⟩ := startCard_clock hrun
      rw [onMachine_bus hreset, hbus] at hinits
      exact ⟨.inr hinits, hfast⟩
    · exact ⟨.inl (congrArg Bus.inits ((onMachine_bus hreset).trans hbus)), nofun⟩
  · obtain ⟨hinits, hfast⟩ := startCard_clock hrun
    rw [hbus] at hinits
    exact ⟨.inr hinits, hfast⟩

/-! The commands. -/

theorem code_bus {c : Command} (hc : c ≠ .init) {r : Except Stop Unit}
    (hrun : (c.code fuel).run (sysStep env dev) s = (r, s')) : s'.bus = s.bus := by
  cases c with
  | init => exact absurd rfl hc
  | sync => exact onMachine_bus hrun
  | trimFree => exact onMachine_bus hrun
  | trimFuller => exact onMachine_bus hrun
  | trimFull => exact onMachine_bus hrun
  | _ => rw [← (Prod.mk.inj hrun).2]

/-- `init` enters `sd_init` with the clock as it is, and a fast clock stays fast. -/
theorem cmdInit_clock {r : Except Stop Unit} (hrun : cmdInit.run (sysStep env dev) s = (r, s'))
    (hfast : s.bus.regs = .fast) : s'.bus.inits = s.bus.inits ++ [.fast] ∧ s'.bus.regs = .fast := by
  obtain ⟨ret, b, hinit, hinits, hregs⟩ := sdInitCode_run env dev s
  rw [hfast] at hinits hregs
  have hb : b.regs = .fast := hregs.elim id And.right
  rw [cmdInit, run_bind_ok hinit] at hrun
  split at hrun
  · rw [onMachine_bus hrun]
    exact ⟨hinits, hb⟩
  · cases hrun
    exact ⟨hinits, hb⟩

/-! The life of the board. -/

/-- Every `sd_init` so far started with a slow clock exactly if `init` is not in `cs`, and the
clock is fast from the logger on. -/
structure Clocked (cs : List Command) (mode : Mode) (b : Bus κ) : Prop where
  slow : (∀ r ∈ b.inits, r = .slow) ↔ .init ∉ cs
  fast : mode = .logging ∨ mode = .command → b.regs = .fast

theorem slow_append {l : List SpiRegs} {r : SpiRegs} :
    (∀ x ∈ l ++ [r], x = .slow) ↔ (∀ x ∈ l, x = .slow) ∧ r = .slow := by
  simp [or_imp, forall_and]

theorem Clocked.boot {cs : List Command} {mode mode' : Mode} {rxLow : Bool} {r : Except Stop Unit}
    (h : Clocked cs mode s.bus)
    (hrun : (startUp fuel rxLow).run (sysStep env dev) s.restarted = (r, s'))
    (hmode : mode' = .logging ∨ mode' = .command → r = .ok ()) : Clocked cs mode' s'.bus := by
  obtain ⟨hinits, hfast⟩ := startUp_clock hrun
  refine ⟨?_, fun hm => hfast (hmode hm)⟩
  rw [← h.slow]
  rcases hinits with hinits | hinits
  · rw [hinits]
    rfl
  · rw [hinits, slow_append]
    exact and_iff_left rfl

theorem Clocked.command {cs : List Command} {mode : Mode} {c : Command} {r : Except Stop Unit}
    (h : Clocked cs .command s.bus) (hrun : (c.code fuel).run (sysStep env dev) s = (r, s')) :
    Clocked (cs ++ [c]) mode s'.bus := by
  have hfast := h.fast (.inr rfl)
  by_cases hc : c = .init
  · subst hc
    obtain ⟨hinits, hfast'⟩ := cmdInit_clock hrun hfast
    refine ⟨?_, fun _ => hfast'⟩
    rw [hinits, slow_append]
    simp [SpiRegs.fast, SpiRegs.slow]
  · rw [code_bus hc hrun]
    refine ⟨?_, fun _ => hfast⟩
    rw [h.slow]
    simp [Ne.symm hc]

theorem BoardRun.clocked {cs : List Command} {mode : Mode}
    (hs : BoardRun env dev fuel s0 cs mode s) (h0 : s0.bus.inits = []) :
    Clocked cs mode s.bus := by
  induction hs with
  | start => exact ⟨by simp [h0], by simp⟩
  | swap k d hs ih => exact ⟨ih.slow, ih.fast⟩
  | boot hs hrun ih =>
    have h : Clocked _ .logging _ := ih.boot hrun fun _ => rfl
    exact ⟨h.slow, h.fast⟩
  | halt hs hrun ih => exact ih.boot hrun (by simp)
  | rx hs hrx ih => exact ⟨ih.slow, ih.fast⟩
  | turn hs hrun ih => exact ⟨ih.slow, ih.fast⟩
  | flush hs hrun ih => exact ⟨ih.slow, ih.fast⟩
  | enter hs hrun ih => exact ⟨ih.slow, fun _ => ih.fast (.inl rfl)⟩
  | command c hs hc hrun ih => exact ih.command hrun
  | hang c hs hc hrun ih => exact ih.command hrun
  | power hs ih => exact ⟨ih.slow, by simp⟩
  | reset hs ih => exact ⟨by simp [ih.slow], by simp⟩

/-- In a run of the board every `sd_init` starts with a slow clock exactly if the `init` command
is not executed. -/
theorem init_slow_iff {cs : List Command} {mode : Mode} (hs : BoardRun env dev fuel s0 cs mode s)
    (h0 : s0.bus.inits = []) : (∀ r ∈ s.bus.inits, r = .slow) ↔ .init ∉ cs :=
  (hs.clocked h0).slow

/-! A board that gets to command mode. -/

def logFat : Sector := fun i =>
  if i < 12 ∨ 72 ≤ i ∧ i < 75 then 0xFF
  else if i = 75 then 0x0F
  else if i < 72 ∧ i % 4 = 0 then .ofNat (i / 4 + 1)
  else 0

def logDir : Sector := fun i =>
  if i < 11 then makeLogname 1 i
  else if i = 11 then 0x20
  else if i = 26 then 3
  else if i = 30 then 0x10
  else 0

def logCard : ℕ → Sector := Function.update (Function.update bootCard 10 logFat) 11 logDir

def logEeprom : ℕ → Byte := savedConfig { configDefaults with preallocCode := 0 } fun _ => 0

/-- A board with `logCard` in the slot. The other cards are formatted and empty. -/
def logBoard : Board ℕ where
  machine := .powerUp logCard logEeprom
  bus := .start
  slot := 0
  cards := fun _ => bootCard
  opened := 0

def entersRepl : Except Stop Unit × Board ℕ → Bool
  | (.ok _, s) =>
    match ((logProcessTurn 64).run (fwStep Env.ideal) ((rxIsr 0x1A)^[512] s.machine)).1 with
    | .error .repl => s.machine.rxEnabled
    | _ => false
  | _ => false

theorem entersRepl_cases {out : Except Stop Unit × Board ℕ} (h : entersRepl out = true) :
    out.1 = .ok () ∧ out.2.machine.rxEnabled = true ∧
      ((logProcessTurn 64).run (fwStep Env.ideal) ((rxIsr 0x1A)^[512] out.2.machine)).1 =
        .error .repl := by
  unfold entersRepl at h
  split at h
  · split at h
    · exact ⟨rfl, h, ‹_›⟩
    · cases h
  · cases h

theorem BoardRun.receives {cs : List Command} (hs : BoardRun env dev fuel s0 cs .logging s)
    (hon : s.machine.rxEnabled = true) (b : Byte) (n : ℕ) :
    BoardRun env dev fuel s0 cs .logging (s.withMachine ((rxIsr b)^[n] s.machine)) ∧
      ((rxIsr b)^[n] s.machine).rxEnabled = true := by
  induction n with
  | zero => exact ⟨hs, hon⟩
  | succ n ih =>
    rw [Function.iterate_succ_apply']
    refine ⟨ih.1.rx ⟨ih.2, b, rfl⟩, ?_⟩
    rw [rxIsr]
    split_ifs
    · exact ih.2
    · exact ih.2

theorem BoardRun.enters {cs : List Command} (hs : BoardRun env dev fuel s0 cs .logging s)
    (hon : s.machine.rxEnabled = true) (b : Byte) (n : ℕ)
    (hrepl : ((logProcessTurn fuel).run (fwStep env) ((rxIsr b)^[n] s.machine)).1 = .error .repl) :
    ∃ m, BoardRun env dev fuel s0 cs .command (s.withMachine m) := by
  have hturn := exec_run (h := fwStep env) (fun _ => RxStep) (logProcessTurn fuel)
    ((rxIsr b)^[n] s.machine)
  rw [hrepl] at hturn
  exact ⟨_, (hs.receives hon b n).1.enter hturn⟩

/-- After the boot, a sector of escape characters is received. -/
theorem logBoard_command : ∃ s,
    BoardRun Env.ideal (streamDevice readyCard) 64 logBoard [] .command s ∧
      s.slot = 0 ∧ s.opened = 0 ∧ s.cards = fun _ => bootCard := by
  have htest : entersRepl ((startUp 64 false).run (sysStep Env.ideal (streamDevice readyCard))
      logBoard.restarted) = true := by decide +kernel
  obtain ⟨hok, hon, hrepl⟩ := entersRepl_cases htest
  generalize hout : (startUp 64 false).run (sysStep Env.ideal (streamDevice readyCard))
    logBoard.restarted = out at hok hon hrepl
  obtain ⟨r, s⟩ := out
  obtain rfl : r = .ok () := hok
  have hrest := run_slot Env.ideal (streamDevice readyCard) (startUp 64 false) logBoard.restarted
  rw [hout] at hrest
  obtain ⟨hslot, hcards⟩ := hrest
  obtain ⟨m, hcommand⟩ := (BoardRun.start.boot hout).enters hon 0x1A 512 hrepl
  exact ⟨_, hcommand, hslot, hslot, hcards⟩

/-- A boot: `sd_init` starts with a slow clock. -/
theorem init_slow_boot : ∃ mode s,
    BoardRun Env.ideal (streamDevice readyCard) 64 logBoard [] mode s ∧
      ((∀ r ∈ s.bus.inits, r = .slow) ↔ .init ∉ ([] : List Command)) := by
  obtain ⟨s, hs, -⟩ := logBoard_command
  exact ⟨.command, s, hs, init_slow_iff hs rfl⟩

/-- The `init` command: `sd_init` starts with a fast clock. -/
theorem init_fast_command : ∃ mode s,
    BoardRun Env.ideal (streamDevice readyCard) 64 logBoard [.init] mode s ∧
      ¬ ∀ r ∈ s.bus.inits, r = .slow := by
  obtain ⟨s, hs, -⟩ := logBoard_command
  have hrun : ∃ mode s', BoardRun Env.ideal (streamDevice readyCard) 64 logBoard [.init] mode s' := by
    rcases hinit : (Command.init.code 64).run (sysStep Env.ideal (streamDevice readyCard)) s with
      ⟨r, s'⟩
    cases r with
    | ok a => exact ⟨_, _, hs.command .init nofun hinit⟩
    | error e => exact ⟨_, _, hs.hang .init nofun hinit⟩
  obtain ⟨mode, s', hs'⟩ := hrun
  refine ⟨mode, s', hs', fun hslow => ?_⟩
  exact (hs'.clocked rfl).slow.mp hslow (by decide)

end Barelog
