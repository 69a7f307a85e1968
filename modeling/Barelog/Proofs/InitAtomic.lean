import Barelog.Proofs.CardSwap
import Barelog.Proofs.InitSound

/-! An `init` that fails. `fat32_mount` stores the volume only after its last test, but `sd_init`
stores the addressing mode of the card in the slot before CMD16 and before the mount. -/

namespace Barelog

open Prog Wire

variable {κ : Type} {env : Env} {dev : Device κ} {s s' : Board κ}

def initCode (dev : Device κ) (b : Bus κ) : ℤ :=
  match (Wire.sdInit.run (spiStep dev) b).1 with
  | .ok _ => 0
  | .error e => e

theorem sdInitCode_bus (env : Env) (dev : Device κ) (s : Board κ) :
    sdInitCode.run (sysStep env dev) s =
      (.ok (initCode dev s.bus), { s with bus := (Wire.sdInit.run (spiStep dev) s.bus).2 }) := by
  have hboard : (onBus Wire.sdInit).run (sysStep env dev) s = _ := onBus_run Wire.sdInit s
  rw [sdInitCode, handle_run, run_bind, hboard, initCode]
  cases (Wire.sdInit.run (spiStep dev) s.bus).1 <;> rfl

theorem mountCode_run (env : Env) (m : Machine) :
    ∃ ret m', fat32Mount.returnCode.run (fwStep env) m = (.ok ret, m') ∧
      fat32Mount.ignoreCode.run (fwStep env) m = (.ok (), m') ∧ (ret ≠ 0 → m'.ram = m.ram) := by
  rcases hmount : fat32Mount.run (fwStep env) m with ⟨r, m'⟩
  rcases fat32Mount_cases hmount with ⟨rfl, -, -⟩ | ⟨⟨c, rfl⟩, hend, -⟩
  · refine ⟨0, m', ?_, ignoreCode_run hmount (.inl rfl), fun h => absurd rfl h⟩
    rw [Fw.returnCode, handle_run, run_bind_ok hmount]
    rfl
  · refine ⟨c, m', ?_, ignoreCode_run hmount (.inr ⟨c, rfl⟩), fun _ => hend.ram⟩
    rw [Fw.returnCode, handle_run, run_bind_error hmount]
    rfl

/-- `init` ends with the bus as `sd_init` leaves it, and reports a failure with the module variables
as they were. -/
theorem cmdInitReport_run (env : Env) (dev : Device κ) (s : Board κ) :
    ∃ b s', cmdInitReport.run (sysStep env dev) s = (.ok b, s') ∧
      cmdInit.run (sysStep env dev) s = (.ok (), s') ∧
      s'.bus = (Wire.sdInit.run (spiStep dev) s.bus).2 ∧
      (b = false → s'.machine.ram = s.machine.ram) := by
  have hinit := sdInitCode_bus env dev s
  rw [cmdInitReport, cmdInit, run_bind_ok hinit, run_bind_ok hinit]
  by_cases hcode : initCode dev s.bus = 0
  · rw [if_neg (not_not.mpr hcode), if_pos hcode]
    obtain ⟨ret, m, hret, hignore, hram⟩ := mountCode_run env s.machine
    refine ⟨decide (ret = 0), ⟨m, (Wire.sdInit.run (spiStep dev) s.bus).2, s.slot, s.cards, s.opened⟩,
      ?_, ?_, rfl, fun h => hram (of_decide_eq_false h)⟩
    · rw [run_bind, onMachine_run]
      simp only [hret]
      rfl
    · rw [onMachine_run]
      simp only [hignore]
      rfl
  · rw [if_pos hcode, if_neg hcode]
    exact ⟨false, _, rfl, rfl, rfl, fun _ => rfl⟩

/-- CMD58 was not answered 0x00, or the byte after says that the addressing mode is `sdhc`. -/
def SameMode (sdhc : Bool) (c : CmdRecord) : Prop :=
  c.cmd = 58 → c.r1 = some 0x00 → decide (c.tail.getD 0 0 &&& 0x40 ≠ 0) = sdhc

theorem sameMode_of_ocr {sdhc : Bool} {c : CmdRecord} (h : OcrOk sdhc c) : SameMode sdhc c := by
  intro _ _
  obtain ⟨ocr, rest, htail, hsdhc⟩ := h.ccs
  rw [htail, List.getD_cons_zero, hsdhc]

/-- `sd_init`, successful or not, keeps the addressing mode exactly if every CMD58 that was answered
0x00 reports it. -/
theorem sdInit_mode_iff (dev : Device κ) (b : Bus κ) :
    (Wire.sdInit.run (spiStep dev) b).2.sdhc = b.sdhc ↔
      ∀ c ∈ commandLog (Wire.sdInit.transcript (spiStep dev) b), SameMode b.sdhc c := by
  obtain ⟨hfair, -⟩ := sdInit_logged dev b
  constructor
  · intro hsame c hc hcmd hr1
    rw [← hsame]
    exact sameMode_of_ocr (hfair.sent c (List.mem_reverse.mpr hc) hcmd hr1) hcmd hr1
  · intro hall
    by_cases hread : ∀ c ∈ (commandLog (Wire.sdInit.transcript (spiStep dev) b)).reverse,
        c.cmd = 58 → c.r1 ≠ some 0x00
    · exact hfair.kept hread
    · push Not at hread
      obtain ⟨c, hc, hcmd, hr1⟩ := hread
      rw [← sameMode_of_ocr (hfair.sent c hc hcmd hr1) hcmd hr1]
      exact hall c (List.mem_reverse.mp hc) hcmd hr1

/-- An `init` that reports a failure leaves the addressing mode and the volume as they were exactly
if the card did not report another addressing mode. -/
theorem failed_init_keeps_iff (hrun : cmdInitReport.run (sysStep env dev) s = (.ok false, s')) :
    s'.bus.sdhc = s.bus.sdhc ∧ s'.machine.ram.vol = s.machine.ram.vol ↔
      ∀ c ∈ commandLog (Wire.sdInit.transcript (spiStep dev) s.bus), SameMode s.bus.sdhc c := by
  obtain ⟨b, t, hrun', -, hbus, hram⟩ := cmdInitReport_run env dev s
  rw [hrun] at hrun'
  obtain ⟨hb, rfl⟩ := Prod.mk.inj hrun'
  have hvol : s'.machine.ram.vol = s.machine.ram.vol := by
    rw [hram (Except.ok.inj hb).symm]
  rw [hbus, ← sdInit_mode_iff]
  exact and_iff_left hvol

/-! Two boards with empty cards. -/

def initFails (dev : Device κ) (s : Board κ) : Bool :=
  match (cmdInitReport.run (sysStep Env.ideal dev) s).1 with
  | .ok b => !b
  | .error _ => false

theorem initFails_run (dev : Device κ) (s : Board κ) (h : initFails dev s = true) :
    ∃ s', cmdInitReport.run (sysStep Env.ideal dev) s = (.ok false, s') := by
  obtain ⟨b, s', hrun, -⟩ := cmdInitReport_run Env.ideal dev s
  rw [initFails, hrun] at h
  obtain rfl : b = false := by simpa using h
  exact ⟨s', hrun⟩

def emptyBoard : Board ℕ := ⟨.powerUp (fun _ _ => 0) fun _ => 0xFF, .start, 0, fun _ _ _ => 0, 0⟩

/-- With no card in the slot `init` fails at CMD0. -/
theorem failed_init_no_card : ∃ s',
    cmdInitReport.run (sysStep Env.ideal (streamDevice fun _ => 0xFF)) emptyBoard = (.ok false, s') ∧
      (s'.bus.sdhc = emptyBoard.bus.sdhc ∧ s'.machine.ram.vol = emptyBoard.machine.ram.vol ↔
        ∀ c ∈ commandLog (Wire.sdInit.transcript (spiStep (streamDevice fun _ => 0xFF))
          emptyBoard.bus), SameMode emptyBoard.bus.sdhc c) := by
  obtain ⟨s', hrun⟩ := initFails_run (streamDevice fun _ => 0xFF) emptyBoard (by decide +kernel)
  exact ⟨s', hrun, failed_init_keeps_iff hrun⟩

/-- A ready card that cannot be mounted turns the addressing mode to blocks. -/
theorem failed_init_changes_mode : ∃ s',
    cmdInitReport.run (sysStep Env.ideal (streamDevice readyCard)) emptyBoard = (.ok false, s') ∧
      ¬ (s'.bus.sdhc = emptyBoard.bus.sdhc ∧
        s'.machine.ram.vol = emptyBoard.machine.ram.vol) := by
  obtain ⟨s', hrun⟩ := initFails_run (streamDevice readyCard) emptyBoard (by decide +kernel)
  obtain ⟨b, t, hrun', -, hbus, -⟩ := cmdInitReport_run Env.ideal (streamDevice readyCard) emptyBoard
  rw [hrun] at hrun'
  obtain ⟨-, rfl⟩ := Prod.mk.inj hrun'
  have hmode : (Wire.sdInit.run (spiStep (streamDevice readyCard)) Bus.start).2.sdhc = true := by
    decide +kernel
  refine ⟨s', hrun, fun h => ?_⟩
  rw [hbus] at h
  exact absurd (hmode.symm.trans h.1) (by decide)

end Barelog
