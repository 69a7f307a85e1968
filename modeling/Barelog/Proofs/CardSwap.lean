import Barelog.Lib.Watch
import Barelog.Proofs.Escape
import Barelog.Proofs.RingTail
import Barelog.Proofs.SpiClock

/-! The `sync` command and the cards that are swapped: in command mode nothing is pending, so all
it writes is the directory sector of the log file, on whatever card is in the slot. -/

namespace Barelog

open Prog Wire

variable {κ : Type} {env : Env} {dev : Device κ} {fuel : ℕ} {s0 s s' : Board κ}

/-! The ring indices over a part of the firmware. -/

def SysTail : SysOp → Prop
  | .fw o => ∀ t, o ≠ .setTail t
  | .spi _ => True

abbrev SysKeepsTail {α : Type} (p : Sys α) : Prop := p.Only (fun _ _ => True) SysTail

theorem onMachine_tail {α : Type} {p : Fw α} (hp : KeepsTail p) : SysKeepsTail (onMachine p) := by
  induction p with
  | ret a => trivial
  | fail e => trivial
  | act o k ih =>
    refine ⟨?_, fun r _ => ih r (hp.2 r ?_)⟩
    · rintro t rfl
      exact hp.1
    · cases o <;> trivial

theorem onBus_tail {α : Type} (p : Spi α) :
    (onBus p).Only (fun _ _ => True) SysTail := by
  induction p with
  | ret a => trivial
  | fail e => trivial
  | act o k ih => exact ⟨trivial, fun r _ => ih r⟩

theorem sdInitCode_tail : SysKeepsTail sdInitCode :=
  only_handle (only_bind (onBus_tail _) fun _ => trivial) fun _ => trivial

theorem orHalt_tail {f : Sys ℤ} (hf : SysKeepsTail f) : SysKeepsTail (orHalt f) :=
  only_bind hf fun _ => only_ite (fun _ => trivial) fun _ => trivial

theorem startUp_tail (fuel : ℕ) (rxLow : Bool) : SysKeepsTail (startUp fuel rxLow) := by
  have hcard : SysKeepsTail (startCard fuel) :=
    only_bind (only_perform trivial) fun _ => only_bind (orHalt_tail sdInitCode_tail) fun _ =>
      only_bind (orHalt_tail (onMachine_tail fat32Mount_tail.returnCode)) fun _ =>
        orHalt_tail (onMachine_tail (fat32OpenLog_tail fuel).returnCode)
  rw [startUp_eq]
  refine only_bind (onMachine_tail configLoad_tail) fun _ => only_bind (onMachine_tail ?_) fun r => ?_
  · exact only_perform trivial
  · exact only_ite (fun _ => only_bind (onMachine_tail factoryReset_tail) fun _ => hcard) fun _ => hcard

theorem code_tail (fuel : ℕ) {c : Command} (hc : c ≠ .sync) : SysKeepsTail (c.code fuel) := by
  cases c with
  | sync => exact absurd rfl hc
  | init => exact only_bind sdInitCode_tail fun _ =>
      only_ite (fun _ => onMachine_tail (ignoreCode_ram fat32Mount_tail)) fun _ => trivial
  | trimFree => exact onMachine_tail (ignoreCode_ram fat32TrimFree_tail)
  | trimFuller => exact onMachine_tail (getRam_bind_ram fun _ _ => only_perform trivial)
  | trimFull => exact onMachine_tail (getRam_bind_ram fun _ _ => only_perform trivial)
  | _ => trivial

theorem sysTail_run {α : Type} {p : Sys α} (hp : SysKeepsTail p) {r : Except Stop α}
    (hrun : p.run (sysStep env dev) s = (r, s')) :
    s'.machine.ringHead = s.machine.ringHead ∧ s'.machine.ringTail = s.machine.ringTail := by
  have hstep : ∀ (o : SysOp) (t : Board κ), SysTail o → t.machine.ringHead = s.machine.ringHead ∧
      t.machine.ringTail = s.machine.ringTail → True ∧
      (sysStep env dev o t).2.machine.ringHead = s.machine.ringHead ∧
      (sysStep env dev o t).2.machine.ringTail = s.machine.ringTail := by
    intro o t ho ht
    cases o with
    | fw o =>
      obtain ⟨hhead, htail⟩ := fwStep_indices env o ho t.machine
      exact ⟨trivial, hhead.trans ht.1, htail.trans ht.2⟩
    | spi o => exact ⟨trivial, ht⟩
  have hinv := Only.invariant (I := fun t : Board κ => t.machine.ringHead = s.machine.ringHead ∧
    t.machine.ringTail = s.machine.ringTail) hp hstep ⟨rfl, rfl⟩
  rwa [hrun] at hinv

/-! `sync` with nothing pending. -/

theorem sync_run (hs : s.machine.unread = 0) {r : Except Stop Unit}
    (hrun : (Command.sync.code fuel).run (sysStep env dev) s = (r, s')) :
    r = .ok () ∧ s'.machine.unread = 0 ∧
      s'.machine.events = s.machine.events ++ s.machine.flushEvents env := by
  obtain ⟨m, hflush, hhead, htail, hevents⟩ := logFlush_idle env fuel hs
  change (onMachine (logFlush fuel)).run (sysStep env dev) s = (r, s') at hrun
  rw [onMachine_run, hflush] at hrun
  obtain ⟨rfl, rfl⟩ := Prod.mk.inj hrun
  refine ⟨rfl, ?_, hevents⟩
  rw [← hs, Machine.unread, Machine.unread]
  exact congrArg₂ ringCount hhead htail

/-! The life of the board. -/

/-- The ring indices are in range while the board logs, and nothing is pending in command mode. -/
structure Pending (mode : Mode) (m : Machine) : Prop where
  logging : mode = .logging → RingOk m
  command : mode = .command → m.unread = 0

theorem fresh_start {m : Machine} (hm : RingOk m) :
    Fresh m m.ram.cfg [] m.ram.escSeen m.ringTail m :=
  ⟨hm, rfl, rfl, rfl, [], (List.append_nil _).symm, List.append_nil _⟩

theorem turn_ok {m m' : Machine} {b : Bool} (hm : RingOk m)
    (hrun : Exec (fwStep env) (fun _ => RxStep) (logProcessTurn fuel) m (.ok b) m') : RingOk m' := by
  cases turn_exec (fresh_start hm) hrun with
  | idle h => exact h.ok
  | sector hscan h => exact h.ok

theorem flush_ok {m m' : Machine} (hm : RingOk m)
    (hrun : Exec (fwStep env) (fun _ => RxStep) (logFlush fuel) m (.ok ()) m') : RingOk m' := by
  obtain ⟨m1, hrx, hrest⟩ := Exec.act_inv hrun
  have hok : Stable RxStep RingOk := fun _ _ h => h.ok
  have hm1 : RingOk m1 := hok.star _ _ hrx hm
  obtain ⟨-, hret⟩ := flush_exec (fresh_start hm1) hrest
  obtain ⟨tail, h⟩ := hret rfl
  exact h.ok

theorem command_unread {c : Command} (hs : s.machine.unread = 0) {r : Except Stop Unit}
    (hrun : (c.code fuel).run (sysStep env dev) s = (r, s')) : s'.machine.unread = 0 := by
  by_cases hc : c = .sync
  · subst hc
    exact (sync_run hs hrun).2.1
  · obtain ⟨hhead, htail⟩ := sysTail_run (code_tail fuel hc) hrun
    rw [Machine.unread, hhead, htail]
    exact hs

theorem BoardRun.pending {cs : List Command} {mode : Mode}
    (hs : BoardRun env dev fuel s0 cs mode s) : Pending mode s.machine := by
  induction hs with
  | start => exact ⟨nofun, nofun⟩
  | swap k d hs ih => exact ⟨fun h => ⟨(ih.logging h).head, (ih.logging h).tail⟩, ih.command⟩
  | boot hs hrun ih =>
    obtain ⟨hhead, htail⟩ := sysTail_run (startUp_tail _ _) hrun
    refine ⟨fun _ => ⟨?_, ?_⟩, nofun⟩
    · exact hhead.trans_lt (show 0 < 1024 by decide)
    · exact htail.trans_lt (show 0 < 1024 by decide)
  | halt hs hrun ih => exact ⟨nofun, nofun⟩
  | rx hs hrx ih => exact ⟨fun h => hrx.ok (ih.logging h), nofun⟩
  | turn hs hrun ih => exact ⟨fun h => turn_ok (ih.logging h) hrun, nofun⟩
  | flush hs hrun ih => exact ⟨fun h => flush_ok (ih.logging h) hrun, nofun⟩
  | enter hs hrun ih =>
    refine ⟨nofun, fun _ => ?_⟩
    cases turn_exec (fresh_start (ih.logging rfl)) hrun with
    | stopped h =>
      obtain ⟨w, -, hentered⟩ := h rfl
      exact hentered.empty
  | command c hs hc hrun ih => exact ⟨nofun, fun _ => command_unread (ih.command rfl) hrun⟩
  | hang c hs hc hrun ih => exact ⟨nofun, nofun⟩
  | power hs ih => exact ⟨nofun, nofun⟩
  | reset hs ih => exact ⟨nofun, nofun⟩

/-- What a step from `s` to `s'` does to the card in the slot. -/
def Board.written (s s' : Board κ) : List (ℕ × CardEvent) :=
  (s'.machine.events.drop s.machine.events.length).map fun e => (s.slot, e)

theorem written_sync (hs : s.machine.unread = 0) {r : Except Stop Unit}
    (hrun : (Command.sync.code fuel).run (sysStep env dev) s = (r, s')) :
    s.written s' = (s.machine.flushEvents env).map fun e => (s.slot, e) := by
  rw [Board.written, (sync_run hs hrun).2.2, List.drop_left]

/-- In command mode `sync` writes on no card but the one on which the log file was opened, exactly
if that card is in the slot or the one in the slot does not take the write. -/
theorem sync_card_iff {cs : List Command} {r : Except Stop Unit}
    (hs : BoardRun env dev fuel s0 cs .command s)
    (hrun : (Command.sync.code fuel).run (sysStep env dev) s = (r, s')) :
    (∀ w ∈ s.written s', w.1 = s.opened) ↔
      s.slot = s.opened ∨ ¬ flushLands env s.machine.reqs := by
  rw [written_sync (hs.pending.command rfl) hrun, Machine.flushEvents]
  split_ifs with hlands
  · simp [hlands]
  · simp [hlands]

/-- After the boot the card on which the log file was opened is in the slot. -/
theorem sync_same_card : ∃ s s', BoardRun Env.ideal (streamDevice readyCard) 64 logBoard [] .command s ∧
    ((∀ w ∈ s.written s', w.1 = s.opened) ↔
      s.slot = s.opened ∨ ¬ flushLands Env.ideal s.machine.reqs) := by
  obtain ⟨s, hs, -⟩ := logBoard_command
  exact ⟨s, _, hs, sync_card_iff hs rfl⟩

/-! A card swap, `init` and `sync`. -/

/-- On a device that ignores chip select a calm function does the same from two states of the bus
with the device in one state. -/
theorem Calm.agree {α : Type} {p : Spi α} (hp : Calm p) (input : ℕ → Byte) {b b' : Bus ℕ}
    (hb : b'.device = b.device ∧ b'.sdhc = b.sdhc) :
    (p.run (spiStep (streamDevice input)) b').1 = (p.run (spiStep (streamDevice input)) b).1 := by
  refine (Only.lockstep (R := fun t' t : Bus ℕ => t'.device = t.device ∧ t'.sdhc = t.sdhc)
    (Exits.only hp trivial) (fun o t' t ho ht => ?_) hb).1
  cases o with
  | transfer x => exact ⟨congrArg input ht.1, congrArg (· + 1) ht.1, ht.2⟩
  | getSdhc => exact ⟨ht.2, ht⟩
  | setSdhc sdhc => exact ⟨rfl, ht.1, rfl⟩
  | memGet i => exact ho.elim
  | _ => exact ⟨rfl, ht⟩

theorem readyCard_init (env : Env) {s : Board ℕ} (hs : s.bus.device = 0) :
    ∃ b, sdInitCode.run (sysStep env (streamDevice readyCard)) s = (.ok 0, { s with bus := b }) := by
  have hready : ∀ sdhc, (match (initSlow.run (spiStep (streamDevice readyCard))
      { Bus.start with sdhc := sdhc }).1 with
      | .ok _ => true
      | .error _ => false) = true := by decide +kernel
  have hagree : (initSlow.run (spiStep (streamDevice readyCard)) (enteredBus s.bus)).1 =
      (initSlow.run (spiStep (streamDevice readyCard)) { Bus.start with sdhc := s.bus.sdhc }).1 :=
    calm_initSlow.agree readyCard ⟨hs, rfl⟩
  have hok := hready s.bus.sdhc
  rw [← hagree] at hok
  rcases hslow : initSlow.run (spiStep (streamDevice readyCard)) (enteredBus s.bus) with ⟨r, b⟩
  rw [hslow] at hok
  cases r with
  | ok a => exact ⟨_, sdInitCode_ok env hslow⟩
  | error e => cases hok

theorem init_mounts (fuel : ℕ) {env : Env} (hgood : env.Good) {s : Board ℕ} (hs : s.bus.device = 0)
    (hcard : Mountable s.machine.card) :
    ∃ s', (Command.init.code fuel).run (sysStep env (streamDevice readyCard)) s = (.ok (), s') ∧
      s'.machine.ram.vol = volOf s.machine.card ∧ s'.slot = s.slot ∧ s'.opened = s.opened := by
  obtain ⟨b, hinit⟩ := readyCard_init env hs
  obtain ⟨m, hmount, hend⟩ := fat32Mount_good (s := s.machine) hgood hcard
  have hrun : (onMachine fat32Mount.ignoreCode).run (sysStep env (streamDevice readyCard))
      { s with bus := b } = (.ok (), { s with machine := m, bus := b }) := by
    rw [onMachine_run, ignoreCode_run hmount (.inl rfl)]
    rfl
  refine ⟨{ s with machine := m, bus := b }, ?_, congrArg Ram.vol hend.ram, rfl, rfl⟩
  rw [Command.code, cmdInit, run_bind_ok hinit, if_pos rfl, hrun]

/-- The log file is opened on card 0, which is swapped for card 1. `init` mounts card 1, and
`sync` rewrites one of its sectors. -/
theorem sync_other_card : ∃ s s',
    BoardRun Env.ideal (streamDevice readyCard) 64 logBoard [.init] .command s ∧
      s.machine.ram.vol = volOf bootCard ∧
      (Command.sync.code 64).run (sysStep Env.ideal (streamDevice readyCard)) s = (.ok (), s') ∧
      ¬ ∀ w ∈ s.written s', w.1 = s.opened := by
  have hgood : Env.ideal.Good := fun _ => rfl
  obtain ⟨s, hs, hslot, hopened, hcards⟩ := logBoard_command
  have hcard : (s.swap 1 0).machine.card = bootCard := by
    change Function.update s.cards s.slot s.machine.card 1 = bootCard
    rw [hslot, hcards]
    rfl
  obtain ⟨s1, hinit, hvol, hslot1, hopened1⟩ :=
    init_mounts 64 hgood (s := s.swap 1 0) rfl (hcard.symm ▸ bootCard_mountable)
  have hs1 := (hs.swap 1 0).command .init nofun hinit
  have hempty := hs1.pending.command rfl
  rcases hsync : (Command.sync.code 64).run (sysStep Env.ideal (streamDevice readyCard)) s1 with
    ⟨r, s2⟩
  obtain ⟨rfl, -⟩ := sync_run hempty hsync
  refine ⟨s1, s2, hs1, hvol.trans (congrArg volOf hcard), hsync, fun hall => ?_⟩
  have hlands : flushLands Env.ideal s1.machine.reqs := ⟨rfl, nofun, rfl⟩
  rw [written_sync hempty hsync, Machine.flushEvents, if_pos hlands] at hall
  have hsame : s1.slot = s1.opened := hall _ (List.mem_singleton_self _)
  rw [hslot1, hopened1] at hsame
  change 1 = s.opened at hsame
  omega

end Barelog
