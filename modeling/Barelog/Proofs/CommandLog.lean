import Barelog.Proofs.CommandSession
import Barelog.Proofs.OtherFiles
import Barelog.Proofs.StreamLog

/-! Command mode while a log file is in use. `init` mounts the card that is mounted already, `sync`
finds nothing pending and commits, `trim free` leaves the log file alone: unless `trim full` or
`trim fuller` is typed, command mode makes steps of the log file and no others, wherever the power
goes. -/

namespace Barelog

open Prog Labelled
open Wire (Device)

variable {κ : Type} {env : Env} {dev : Device κ} {u v : Console κ} {b b' : Board κ}
  {s s' s0 t : Machine} {fuel n : ℕ} {l : List ℕ} {card : ℕ → Sector} {ks : List Command}
  {cs : List (CommitLog.Call Sector)}

def Erases (c : Command) : Prop := c = .trimFull ∨ c = .trimFuller

/-! A power loss in the command loop. -/

def ConsoleCrash {α : Type} (env : Env) (dev : Device κ) (p : Con α) (u : Console κ)
    (card : ℕ → Sector) : Prop :=
  ∃ q v, Steps (conStep env dev) (fun _ _ _ => False) p u q v ∧ v.board.machine.card = card

theorem conStep_reqs (env : Env) (dev : Device κ) (o : ConOp) (u : Console κ) :
    u.board.machine.reqs ≤ (conStep env dev o u).2.board.machine.reqs := by
  cases o with
  | sys o =>
    cases o with
    | fw o => exact fwStep_reqs env o u.board.machine
    | spi o => exact le_rfl
  | _ => exact le_rfl

theorem conStep_cut {o : ConOp} (h : (conStep env dev o u).2.board.machine.reqs ≤ n) :
    conStep (env.cut n) dev o u = conStep env dev o u := by
  cases o with
  | sys o =>
    cases o with
    | fw o =>
      have hfw : fwStep (env.cut n) o u.board.machine = fwStep env o u.board.machine := fwStep_cut h
      simp only [conStep, sysStep, hfw]
    | spi o => rfl
  | _ => rfl

theorem conStep_frozen (env : Env) (dev : Device κ) (o : ConOp) (h : n ≤ u.board.machine.reqs) :
    (conStep (env.cut n) dev o u).2.board.machine.card = u.board.machine.card := by
  cases o with
  | sys o =>
    cases o with
    | fw o => exact (fwStep_frozen env o h).1
    | spi o => rfl
  | _ => rfl

theorem console_frozen {α : Type} (p : Con α) (h : n ≤ u.board.machine.reqs) :
    (p.run (conStep (env.cut n) dev) u).2.board.machine.card = u.board.machine.card := by
  induction p generalizing u with
  | ret a => rfl
  | fail e => rfl
  | act o k ih =>
    exact (ih _ (h.trans (conStep_reqs _ dev o u))).trans (conStep_frozen env dev o h)

theorem console_cut {α : Type} {p q : Con α}
    (h : Steps (conStep env dev) (fun _ _ _ => False) p u q v) (hn : v.board.machine.reqs ≤ n) :
    p.run (conStep (env.cut n) dev) u = q.run (conStep (env.cut n) dev) v := by
  induction h with
  | start => rfl
  | @act o k v hs ih =>
    rw [ih ((conStep_reqs env dev o v).trans hn)]
    change (k (conStep (env.cut n) dev o v).1).run _ (conStep (env.cut n) dev o v).2 = _
    rw [conStep_cut hn]
  | env _ hR => exact hR.elim

/-- What is on the card at some point is on it at the end of a run. -/
theorem ConsoleCrash.run {α : Type} {p : Con α} (h : ConsoleCrash env dev p u card) :
    ∃ env' r v, p.run (conStep env' dev) u = (r, v) ∧ v.board.machine.card = card := by
  obtain ⟨q, v, hsteps, rfl⟩ := h
  refine ⟨env.cut v.board.machine.reqs, _, _, rfl, ?_⟩
  rw [console_cut hsteps le_rfl]
  exact console_frozen q le_rfl

/-! The commands. -/

theorem flushRest_logs {r : Except Stop Unit} (hrun : flushRest.run (fwStep env) s = (r, s')) :
    ∃ ds, Trace LogStep s ds s' := by
  obtain ⟨rf, t, hflush, hrf, -⟩ := fat32Flush_run env s
  rw [flushRest, run_bind_ok (ignoreCode_run hflush hrf), saveRecord_run] at hrun
  obtain rfl := (Prod.mk.inj hrun).2
  have hcommit : LogStep s (some (.commit (decide (rf = .ok ())))) t :=
    .flush env hflush (by simp)
  exact ⟨_, (Trace.start.seen hcommit).silent (.apart ⟨rfl, rfl, rfl⟩)⟩

theorem replFlush_logs (hroom : s.ram.logfile.curLba < s.ram.logfile.endLba) (hn : 0 < s.unread)
    (hrun : (replFlush fuel).run (fwStep env) s = (.ok (), s')) : ∃ ds, Trace LogStep s ds s' := by
  rw [replFlush_run hn] at hrun
  obtain ⟨r, t, happend, hr⟩ := flushPadded_returned hrun
  have hpadded : Trace LogStep s [] s.padded := Trace.start.silent (.apart ⟨rfl, rfl, rfl⟩)
  let call : AppendCall := ⟨fuel, 0, 512, none, 0⟩
  have hcall : LogStep s.padded (some (.append (call.block s.padded) (decide (r = .ok ())))) t :=
    .append env call rfl hroom happend (by simp)
  have hconsume : (uartConsume s.unread).run (fwStep env) t =
      (.ok (), { t with ringTail := ringMask ((t.ringTail + s.unread) % 2 ^ 16) }) := rfl
  have heq : flushPadded fuel s.unread = (do
      (fat32AppendSector fuel 0 512 none 0).ignoreCode
      uartConsume s.unread
      flushRest) := rfl
  rw [heq, run_bind_ok (ignoreCode_run happend hr), run_bind_ok hconsume] at hrun
  obtain ⟨ds, hrest⟩ := flushRest_logs hrun
  have hconsumed : LogStep t none
      { t with ringTail := ringMask ((t.ringTail + s.unread) % 2 ^ 16) } := .apart ⟨rfl, rfl, rfl⟩
  exact ⟨_, ((hpadded.seen hcall).silent hconsumed).append hrest⟩

theorem mount_logs (hvol : volOf s.card = s.ram.vol) :
    LogStep s none (fat32Mount.ignoreCode.run (fwStep env) s).2 := by
  rcases hmount : fat32Mount.run (fwStep env) s with ⟨r, m⟩
  rcases fat32Mount_cases hmount with ⟨rfl, -, hend⟩ | ⟨hfail, hend, -⟩
  · rw [ignoreCode_run hmount (.inl rfl)]
    refine .apart ⟨?_, ?_, hend.card⟩
    · exact (congrArg Ram.vol hend.ram).trans hvol
    · rw [hend.ram]
      rfl
  · rw [ignoreCode_run hmount (.inr hfail)]
    exact .apart hend.apart

theorem trimFree_logs (hw : NoWrap s.ram.vol) :
    LogStep s none (fat32TrimFree.ignoreCode.run (fwStep env) s).2 := by
  rcases htrim : fat32TrimFree.run (fwStep env) s with ⟨r, m⟩
  rw [Fw.ignoreCode, handle_run, htrim]
  have hstep : LogStep s none m := .trim env hw htrim
  cases r with
  | ok a => exact hstep
  | error e => cases e <;> exact hstep

/-- A command that erases no files makes steps of the log file. -/
theorem command_logs {c : Command} {r : Except Stop Unit} (hc : ¬ Erases c)
    (hempty : b.machine.unread = 0) (hvol : volOf b.machine.card = b.machine.ram.vol)
    (hw : NoWrap b.machine.ram.vol) (hrun : (c.code fuel).run (sysStep env dev) b = (r, b')) :
    ∃ ds, Trace LogStep b.machine ds b'.machine := by
  have hnone : ∀ {r : Except Stop Unit}, (pure () : Sys Unit).run (sysStep env dev) b = (r, b') →
      ∃ ds, Trace LogStep b.machine ds b'.machine := by
    intro r hpure
    rw [← (Prod.mk.inj hpure).2]
    exact ⟨[], .start⟩
  cases c with
  | trimFull => exact absurd (.inl rfl) hc
  | trimFuller => exact absurd (.inr rfl) hc
  | init =>
    change cmdInit.run (sysStep env dev) b = (r, b') at hrun
    rw [cmdInit, run_bind_ok (sdInitCode_bus env dev b)] at hrun
    split_ifs at hrun
    · rw [onMachine_run] at hrun
      rw [← (Prod.mk.inj hrun).2]
      exact ⟨[], Trace.start.silent (mount_logs hvol)⟩
    · rw [← (Prod.mk.inj hrun).2]
      exact ⟨[], .start⟩
  | sync =>
    change (onMachine (logFlush fuel)).run (sysStep env dev) b = (r, b') at hrun
    rw [onMachine_run, flush_empty hempty] at hrun
    rw [← (Prod.mk.inj hrun).2]
    exact flushRest_logs rfl
  | trimFree =>
    change (onMachine fat32TrimFree.ignoreCode).run (sysStep env dev) b = (r, b') at hrun
    rw [onMachine_run] at hrun
    rw [← (Prod.mk.inj hrun).2]
    exact ⟨[], Trace.start.silent (trimFree_logs hw)⟩
  | _ => exact hnone hrun

/-! The log file in command mode. -/

/-- The card in the slot is the one that is mounted. -/
theorem NewLog.mounted (h : NewLog env fuel s s0 l) (hcard : volOf s.card = s.ram.vol)
    (hboot : s.ram.vol.partLba < s.ram.vol.fatLba) (hrun : Trace LogStep s0 cs t) :
    volOf t.card = t.ram.vol ∧ t.ram.vol = s.ram.vol := by
  have hempty := h.placed.empty
  obtain ⟨lg, -, hfile⟩ := hempty.start.run hempty hrun
  have hvol : t.ram.vol = s.ram.vol := hfile.vol.trans h.placed.vol
  have hkeeps := hfile.keeps h
  rw [hvol, ← hcard]
  rw [← hcard] at hkeeps hboot
  exact ⟨volOf_congr hkeeps.boot hboot, rfl⟩

theorem lines_log {env' : Env} {fuel' : ℕ} (h : NewLog env fuel s s0 l)
    (hcard : volOf s.card = s.ram.vol) (hboot : s.ram.vol.partLba < s.ram.vol.fatLba)
    (hw : NoWrap s.ram.vol) (hrun : Trace LogStep s0 cs b.machine) (hempty : b.machine.unread = 0)
    (hlines : Trace (LineStep env' dev fuel') b ks b') (hsafe : ∀ c ∈ ks, ¬ Erases c) :
    ∃ ds, Trace LogStep b.machine ds b'.machine ∧ b'.machine.unread = 0 := by
  induction hlines with
  | start => exact ⟨[], .start, hempty⟩
  | silent _ hstep ih =>
    obtain ⟨ds, hds, hzero⟩ := ih hsafe
    cases hstep with
    | typed ring hlow => exact ⟨ds, hds.silent (.apart ⟨rfl, rfl, rfl⟩), hzero⟩
  | seen _ hstep ih =>
    obtain ⟨ds, hds, hzero⟩ := ih fun c hc => hsafe c (List.mem_append_left _ hc)
    cases hstep with
    | command _ hc hcode =>
      obtain ⟨hmounted, hvol⟩ := h.mounted hcard hboot (hrun.append hds)
      obtain ⟨ds', hds'⟩ := command_logs (hsafe _ (by simp)) hzero hmounted (hvol ▸ hw) hcode
      exact ⟨_, hds.append hds', command_unread hzero hcode⟩

/-- The power goes during a call on the log file, or in the command mode that is entered from it, where
no line typed erases files. -/
inductive SessionCrash (t : Machine) (card : ℕ → Sector) : Prop
  | call (h : LogCrash t card)
  | typed {κ : Type} (env env' : Env) (dev : Device κ) (fuel fuel' n : ℕ) (u : Console κ)
      (hring : RingOk t) (hpend : 0 < t.unread)
      (hroom : t.ram.logfile.curLba < t.ram.logfile.endLba) (hw : NoWrap t.ram.vol)
      (henter : (replFlush fuel).run (fwStep env) t = (.ok (), u.board.machine))
      (hfuel : u.input.length < fuel') (hsafe : ∀ c ∈ typedCommands n u.input, ¬ Erases c)
      (hcrash : ConsoleCrash env' dev (replLoop fuel' n) u card)

/-- The card of a power loss is that of some run of the log file. -/
theorem SessionCrash.trace (h : NewLog env fuel s s0 l) (hcard : volOf s.card = s.ram.vol)
    (hboot : s.ram.vol.partLba < s.ram.vol.fatLba) (hrun : Trace LogStep s0 cs t)
    (hcrash : SessionCrash t card) : ∃ ds t', Trace LogStep t ds t' ∧ t'.card = card := by
  cases hcrash with
  | call hcall => exact hcall.trace .start
  | typed env1 env2 dev fuel1 fuel2 n u hring hpend hroom hw henter hfuel hsafe hcrash =>
    obtain ⟨ds0, henters⟩ := replFlush_logs hroom hpend henter
    have hempty := replFlush_empties hring hpend henter
    have hw' : NoWrap s.ram.vol := (h.mounted hcard hboot hrun).2 ▸ hw
    have hrun' := hrun.append henters
    obtain ⟨env3, r, v, hloop, rfl⟩ := hcrash.run
    obtain ⟨ks, -, hends⟩ := session_runs_commands hfuel hloop
    cases hends with
    | done hlines =>
      obtain ⟨ds, hds, -⟩ := lines_log h hcard hboot hw' hrun' hempty hlines hsafe
      exact ⟨_, _, henters.append hds, rfl⟩
    | waits hlines =>
      obtain ⟨ds, hds, -⟩ := lines_log h hcard hboot hw' hrun' hempty hlines hsafe
      exact ⟨_, _, henters.append hds, rfl⟩
    | stuck e hlines hpre hcode =>
      have hall : ∀ c ∈ _, ¬ Erases c := fun c hc => hsafe c (hpre.subset hc)
      obtain ⟨ds, hds, hzero⟩ := lines_log h hcard hboot hw' hrun' hempty hlines
        fun c hc => hall c (List.mem_append_left _ hc)
      obtain ⟨hmounted, hvol⟩ := h.mounted hcard hboot (hrun'.append hds)
      obtain ⟨ds', hds'⟩ := command_logs (hall _ (by simp)) hzero hmounted (hvol ▸ hw') hcode
      exact ⟨_, _, (henters.append hds).append hds', rfl⟩

end Barelog
