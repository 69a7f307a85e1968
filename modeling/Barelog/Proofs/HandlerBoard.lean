import Barelog.Proofs.CommandLine
import Barelog.Proofs.InitAtomic

/-! A handler leaves the board as the command without its output does, so that what holds of the
commands on the board holds of the lines typed for them. -/

namespace Barelog

open Prog
open Wire (Device)

variable {κ : Type} {env : Env} {dev : Device κ} {s s' : Console κ} {fuel : ℕ} {r : Except Stop Unit}

theorem onConsole_run {α : Type} (env : Env) (dev : Device κ) (p : Sys α) (s : Console κ) :
    (onConsole p).run (conStep env dev) s = ((p.run (sysStep env dev) s.board).1,
      { s with board := (p.run (sysStep env dev) s.board).2 }) := by
  induction p generalizing s with
  | ret a => rfl
  | fail e => rfl
  | act o k ih => exact ih _ _

theorem IsPrint.board {α : Type} {p : Con α} (hp : IsPrint p) {r : Except Stop α}
    (hrun : p.run (conStep env dev) s = (r, s')) : s'.board = s.board := by
  have hstep : ∀ (o : ConOp) (v : Console κ), Prints o → v.board = s.board →
      True ∧ (conStep env dev o v).2.board = s.board := by
    intro o v ho hv
    cases o with
    | putc c => exact ⟨trivial, hv⟩
    | _ => exact ho.elim
  have hinv := Only.invariant (I := fun v : Console κ => v.board = s.board) hp hstep rfl
  rwa [hrun] at hinv

theorem board_of_call {α : Type} {p : Sys α} {f : α → Con Unit} (hf : ∀ a, IsPrint (f a))
    (hrun : (onConsole p >>= f).run (conStep env dev) s = (r, s')) :
    ∃ r', p.run (sysStep env dev) s.board = (r', s'.board) ∧ (r = .ok () → ∃ a, r' = .ok a) := by
  rcases bind_ended hrun with ⟨a, u, hcall, hprint⟩ | ⟨e, hcall, rfl⟩
  · rw [onConsole_run] at hcall
    obtain ⟨hr, rfl⟩ := Prod.mk.inj hcall
    rw [(hf a).board hprint]
    exact ⟨_, Prod.ext hr rfl, fun _ => ⟨a, rfl⟩⟩
  · rw [onConsole_run] at hcall
    obtain ⟨hr, rfl⟩ := Prod.mk.inj hcall
    exact ⟨_, Prod.ext hr rfl, nofun⟩

theorem board_of_announced {α : Type} {p : Sys α} {f : α → Con Unit} (hf : ∀ a, IsPrint (f a))
    {out : List Byte}
    (hrun : (replPuts out >>= fun _ => onConsole p >>= f).run (conStep env dev) s = (r, s')) :
    ∃ r', p.run (sysStep env dev) s.board = (r', s'.board) ∧ (r = .ok () → ∃ a, r' = .ok a) := by
  rw [run_bind_ok (replPuts_run env dev out s)] at hrun
  exact board_of_call (s := s.printed out) hf hrun

/-- Whether the return code is tested or ignored, the call is the same. -/
theorem ignoreCode_of_returnCode {p : Fw Unit} {m m' : Machine} {r : Except Stop ℤ}
    (hrun : p.returnCode.run (fwStep env) m = (r, m')) :
    ∃ r', p.ignoreCode.run (fwStep env) m = (r', m') ∧ ((∃ c, r = .ok c) → r' = .ok ()) := by
  rw [Fw.returnCode, handle_run, run_bind] at hrun
  rw [Fw.ignoreCode, handle_run]
  rcases hp : p.run (fwStep env) m with ⟨e | u, m1⟩
  · rw [hp] at hrun
    cases e <;> cases hrun
    · exact ⟨_, rfl, fun _ => rfl⟩
    all_goals
      refine ⟨_, rfl, ?_⟩
      rintro ⟨c, hc⟩
      cases hc
  · rw [hp] at hrun
    cases hrun
    exact ⟨_, rfl, fun _ => rfl⟩

theorem handler_board {c : Command} (hc : c ≠ .reset)
    (hrun : (c.handler fuel).run (conStep env dev) s = (r, s')) :
    ∃ r', (c.code fuel).run (sysStep env dev) s.board = (r', s'.board) ∧
      (r = .ok () → r' = .ok ()) := by
  have hnone : s'.board = s.board → ∃ r', (pure () : Sys Unit).run (sysStep env dev) s.board =
      (r', s'.board) ∧ (r = .ok () → r' = .ok ()) := fun h => ⟨_, by rw [h]; rfl, fun _ => rfl⟩
  have hunit : ∀ r' : Except Stop Unit, (∃ a, r' = .ok a) → r' = .ok () := by
    rintro r' ⟨a, rfl⟩
    rfl
  cases c with
  | help => exact hnone ((replPuts_print _).board hrun)
  | unknown => exact hnone ((replPuts_print _).board hrun)
  | reset => exact absurd rfl hc
  | disk =>
    obtain ⟨r', hget, -⟩ := board_of_call (fun x : Ram => diskFields_print x.vol) hrun
    exact hnone (Prod.mk.inj hget).2.symm
  | init =>
    obtain ⟨b, t, hreport, hcode, -⟩ := cmdInitReport_run env dev s.board
    obtain ⟨r', hcall, -⟩ := board_of_call (fun ok => report_print _ _ _) hrun
    rw [hreport] at hcall
    rw [← (Prod.mk.inj hcall).2]
    exact ⟨_, hcode, fun _ => rfl⟩
  | sync =>
    obtain ⟨r', hcall, hok⟩ := board_of_call (fun _ => replPuts_print _) hrun
    exact ⟨r', hcall, fun h => hunit r' (hok h)⟩
  | trimFree =>
    obtain ⟨r', hcall, hok⟩ := board_of_announced (fun ret => report_print _ _ _) hrun
    rw [onMachine_run] at hcall
    obtain ⟨hr, hboard⟩ := Prod.mk.inj hcall
    obtain ⟨r2, hignore, hok2⟩ := ignoreCode_of_returnCode (run_of_fst hr)
    refine ⟨r2, ?_, fun h => hok2 (hok h)⟩
    change (onMachine fat32TrimFree.ignoreCode).run _ _ = _
    rw [onMachine_run, hignore, ← hboard]
  | trimFuller =>
    obtain ⟨r', hcall, hok⟩ := board_of_announced (fun _ => replPuts_print _) hrun
    exact ⟨r', hcall, fun h => hunit r' (hok h)⟩
  | trimFull =>
    obtain ⟨r', hcall, hok⟩ := board_of_announced (fun _ => replPuts_print _) hrun
    exact ⟨r', hcall, fun h => hunit r' (hok h)⟩

end Barelog
