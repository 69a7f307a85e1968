import Barelog.Lib.Blocks
import Barelog.Lib.Stores
import Barelog.Proofs.Escape
import Barelog.Proofs.IdleFlush
import Barelog.Proofs.LogReader

/-! The received stream and the file. The main loop drains the ring sector by sector while bytes
arrive, and flushes it when it has been idle. At the test of the loop the bytes that are no longer
in the ring are in the sectors of the file, in order, where the sector of a flush is filled up with
zeros. -/

namespace Barelog

open Prog Labelled

variable {env : Env} {s s' s0 s1 t : Machine} {fuel : ℕ} {lf : Logfile} {v : Vol}

/-! The card is what has been written to it. -/

def writeEvent (w : ℕ × Sector) : CardEvent := .write w.1 w.2

/-- If sector writes are all that has been done since `s0`, they have made the card. -/
def Replayed (s0 s : Machine) : Prop :=
  ∃ evs, s.events = s0.events ++ evs ∧
    ∀ ws, evs = ws.map writeEvent → s.card = Stores.store s0.card ws

theorem Replayed.refl (s : Machine) : Replayed s s := by
  refine ⟨[], (List.append_nil _).symm, fun ws hws => ?_⟩
  rw [List.map_eq_nil_iff.mp hws.symm]
  rfl

theorem Replayed.same (h : Replayed s0 s) (hevents : s'.events = s.events)
    (hcard : s'.card = s.card) : Replayed s0 s' := by
  obtain ⟨evs, hevs, hmade⟩ := h
  exact ⟨evs, hevents.trans hevs, fun ws hws => hcard.trans (hmade ws hws)⟩

theorem Replayed.event (h : Replayed s0 s) {e : CardEvent} (hevents : s'.events = s.events ++ [e])
    (hcard : ∀ w, e = writeEvent w → s'.card = Function.update s.card w.1 w.2) :
    Replayed s0 s' := by
  obtain ⟨evs, hevs, hmade⟩ := h
  refine ⟨evs ++ [e], by rw [hevents, hevs, List.append_assoc], fun ws hws => ?_⟩
  obtain ⟨ws1, ws2, rfl, h1, h2⟩ := List.append_eq_map_iff.mp hws
  obtain ⟨w, rfl, hw⟩ := List.map_eq_singleton_iff.mp h2
  rw [Stores.store_append, ← hmade ws1 h1.symm]
  exact hcard w hw.symm

theorem fwStep_replayed (env : Env) (o : FwOp) (h : Replayed s0 s) :
    Replayed s0 (fwStep env o s).2 := by
  have hfinish : ∀ a lba e, (∀ w, e = writeEvent w → lba = w.1 ∧ sectorOf s.block = w.2) →
      Replayed s0 (s.finish a lba e).2 := by
    intro a lba e he
    rw [Machine.finish]
    split
    · refine h.event rfl fun w hw => ?_
      obtain ⟨h1, h2⟩ := he w hw
      rw [← h1, ← h2]
      rfl
    · exact h.same rfl rfl
  cases o with
  | writeDone lba =>
    refine hfinish _ _ _ fun w hw => ?_
    exact CardEvent.write.inj hw
  | zeroDone lba => exact hfinish _ _ _ fun w hw => by cases hw
  | erase a b => exact h.event rfl fun w hw => by cases hw
  | _ => exact h.same rfl rfl

theorem RxStep.replayed (hrx : RxStep s s') (h : Replayed s0 s) : Replayed s0 s' := by
  obtain ⟨-, -, hcard, -, -, -, hevents, -⟩ := hrx.rest
  exact h.same hevents hcard

theorem Exec.replayed {α : Type} {p : Fw α} {r : Except Stop α}
    (hrun : Exec (fwStep env) (fun _ => RxStep) p s r s') (h : Replayed s0 s) : Replayed s0 s' := by
  induction hrun with
  | ret a s => exact h
  | fail e s => exact h
  | act _ ih => exact ih (fwStep_replayed env _ h)
  | env h1 _ ih => exact ih (h1.replayed h)

/-! A turn of the loop. -/

/-- Code that keeps a fact about the variables, with interrupts. -/
theorem triple_ramKept {Q : Ram → Prop} {α : Type} {p : Fw α} {E : Stop → Prop} (hp : RamKept Q p)
    (hE : p.Fails E) :
    Triple (fwStep env) RxStep (fun s => Q s.ram) p (fun _ s => Q s.ram) E := by
  intro s r s' hs hrun
  have hQ : Q s'.ram := hrun.invariant (I := fun s => Q s.ram) hp
    (fun o s ho hs => ramOp_step env o s ho hs)
    (fun q s s' hrx hs => by rw [hrx.rest.2.1]; exact hs) hs
  cases r with
  | ok a => exact hQ
  | error e => exact hrun.fails hE

def Has (v : Vol) (lf : Logfile) (r : Ram) : Prop := r.vol = v ∧ r.logfile = lf

theorem has_stable (v : Vol) (lf : Logfile) : Stable RxStep fun s => Has v lf s.ram := by
  intro s s' hrx hs
  rw [hrx.rest.2.1]
  exact hs

theorem fails_spiWriteBuf {E : Stop → Prop} (buf len : ℕ) : (spiWriteBuf buf len).Fails E :=
  fails_forUp fun _ => fails_bind (op_fails _ _) fun _ => op_fails _ _

theorem fails_spiWriteSpan {E : Stop → Prop} (spanB : Option ℕ) (lenB : ℕ) :
    (spiWriteSpan spanB lenB).Fails E := by
  cases spanB with
  | none => trivial
  | some b => exact fails_ite (fun _ => fails_spiWriteBuf b lenB) fun _ => trivial

/-- The write of a sector, with a card that answers. -/
theorem triple_zc_ram (hgood : env.Good) (lba spanA lenA : ℕ) (spanB : Option ℕ) (lenB : ℕ)
    {E : Stop → Prop} :
    Triple (fwStep env) RxStep (fun s => Has v lf s.ram) (sdWriteSectorZc lba spanA lenA spanB lenB)
      (fun _ s => Has v lf s.ram) E := by
  have hstable := has_stable v lf
  have hreply : ∀ o : FwOp, ∀ hr : o.Reply = ℤ, (∀ s, hr ▸ (fwStep env o s).1 = (0 : ℤ)) →
      (∀ s, (fwStep env o s).2.ram = s.ram) →
      Triple (fwStep env) RxStep (fun s => Has v lf s.ram) (op o : Fw o.Reply)
        (fun ret s => hr ▸ ret = (0 : ℤ) ∧ Has v lf s.ram) E := by
    intro o hr h0 hram
    refine triple_perform hstable (fun _ => stable_and hstable) fun s hs => ⟨h0 s, ?_⟩
    rw [hram]
    exact hs
  unfold sdWriteSectorZc
  refine triple_bind (hreply (.writeCmd lba) rfl (fun s => ?_) fun s => rfl) fun ret => ?_
  · simp only [fwStep, hgood s.reqs, SdAnswer.cmdCode]
  refine triple_bind (triple_check hstable ret) fun _ => ?_
  refine triple_bind (triple_ramKept (spiWriteBuf_ram _ _) (fails_spiWriteBuf _ _)) fun _ => ?_
  refine triple_bind (triple_ramKept (spiWriteSpan_ram _ _) (fails_spiWriteSpan _ _)) fun _ => ?_
  refine triple_bind (hreply (.writeDone lba) rfl (fun s => ?_) fun s => ?_) fun ret =>
    triple_check hstable ret
  · simp only [fwStep, Machine.finish, hgood s.reqs, SdAnswer.finishCode]
  · exact fwStep_ram env (.writeDone lba) (fun r h => by cases h) s

theorem triple_append_ram (hgood : env.Good) (hroom : lf.curLba < lf.endLba)
    (fuel spanA lenA : ℕ) (spanB : Option ℕ) (lenB : ℕ) {E : Stop → Prop} :
    Triple (fwStep env) RxStep (fun s => Has v lf s.ram)
      (fat32AppendSector fuel spanA lenA spanB lenB)
      (fun _ s => Has v (lf.advance (lenA + lenB)) s.ram) E := by
  have hstable := has_stable v lf
  unfold fat32AppendSector setLogfile
  refine triple_bind (triple_getRam hstable) fun r => ?_
  refine triple_bind (M := fun _ s => Has v lf s.ram) ?_ fun _ => ?_
  · intro s e s' hs hrun
    obtain ⟨hr, hs⟩ := hs
    rw [doIf, if_neg (by rw [← hr, hs.2]; omega)] at hrun
    exact triple_pure (Q := fun _ s => Has v lf s.ram) hstable (fun _ h => h) s e s' hs hrun
  refine triple_bind (triple_zc_ram hgood _ _ _ _ _) fun _ => ?_
  refine triple_bind (triple_getRam hstable) fun r' => ?_
  refine triple_perform (fun s s' hrx hs => ⟨hrx.rest.2.1.trans hs.1, hstable s s' hrx hs.2⟩)
    (fun _ => has_stable _ _) ?_
  rintro s ⟨rfl, hs⟩
  exact ⟨hs.1, by change Logfile.advance s.ram.logfile _ = _; rw [hs.2]⟩

theorem scanEscape_ram (len buf : ℕ) : RamKept (Has v lf) (scanEscape len buf) := by
  induction len generalizing buf with
  | zero => trivial
  | succ len ih =>
    rw [scanEscape]
    refine only_bind (ringGet_ram _) fun b => getRam_bind_ram fun r hr => only_ite (fun _ => ?_) fun _ => ?_
    · exact only_bind (only_perform hr) fun _ => only_ite (fun _ => trivial) fun _ => ih _
    · exact only_bind (only_perform hr) fun _ => ih _

theorem fails_all {α : Type} (p : Fw α) : p.Fails fun _ => True := by
  induction p with
  | ret a => trivial
  | fail e => trivial
  | act o k ih => exact fun r => ih r

theorem replEnter_stays {R : Machine → Machine → Prop} {a : Unit}
    (hrun : Exec (fwStep env) (fun _ => R) (replEnter fuel) s (.ok a) s') : False := by
  obtain ⟨_, _, _, hrun⟩ := hrun.bind_returned
  obtain ⟨_, _, _, hrun⟩ := hrun.bind_returned
  cases hrun.fail_inv.1

theorem triple_scanSpan_ram (fuel : ℕ) (buf : Option ℕ) (len : ℕ) :
    Triple (fwStep env) RxStep (fun s => Has v lf s.ram) (scanSpan fuel buf len)
      (fun _ s => Has v lf s.ram) fun _ => True := by
  cases buf with
  | none => exact triple_pure (has_stable v lf) fun _ hs => hs
  | some b =>
    refine triple_bind (triple_ramKept (scanEscape_ram len b) (fails_all _)) fun hit => ?_
    refine triple_ite (fun _ => ?_) fun _ => triple_pure (has_stable v lf) fun _ hs => hs
    intro s r s' _ hrun
    cases r with
    | error e => trivial
    | ok a => exact (replEnter_stays hrun).elim

theorem triple_turn_ram (hgood : env.Good) (hroom : lf.curLba < lf.endLba) (fuel : ℕ) :
    Triple (fwStep env) RxStep (fun s => Has v lf s.ram) (logProcessTurn fuel)
      (fun b s => Has v (if b then lf.advance 512 else lf) s.ram) fun _ => True := by
  have hstable := has_stable v lf
  have havail : RamKept (Has v lf) uartAvailable :=
    only_bind (only_perform trivial) fun _ => only_bind (only_perform trivial) fun _ => trivial
  have htail : RamKept (Has v lf) getTail := only_perform trivial
  refine triple_bind (triple_ramKept havail (fails_all _)) fun avail =>
    triple_ite (fun _ => ?_) fun _ => triple_pure hstable fun _ hs => hs
  refine triple_bind (triple_ramKept htail (fails_all _)) fun t => ?_
  refine triple_bind (triple_scanSpan_ram fuel (some t) _) fun _ => ?_
  refine triple_bind (triple_scanSpan_ram fuel _ _) fun _ => ?_
  refine triple_bind (triple_handle (fun _ => has_stable _ _)
    (triple_append_ram (E := fun _ => False) hgood hroom fuel t (spans t 512).1
      (spans t 512).2.1 (spans t 512).2.2) fun e he => he.elim) fun _ => ?_
  rw [spans_len]
  have hstable' := has_stable v (lf.advance 512)
  refine triple_bind (M := fun _ s => Has v (lf.advance 512) s.ram) ?_ fun _ =>
    triple_pure (has_stable v _) fun s hs => ?_
  swap
  · rw [if_pos rfl]
    exact hs
  refine triple_bind (triple_perform hstable' (fun _ => hstable') fun _ hs => hs) fun tail => ?_
  exact triple_perform hstable' (fun _ => hstable') fun _ hs => hs

/-- A turn that finds less than a sector does nothing. -/
theorem triple_turn_short {P : Machine → Prop} (hP : Stable RxStep P) (fuel : ℕ) :
    Triple (fwStep env) RxStep P (logProcessTurn fuel) (fun b s => b = false → P s)
      fun _ => True := by
  have havail : Triple (fwStep env) RxStep P uartAvailable (fun _ => P) fun _ => True :=
    triple_bind (triple_read hP fun _ => rfl) fun _ => triple_bind (triple_read hP fun _ => rfl)
      fun _ => triple_pure hP fun _ hs => hs
  refine triple_bind havail fun avail => triple_ite (fun _ => ?_) fun _ =>
    triple_pure (fun s s' hrx hs hb => hP s s' hrx (hs hb)) fun _ hs _ => hs
  intro s r s' _ hrun
  cases r with
  | error e => trivial
  | ok b =>
    obtain ⟨_, _, _, hrun⟩ := hrun.bind_returned
    obtain ⟨_, _, _, hrun⟩ := hrun.bind_returned
    obtain ⟨_, _, _, hrun⟩ := hrun.bind_returned
    obtain ⟨_, _, _, hrun⟩ := hrun.bind_returned
    obtain ⟨_, _, _, hrun⟩ := hrun.bind_returned
    obtain ⟨hb, -⟩ := hrun.ret_inv
    cases hb
    exact fun hbad => by cases hbad

/-- One turn, with interrupts anywhere: it appends the next 512 bytes of the stream, or nothing. -/
theorem turn_step (hgood : env.Good) (hok : RingOk s)
    (hroom : s.ram.logfile.curLba < s.ram.logfile.endLba) (hwrap : s.ram.logfile.endLba < 2 ^ 32)
    {b : Bool}
    (hrun : Exec (fwStep env) (fun _ => RxStep) (logProcessTurn fuel) s (.ok b) s') :
    ∃ new ds, s'.accepted = s.accepted ++ new ∧
      ds.flatMap List.ofFn ++ s'.queue = s.queue ++ new ∧ RingOk s' ∧
      (ds = [] ∧ Apart s s' ∨ ∃ d, ds = [d] ∧
        Apart ((s.logged s.ram.logfile.curLba d).withLogfile (s.ram.logfile.advance 512)) s') := by
  have hram : Has s.ram.vol (if b then s.ram.logfile.advance 512 else s.ram.logfile) s'.ram :=
    triple_turn_ram hgood hroom fuel s _ s' ⟨rfl, rfl⟩ hrun
  have hreplay := Exec.replayed hrun (.refl s)
  have hstart : Flow s [] s.ram.logfile s.events s :=
    ⟨hok, rfl, rfl, ⟨[], by simp, by simp⟩, [], by simp, by simp⟩
  obtain ⟨evs, hevs, hmade⟩ := hreplay
  cases b with
  | false =>
    have hflow := triple_turn_short flow_stable fuel s _ s' hstart hrun rfl
    obtain ⟨new, hacc, hstream⟩ := hflow.stream
    have hnil : evs = [] := by
      have h := hevs.symm.trans hflow.events
      rwa [List.append_right_eq_self] at h
    have hcard : s'.card = s.card := hmade [] hnil
    exact ⟨new, [], hacc, hstream, hflow.ok, .inl ⟨rfl, hram.1, hram.2, hcard⟩⟩
  | true =>
    have hstart' : AtTest s 0 s := by
      refine ⟨[], s.ram.logfile, rfl, rfl, rfl, ?_⟩
      rw [appendEvents, List.mapIdx_nil, List.append_nil]
      exact hstart
    obtain ⟨ds, lf, hlen, -, -, hflow⟩ := triple_logProcessTurn hgood fuel hwrap (n := 0)
      (by omega) s _ s' hstart' hrun rfl
    obtain ⟨d, rfl⟩ := List.length_eq_one_iff.mp hlen
    obtain ⟨new, hacc, hstream⟩ := hflow.stream
    have hone : evs = [(s.ram.logfile.curLba, d)].map writeEvent := by
      have h := List.append_cancel_left (hevs.symm.trans hflow.events)
      rw [h]
      simp [appendEvents, writeEvent]
    have hcard : s'.card = Function.update s.card s.ram.logfile.curLba d := hmade _ hone
    exact ⟨new, [d], hacc, hstream, hflow.ok, .inr ⟨d, rfl, hram.1, hram.2, hcard⟩⟩

end Barelog
