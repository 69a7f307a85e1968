import Barelog.Spec.PowerLoss
import Barelog.Proofs.Reopen

/-! The byte writes to the EEPROM. A run leaves the EEPROM as its writes make it, and those of
`log_flush` are the bytes of the recovery record that change. -/

namespace Barelog

open Prog

variable {env : Env} {s s' : Machine} {fuel : ℕ}

def recordUpdates (bw : ℕ) : List (ℕ × Byte) :=
  (List.range 4).map fun i => (eepromOffRecLo + i, .ofNat (bw / 2 ^ (8 * i)))

def recordWrites (bw : ℕ) (eeprom : ℕ → Byte) : List (ℕ × Byte) :=
  (recordUpdates bw).filter fun w => eeprom w.1 ≠ w.2

/-! The byte writes of a run. -/

theorem eepromWrites_append (l l' : List (Exchange fwSig)) :
    eepromWrites (l ++ l') = eepromWrites l ++ eepromWrites l' := List.filterMap_append

theorem eeprom_run {α : Type} (env : Env) (p : Fw α) (s : Machine) :
    (p.run (fwStep env) s).2.eeprom =
      Stores.store s.eeprom (eepromWrites (p.transcript (fwStep env) s)) := by
  induction p generalizing s with
  | ret a => rfl
  | fail e => rfl
  | act o k ih =>
    have hrest := ih (fwStep env o s).1 (fwStep env o s).2
    have hkeep := fwStep_eeprom env (o := o) (s := s)
    cases o with
    | eepromSet p b => exact hrest
    | _ =>
      rw [hkeep trivial] at hrest
      exact hrest

theorem eepromWrites_nil {l : List (Exchange fwSig)} (h : ∀ x ∈ l, NotSet x.1) :
    eepromWrites l = [] := by
  refine List.filterMap_eq_nil_iff.mpr fun x hx => ?_
  have hset := h x hx
  obtain ⟨o, r⟩ := x
  cases o with
  | eepromSet p b => exact hset.elim
  | _ => rfl

theorem updateByte_writes (env : Env) (p : ℕ) (b : Byte) (s : Machine) :
    eepromWrites ((eepromUpdateByte p b).transcript (fwStep env) s) =
      if s.eeprom p ≠ b then [(p, b)] else [] := by
  have hget : (eepromUpdateByte p b).transcript (fwStep env) s =
      ⟨.eepromGet p, s.eeprom p⟩ ::
        (if s.eeprom p = b then (pure () : Fw Unit) else eepromSet p b).transcript (fwStep env) s := rfl
  rw [hget]
  by_cases hb : s.eeprom p = b
  · rw [if_pos hb, if_neg (not_not.mpr hb)]
    rfl
  · rw [if_neg hb, if_pos hb]
    rfl

theorem recordUpdates_eq (bw : ℕ) : recordUpdates bw = [(16, .ofNat bw), (17, .ofNat (bw / 2 ^ 8)),
    (18, .ofNat (bw / 2 ^ 16)), (19, .ofNat (bw / 2 ^ 24))] := by
  simp [recordUpdates, List.range_succ, eepromOffRecLo]

theorem saveRecord_writes (env : Env) (s : Machine) :
    eepromWrites (saveRecord.transcript (fwStep env) s) =
      recordWrites s.ram.logfile.bytesWritten s.eeprom := by
  have hget : fat32BytesWritten.run (fwStep env) s = (.ok s.ram.logfile.bytesWritten, s) := rfl
  have hnone : eepromWrites (fat32BytesWritten.transcript (fwStep env) s) = [] := rfl
  rw [saveRecord, transcript_bind_ok hget, transcript_bind_ok (eepromUpdateByte_run ..),
    transcript_bind_ok (eepromUpdateByte_run ..), transcript_bind_ok (eepromUpdateByte_run ..)]
  simp only [eepromWrites_append, updateByte_writes, hnone, List.nil_append, recordWrites,
    recordUpdates_eq, List.filter_cons, List.filter_nil, Function.update_apply, eepromOffRecLo,
    eepromOffRecHi]
  simp only [decide_eq_true_eq, Nat.reduceAdd, Nat.reduceEqDiff, if_false]
  split_ifs <;> rfl

/-- The writes give the whole record: a byte that is not written has its value. -/
theorem store_recordWrites (bw : ℕ) (eeprom : ℕ → Byte) :
    Stores.store eeprom (recordWrites bw eeprom) = savedRecord bw eeprom := by
  let s := (Machine.powerUp (fun _ _ => 0) eeprom).withLogfile ⟨0, 0, 0, 0, 0, bw, 0, 0⟩
  have h := eeprom_run Env.ideal saveRecord s
  rw [saveRecord_run, saveRecord_writes] at h
  exact h.symm

/-! `log_flush` writes nothing else. -/

abbrev WritesNone {α : Type} (env : Env) (q : Fw α) (s : Machine) : Prop :=
  Requests (fwStep env) NotSet q s

theorem NoEeprom.writesNone {α : Type} {q : Fw α} (hq : NoEeprom q) : WritesNone env q s :=
  Only.requests hq (I := fun _ => True) (fun _ _ _ _ => ⟨trivial, trivial⟩) trivial

theorem makeRoom_writesNone (l : Logfile) : WritesNone env (makeRoom fuel l) s := by
  have hdriver := Only.requests (makeRoom_low s.ram.logfile.dirOffset fuel l) (driver_slot env) rfl
  refine fun x hx => ?_
  have hset := hdriver x hx
  obtain ⟨o, r⟩ := x
  cases o with
  | eepromSet p b => exact hset.elim
  | _ => trivial

theorem append_writesNone (spanA lenA : ℕ) (spanB : Option ℕ) (lenB : ℕ) :
    WritesNone env (fat32AppendSector fuel spanA lenA spanB lenB) s := by
  have hset : ∀ f, NoEeprom (setLogfile f) := fun f =>
    only_bind (only_perform trivial) fun _ => only_perform trivial
  have hget : NoEeprom getRam := only_perform trivial
  rw [append_eq]
  refine requests_bind hget.writesNone fun r t _ => requests_bind (makeRoom_writesNone _) fun _ u _ => ?_
  exact requests_bind (sdWriteSectorZc_noEeprom _ _ _ _ _).writesNone fun _ _ _ =>
    (hset _).writesNone

theorem padSector_noEeprom (avail : ℕ) : NoEeprom (padSector avail) := by
  have hcopy : ∀ i j, NoEeprom (do let x ← ringGet i; ringSet j x) := fun i j =>
    only_bind (only_perform trivial) fun _ => only_perform trivial
  refine only_bind (only_perform trivial) fun tail => ?_
  generalize spans tail avail = sp
  obtain ⟨lenA, spanB, lenB⟩ := sp
  refine only_bind ?_ fun _ => only_bind (only_forUp fun _ _ _ => hcopy _ _) fun _ =>
    only_forUp fun _ _ _ => only_perform trivial
  cases spanB with
  | none => trivial
  | some b => exact only_forUp fun _ _ _ => hcopy _ _

theorem ignoreCode_writesNone {q : Fw Unit} (hq : WritesNone env q s) :
    WritesNone env q.ignoreCode s := by
  refine requests_handle hq fun e s' => ?_
  cases e <;> exact fun x hx => absurd hx List.not_mem_nil

theorem fat32Flush_noEeprom : NoEeprom fat32Flush := by
  have hcheck : ∀ ret, NoEeprom (check ret) := fun ret =>
    only_ite (fun _ => trivial) fun _ => trivial
  have hset : ∀ i n, NoEeprom (ringSet16 i n) := fun i n =>
    only_bind (only_perform trivial) fun _ => only_perform trivial
  refine only_bind (only_perform trivial) fun r => only_bind ?_ fun _ => only_bind ?_ fun _ => ?_
  · exact only_bind (only_perform trivial) fun ret => only_bind (hcheck ret) fun _ =>
      only_forUp fun _ _ _ => only_bind (only_perform trivial) fun _ => only_perform trivial
  · exact only_bind (hset _ _) fun _ => hset _ _
  · refine only_bind (only_perform trivial) fun ret => only_bind (hcheck ret) fun _ =>
      only_bind ?_ fun _ => only_bind (only_perform trivial) hcheck
    exact only_forUp fun _ _ _ => only_bind (only_perform trivial) fun _ => only_perform trivial

theorem flushTail_writesNone (avail : ℕ) : WritesNone env (flushTail fuel avail) s := by
  have hconsume : NoEeprom (uartConsume avail) :=
    only_bind (only_perform trivial) fun _ => only_perform trivial
  exact requests_bind (padSector_noEeprom avail).writesNone fun _ _ _ =>
    requests_bind (ignoreCode_writesNone (append_writesNone _ _ _ _)) fun _ _ _ =>
      hconsume.writesNone

/-- The byte writes of a `log_flush` that returns are those of its recovery record. -/
theorem logFlush_writes (hrun : (logFlush fuel).run (fwStep env) s = (.ok (), s')) :
    eepromWrites ((logFlush fuel).transcript (fwStep env) s) =
      recordWrites s'.ram.logfile.bytesWritten s.eeprom := by
  have havail : NoEeprom uartAvailable :=
    only_bind (only_perform trivial) fun _ => only_bind (only_perform trivial) fun _ => trivial
  have hdo : WritesNone env (doIf (s.unread > 0) (flushTail fuel s.unread)) s := by
    unfold doIf
    split_ifs
    · exact flushTail_writesNone _
    · exact fun x hx => absurd hx List.not_mem_nil
  have hflush : ∀ u, WritesNone env fat32Flush.ignoreCode u := fun u =>
    ignoreCode_writesNone fat32Flush_noEeprom.writesNone
  rw [logFlush, run_bind_ok (uartAvailable_run env s), logFlushFrom] at hrun
  obtain ⟨_, u, htail, hrest⟩ := bind_returned hrun
  obtain ⟨_, w, hdir, hsave⟩ := bind_returned hrest
  have hw : w.eeprom = s.eeprom := by
    have hu := eeprom_run env (doIf (s.unread > 0) (flushTail fuel s.unread)) s
    have hv := eeprom_run env fat32Flush.ignoreCode u
    rw [htail, eepromWrites_nil hdo] at hu
    rw [hdir, eepromWrites_nil (hflush u)] at hv
    exact hv.trans hu
  have hbw : s'.ram.logfile.bytesWritten = w.ram.logfile.bytesWritten := by
    rw [saveRecord_run] at hsave
    rw [← (Prod.mk.inj hsave).2]
  rw [logFlush, transcript_bind_ok (uartAvailable_run env s), logFlushFrom, transcript_bind_ok htail,
    transcript_bind_ok hdir, eepromWrites_append, eepromWrites_append, eepromWrites_append,
    eepromWrites_nil havail.writesNone, eepromWrites_nil hdo, eepromWrites_nil (hflush u),
    saveRecord_writes, hbw, hw]
  rfl

end Barelog
