import Barelog.Proofs.EepromLayout
import Barelog.Proofs.TornConfig

/-! Power loss while `log_flush` saves the recovery record. Only the bytes that change are written,
and each of them changes the value: between the first and the last of them the record is neither the
old value nor the new one. -/

namespace Barelog

open Prog

variable {env : Env} {s s' t : Machine} {fuel n : ℕ} {eeprom : ℕ → Byte}

def changedBytes (old new : ℕ) : ℕ :=
  ((List.range 4).filter fun i => old / 2 ^ (8 * i) % 2 ^ 8 ≠ new / 2 ^ (8 * i) % 2 ^ 8).length

/-! The value that is resumed from. -/

theorem resumesAt_iff {bw : ℕ} : ResumesAt eeprom bw ↔ bw = recovery eeprom := by
  constructor
  · intro h
    let s0 := Machine.powerUp (fun _ _ => 0) eeprom
    rcases hrun : (resumeLog 0 0 0 Scan.start).run (fwStep Env.ideal) s0 with ⟨r, t'⟩
    exact (h _ _ _ _ _ _ _ _ rfl hrun).symm.trans (resumesAt_recovery eeprom _ _ _ _ _ _ _ _ rfl hrun)
  · rintro rfl
    exact resumesAt_recovery eeprom

theorem recovery_byte (eeprom : ℕ → Byte) {i : ℕ} (hi : i < 4) :
    recovery eeprom / 2 ^ (8 * i) % 2 ^ 8 = (eeprom (eepromOffRecLo + i)).toNat := by
  have h0 := (eeprom eepromOffRecLo).toNat_lt
  have h1 := (eeprom (eepromOffRecLo + 1)).toNat_lt
  have h2 := (eeprom (eepromOffRecLo + 2)).toNat_lt
  have h3 := (eeprom (eepromOffRecLo + 3)).toNat_lt
  have hlast : eepromOffRecLo + 2 + 1 = eepromOffRecLo + 3 := rfl
  unfold recovery le32 le16
  rw [hlast]
  obtain rfl | rfl | rfl | rfl : i = 0 ∨ i = 1 ∨ i = 2 ∨ i = 3 := by omega
  all_goals
    norm_num only [Nat.add_zero]
    omega

theorem recordWrites_length (bw : ℕ) (eeprom : ℕ → Byte) :
    (recordWrites bw eeprom).length = changedBytes (recovery eeprom) bw := by
  rw [recordWrites, recordUpdates, List.filter_map, List.length_map, changedBytes]
  refine congrArg List.length (List.filter_congr fun i hi => ?_)
  rw [Function.comp_apply, recovery_byte eeprom (List.mem_range.mp hi), decide_eq_decide,
    ne_eq, ne_eq, not_iff_not, ← UInt8.toNat_inj, UInt8.toNat_ofNat']

theorem recordWrites_once (bw : ℕ) (eeprom : ℕ → Byte) : Stores.Once (recordWrites bw eeprom) :=
  (Stores.once_range _ _ _).sublist List.filter_sublist

/-- EEPROMs that differ at most in the record have the same record only if they are the same. -/
theorem recovery_eq_iff {eeprom' : ℕ → Byte}
    (h : ∀ i, i < 16 ∨ 20 ≤ i → eeprom i = eeprom' i) :
    recovery eeprom = recovery eeprom' ↔ eeprom = eeprom' := by
  refine ⟨fun heq => funext fun i => ?_, congrArg recovery⟩
  by_cases hi : i < 16 ∨ 20 ≤ i
  · exact h i hi
  · exact le32_inj heq i (by unfold eepromOffRecLo; omega) (by unfold eepromOffRecLo; omega)

theorem store_record_outside {l : List (ℕ × Byte)} {bw : ℕ}
    (hl : List.Sublist l (recordWrites bw eeprom)) {i : ℕ} (hi : i < 16 ∨ 20 ≤ i) :
    Stores.store eeprom l i = eeprom i := by
  refine Stores.store_outside fun w hw heq => ?_
  obtain ⟨j, hj, rfl⟩ := List.mem_map.mp (List.mem_of_mem_filter (hl.subset hw))
  have := List.mem_range.mp hj
  have : 16 + j = i := heq
  omega

/-- When power is lost in `log_flush` after `n` byte writes, the next boot resumes from the old
value or the new one exactly if no byte has been written, or all that change. -/
theorem torn_record_iff (env : Env) {fuel old : ℕ} {s s' : Machine} (hold : ResumesAt s.eeprom old)
    (hrun : (logFlush fuel).run (fwStep env) s = (.ok (), s'))
    (hbw : s'.ram.logfile.bytesWritten < 2 ^ 32) (n : ℕ) :
    ResumesAt (cutEeprom env (logFlush fuel) s n) old ∨
      ResumesAt (cutEeprom env (logFlush fuel) s n) s'.ram.logfile.bytesWritten ↔
      n = 0 ∨ changedBytes old s'.ram.logfile.bytesWritten ≤ n := by
  obtain rfl := resumesAt_iff.mp hold
  have hnew := store_recordWrites s'.ram.logfile.bytesWritten s.eeprom
  have hwritten : ∀ i, i < 16 ∨ 20 ≤ i → Stores.store s.eeprom
      ((recordWrites s'.ram.logfile.bytesWritten s.eeprom).take n) i = s.eeprom i :=
    fun i hi => store_record_outside (List.take_sublist _ _) hi
  have hleft := recovery_eq_iff hwritten
  have hright := recovery_eq_iff fun i hi => (hwritten i hi).trans
    (store_record_outside (List.Sublist.refl (recordWrites s'.ram.logfile.bytesWritten _)) hi).symm
  rw [hnew, recovery_savedRecord hbw, ← hnew] at hright
  have hchange : ∀ w ∈ recordWrites s'.ram.logfile.bytesWritten s.eeprom, s.eeprom w.1 ≠ w.2 :=
    fun w hw => of_decide_eq_true (List.mem_filter.mp hw).2
  rw [resumesAt_iff, resumesAt_iff, cutEeprom, logFlush_writes hrun,
    eq_comm (a := recovery s.eeprom), hleft, eq_comm (a := s'.ram.logfile.bytesWritten), hright,
    Stores.torn_iff (recordWrites_once _ _) hchange, recordWrites_length]

/-- A machine with nothing to flush, a recovery record, and another number of bytes written. -/
def recordMachine (old bw : ℕ) : Machine :=
  let s := Machine.powerUp (fun _ _ => 0) (savedRecord old fun _ => 0xFF)
  { s with ram := { s.ram with logfile := { s.ram.logfile with bytesWritten := bw } } }

theorem recordMachine_resumes {old : ℕ} (h : old < 2 ^ 32) (bw : ℕ) :
    ResumesAt (recordMachine old bw).eeprom old :=
  resumesAt_iff.mpr (recovery_savedRecord h _).symm

/-- The first sector: only the second byte of the record changes. -/
theorem torn_record_first_sector :
    ResumesAt (cutEeprom Env.ideal (logFlush 0) (recordMachine 0 512) 1) 0 ∨
      ResumesAt (cutEeprom Env.ideal (logFlush 0) (recordMachine 0 512) 1) 512 := by
  have hret : (logFlush 0).returns Env.ideal (recordMachine 0 512) = true := by decide +kernel
  obtain ⟨_, hrun⟩ := Fw.returns_run hret
  have hbw : ((logFlush 0).run (fwStep Env.ideal) (recordMachine 0 512)).2.ram.logfile.bytesWritten =
      512 := by decide +kernel
  have h := torn_record_iff Env.ideal (recordMachine_resumes (by decide) 512) hrun
    (by rw [hbw]; decide) 1
  rw [hbw] at h
  exact h.mpr (.inr (by decide))

/-- The file grows from 65024 to 65536 bytes, and power is lost between the two bytes that change:
the next boot resumes from 0. -/
theorem record_torn : ResumesAt (recordMachine 65024 65536).eeprom 65024 ∧
    ((logFlush 0).run (fwStep Env.ideal) (recordMachine 65024 65536)).2.ram.logfile.bytesWritten =
      65536 ∧
    ¬ (ResumesAt (cutEeprom Env.ideal (logFlush 0) (recordMachine 65024 65536) 1) 65024 ∨
      ResumesAt (cutEeprom Env.ideal (logFlush 0) (recordMachine 65024 65536) 1) 65536) := by
  refine ⟨recordMachine_resumes (by decide) _, by decide +kernel, ?_⟩
  have hzero : recovery (cutEeprom Env.ideal (logFlush 0) (recordMachine 65024 65536) 1) = 0 := by
    decide +kernel
  rw [resumesAt_iff, resumesAt_iff, hzero]
  decide

end Barelog
