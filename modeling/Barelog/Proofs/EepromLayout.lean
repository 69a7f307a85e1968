import Barelog.Proofs.EepromWrites

/-! The two records of the EEPROM. The configuration is in bytes 0 to 13 and the recovery record in
bytes 16 to 19; each is read back as it was saved, and neither save touches the other record. -/

namespace Barelog

open Prog

variable {env : Env} {s s' t : Machine} {fuel : ℕ}

theorem recovery_savedRecord {bw : ℕ} (hbw : bw < 2 ^ 32) (eeprom : ℕ → Byte) :
    recovery (savedRecord bw eeprom) = bw := by
  have h24 : bw / 2 ^ 16 / 2 ^ 8 = bw / 2 ^ 24 := by omega
  have h := le32_of_bytes (b := savedRecord bw eeprom) (i := eepromOffRecLo) (n := bw)
    (by simp [savedRecord, eepromOffRecLo, eepromOffRecHi])
    (by simp [savedRecord, eepromOffRecLo, eepromOffRecHi])
    (by simp [savedRecord, eepromOffRecLo, eepromOffRecHi])
    (by rw [h24]; simp [savedRecord, eepromOffRecLo, eepromOffRecHi])
  rwa [Nat.mod_eq_of_lt hbw] at h

/-- The resume path of `fat32_open_log` takes `bw` from the EEPROM, whatever else it finds. -/
def ResumesAt (eeprom : ℕ → Byte) (bw : ℕ) : Prop :=
  ∀ (env : Env) (t t' : Machine) (fuel preallocSz nSectors : ℕ) (sc : Scan) (r : Except Stop Unit),
    t.eeprom = eeprom → (resumeLog fuel preallocSz nSectors sc).run (fwStep env) t = (r, t') →
    t'.ram.logfile.bytesWritten = bw

theorem resumesAt_recovery (eeprom : ℕ → Byte) : ResumesAt eeprom (recovery eeprom) := by
  intro env t t' fuel preallocSz nSectors sc r heeprom hrun
  subst heeprom
  rw [resumeLog_run] at hrun
  rcases bind_ended hrun with ⟨last, u, hwalk, hset⟩ | ⟨e, hwalk, -⟩
  · rw [setLogfile_run] at hset
    obtain rfl := (Prod.mk.inj hset).2
    have hram := (walkChain_cases hwalk).ram
    rw [Machine.withLogfile, hram]
    rfl
  · rw [(walkChain_cases hwalk).ram]
    rfl

/-- All that a completed `log_flush` changes in the EEPROM is the recovery record. -/
theorem logFlush_eeprom (hrun : (logFlush fuel).run (fwStep env) s = (.ok (), s')) :
    s'.eeprom = savedRecord s'.ram.logfile.bytesWritten s.eeprom := by
  have hwrites := eeprom_run env (logFlush fuel) s
  rw [logFlush_writes hrun, store_recordWrites, hrun] at hwrites
  exact hwrites

/-- A saved configuration is loaded again, and saving it leaves the bytes from 14 on. A recovery
record is resumed from again, and `log_flush` leaves the bytes up to 15. -/
theorem eeprom_round_trips (env : Env) {c : Config} (hc : c.Fits) {s : Machine}
    (hbw : s.ram.logfile.bytesWritten < 2 ^ 32) :
    (∃ s1 s2, (configSave c).run (fwStep env) s = (.ok (), s1) ∧
      configLoad.run (fwStep env) s1 = (.ok (), s2) ∧ s2.ram.cfg = c ∧ s2.eeprom = s1.eeprom ∧
      ∀ i, 14 ≤ i → s1.eeprom i = s.eeprom i) ∧
    (∃ s1, saveRecord.run (fwStep env) s = (.ok (), s1) ∧
      (∀ i, i < 16 → s1.eeprom i = s.eeprom i) ∧
      ResumesAt s1.eeprom s.ram.logfile.bytesWritten) ∧
    ∀ (fuel : ℕ) (s0 : Machine), (logFlush fuel).run (fwStep env) s0 = (.ok (), s) →
      (∀ i, i < 16 → s.eeprom i = s0.eeprom i) ∧
      ResumesAt s.eeprom s.ram.logfile.bytesWritten := by
  have hresume : ∀ eeprom, ResumesAt (savedRecord s.ram.logfile.bytesWritten eeprom)
      s.ram.logfile.bytesWritten := by
    intro eeprom
    have h := resumesAt_recovery (savedRecord s.ram.logfile.bytesWritten eeprom)
    rwa [recovery_savedRecord hbw] at h
  refine ⟨?_, ?_, ?_⟩
  · refine ⟨_, _, configSave_run env c s, configLoad_run env _, ?_⟩
    have hstored : le32 (savedConfig c s.eeprom) eepromOffMagic = eepromMagic :=
      hasConfig_saved c s.eeprom
    rw [Machine.loadConfig, if_pos hstored]
    exact ⟨storedConfig_saved hc s.eeprom, rfl, fun i hi => savedConfig_high c s.eeprom hi⟩
  · exact ⟨_, saveRecord_run env s, fun i hi => savedRecord_low _ _ hi, hresume _⟩
  · intro fuel s0 hrun
    have heeprom := logFlush_eeprom hrun
    rw [heeprom]
    exact ⟨fun i hi => savedRecord_low _ _ hi, hresume _⟩

/-- 64 KiB are in the file, 24 bytes are pending, and the EEPROM has other records. -/
def recordedMachine : Machine :=
  let s := Machine.mounted tinyVol fun _ _ => 0
  { s with
    ring := fun i => .ofNat (3 * i)
    ringHead := 24
    eeprom := fun i => .ofNat (200 + i)
    ram := { s.ram with logfile := ⟨3, 12, 13, 11, 0, 65536, 131072, 3⟩ } }

def otherConfig : Config :=
  { configDefaults with baud := 57600, escCount := 5, logNum := 4242, preallocCode := 3 }

/-- A configuration is saved and loaded; after a flush 66048 bytes are resumed from. -/
theorem eeprom_round_trips_recorded :
    (∃ s1 s2, (configSave otherConfig).run (fwStep Env.ideal) recordedMachine = (.ok (), s1) ∧
      configLoad.run (fwStep Env.ideal) s1 = (.ok (), s2) ∧ s2.ram.cfg = otherConfig) ∧
    ∃ s', (logFlush 1).run (fwStep Env.ideal) recordedMachine = (.ok (), s') ∧
      ResumesAt s'.eeprom 66048 := by
  have hfits : otherConfig.Fits := ⟨by decide, by decide, by decide, by decide⟩
  obtain ⟨⟨s1, s2, hsave, hload, hcfg, -⟩, -⟩ :=
    eeprom_round_trips Env.ideal hfits (s := recordedMachine) (by decide)
  refine ⟨⟨s1, s2, hsave, hload, hcfg⟩, ?_⟩
  have hend : (logFlush 1).returns Env.ideal recordedMachine = true ∧
      ((logFlush 1).run (fwStep Env.ideal) recordedMachine).2.ram.logfile.bytesWritten = 66048 := by
    decide +kernel
  obtain ⟨hreturns, hbytes⟩ := hend
  obtain ⟨_, hrun⟩ := Fw.returns_run hreturns
  have hresume := ((eeprom_round_trips Env.ideal hfits (by rw [hbytes]; decide)).2.2 1
    recordedMachine hrun).2
  rw [hbytes] at hresume
  exact ⟨_, hrun, hresume⟩

end Barelog
