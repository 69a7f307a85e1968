import Barelog.Proofs.NameSearch

/-! The configuration in the EEPROM: what is saved is loaded again, and the bytes behind it,
with the recovery record, are left alone. -/

namespace Barelog

open Prog

variable {env : Env} {s : Machine} {eeprom : ℕ → Byte}

def configByte (c : Config) (i : ℕ) : Byte :=
  match i with
  | 0 => .ofNat eepromMagic
  | 1 => .ofNat (eepromMagic / 2 ^ 8)
  | 2 => .ofNat (eepromMagic / 2 ^ 16)
  | 3 => .ofNat (eepromMagic / 2 ^ 16 / 2 ^ 8)
  | 4 => .ofNat c.baud
  | 5 => .ofNat (c.baud / 2 ^ 8)
  | 6 => .ofNat (c.baud / 2 ^ 16)
  | 7 => .ofNat (c.baud / 2 ^ 16 / 2 ^ 8)
  | 8 => c.escChar
  | 9 => .ofNat c.escCount
  | 10 => .ofNat c.logNum
  | 11 => .ofNat (c.logNum / 2 ^ 8)
  | 12 => c.flags
  | _ => .ofNat c.preallocCode

def savedConfig (c : Config) (eeprom : ℕ → Byte) : ℕ → Byte :=
  fun i => if i < 14 then configByte c i else eeprom i

def storedConfig (eeprom : ℕ → Byte) : Config where
  baud := le32 eeprom eepromOffBaud
  escChar := eeprom eepromOffEsc
  escCount := (eeprom eepromOffEsccnt).toNat
  logNum := le16 eeprom eepromOffLognum
  flags := eeprom eepromOffFlags
  preallocCode := (eeprom eepromOffPrealloc).toNat

def HasConfig (eeprom : ℕ → Byte) : Prop := le32 eeprom eepromOffMagic = eepromMagic

structure Config.Fits (c : Config) : Prop where
  baud : c.baud < 2 ^ 32
  escCount : c.escCount < 2 ^ 8
  logNum : c.logNum < 2 ^ 16
  preallocCode : c.preallocCode < 2 ^ 8

theorem configDefaults_fits : configDefaults.Fits := ⟨by decide, by decide, by decide, by decide⟩

theorem configSave_run (env : Env) (c : Config) (s : Machine) : (configSave c).run (fwStep env) s =
    (.ok (), { s with eeprom := savedConfig c s.eeprom }) := by
  simp only [configSave, eepromWriteDword, eepromWriteWord, run_bind, eepromSet_run,
    Prod.mk.injEq, true_and, eepromOffMagic, eepromOffBaud, eepromOffEsc, eepromOffEsccnt,
    eepromOffLognum, eepromOffFlags, eepromOffPrealloc]
  congr 1
  funext i
  by_cases hi : i < 14
  · rw [savedConfig, if_pos hi]
    interval_cases i <;> simp [configByte]
  · rw [savedConfig, if_neg hi]
    simp only [Function.update_apply]
    repeat rw [if_neg (by omega)]

/-- The bytes of a 16 bit and of a 32 bit number, put together again. -/
theorem le16_of_bytes {b : ℕ → Byte} {i n : ℕ} (h0 : b i = .ofNat n)
    (h1 : b (i + 1) = .ofNat (n / 2 ^ 8)) : le16 b i = n % 2 ^ 16 := by
  rw [le16, h0, h1, UInt8.toNat_ofNat', UInt8.toNat_ofNat']
  omega

theorem le32_of_bytes {b : ℕ → Byte} {i n : ℕ} (h0 : b i = .ofNat n)
    (h1 : b (i + 1) = .ofNat (n / 2 ^ 8)) (h2 : b (i + 2) = .ofNat (n / 2 ^ 16))
    (h3 : b (i + 3) = .ofNat (n / 2 ^ 16 / 2 ^ 8)) : le32 b i = n % 2 ^ 32 := by
  rw [le32, le16_of_bytes h0 h1, le16_of_bytes h2 h3]
  omega

theorem savedConfig_low (c : Config) (eeprom : ℕ → Byte) {i : ℕ} (hi : i < 14) :
    savedConfig c eeprom i = configByte c i := if_pos hi

theorem hasConfig_saved (c : Config) (eeprom : ℕ → Byte) : HasConfig (savedConfig c eeprom) :=
  le32_of_bytes (n := eepromMagic) (savedConfig_low c eeprom (by decide))
    (savedConfig_low c eeprom (by decide)) (savedConfig_low c eeprom (by decide))
    (savedConfig_low c eeprom (by decide))

theorem storedConfig_saved {c : Config} (hc : c.Fits) (eeprom : ℕ → Byte) :
    storedConfig (savedConfig c eeprom) = c := by
  have hlow : ∀ i, i < 14 → savedConfig c eeprom i = configByte c i := fun i hi => if_pos hi
  have hbaud : le32 (savedConfig c eeprom) eepromOffBaud = c.baud := by
    rw [eepromOffBaud, le32_of_bytes (n := c.baud) (hlow 4 (by decide)) (hlow 5 (by decide))
      (hlow 6 (by decide)) (hlow 7 (by decide)), Nat.mod_eq_of_lt hc.baud]
  have hnum : le16 (savedConfig c eeprom) eepromOffLognum = c.logNum := by
    rw [eepromOffLognum, le16_of_bytes (n := c.logNum) (hlow 10 (by decide)) (hlow 11 (by decide)),
      Nat.mod_eq_of_lt hc.logNum]
  have hcount : (savedConfig c eeprom eepromOffEsccnt).toNat = c.escCount := by
    rw [hlow eepromOffEsccnt (by decide)]
    exact UInt8.toNat_ofNat'.trans (Nat.mod_eq_of_lt hc.escCount)
  have hcode : (savedConfig c eeprom eepromOffPrealloc).toNat = c.preallocCode := by
    rw [hlow eepromOffPrealloc (by decide)]
    exact UInt8.toNat_ofNat'.trans (Nat.mod_eq_of_lt hc.preallocCode)
  rw [storedConfig, hbaud, hnum, hcount, hcode, hlow eepromOffEsc (by decide),
    hlow eepromOffFlags (by decide)]
  rfl

theorem savedConfig_high (c : Config) (eeprom : ℕ → Byte) {i : ℕ} (hi : 14 ≤ i) :
    savedConfig c eeprom i = eeprom i := if_neg (by omega)

theorem le16_congr {b b' : ℕ → Byte} {i : ℕ} (h : ∀ j, i ≤ j → j < i + 2 → b j = b' j) :
    le16 b i = le16 b' i := by
  rw [le16, le16, h i le_rfl (by omega), h (i + 1) (by omega) (by omega)]

theorem le32_congr {b b' : ℕ → Byte} {i : ℕ} (h : ∀ j, i ≤ j → j < i + 4 → b j = b' j) :
    le32 b i = le32 b' i := by
  rw [le32, le32, le16_congr fun j h1 h2 => h j h1 (by omega),
    le16_congr (i := i + 2) fun j h1 h2 => h j (by omega) (by omega)]

def Machine.loadConfig (s : Machine) : Machine :=
  if le32 s.eeprom eepromOffMagic = eepromMagic then
    { s with ram := { s.ram with cfg := storedConfig s.eeprom } }
  else
    { s with
      ram := { s.ram with cfg := configDefaults }
      eeprom := savedConfig configDefaults s.eeprom }

theorem eepromReadDword_run (env : Env) (i : ℕ) (s : Machine) :
    (eepromReadDword i).run (fwStep env) s = (.ok (le32 s.eeprom i), s) := rfl

theorem configLoad_run (env : Env) (s : Machine) :
    configLoad.run (fwStep env) s = (.ok (), s.loadConfig) := by
  rw [configLoad, run_bind_ok (eepromReadDword_run _ _ _), Machine.loadConfig]
  by_cases h : le32 s.eeprom eepromOffMagic = eepromMagic
  · rw [if_neg (not_not.mpr h), if_pos h, run_bind_ok (eepromReadDword_run _ _ _)]
    rfl
  · rw [if_pos h, if_neg h, run_bind_ok (setCfg_run _ _ _)]
    exact configSave_run env configDefaults _

end Barelog
