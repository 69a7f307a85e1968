import Barelog.Spec.PowerLoss
import Barelog.Proofs.ConfigSave

/-! Power loss during `config_save`. The 14 bytes are written in the order of their addresses, the
magic first, and over the same magic: what is loaded then has the first bytes from the new
configuration and the others from the old one. -/

namespace Barelog

open Prog

variable {env : Env} {c : Config} {s : Machine} {eeprom eeprom' : ℕ → Byte} {n : ℕ}

/-- The configuration bytes, behind the magic, of a cut save are those of the old configuration, of
the new one, or of the defaults. -/
def CutHarmless (c : Config) (eeprom : ℕ → Byte) (n : ℕ) : Prop :=
  (∀ i, 4 ≤ i → i < 14 → i < n → configByte c i = eeprom i) ∨
  (∀ i, 4 ≤ i → i < 14 → n ≤ i → eeprom i = configByte c i) ∨
  ∀ i, 4 ≤ i → i < 14 →
    (i < n → configByte c i = configByte configDefaults i) ∧
    (n ≤ i → eeprom i = configByte configDefaults i)

theorem configSave_writes (env : Env) (c : Config) (s : Machine) :
    eepromWrites ((configSave c).transcript (fwStep env) s) =
      (List.range 14).map fun i => (0 + i, configByte c i) := rfl

/-- The EEPROM after the first `n` byte writes of `config_save`. -/
theorem cut_configSave (env : Env) (c : Config) (s : Machine) (n i : ℕ) :
    cutEeprom env (configSave c) s n i =
      if i < n ∧ i < 14 then configByte c i else s.eeprom i := by
  rw [cutEeprom, configSave_writes, Stores.store_range_take]
  exact if_congr (by omega) rfl rfl

theorem le16_inj {b b' : ℕ → Byte} {i : ℕ} (h : le16 b i = le16 b' i) :
    b i = b' i ∧ b (i + 1) = b' (i + 1) := by
  have h0 := (b i).toNat_lt
  have h0' := (b' i).toNat_lt
  unfold le16 at h
  exact ⟨UInt8.toNat_inj.mp (by omega), UInt8.toNat_inj.mp (by omega)⟩

theorem le32_inj {b b' : ℕ → Byte} {i : ℕ} (h : le32 b i = le32 b' i) :
    ∀ j, i ≤ j → j < i + 4 → b j = b' j := by
  have hlt : ∀ b : ℕ → Byte, ∀ i, le16 b i < 2 ^ 16 := fun b i => by
    have h0 := (b i).toNat_lt
    have h1 := (b (i + 1)).toNat_lt
    unfold le16
    omega
  have h1 := hlt b i
  have h2 := hlt b' i
  unfold le32 at h
  have hlow : le16 b i = le16 b' i := by omega
  have hhigh : le16 b (i + 2) = le16 b' (i + 2) := by omega
  obtain ⟨hb0, hb1⟩ := le16_inj hlow
  obtain ⟨hb2, hb3⟩ := le16_inj hhigh
  intro j hj hj'
  obtain rfl | rfl | rfl | rfl : j = i ∨ j = i + 1 ∨ j = i + 2 ∨ j = i + 3 := by omega
  · exact hb0
  · exact hb1
  · exact hb2
  · exact hb3

/-- The configuration is what the bytes behind the magic are. -/
theorem storedConfig_eq_iff : storedConfig eeprom = storedConfig eeprom' ↔
    ∀ i, 4 ≤ i → i < 14 → eeprom i = eeprom' i := by
  constructor
  · intro h
    obtain ⟨hbaud, hchar, hcount, hnum, hflags, hcode⟩ := Config.mk.inj h
    intro i hi hi'
    rcases Nat.lt_or_ge i 8 with hlt | hge
    · exact le32_inj hbaud i hi hlt
    · obtain ⟨hlo, hhi⟩ := le16_inj hnum
      obtain rfl | rfl | rfl | rfl | rfl | rfl :
          i = 8 ∨ i = 9 ∨ i = 10 ∨ i = 11 ∨ i = 12 ∨ i = 13 := by omega
      · exact hchar
      · exact UInt8.toNat_inj.mp hcount
      · exact hlo
      · exact hhi
      · exact hflags
      · exact UInt8.toNat_inj.mp hcode
  · intro h
    have hbaud : le32 eeprom eepromOffBaud = le32 eeprom' eepromOffBaud :=
      le32_congr fun j hj hj' => h j hj (Nat.lt_trans hj' (by decide))
    have hnum : le16 eeprom eepromOffLognum = le16 eeprom' eepromOffLognum :=
      le16_congr fun j hj hj' => h j (Nat.le_trans (by decide) hj) (Nat.lt_trans hj' (by decide))
    rw [storedConfig, hbaud, hnum, h eepromOffEsc (by decide) (by decide),
      h eepromOffEsccnt (by decide) (by decide), h eepromOffFlags (by decide) (by decide),
      h eepromOffPrealloc (by decide) (by decide)]
    rfl

/-- A valid magic stays valid at every point of a save. -/
theorem hasConfig_cut (hs : HasConfig s.eeprom) (n : ℕ) :
    HasConfig (cutEeprom env (configSave c) s n) := by
  have hsaved : HasConfig (savedConfig c s.eeprom) := hasConfig_saved c s.eeprom
  have hmagic := le32_inj (hsaved.trans hs.symm)
  rw [HasConfig, ← hs]
  refine le32_congr fun j hj hj' => ?_
  rw [cut_configSave]
  split_ifs with h
  · rw [← hmagic j hj hj', savedConfig, if_pos h.2]
  · rfl

/-- What a cut save leaves, compared byte by byte with another configuration. -/
theorem storedConfig_cut (eeprom : ℕ → Byte) :
    storedConfig (cutEeprom env (configSave c) s n) = storedConfig eeprom ↔
      ∀ i, 4 ≤ i → i < 14 →
        (i < n → configByte c i = eeprom i) ∧ (n ≤ i → s.eeprom i = eeprom i) := by
  rw [storedConfig_eq_iff]
  refine forall_congr' fun i => forall₂_congr fun _ hi => ?_
  rw [cut_configSave, if_congr (and_iff_left hi) rfl rfl, ite_eq_iff', not_lt]

/-- What is loaded after a cut save is the old configuration, the new one or the defaults exactly if
the bytes before the cut and those behind it are together the bytes of one of the three. -/
theorem torn_config_iff (env env' : Env) {c : Config} (hc : c.Fits) {s t : Machine}
    (hs : HasConfig s.eeprom) (n : ℕ) (ht : t.eeprom = cutEeprom env (configSave c) s n) :
    (∃ t', configLoad.run (fwStep env') t = (.ok (), t') ∧
      (t'.ram.cfg = storedConfig s.eeprom ∨ t'.ram.cfg = c ∨ t'.ram.cfg = configDefaults)) ↔
      CutHarmless c s.eeprom n := by
  have hmagic : le32 t.eeprom eepromOffMagic = eepromMagic := ht ▸ hasConfig_cut hs n
  have hload : configLoad.run (fwStep env') t =
      (.ok (), { t with ram := { t.ram with cfg := storedConfig t.eeprom } }) := by
    rw [configLoad_run, Machine.loadConfig, if_pos hmagic]
  have hold : storedConfig t.eeprom = storedConfig s.eeprom ↔
      ∀ i, 4 ≤ i → i < 14 → i < n → configByte c i = s.eeprom i := by
    rw [ht, storedConfig_cut]
    exact forall_congr' fun i => forall₂_congr fun _ _ => and_iff_left fun _ => rfl
  have hnew : storedConfig t.eeprom = c ↔
      ∀ i, 4 ≤ i → i < 14 → n ≤ i → s.eeprom i = configByte c i := by
    rw [← storedConfig_saved hc s.eeprom, ht, storedConfig_cut, storedConfig_saved hc]
    refine forall_congr' fun i => forall₂_congr fun _ hi => ?_
    rw [savedConfig_low c s.eeprom hi, and_iff_right fun _ => rfl]
  have hdefault : storedConfig t.eeprom = configDefaults ↔ ∀ i, 4 ≤ i → i < 14 →
      (i < n → configByte c i = configByte configDefaults i) ∧
      (n ≤ i → s.eeprom i = configByte configDefaults i) := by
    rw [← storedConfig_saved configDefaults_fits s.eeprom, ht, storedConfig_cut,
      storedConfig_saved configDefaults_fits]
    refine forall_congr' fun i => forall₂_congr fun _ hi => ?_
    rw [savedConfig_low configDefaults s.eeprom hi]
  rw [CutHarmless, ← hold, ← hnew, ← hdefault, hload]
  constructor
  · rintro ⟨t', hrun, h⟩
    obtain rfl := (Prod.mk.inj hrun).2
    exact h
  · exact fun h => ⟨_, rfl, h⟩

def numbered (logNum : ℕ) : Config := { configDefaults with logNum := logNum }

theorem numbered_fits {k : ℕ} (hk : k < 2 ^ 16) : (numbered k).Fits :=
  ⟨show 115200 < 2 ^ 32 by decide, show 3 < 2 ^ 8 by decide, hk, show 2 < 2 ^ 8 by decide⟩

/-- A save that is cut before the log number harms nothing. -/
theorem torn_config_before_number : ∃ t', configLoad.run (fwStep Env.ideal)
    (Machine.powerUp (fun _ _ => 0) (cutEeprom Env.ideal (configSave (numbered 256))
      (Machine.powerUp (fun _ _ => 0) (savedConfig (numbered 255) fun _ => 0xFF)) 10)) =
        (.ok (), t') ∧
    (t'.ram.cfg = storedConfig (savedConfig (numbered 255) fun _ => 0xFF) ∨
      t'.ram.cfg = numbered 256 ∨ t'.ram.cfg = configDefaults) := by
  refine (torn_config_iff Env.ideal Env.ideal (numbered_fits (by decide))
    (s := Machine.powerUp (fun _ _ => 0) (savedConfig (numbered 255) fun _ => 0xFF))
    (hasConfig_saved _ _) 10 rfl).mpr (.inl ?_)
  intro i _ hi hn
  change configByte (numbered 256) i = savedConfig (numbered 255) (fun _ => 0xFF) i
  rw [savedConfig_low _ _ hi]
  interval_cases i <;> rfl

/-- `fat32_open_log` counts the log number from 255 to 256, and power is lost between its two bytes:
the number that is loaded is 0. -/
theorem config_save_torn : HasConfig (savedConfig (numbered 255) fun _ => 0xFF) ∧
    (numbered 256).Fits ∧ ¬ ∃ t', configLoad.run (fwStep Env.ideal)
      (Machine.powerUp (fun _ _ => 0) (cutEeprom Env.ideal (configSave (numbered 256))
        (Machine.powerUp (fun _ _ => 0) (savedConfig (numbered 255) fun _ => 0xFF)) 11)) =
          (.ok (), t') ∧
      (t'.ram.cfg = storedConfig (savedConfig (numbered 255) fun _ => 0xFF) ∨
        t'.ram.cfg = numbered 256 ∨ t'.ram.cfg = configDefaults) := by
  refine ⟨hasConfig_saved _ _, numbered_fits (by decide), ?_⟩
  rintro ⟨t', hrun, h⟩
  have hcfg : t'.ram.cfg = numbered 0 := by
    rw [← (Prod.mk.inj hrun).2]
    decide +kernel
  rw [hcfg, storedConfig_saved (numbered_fits (by decide))] at h
  revert h
  decide

end Barelog
