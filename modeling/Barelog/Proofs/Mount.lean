import Barelog.Proofs.ConfigSave
import Barelog.Proofs.NewFile
import Barelog.Spec.Log

/-! What `fat32_mount` takes from the partition table and the boot record, and the boot
sequence up to the log file. -/

namespace Barelog

open Prog

variable {env : Env} {s s' s1 : Machine} {card : ℕ → Sector}

/-- The start of the first of `n` partitions from entry `i` that has a FAT32 type, or 0. -/
def partFrom (b : ℕ → Byte) : ℕ → ℕ → ℕ
  | 0, _ => 0
  | n + 1, i =>
    if b (446 + i * 16 + 4) = 0x0B ∨ b (446 + i * 16 + 4) = 0x0C then le32 b (446 + i * 16 + 8)
    else partFrom b n (i + 1)

def partLbaOf (card : ℕ → Sector) : ℕ := partFrom (card 0).byte 4 0

def volFrom (partLba : ℕ) (b : ℕ → Byte) : Vol :=
  let fatLba := u32 (partLba + le16 b 14)
  { partLba := partLba
    fatLba := fatLba
    fatSz32 := le32 b 36
    numFats := (b 16).toNat
    dataLba := u32 (fatLba + u32 ((b 16).toNat * le32 b 36))
    rootClus := le32 b 44
    secPerClus := (b 13).toNat
    totSec := le32 b 32 }

def volOf (card : ℕ → Sector) : Vol := volFrom (partLbaOf card) (card (partLbaOf card)).byte

/-- The card has a FAT32 volume with 512 byte sectors. -/
structure Mountable (card : ℕ → Sector) : Prop where
  part : partLbaOf card ≠ 0
  bytesPerSec : le16 (card (partLbaOf card)).byte 11 = 512
  fatSz16 : le16 (card (partLbaOf card)).byte 22 = 0
  fatSz32 : le32 (card (partLbaOf card)).byte 36 ≠ 0

def Machine.withVol (s : Machine) (v : Vol) : Machine := { s with ram := { s.ram with vol := v } }

theorem findPart_run (env : Env) (s : Machine) (n i : ℕ) :
    (findPart n i).run (fwStep env) s = (.ok (partFrom s.ring n i), s) := by
  induction n generalizing i with
  | zero => rfl
  | succ n ih =>
    rw [findPart, run_bind_ok (ringGet_run env s _), partFrom]
    split_ifs with h
    · exact ringGet32_run env _ s
    · exact ih (i + 1)

theorem partFrom_congr {b b' : ℕ → Byte} (h : ∀ j, j < 512 → b' j = b j) (n i : ℕ) (hi : i + n ≤ 4) :
    partFrom b' n i = partFrom b n i := by
  induction n generalizing i with
  | zero => rfl
  | succ n ih =>
    rw [partFrom, partFrom, h _ (by omega), ih (i + 1) (by omega), le32, le32, le16, le16, le16, le16,
      h _ (by omega), h _ (by omega), h _ (by omega), h _ (by omega)]

theorem partition_congr (b : ℕ → Byte) (d : Sector) :
    partFrom (load b 0 d 512) 4 0 = partFrom d.byte 4 0 :=
  partFrom_congr (fun _ hj => load_inside hj) 4 0 le_rfl

theorem read_cases {lba : ℕ} {α : Type} {f : Unit → Fw α} {r : Except Stop α}
    (hrun : (sdReadSector lba 0 >>= f).run (fwStep env) s = (r, s')) :
    (f ()).run (fwStep env) { s.asked with ring := load s.ring 0 (s.card lba) 512 } = (r, s') ∨
      ¬ env.Good ∧ (∃ c, r = .error (.code c)) ∧ s' = s.asked := by
  by_cases hgood : env.Good
  · rw [run_bind, sdReadSector_run, if_pos (hgood _)] at hrun
    exact .inl hrun
  · rcases read_bind hrun with h | ⟨c, hr, hs⟩
    · exact .inl h
    · exact .inr ⟨hgood, ⟨c, hr⟩, hs⟩

/-- The numbers of a boot record are in its first 512 bytes. -/
theorem bootRecord_congr {b b' : ℕ → Byte} (h : ∀ j, j < 512 → b' j = b j) (p : ℕ) :
    volFrom p b' = volFrom p b ∧ le16 b' 11 = le16 b 11 ∧ le16 b' 22 = le16 b 22 ∧
      le32 b' 36 = le32 b 36 := by
  simp [volFrom, le32, le16, h]

theorem doIf_fail_run {c : Prop} [Decidable c] (e : Stop) (env : Env) (s : Machine) :
    (doIf c (.fail e)).run (fwStep env) s = (if c then .error e else .ok (), s) := by
  unfold doIf
  split_ifs <;> rfl

/-- The end of `fat32_mount`, with the boot record in the buffer. -/
def mountRecord (partLba : ℕ) : Fw Unit := do
  let bytesPerSec ← ringGet16 11
  doIf (bytesPerSec ≠ 512) (.fail (.code (-1)))
  let fatSz16 ← ringGet16 22
  let fatSz32 ← ringGet32 36
  doIf (fatSz16 ≠ 0 ∨ fatSz32 = 0) (.fail (.code (-1)))
  let rsvdSec ← ringGet16 14
  let numFats ← ringGet 16
  let rootClus ← ringGet32 44
  let secPerClus ← ringGet 13
  let totSec ← ringGet32 32
  let r ← getRam
  let fatLba := u32 (partLba + rsvdSec)
  setRam { r with vol := {
    partLba := partLba
    fatLba := fatLba
    fatSz32 := fatSz32
    numFats := numFats.toNat
    dataLba := u32 (fatLba + u32 (numFats.toNat * fatSz32))
    rootClus := rootClus
    secPerClus := secPerClus.toNat
    totSec := totSec } }

theorem fat32Mount_eq : fat32Mount = (do
    sdReadSector 0 0
    let partLba ← findPart 4 0
    doIf (partLba = 0) (.fail (.code (-1)))
    sdReadSector partLba 0
    mountRecord partLba) := rfl

theorem mountRecord_run (env : Env) (p : ℕ) (s : Machine) :
    (mountRecord p).run (fwStep env) s =
      if le16 s.ring 11 = 512 ∧ le16 s.ring 22 = 0 ∧ le32 s.ring 36 ≠ 0 then
        (.ok (), s.withVol (volFrom p s.ring))
      else (.error (.code (-1)), s) := by
  rw [mountRecord, run_bind_ok (ringGet16_run ..), run_bind, doIf_fail_run]
  by_cases h1 : le16 s.ring 11 = 512
  · rw [if_neg (not_not.mpr h1)]
    simp only
    rw [run_bind_ok (ringGet16_run ..), run_bind_ok (ringGet32_run ..), run_bind, doIf_fail_run]
    by_cases h2 : le16 s.ring 22 ≠ 0 ∨ le32 s.ring 36 = 0
    · rw [if_pos h2, if_neg (by tauto)]
    · rw [if_neg h2, if_pos (by tauto)]
      rfl
  · rw [if_pos h1, if_neg (by tauto)]

/-- `fat32_mount` stores the volume of the card, or it fails and stores nothing; it can only
fail on a card that cannot be mounted or does not answer. -/
theorem fat32Mount_cases {r : Except Stop Unit} (hrun : fat32Mount.run (fwStep env) s = (r, s')) :
    (r = .ok () ∧ Mountable s.card ∧ Scratch (s.withVol (volOf s.card)) s') ∨
      (∃ c, r = .error (.code c)) ∧ Scratch s s' ∧ ¬ (env.Good ∧ Mountable s.card) := by
  rw [fat32Mount_eq] at hrun
  rcases read_cases hrun with hrun | ⟨hbad, hcode, rfl⟩
  swap
  · exact .inr ⟨hcode, scratch_asked s, fun h => hbad h.1⟩
  have hpart := scratch_load s (s.card 0)
  have hlba : partFrom (s.card 0).byte 4 0 = partLbaOf s.card := rfl
  rw [run_bind_ok (findPart_run ..), partition_congr, hlba, run_bind, doIf_fail_run] at hrun
  generalize { s.asked with ring := load s.ring 0 (s.card 0) 512 } = s1 at hrun hpart
  by_cases h0 : partLbaOf s.card = 0
  · rw [if_pos h0] at hrun
    cases hrun
    exact .inr ⟨⟨-1, rfl⟩, hpart, fun h => h.2.part h0⟩
  rw [if_neg h0] at hrun
  rcases read_cases hrun with hrun | ⟨hbad, hcode, rfl⟩
  swap
  · exact .inr ⟨hcode, hpart.trans (scratch_asked s1), fun h => hbad h.1⟩
  have hboot := hpart.trans (scratch_load s1 (s1.card (partLbaOf s.card)))
  have hring : ∀ j, j < 512 → load s1.ring 0 (s1.card (partLbaOf s.card)) 512 j =
      (s.card (partLbaOf s.card)).byte j := by
    intro j hj
    rw [load_inside hj, hpart.card]
  obtain ⟨hvol, h11, h22, h36⟩ := bootRecord_congr hring (partLbaOf s.card)
  rw [mountRecord_run] at hrun
  simp only [h11, h22, h36, hvol] at hrun
  have hend := hboot.withRam { s.ram with vol := volOf s.card }
  generalize { s1.asked with ring := load s1.ring 0 (s1.card (partLbaOf s.card)) 512 } = s2
    at hrun hboot hend
  split_ifs at hrun with h
  · cases hrun
    refine .inl ⟨rfl, ⟨h0, h.1, h.2.1, h.2.2⟩, ?_⟩
    rw [Machine.withVol, Machine.withVol, hboot.ram]
    exact hend
  · cases hrun
    exact .inr ⟨⟨-1, rfl⟩, hboot, fun hm => h ⟨hm.2.bytesPerSec, hm.2.fatSz16, hm.2.fatSz32⟩⟩

theorem fat32Mount_good (hgood : env.Good) (hm : Mountable s.card) :
    ∃ s', fat32Mount.run (fwStep env) s = (.ok (), s') ∧ Scratch (s.withVol (volOf s.card)) s' := by
  rcases hrun : fat32Mount.run (fwStep env) s with ⟨r, s'⟩
  rcases fat32Mount_cases hrun with ⟨rfl, -, hend⟩ | ⟨-, -, hbad⟩
  · exact ⟨s', rfl, hend⟩
  · exact absurd ⟨hgood, hm⟩ hbad

/-! The boot sequence. -/

def Machine.configured (s : Machine) (rxLow : Bool) : Machine :=
  let s1 := s.loadConfig
  if rxLow = true ∧ s1.ram.cfg.flags &&& cfgFlIgnoreRxRst = 0 then
    { s1 with
      ram := { s1.ram with cfg := configDefaults }
      eeprom := savedConfig configDefaults s1.eeprom }
  else s1

theorem loadConfig_card (s : Machine) : s.loadConfig.card = s.card := by
  unfold Machine.loadConfig
  split_ifs <;> rfl

theorem configured_card (s : Machine) (rxLow : Bool) : (s.configured rxLow).card = s.card := by
  unfold Machine.configured
  dsimp only
  split_ifs <;> exact loadConfig_card s

theorem boot_run (env : Env) (fuel : ℕ) (rxLow : Bool) (s : Machine) :
    (boot fuel rxLow).run (fwStep env) s =
      (fat32Mount >>= fun _ => fat32OpenLog fuel).run (fwStep env) (s.configured rxLow) := by
  rw [boot, run_bind_ok (configLoad_run env s), getRam_bind]
  unfold doIf Machine.configured
  dsimp only
  split_ifs with h
  · rw [factoryReset, bind_assoc, run_bind_ok (setCfg_run ..), run_bind_ok (configSave_run ..)]
  · rfl

/-! A card that boots. -/

/-- A partition table with one FAT32 partition, from sector 1 on. -/
def partTable : Sector := fun i => if i = 450 then 0x0C else if i = 454 then 1 else 0

def bootRecord : Sector := fun i =>
  [(12, 0x02), (13, 0x80), (14, 0x09), (16, 0x01), (32, 0x0A), (33, 0x0A), (36, 0x01), (44, 0x02)].foldl
    (fun b (p : ℕ × Byte) => if i = p.1 then p.2 else b) 0

/-- A formatted card with an empty root directory. -/
def bootCard : ℕ → Sector :=
  Function.update (Function.update (blankCard (usedFat 3)) 0 partTable) 1 bootRecord

/-- An EEPROM with a configuration for files of 1 MB. -/
def bootEeprom : ℕ → Byte := savedConfig { configDefaults with preallocCode := 0 } fun _ => 0xFF

theorem bootCard_vol : volOf bootCard = smallVol := by
  have h : (volOf bootCard).fatLba = 10 ∧ (volOf bootCard).fatSz32 = 1 ∧
      (volOf bootCard).dataLba = 11 ∧ (volOf bootCard).rootClus = 2 ∧ (volOf bootCard).partLba = 1 ∧
      (volOf bootCard).totSec = 2570 ∧ (volOf bootCard).secPerClus = 128 ∧
      (volOf bootCard).numFats = 1 := by decide +kernel
  generalize volOf bootCard = v at h
  obtain ⟨_, _, _, _, _, _, _, _⟩ := v
  obtain ⟨rfl, rfl, rfl, rfl, rfl, rfl, rfl, rfl⟩ := h
  rfl

theorem bootCard_mountable : Mountable bootCard :=
  ⟨by decide +kernel, by decide +kernel, by decide +kernel, by decide +kernel⟩

def bootStart : Machine := (Machine.powerUp bootCard bootEeprom).configured false

def bootMachine : Machine := (fat32Mount.run (fwStep Env.ideal) bootStart).2

theorem bootMachine_mounts : fat32Mount.run (fwStep Env.ideal) bootStart = (.ok (), bootMachine) ∧
    bootMachine.ram.vol = smallVol ∧ bootMachine.card = bootCard := by
  have hgood : Env.ideal.Good := fun _ => rfl
  have hcard : bootStart.card = bootCard := configured_card _ _
  obtain ⟨s', hrun, hend⟩ := fat32Mount_good hgood (hcard.symm ▸ bootCard_mountable)
  have hs' : bootMachine = s' := by rw [bootMachine, hrun]
  rw [hs']
  refine ⟨hrun, ?_, ?_⟩
  · rw [hend.ram, Machine.withVol, hcard, bootCard_vol]
  · rw [hend.card, Machine.withVol, hcard]

theorem bootCard_boots : ∃ s', (boot 64 false).run (fwStep Env.ideal)
    (Machine.powerUp bootCard bootEeprom) = (.ok (), s') := by
  have hgood : Env.ideal.Good := fun _ => rfl
  obtain ⟨hmount, hvol, hcard⟩ := bootMachine_mounts
  rw [boot_run]
  change ∃ s', (fat32Mount >>= fun _ => fat32OpenLog 64).run _ bootStart = _
  rw [run_bind_ok hmount]
  have hv : Geometry bootMachine.ram.vol := hvol ▸ smallVol_geometry
  have hroot : RootOk bootMachine.ram.vol bootMachine.card := by
    rw [hvol, hcard]
    exact rootOk_single (by decide) (by decide)
  obtain ⟨-, s', hopen⟩ := openLog_succeeds 64 hgood hv hroot (by decide +kernel)
    (by rw [hvol]; decide) (by decide +kernel)
  exact ⟨s', hopen⟩

end Barelog
