import Barelog.Proofs.Mount

/-! The geometry of a volume that `fat32_mount` accepts: it checks the sector size and the length of
the FAT, and stores the other fields of the boot record as they are. -/

namespace Barelog

open Prog

variable {env : Env} {s s' : Machine} {card : ℕ → Sector}

/-- `fat32_open_log` after the division by `sec_per_clus`. -/
def openWithClus (fuel preallocSz nSectors nClus : ℕ) : Fw Unit := do
  let found ← nameLoop fuel preallocSz nSectors 65536 none
  match found with
  | .resumed => pure ()
  | .create name emptyLba emptyOff =>
    doIf (emptyLba = 0) (.fail (.code (-1)))
    createLog fuel preallocSz nSectors nClus name emptyLba emptyOff
    let r ← getRam
    let cfg := { r.cfg with logNum := (r.cfg.logNum + 1) % 2 ^ 16 }
    setCfg cfg
    configSave cfg

/-- What the other modules need of a volume that is mounted, when the boot record has `rsvdSec`
reserved sectors. -/
structure Usable (rsvdSec : ℕ) (v : Vol) : Prop where
  secPerClus : v.secPerClus ≠ 0
  numFats : v.numFats ≠ 0
  rootClus : 2 ≤ v.rootClus
  fatLba : v.fatLba = v.partLba + rsvdSec
  dataLba : v.dataLba = v.fatLba + v.numFats * v.fatSz32
  partBelow : v.partLba < v.fatLba
  fatBelow : v.fatLba < v.dataLba
  dataBelow : v.dataLba < v.partLba + v.totSec
  /-- the division in `fat32_open_log` -/
  divides : ∀ (env : Env) (fuel : ℕ) (t : Machine), t.ram.vol = v →
    (fat32OpenLog fuel).run (fwStep env) t = (openWithClus fuel (preallocSize t)
      (preallocSectors t) (clusNeeded v (preallocSectors t))).run (fwStep env) t
  /-- `fat_write_entry` writes a FAT copy -/
  copies : ∀ (env : Env) (c val : ℕ) (t t' : Machine), t.ram.vol = v →
    (fatWriteEntry c val).run (fwStep env) t = (.ok (), t') →
    ∃ f d, f < v.numFats ∧ .write (fatCopySector v c f) d ∈ t'.events.drop t.events.length

/-- The boot record of a card describes a volume whose FAT and data area have sectors, in the
partition and below sector `2 ^ 32`. -/
structure BootGeometry (card : ℕ → Sector) : Prop where
  secPerClus : (card (partLbaOf card)).byte 13 ≠ 0
  numFats : (card (partLbaOf card)).byte 16 ≠ 0
  rootClus : 2 ≤ le32 (card (partLbaOf card)).byte 44
  rsvdSec : le16 (card (partLbaOf card)).byte 14 ≠ 0
  wrap : partLbaOf card + le16 (card (partLbaOf card)).byte 14 +
    ((card (partLbaOf card)).byte 16).toNat * le32 (card (partLbaOf card)).byte 36 < 2 ^ 32
  inside : le16 (card (partLbaOf card)).byte 14 +
    ((card (partLbaOf card)).byte 16).toNat * le32 (card (partLbaOf card)).byte 36 <
      le32 (card (partLbaOf card)).byte 32

theorem openLog_divides {v : Vol} (hspc : v.secPerClus ≠ 0) (env : Env) (fuel : ℕ) (t : Machine)
    (ht : t.ram.vol = v) : (fat32OpenLog fuel).run (fwStep env) t = (openWithClus fuel
      (preallocSize t) (preallocSectors t) (clusNeeded v (preallocSectors t))).run (fwStep env) t := by
  subst ht
  rw [fat32OpenLog, getRam_bind, doIf, if_neg hspc, pure_bind]
  rfl

theorem fatWriteEntry_copies {v : Vol} (hfats : v.numFats ≠ 0) (env : Env) (c val : ℕ)
    (t t' : Machine) (ht : t.ram.vol = v)
    (hrun : (fatWriteEntry c val).run (fwStep env) t = (.ok (), t')) :
    ∃ f d, f < v.numFats ∧ .write (fatCopySector v c f) d ∈ t'.events.drop t.events.length := by
  subst ht
  rcases fatWriteEntry_cases hrun with ⟨-, hput⟩ | ⟨e, he, -⟩
  · obtain ⟨evs, hevs, hlen, hend⟩ := hput.reach
    obtain ⟨_, _, _, -, rfl⟩ := hend
    have hdrop : (t.events ++ evs).drop t.events.length = evs := List.drop_left
    have hne : 0 < evs.length := by omega
    obtain ⟨f, d, hf, he⟩ := hevs _ (List.getElem_mem hne)
    refine ⟨f, d, hf, ?_⟩
    change _ ∈ (t.events ++ evs).drop t.events.length
    rw [hdrop, ← he]
    exact List.getElem_mem hne
  · cases he

/-- The volume of a card that can be mounted is usable exactly if its boot record says so. -/
theorem volOf_usable_iff (hm : Mountable card) :
    Usable (le16 (card (partLbaOf card)).byte 14) (volOf card) ↔ BootGeometry card := by
  have hsz := hm.fatSz32
  constructor
  · intro h
    have hfat : u32 (partLbaOf card + le16 (card (partLbaOf card)).byte 14) =
        partLbaOf card + le16 (card (partLbaOf card)).byte 14 := h.fatLba
    have hdata := h.dataLba
    have hinside := h.dataBelow
    have hbelow : (volOf card).dataLba < 2 ^ 32 := Nat.mod_lt _ (by decide)
    rw [hdata, h.fatLba] at hbelow hinside
    refine ⟨fun h0 => h.secPerClus ?_, fun h0 => h.numFats ?_, h.rootClus, ?_, hbelow, ?_⟩
    · exact congrArg UInt8.toNat h0
    · exact congrArg UInt8.toNat h0
    · have hpart := h.partBelow
      rw [h.fatLba] at hpart
      omega
    · change partLbaOf card + _ + _ < partLbaOf card + _ at hinside
      exact Nat.lt_of_add_lt_add_left (by rwa [Nat.add_assoc] at hinside)
  · intro h
    have hspc : ((card (partLbaOf card)).byte 13).toNat ≠ 0 := fun h0 =>
      h.secPerClus (UInt8.toNat_inj.mp h0)
    have hfats : ((card (partLbaOf card)).byte 16).toNat ≠ 0 := fun h0 =>
      h.numFats (UInt8.toNat_inj.mp h0)
    have hsize : 0 < ((card (partLbaOf card)).byte 16).toNat * le32 (card (partLbaOf card)).byte 36 :=
      Nat.mul_pos (by omega) (by omega)
    have hwrap := h.wrap
    have hrsvd := h.rsvdSec
    have hfat : (volOf card).fatLba = partLbaOf card + le16 (card (partLbaOf card)).byte 14 :=
      Nat.mod_eq_of_lt (by omega)
    have hdata : (volOf card).dataLba = (volOf card).fatLba +
        ((card (partLbaOf card)).byte 16).toNat * le32 (card (partLbaOf card)).byte 36 := by
      rw [hfat]
      change u32 ((volOf card).fatLba + u32 _) = _
      rw [hfat, u32, u32, Nat.mod_eq_of_lt (b := 2 ^ 32) (by omega), Nat.mod_eq_of_lt (by omega)]
    have hinside := h.inside
    refine ⟨hspc, hfats, h.rootClus, hfat, hdata, ?_, ?_, ?_, openLog_divides hspc,
      fatWriteEntry_copies hfats⟩
    · change partLbaOf card < _
      omega
    · omega
    · rw [hdata, hfat]
      change _ < partLbaOf card + le32 _ 32
      omega

theorem mounted_vol (hend : Scratch (s.withVol (volOf s.card)) s') : s'.ram.vol = volOf s.card :=
  congrArg Ram.vol hend.ram

/-- `fat32_mount` that returns 0 has stored a usable geometry exactly if the boot record describes
one. -/
theorem mount_usable_iff (hrun : fat32Mount.run (fwStep env) s = (.ok (), s')) :
    Usable (le16 (s.card (partLbaOf s.card)).byte 14) s'.ram.vol ↔ BootGeometry s.card := by
  rcases fat32Mount_cases hrun with ⟨-, hm, hend⟩ | ⟨⟨c, hc⟩, -⟩
  · rw [mounted_vol hend]
    exact volOf_usable_iff hm
  · cases hc

theorem bootCard_usable : fat32Mount.run (fwStep Env.ideal) bootStart = (.ok (), bootMachine) ∧
    (Usable (le16 (bootStart.card (partLbaOf bootStart.card)).byte 14) bootMachine.ram.vol ↔
      BootGeometry bootStart.card) :=
  ⟨bootMachine_mounts.1, mount_usable_iff bootMachine_mounts.1⟩

/-! A boot record with no sectors in a cluster. -/

def noSpcCard : ℕ → Sector := Function.update bootCard 1 (Function.update bootRecord 13 0)

theorem noSpcCard_mountable : Mountable noSpcCard :=
  ⟨by decide +kernel, by decide +kernel, by decide +kernel, by decide +kernel⟩

/-- The card is mounted, and `fat32_open_log` divides by 0. -/
theorem noSpcCard_unusable : ∃ s',
    fat32Mount.run (fwStep Env.ideal) (.powerUp noSpcCard bootEeprom) = (.ok (), s') ∧
      (∀ rsvdSec, ¬ Usable rsvdSec s'.ram.vol) ∧
      (fat32OpenLog 64).run (fwStep Env.ideal) s' = (.error .undef, s') := by
  have hgood : Env.ideal.Good := fun _ => rfl
  obtain ⟨s', hrun, hend⟩ := fat32Mount_good (s := .powerUp noSpcCard bootEeprom) hgood
    noSpcCard_mountable
  have hvol : s'.ram.vol = volOf (Machine.powerUp noSpcCard bootEeprom).card := mounted_vol hend
  have hcard : (Machine.powerUp noSpcCard bootEeprom).card = noSpcCard := rfl
  have hspc : (volOf noSpcCard).secPerClus = 0 := by decide +kernel
  have hspc' : s'.ram.vol.secPerClus = 0 := by rw [hvol, hcard, hspc]
  exact ⟨s', hrun, fun _ h => h.secPerClus hspc', openLog_no_spc hspc' _ _⟩

end Barelog
