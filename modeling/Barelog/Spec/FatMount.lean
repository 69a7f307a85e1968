import Barelog.Spec.FatLog

/-! `fat32_mount.c` and `fat32_trim.c`. -/

namespace Barelog

/-- The first of the MBR entries from entry `i` with a FAT32 type, or 0. -/
def findPart : ℕ → ℕ → Fw ℕ
  | 0, _ => pure 0
  | n + 1, i => do
    let type ← ringGet (446 + i * 16 + 4)
    if type = 0x0B ∨ type = 0x0C then ringGet32 (446 + i * 16 + 8) else findPart n (i + 1)

def fat32Mount : Fw Unit := do
  sdReadSector 0 0
  let partLba ← findPart 4 0
  Prog.doIf (partLba = 0) (.fail (.code (-1)))
  sdReadSector partLba 0
  let bytesPerSec ← ringGet16 11
  Prog.doIf (bytesPerSec ≠ 512) (.fail (.code (-1)))
  let fatSz16 ← ringGet16 22
  let fatSz32 ← ringGet32 36
  Prog.doIf (fatSz16 ≠ 0 ∨ fatSz32 = 0) (.fail (.code (-1)))
  let rsvdSec ← ringGet16 14
  let numFats ← ringGet 16
  let rootClus ← ringGet32 44
  let secPerClus ← ringGet 13
  let totSec ← ringGet32 32
  let r ← getRam
  let fatLba := u32 (partLba + rsvdSec)
  setRam { r with vol := {
    partLba := partLba
    fatLba := fatLba
    fatSz32 := fatSz32
    numFats := numFats.toNat
    dataLba := u32 (fatLba + u32 (numFats.toNat * fatSz32))
    rootClus := rootClus
    secPerClus := secPerClus.toNat
    totSec := totSec } }

/-- The open run of `fat32_trim_free`: `none` when `in_run` is 0. -/
abbrev Run := Option (ℕ × ℕ)

def closeRun : Run → Fw Unit
  | none => pure ()
  | some (s, e) => sdErase s e

/-- The entries of the FAT sector in the buffer from offset `off`, whose first is the entry of
cluster `clus`. -/
def trimEntries (v : Vol) : ℕ → ℕ → ℕ → Run → Fw (ℕ × Run)
  | 0, _, clus, run => pure (clus, run)
  | n + 1, off, clus, run => do
    if clus < 2 then
      closeRun run
      trimEntries v n (off + 4) (u32 (clus + 1)) none
    else
      let b0 ← ringGet off
      let b1 ← ringGet (off + 1)
      let b2 ← ringGet (off + 2)
      let b3 ← ringGet (off + 3)
      if entryValue b0 b1 b2 b3 = 0 then
        let lbaS := clusToLba v clus
        let lbaE := u32 (lbaS + v.secPerClus + 2 ^ 32 - 1)
        match run with
        | none => trimEntries v n (off + 4) (u32 (clus + 1)) (some (lbaS, lbaE))
        | some (s, e) =>
          if lbaS = u32 (e + 1) then
            trimEntries v n (off + 4) (u32 (clus + 1)) (some (s, lbaE))
          else
            sdErase s e
            trimEntries v n (off + 4) (u32 (clus + 1)) (some (lbaS, lbaE))
      else
        closeRun run
        trimEntries v n (off + 4) (u32 (clus + 1)) none

/-- `for (fat_sec = vol.fat_lba; fat_sec < fat_end; fat_sec++)`. -/
def trimSectors (v : Vol) : ℕ → ℕ → ℕ → Run → Fw Run
  | 0, _, _, run => pure run
  | n + 1, fatSec, clus, run => do
    sdReadSector fatSec 0
    let (clus, run) ← trimEntries v 128 0 clus run
    trimSectors v n (fatSec + 1) clus run

def fat32TrimFree : Fw Unit := do
  let r ← getRam
  let fatEnd := u32 (r.vol.fatLba + r.vol.fatSz32)
  let run ← trimSectors r.vol (fatEnd - r.vol.fatLba) r.vol.fatLba 0 none
  closeRun run

def fat32TrimFull : Fw Unit := do
  let r ← getRam
  sdErase r.vol.dataLba (u32 (r.vol.partLba + r.vol.totSec + 2 ^ 32 - 1))

def fat32TrimFuller : Fw Unit := do
  let r ← getRam
  sdErase 0 (u32 (r.vol.partLba + r.vol.totSec + 2 ^ 32 - 1))

end Barelog
