import Barelog.Spec.Sd

/-! The cluster arithmetic of `fat32_priv.h` and the FAT entry I/O of `fat32_state.c`. -/

namespace Barelog

def u32 (n : ℕ) : ℕ := n % 2 ^ 32

def clusToLba (v : Vol) (clus : ℕ) : ℕ :=
  u32 (v.dataLba + u32 (u32 (clus + 2 ^ 32 - 2) * v.secPerClus))

def fatSector (v : Vol) (clus : ℕ) : ℕ := u32 (v.fatLba + clus / 128)

def fatOffset (clus : ℕ) : ℕ := clus % 128 * 4

/-- A little-endian word, less the reserved upper nibble. -/
def entryValue (b0 b1 b2 b3 : Byte) : ℕ :=
  (b0.toNat + b1.toNat * 2 ^ 8 + b2.toNat * 2 ^ 16 + b3.toNat * 2 ^ 24) % 2 ^ 28

def fatReadEntry (clus : ℕ) : Fw ℕ := do
  let r ← getRam
  let off := fatOffset clus
  sdReadSector (fatSector r.vol clus) 0
  let b0 ← ringGet off
  let b1 ← ringGet (off + 1)
  let b2 ← ringGet (off + 2)
  let b3 ← ringGet (off + 3)
  pure (entryValue b0 b1 b2 b3)

def fatCopySector (v : Vol) (clus f : ℕ) : ℕ := u32 (fatSector v clus + u32 (f * v.fatSz32))

/-- The byte stores of `fat_write_entry`, which keep the upper nibble. -/
def putEntry (off val : ℕ) : Fw Unit := do
  ringSet off (.ofNat val)
  ringSet (off + 1) (.ofNat (val / 2 ^ 8))
  ringSet (off + 2) (.ofNat (val / 2 ^ 16))
  let b3 ← ringGet (off + 3)
  ringSet (off + 3) ((b3 &&& 0xF0) ||| .ofNat (val / 2 ^ 24))

def fatWriteEntry (clus val : ℕ) : Fw Unit := do
  let r ← getRam
  Prog.forUp 0 r.vol.numFats fun f => do
    sdReadSector (fatCopySector r.vol clus f) 0
    putEntry (fatOffset clus) val
    sdWriteSector (fatCopySector r.vol clus f) 0

end Barelog
