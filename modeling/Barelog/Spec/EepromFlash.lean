import Barelog.Spec.Fat

/-! The EEPROM emulation in flash, for the platforms without an EEPROM. 256 bytes are kept
in main memory; a sync writes them to the slot after the current one, with a generation
byte that is one less. Flash is an array of bytes by address: an erase sets the area to
0xFF, a write stores the bytes it is given, and both are logged. -/

namespace Barelog

/-- The flash area: `EEPROM_FLASH_BASE_ADDR` and `EEPROM_FLASH_SIZE`. -/
structure FlashArea where
  base : ℕ
  size : ℕ
  fits : base + size ≤ 2 ^ 32

/-- `EEPROM_NUM_SLOTS`, with 256 bytes of data and a generation byte to a slot. -/
def FlashArea.numSlots (a : FlashArea) : ℕ := a.size / 257

def FlashArea.slotAddr (a : FlashArea) (slot : ℕ) : ℕ := u32 (a.base + slot * 257)

def FlashArea.genAddr (a : FlashArea) (slot : ℕ) : ℕ := u32 (a.base + slot * 257 + 256)

structure FlashEeprom where
  flash : ℕ → Byte
  /-- `eeprom_cache` -/
  cache : ℕ → Byte
  /-- `eeprom_dirty` -/
  dirty : Bool
  /-- what each programmed byte was just before, oldest first -/
  programmed : List Byte

namespace FlashEeprom

variable (a : FlashArea)

/-- `eeprom_flash_erase_sector` -/
def eraseSector (s : FlashEeprom) : FlashEeprom :=
  { s with flash := fun x => if a.base ≤ x ∧ x < a.base + a.size then 0xFF else s.flash x }

/-- `eeprom_flash_write_bytes` -/
def writeBytes (addr : ℕ) (data : ℕ → Byte) (len : ℕ) (s : FlashEeprom) : FlashEeprom :=
  { s with
    flash := fun x => if addr ≤ x ∧ x < addr + len then data (x - addr) else s.flash x
    programmed := s.programmed ++ (List.range len).map fun i => s.flash (addr + i) }

/-- The loop of `find_current_gen`. A 16 bit slot number that never reaches the number of
slots goes round for ever. -/
def findGenLoop (s : FlashEeprom) (fuel slot : ℕ) (genByte : Byte) (currentSlot : ℕ) : Option ℕ :=
  match fuel with
  | 0 => none
  | fuel + 1 =>
    if slot < a.numSlots then
      let g := s.flash (a.genAddr slot)
      let next := (slot + 1) % 2 ^ 16
      if g ≠ 0xFF ∧ g < genByte then s.findGenLoop fuel next g slot
      else s.findGenLoop fuel next genByte currentSlot
    else some currentSlot

def findCurrentGen (fuel : ℕ) (s : FlashEeprom) : Option ℕ := s.findGenLoop a fuel 0 0xFF 0

def findNextFreeSlot (currentSlot : ℕ) (s : FlashEeprom) : ℕ × FlashEeprom :=
  let next := (currentSlot + 1) % a.numSlots % 2 ^ 16
  if next = currentSlot then (0, s.eraseSector a) else (next, s)

/-- `eeprom_flash_init` -/
def init (fuel : ℕ) (s : FlashEeprom) : Option FlashEeprom := do
  let slot ← s.findCurrentGen a fuel
  return { s with
    cache := fun i => if i < 256 then s.flash (a.slotAddr slot + i) else s.cache i
    dirty := false }

def readByte (addr : ℕ) (s : FlashEeprom) : Byte := if 256 ≤ addr then 0xFF else s.cache addr

def writeByte (addr : ℕ) (val : Byte) (s : FlashEeprom) : FlashEeprom :=
  if 256 ≤ addr then s else { s with cache := Function.update s.cache addr val, dirty := true }

def updateByte (addr : ℕ) (val : Byte) (s : FlashEeprom) : FlashEeprom :=
  if 256 ≤ addr then s
  else if s.cache addr ≠ val then
    { s with cache := Function.update s.cache addr val, dirty := true }
  else s

/-- The generation byte that `eeprom_flash_sync` writes after the current one. -/
def nextGen (g : Byte) : Byte := if g = 0xFF then 0xFE else g - 1

/-- `eeprom_flash_sync` -/
def sync (fuel : ℕ) (s : FlashEeprom) : Option FlashEeprom :=
  if s.dirty then do
    let currentSlot ← s.findCurrentGen a fuel
    let (nextSlot, s1) := s.findNextFreeSlot a currentSlot
    let s2 := s1.writeBytes (a.slotAddr nextSlot) s1.cache 256
    let genByte := nextGen (s2.flash (a.genAddr currentSlot))
    let s3 := s2.writeBytes (u32 (a.slotAddr nextSlot + 256)) (fun _ => genByte) 1
    return { s3 with dirty := false }
  else return s

end FlashEeprom

/-- The calls that other modules make. -/
inductive EepromCall
  | init
  | writeByte (addr : ℕ) (val : Byte)
  | updateByte (addr : ℕ) (val : Byte)
  | sync

def EepromCall.run (a : FlashArea) (fuel : ℕ) (s : FlashEeprom) : EepromCall → Option FlashEeprom
  | init => s.init a fuel
  | writeByte addr val => some (s.writeByte addr val)
  | updateByte addr val => some (s.updateByte addr val)
  | sync => s.sync a fuel

def EepromCall.programs (s : FlashEeprom) : EepromCall → Bool
  | sync => s.dirty
  | _ => false

structure FlashEeprom.Fresh (a : FlashArea) (s : FlashEeprom) : Prop where
  erased : ∀ x, a.base ≤ x → x < a.base + a.size → s.flash x = 0xFF
  cache : ∀ i, i < 256 → s.cache i = 0xFF
  clean : s.dirty = false
  unlogged : s.programmed = []

/-- A run of calls from an erased area; `k` of them have been a sync with something to write. -/
inductive EepromRun (a : FlashArea) : ℕ → FlashEeprom → Prop
  | start {s : FlashEeprom} (h : s.Fresh a) : EepromRun a 0 s
  | call {k : ℕ} {s s' : FlashEeprom} (fuel : ℕ) (c : EepromCall) (hrun : EepromRun a k s)
      (hc : c.run a fuel s = some s') :
      EepromRun a (if c.programs s then k + 1 else k) s'

end Barelog
