import Barelog.Spec.Machine

/-! `config.c`: the configuration and its EEPROM layout. A dword access of avr-libc is four
byte accesses, least significant byte first. -/

namespace Barelog

def eepromMagic : ℕ := 0x4F4C3200
def eepromOffMagic : ℕ := 0
def eepromOffBaud : ℕ := 4
def eepromOffEsc : ℕ := 8
def eepromOffEsccnt : ℕ := 9
def eepromOffLognum : ℕ := 10
def eepromOffFlags : ℕ := 12
def eepromOffPrealloc : ℕ := 13
def eepromOffRecLo : ℕ := 16
def eepromOffRecHi : ℕ := 18

def cfgFlIgnoreRxRst : Byte := 1

def configPreallocBytes (code : ℕ) : ℕ :=
  match code with
  | 0 => 1 * 1024 * 1024
  | 1 => 4 * 1024 * 1024
  | 2 => 8 * 1024 * 1024
  | 3 => 16 * 1024 * 1024
  | 4 => 32 * 1024 * 1024
  | _ => 8 * 1024 * 1024

def configDefaults : Config where
  baud := 115200
  escChar := 0x1A
  escCount := 3
  logNum := 1
  flags := 0
  preallocCode := 2

def eepromWriteWord (p n : ℕ) : Fw Unit := do
  eepromSet p (.ofNat n)
  eepromSet (p + 1) (.ofNat (n / 2 ^ 8))

def eepromWriteDword (p n : ℕ) : Fw Unit := do
  eepromWriteWord p n
  eepromWriteWord (p + 2) (n / 2 ^ 16)

def eepromReadWord (p : ℕ) : Fw ℕ := do
  let lo ← eepromGet p
  let hi ← eepromGet (p + 1)
  pure (lo.toNat + hi.toNat * 2 ^ 8)

def eepromReadDword (p : ℕ) : Fw ℕ := do
  let lo ← eepromReadWord p
  let hi ← eepromReadWord (p + 2)
  pure (lo + hi * 2 ^ 16)

def eepromUpdateByte (p : ℕ) (b : Byte) : Fw Unit := do
  let old ← eepromGet p
  if old = b then pure () else eepromSet p b

def configSave (c : Config) : Fw Unit := do
  eepromWriteDword eepromOffMagic eepromMagic
  eepromWriteDword eepromOffBaud c.baud
  eepromSet eepromOffEsc c.escChar
  eepromSet eepromOffEsccnt (.ofNat c.escCount)
  eepromWriteWord eepromOffLognum c.logNum
  eepromSet eepromOffFlags c.flags
  eepromSet eepromOffPrealloc (.ofNat c.preallocCode)

def setCfg (c : Config) : Fw Unit := do
  let r ← getRam
  setRam { r with cfg := c }

def configLoad : Fw Unit := do
  let magic ← eepromReadDword eepromOffMagic
  if magic ≠ eepromMagic then
    setCfg configDefaults
    configSave configDefaults
  else
    let baud ← eepromReadDword eepromOffBaud
    let escChar ← eepromGet eepromOffEsc
    let escCount ← eepromGet eepromOffEsccnt
    let logNum ← eepromReadWord eepromOffLognum
    let flags ← eepromGet eepromOffFlags
    let preallocCode ← eepromGet eepromOffPrealloc
    setCfg {
      baud := baud
      escChar := escChar
      escCount := escCount.toNat
      logNum := logNum
      flags := flags
      preallocCode := preallocCode.toNat }

end Barelog
