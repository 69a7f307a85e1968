import Barelog.Spec.Fat

/-! `spi.c` and `sd.c` down to the bytes on the bus. A function returns `SD_OK` or fails with
its return code. The card at the other end is a parameter: what it answers to a byte. -/

namespace Barelog.Wire

/-- The bits of SPCR and SPSR that select the clock. -/
structure SpiRegs where
  spr1 : Bool
  spr0 : Bool
  spi2x : Bool
deriving DecidableEq

/-- fosc/128 -/
def SpiRegs.slow : SpiRegs := ⟨true, true, false⟩

/-- fosc/2 -/
def SpiRegs.fast : SpiRegs := ⟨false, false, true⟩

/-- What is seen on the bus: the edges of chip select, and each byte clocked, with the level of
chip select. -/
inductive WireEvent
  | assert
  | release
  | clock (csHigh : Bool)
deriving DecidableEq

inductive SpiOp
  | transfer (b : Byte)
  | csAssert
  | csRelease
  | spiInit
  | spiSetFast
  | getSdhc
  | setSdhc (sdhc : Bool)
  | memGet (i : ℕ)
  | memSet (i : ℕ) (b : Byte)
  /-- `sd_init` is entered. -/
  | enterInit

abbrev SpiOp.Reply : SpiOp → Type
  | transfer _ => Byte
  | getSdhc => Bool
  | memGet _ => Byte
  | _ => Unit

abbrev spiSig : Sig := ⟨SpiOp, SpiOp.Reply⟩

abbrev Spi (α : Type) := Prog spiSig ℤ α

/-- A device on the bus: the byte it sends while it gets one, with the level of chip select. -/
abbrev Device (κ : Type) := Bool → Byte → κ → Byte × κ

structure Bus (κ : Type) where
  regs : SpiRegs
  /-- PB2 -/
  csHigh : Bool
  /-- `sd_state.sdhc` -/
  sdhc : Bool
  mem : ℕ → Byte
  device : κ
  trace : List WireEvent
  /-- the clock at each entry of `sd_init` -/
  inits : List SpiRegs

section Step

variable {κ : Type}

def spiStep (dev : Device κ) : Handler spiSig (Bus κ)
  | .transfer b, s =>
    ((dev s.csHigh b s.device).1, { s with
      device := (dev s.csHigh b s.device).2
      trace := s.trace ++ [.clock s.csHigh] })
  | .csAssert, s => ((), { s with csHigh := false, trace := s.trace ++ [.assert] })
  | .csRelease, s => ((), { s with csHigh := true, trace := s.trace ++ [.release] })
  | .spiInit, s => ((), { s with regs := .slow, csHigh := true })
  | .spiSetFast, s => ((), { s with regs := .fast })
  | .getSdhc, s => (s.sdhc, s)
  | .setSdhc sdhc, s => ((), { s with sdhc := sdhc })
  | .memGet i, s => (s.mem i, s)
  | .memSet i b, s => ((), { s with mem := Function.update s.mem i b })
  | .enterInit, s => ((), { s with inits := s.inits ++ [s.regs] })

end Step

def spiOp (o : SpiOp) : Spi o.Reply := Prog.perform (S := spiSig) o

def spiTransfer (b : Byte) : Spi Byte := spiOp (.transfer b)
def spiCsAssert : Spi Unit := spiOp .csAssert
def spiCsRelease : Spi Unit := spiOp .csRelease
def spiInit : Spi Unit := spiOp .spiInit
def spiSetFast : Spi Unit := spiOp .spiSetFast

def clock (b : Byte) : Spi Unit := do
  let _ ← spiTransfer b

def spiWriteBuf (buf len : ℕ) : Spi Unit :=
  Prog.forUp 0 len fun i => do
    let b ← spiOp (.memGet (buf + i))
    clock b

def spiWriteZeros (len : ℕ) : Spi Unit := Prog.forUp 0 len fun _ => clock 0x00

def spiReadBuf (buf len : ℕ) : Spi Unit :=
  Prog.forUp 0 len fun i => do
    let b ← spiTransfer 0xFF
    spiOp (.memSet (buf + i) b)

def pollR1 : ℕ → Spi (Option Byte)
  | 0 => pure none
  | n + 1 => do
    let resp ← spiTransfer 0xFF
    if resp ≠ 0xFF then pure (some resp) else pollR1 n

/-- `sd_cmd`: the return code and `*r1`. -/
def sdCmd (cmd : Byte) (arg : ℕ) (crc : Byte) : Spi (ℤ × Byte) := do
  clock (0x40 ||| cmd)
  clock (.ofNat (arg / 2 ^ 24))
  clock (.ofNat (arg / 2 ^ 16))
  clock (.ofNat (arg / 2 ^ 8))
  clock (.ofNat arg)
  clock crc
  let resp ← pollR1 8
  match resp with
  | some r1 => pure (0, r1)
  | none => pure (-1, 0xFF)

def sdAcmd (cmd : Byte) (arg : ℕ) : Spi (ℤ × Byte) := do
  let (ret, r1) ← sdCmd 55 0 0x01
  if ret ≠ 0 then pure (ret, r1)
  else do
    clock 0xFF
    sdCmd cmd arg 0x01

def sdWaitReady : ℕ → Spi ℤ
  | 0 => pure (-1)
  | n + 1 => do
    let b ← spiTransfer 0xFF
    if b = 0xFF then pure 0 else sdWaitReady n

/-- `spi_cs_release(); return c;` -/
def releaseWith (c : ℤ) : Spi Unit := do
  spiCsRelease
  .fail c

/-- The CMD0 loop; `r1` is what the try before left. -/
def goIdle : ℕ → Byte → Spi Byte
  | 0, r1 => pure r1
  | n + 1, _ => do
    let (ret, r1) ← sdCmd 0 0 0x95
    if ret = 0 ∧ r1 = 0x01 then pure r1
    else do
      clock 0xFF
      goIdle n r1

/-- CMD8 and the check of its echo. -/
def sendIfCond : Spi Unit := do
  let (ret, r1) ← sdCmd 8 0x000001AA 0x87
  if ret = 0 ∧ r1 = 0x01 then do
    clock 0xFF
    clock 0xFF
    let r7 ← spiTransfer 0xFF
    let echo ← spiTransfer 0xFF
    Prog.doIf (echo ≠ 0xAA ∨ r7 &&& 0x0F ≠ 0x01) (releaseWith (-2))
  else pure ()

/-- The ACMD41 loop. -/
def sendOpCond : ℕ → Byte → Spi Byte
  | 0, r1 => pure r1
  | n + 1, _ => do
    let (ret, r1) ← sdAcmd 41 0x40000000
    clock 0xFF
    if ret = 0 ∧ r1 = 0x00 then pure r1 else sendOpCond n r1

/-- CMD58: bit 30 of the OCR. -/
def readOcr : Spi Unit := do
  let (ret, r1) ← sdCmd 58 0 0x01
  Prog.doIf (ret ≠ 0 ∨ r1 ≠ 0x00) (releaseWith (-2))
  let ocr ← spiTransfer 0xFF
  clock 0xFF
  clock 0xFF
  clock 0xFF
  spiOp (.setSdhc (ocr &&& 0x40 ≠ 0))

/-- CMD16, for a card that is not SDHC. -/
def setBlocklen : Spi Unit := do
  let sdhc ← spiOp .getSdhc
  Prog.doIf (sdhc = false) do
    let (ret, r1) ← sdCmd 16 512 0x01
    Prog.doIf (ret ≠ 0 ∨ r1 ≠ 0x00) (releaseWith (-2))
    clock 0xFF

/-- `sd_init` between the power-up clocks and the last release. -/
def initCommands : Spi Unit := do
  let r1 ← goIdle 10 0xFF
  Prog.doIf (r1 ≠ 0x01) (releaseWith (-2))
  clock 0xFF
  sendIfCond
  clock 0xFF
  let r1 ← sendOpCond 1000 0xFF
  Prog.doIf (r1 ≠ 0x00) (releaseWith (-2))
  readOcr
  clock 0xFF
  setBlocklen
  let _ ← sdCmd 59 0 0x01
  clock 0xFF

def sdInit : Spi Unit := do
  spiOp .enterInit
  spiCsRelease
  Prog.forUp 0 10 fun _ => clock 0xFF
  spiCsAssert
  initCommands
  spiCsRelease
  spiSetFast

def sdLbaArg (lba : ℕ) : Spi ℕ := do
  let sdhc ← spiOp .getSdhc
  pure (if sdhc = true then lba else u32 (lba * 2 ^ 9))

def pollToken : ℕ → Byte → Spi Byte
  | 0, tok => pure tok
  | n + 1, _ => do
    let tok ← spiTransfer 0xFF
    if tok = 0xFE then pure tok else pollToken n tok

def sdReadSector (lba buf : ℕ) : Spi Unit := do
  spiCsAssert
  let arg ← sdLbaArg lba
  let (ret, r1) ← sdCmd 17 arg 0x01
  Prog.doIf (ret ≠ 0 ∨ r1 ≠ 0x00) (releaseWith (-5))
  let tok ← pollToken 200 0xFF
  Prog.doIf (tok ≠ 0xFE) (releaseWith (-1))
  spiReadBuf buf 512
  clock 0xFF
  clock 0xFF
  spiCsRelease
  clock 0xFF

def sdWriteFinish : Spi Unit := do
  clock 0xFF
  clock 0xFF
  let resp ← spiTransfer 0xFF
  Prog.doIf (resp &&& 0x1F ≠ 0x05) (releaseWith (-4))
  let ret ← sdWaitReady 50000
  spiCsRelease
  clock 0xFF
  Prog.doIf (ret ≠ 0) (.fail ret)

/-- The three write functions, which differ in the data they send. -/
def sdWriteBlock (lba : ℕ) (block : Spi Unit) : Spi Unit := do
  spiCsAssert
  let arg ← sdLbaArg lba
  let (ret, r1) ← sdCmd 24 arg 0x01
  Prog.doIf (ret ≠ 0 ∨ r1 ≠ 0x00) (releaseWith (-4))
  clock 0xFF
  clock 0xFE
  block
  sdWriteFinish

def sdWriteSector (lba buf : ℕ) : Spi Unit := sdWriteBlock lba (spiWriteBuf buf 512)

/-- `if (len_b > 0 && span_b != NULL)`, with `none` for the NULL pointer. -/
def spiWriteSpan : Option ℕ → ℕ → Spi Unit
  | some b, lenB => Prog.doIf (lenB > 0) (spiWriteBuf b lenB)
  | none, _ => pure ()

def spanLength : Option ℕ → ℕ → ℕ
  | some _, lenB => lenB
  | none, _ => 0

def sdWriteSectorZc (lba spanA lenA : ℕ) (spanB : Option ℕ) (lenB : ℕ) : Spi Unit :=
  sdWriteBlock lba do
    spiWriteBuf spanA lenA
    spiWriteSpan spanB lenB

def sdWriteZeroSector (lba : ℕ) : Spi Unit := sdWriteBlock lba (spiWriteZeros 512)

def sdErase (lbaStart lbaEnd : ℕ) : Spi Unit := do
  spiCsAssert
  let arg ← sdLbaArg lbaStart
  let _ ← sdCmd 32 arg 0x01
  clock 0xFF
  let arg ← sdLbaArg lbaEnd
  let _ ← sdCmd 33 arg 0x01
  clock 0xFF
  let _ ← sdCmd 38 0 0x01
  let _ ← sdWaitReady 50000
  spiCsRelease
  clock 0xFF

inductive SdCall
  | init
  | read (lba buf : ℕ)
  | write (lba buf : ℕ)
  | writeZc (lba spanA lenA : ℕ) (spanB : Option ℕ) (lenB : ℕ)
  | writeZero (lba : ℕ)
  | erase (lbaStart lbaEnd : ℕ)
deriving DecidableEq

def SdCall.code : SdCall → Spi Unit
  | init => sdInit
  | read lba buf => sdReadSector lba buf
  | write lba buf => sdWriteSector lba buf
  | writeZc lba spanA lenA spanB lenB => sdWriteSectorZc lba spanA lenA spanB lenB
  | writeZero lba => sdWriteZeroSector lba
  | erase lbaStart lbaEnd => sdErase lbaStart lbaEnd

section Calls

variable {κ : Type}

def SdCall.run (dev : Device κ) (c : SdCall) (s : Bus κ) : ℤ × Bus κ :=
  match Prog.run (spiStep dev) c.code s with
  | (.ok _, s') => (0, s')
  | (.error e, s') => (e, s')

/-- A sequence of calls, whatever they return: the return codes and what they leave. -/
def runCalls (dev : Device κ) : List SdCall → Bus κ → List ℤ × Bus κ
  | [], s => ([], s)
  | c :: cs, s =>
    let (ret, s1) := c.run dev s
    let (rets, s') := runCalls dev cs s1
    (ret :: rets, s')

end Calls

end Barelog.Wire
