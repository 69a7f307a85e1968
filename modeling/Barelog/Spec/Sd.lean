import Barelog.Spec.Machine

/-! `spi.c` and the block commands of `sd.c`. The command frame, the polling and the busy
wait of a request are one operation of the machine; each byte of a data block is an
operation of its own, since an interrupt can come before any of them. -/

namespace Barelog

def spiReadBuf (lba buf len : ℕ) : Fw Unit :=
  Prog.forUp 0 len fun i => do
    let b ← spiRecv lba i
    ringSet (buf + i) b

def spiWriteBuf (buf len : ℕ) : Fw Unit :=
  Prog.forUp 0 len fun i => do
    let b ← ringGet (buf + i)
    spiSend b

def spiWriteZeros (len : ℕ) : Fw Unit :=
  Prog.forUp 0 len fun _ => spiSend 0x00

def sdReadSector (lba buf : ℕ) : Fw Unit := do
  let ret ← readCmd lba
  check ret
  spiReadBuf lba buf 512

def sdWriteSector (lba buf : ℕ) : Fw Unit := do
  let ret ← writeCmd lba
  check ret
  spiWriteBuf buf 512
  let ret ← writeDone lba
  check ret

/-- `if (len_b > 0 && span_b != NULL)`, with `none` for the NULL pointer. -/
def spiWriteSpan : Option ℕ → ℕ → Fw Unit
  | some b, lenB => Prog.doIf (lenB > 0) (spiWriteBuf b lenB)
  | none, _ => pure ()

def sdWriteSectorZc (lba spanA lenA : ℕ) (spanB : Option ℕ) (lenB : ℕ) : Fw Unit := do
  let ret ← writeCmd lba
  check ret
  spiWriteBuf spanA lenA
  spiWriteSpan spanB lenB
  let ret ← writeDone lba
  check ret

def sdWriteZeroSector (lba : ℕ) : Fw Unit := do
  let ret ← writeCmd lba
  check ret
  spiWriteZeros 512
  let ret ← zeroDone lba
  check ret

/-- CMD32, CMD33 and CMD38; the answers are ignored. -/
def sdErase (lbaStart lbaEnd : ℕ) : Fw Unit := op (.erase lbaStart lbaEnd)

end Barelog
