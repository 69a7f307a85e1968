import Barelog.Spec.FatMount
import Barelog.Spec.Uart

/-! `log.c`: the ring drain and the idle flush, the entry of `repl.c`, and the boot sequence
of `main.c`. -/

namespace Barelog

/-- Whether the escape sequence ends in `len` bytes of the ring from `buf`. -/
def scanEscape : ℕ → ℕ → Fw Bool
  | 0, _ => pure false
  | len + 1, buf => do
    let b ← ringGet buf
    let r ← getRam
    if b = r.cfg.escChar then
      let seen := (r.escSeen + 1) % 2 ^ 8
      setRam { r with escSeen := seen }
      if seen ≥ r.cfg.escCount then pure true else scanEscape len (buf + 1)
    else
      setRam { r with escSeen := 0 }
      scanEscape len (buf + 1)

/-- The two spans of `n` bytes from `tail`: offset and length of each, `none` for NULL. -/
def spans (tail n : ℕ) : ℕ × Option ℕ × ℕ :=
  if ringSize - tail ≥ n then (n, none, 0) else (ringSize - tail, some 0, n - (ringSize - tail))

/-- The copy of span b, `pad[len_a + k] = ptr_b[k]`. -/
def copySpan (lenA : ℕ) : Option ℕ → ℕ → Fw Unit
  | some b, lenB => Prog.forUp 0 lenB fun k => do
      let x ← ringGet (b + k)
      ringSet (lenA + k) x
  | none, _ => pure ()

/-- The copy of the `avail` bytes from the tail into a zero-padded sector at the start of
the ring. -/
def padSector (avail : ℕ) : Fw Unit := do
  let tail ← getTail
  let (lenA, spanB, lenB) := spans tail avail
  copySpan lenA spanB lenB
  Prog.forUp 0 lenA fun j => do
    let x ← ringGet (tail + j)
    ringSet j x
  Prog.forUp (lenA + lenB) (512 - (lenA + lenB)) fun j => ringSet j 0x00

def saveRecord : Fw Unit := do
  let bw ← fat32BytesWritten
  eepromUpdateByte eepromOffRecLo (.ofNat bw)
  eepromUpdateByte (eepromOffRecLo + 1) (.ofNat (bw / 2 ^ 8))
  eepromUpdateByte eepromOffRecHi (.ofNat (bw / 2 ^ 16))
  eepromUpdateByte (eepromOffRecHi + 1) (.ofNat (bw / 2 ^ 24))

/-- The partial sector: padded, appended and consumed. -/
def flushTail (fuel avail : ℕ) : Fw Unit := do
  padSector avail
  (fat32AppendSector fuel 0 512 none 0).ignoreCode
  uartConsume avail

/-- `log_flush` once `uart_available()` has returned `avail`. -/
def logFlushFrom (fuel avail : ℕ) : Fw Unit := do
  Prog.doIf (avail > 0) (flushTail fuel avail)
  fat32Flush.ignoreCode
  saveRecord

def logFlush (fuel : ℕ) : Fw Unit := do
  let avail ← uartAvailable
  logFlushFrom fuel avail

/-- `repl_enter`, up to the command loop, which it never leaves. -/
def replEnter (fuel : ℕ) : Fw Unit := do
  disableRx
  logFlush fuel
  .fail .repl

/-- `if (scan_escape(ptr, len)) repl_enter();`, with `none` for the NULL pointer. -/
def scanSpan (fuel : ℕ) : Option ℕ → ℕ → Fw Unit
  | some buf, len => do
    let hit ← scanEscape len buf
    Prog.doIf (hit = true) (replEnter fuel)
  | none, _ => pure ()

/-- The test and the body of the loop of `log_process`: whether there is a next turn. The
restart of the idle timer at the end of the body touches nothing modelled here. -/
def logProcessTurn (fuel : ℕ) : Fw Bool := do
  let avail ← uartAvailable
  if avail ≥ 512 then
    let tail ← getTail
    let (lenA, spanB, lenB) := spans tail 512
    scanSpan fuel (some tail) lenA
    scanSpan fuel spanB lenB
    (fat32AppendSector fuel tail lenA spanB lenB).ignoreCode
    uartConsume 512
    pure true
  else
    pure false

def logProcess (fuel : ℕ) : ℕ → Fw Unit
  | 0 => .fail .hang
  | n + 1 => do
    let more ← logProcessTurn fuel
    if more then logProcess fuel n else pure ()

def factoryReset : Fw Unit := do
  setCfg configDefaults
  configSave configDefaults

/-- Steps 5, 6, 9 and 10 of `main`; `rxLow` is the RX pin held low at power-up. -/
def boot (fuel : ℕ) (rxLow : Bool) : Fw Unit := do
  configLoad
  let r ← getRam
  Prog.doIf (rxLow = true ∧ r.cfg.flags &&& cfgFlIgnoreRxRst = 0) factoryReset
  fat32Mount
  fat32OpenLog fuel

end Barelog
