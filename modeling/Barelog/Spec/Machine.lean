import Barelog.Lib.Interrupt

/-! The machine the firmware runs on. Main memory is the 1024 byte ring, its two indices
and the module variables; persistent memory is the SD card, an array of 512 byte sectors,
and the EEPROM. The firmware is a program over the operations below, so an interrupt can
come between any two of them. Numbers are `ℕ` with the width of the C type written at
each operation that can wrap. -/

namespace Barelog

abbrev Byte := UInt8

abbrev Sector := Fin 512 → Byte

/-- A number is an offset in a sector. -/
instance sectorNeZero : NeZero 512 := ⟨by decide⟩

/-- The byte at an offset of a sector, as the card clocks it out. -/
def Sector.byte (d : Sector) (i : ℕ) : Byte := if h : i < 512 then d ⟨i, h⟩ else 0

/-- `struct fat32_vol` -/
structure Vol where
  fatLba : ℕ
  fatSz32 : ℕ
  dataLba : ℕ
  rootClus : ℕ
  partLba : ℕ
  totSec : ℕ
  secPerClus : ℕ
  numFats : ℕ

/-- `struct fat32_logfile` -/
structure Logfile where
  firstClus : ℕ
  curLba : ℕ
  endLba : ℕ
  dirLba : ℕ
  dirOffset : ℕ
  bytesWritten : ℕ
  preallocSize : ℕ
  lastClus : ℕ

/-- `struct config` -/
structure Config where
  baud : ℕ
  escChar : Byte
  escCount : ℕ
  logNum : ℕ
  flags : Byte
  preallocCode : ℕ
deriving DecidableEq

/-- The variables that no interrupt handler touches. -/
structure Ram where
  vol : Vol
  logfile : Logfile
  cfg : Config
  escSeen : ℕ

/-- What has been done to the card: `sd_write_sector` and `sd_write_sector_zc`,
`sd_write_zero_sector`, `sd_erase` on an inclusive range. -/
inductive CardEvent
  | write (lba : ℕ) (d : Sector)
  | zero (lba : ℕ)
  | erase (lbaStart lbaEnd : ℕ)

/-- How the card answers a request. `landed` tells whether a write that was not
acknowledged is on the card all the same. -/
inductive SdAnswer
  | good
  | refuse
  | stall (landed : Bool)
  | reject (landed : Bool)
deriving DecidableEq

/-- `sd_read_sector`: R1 not 0x00 is `SD_ERR_READ`, no data token is `SD_ERR_TIMEOUT`. -/
def SdAnswer.readCode : SdAnswer → ℤ
  | good => 0
  | refuse => -5
  | _ => -1

/-- CMD24 of the write functions: R1 not 0x00 is `SD_ERR_WRITE`. -/
def SdAnswer.cmdCode : SdAnswer → ℤ
  | refuse => -4
  | _ => 0

/-- `sd_write_finish`: a bad data response is `SD_ERR_WRITE`, a card that stays busy is
`SD_ERR_TIMEOUT`. -/
def SdAnswer.finishCode : SdAnswer → ℤ
  | good => 0
  | stall _ => -1
  | _ => -4

def SdAnswer.landed : SdAnswer → Bool
  | good => true
  | refuse => false
  | stall b => b
  | reject b => b

/-- The card as the firmware meets it: the answer to each request, and what the n-th
request leaves in a sector it erases. -/
structure Env where
  answer : ℕ → SdAnswer
  afterErase : ℕ → ℕ → Sector → Sector

def Env.Good (env : Env) : Prop := ∀ n, env.answer n = .good

structure Machine where
  ring : ℕ → Byte
  ringHead : ℕ
  ringTail : ℕ
  ram : Ram
  card : ℕ → Sector
  eeprom : ℕ → Byte
  /-- bytes of the data block being sent to the card -/
  block : List Byte
  /-- requests made to the card so far -/
  reqs : ℕ
  /-- what has been done to the card, oldest first -/
  events : List CardEvent
  /-- RXCIE0: the RX interrupt is enabled -/
  rxEnabled : Bool
  /-- the bytes the RX interrupt put in the ring, oldest first -/
  accepted : List Byte
  /-- for each byte the RX interrupt dropped, how many were unread -/
  dropped : List ℕ

/-- A card that answers every request and erases to zeros. -/
def Env.ideal : Env := ⟨fun _ => .good, fun _ _ _ _ => 0⟩

/-- The machine at power-up: main memory is cleared, and the UART is initialised. -/
def Machine.powerUp (card : ℕ → Sector) (eeprom : ℕ → Byte) : Machine where
  ring := fun _ => 0
  ringHead := 0
  ringTail := 0
  ram := ⟨⟨0, 0, 0, 0, 0, 0, 0, 0⟩, ⟨0, 0, 0, 0, 0, 0, 0, 0⟩, ⟨0, 0, 0, 0, 0, 0⟩, 0⟩
  card := card
  eeprom := eeprom
  block := []
  reqs := 0
  events := []
  rxEnabled := true
  accepted := []
  dropped := []

/-- Why a function does not return 0: its return code, a loop that has used up its fuel,
undefined behaviour (an uninitialised variable is read, a division by zero), or control
that has passed to the command loop for good. -/
inductive Stop
  | code (c : ℤ)
  | hang
  | undef
  | repl
deriving DecidableEq

inductive FwOp
  | ringGet (i : ℕ)
  | ringSet (i : ℕ) (b : Byte)
  | getHead
  | getTail
  | setTail (t : ℕ)
  | disableRx
  | getRam
  | setRam (r : Ram)
  | readCmd (lba : ℕ)
  | spiRecv (lba i : ℕ)
  | writeCmd (lba : ℕ)
  | spiSend (b : Byte)
  | writeDone (lba : ℕ)
  | zeroDone (lba : ℕ)
  | erase (lbaStart lbaEnd : ℕ)
  | eepromGet (p : ℕ)
  | eepromSet (p : ℕ) (b : Byte)

abbrev FwOp.Reply : FwOp → Type
  | ringGet _ => Byte
  | getHead => ℕ
  | getTail => ℕ
  | getRam => Ram
  | readCmd _ => ℤ
  | spiRecv _ _ => Byte
  | writeCmd _ => ℤ
  | writeDone _ => ℤ
  | zeroDone _ => ℤ
  | eepromGet _ => Byte
  | _ => Unit

abbrev fwSig : Sig := ⟨FwOp, FwOp.Reply⟩

abbrev Fw (α : Type) := Prog fwSig Stop α

def sectorOf (block : List Byte) : Sector := fun i => block.getD i 0

def Machine.asked (s : Machine) : Machine := { s with reqs := s.reqs + 1 }

def Machine.land (s : Machine) (lba : ℕ) (d : Sector) (e : CardEvent) : Machine :=
  { s with card := Function.update s.card lba d, events := s.events ++ [e] }

/-- The end of a data block: the answer decides the return code and whether it landed. -/
def Machine.finish (s : Machine) (a : SdAnswer) (lba : ℕ) (e : CardEvent) : ℤ × Machine :=
  (a.finishCode,
    { if a.landed then s.land lba (sectorOf s.block) e else s with
      block := [], reqs := s.reqs + 1 })

def Machine.eraseRange (s : Machine) (env : Env) (lbaStart lbaEnd : ℕ) : Machine :=
  { s with
    card := fun lba => if lbaStart ≤ lba ∧ lba ≤ lbaEnd then env.afterErase s.reqs lba (s.card lba)
      else s.card lba
    events := s.events ++ [.erase lbaStart lbaEnd]
    reqs := s.reqs + 1 }

def fwStep (env : Env) : Handler fwSig Machine
  | .ringGet i, s => (s.ring i, s)
  | .ringSet i b, s => ((), { s with ring := Function.update s.ring i b })
  | .getHead, s => (s.ringHead, s)
  | .getTail, s => (s.ringTail, s)
  | .setTail t, s => ((), { s with ringTail := t })
  | .disableRx, s => ((), { s with rxEnabled := false })
  | .getRam, s => (s.ram, s)
  | .setRam r, s => ((), { s with ram := r })
  | .readCmd _, s => ((env.answer s.reqs).readCode, s.asked)
  | .spiRecv lba i, s => ((s.card lba).byte i, s)
  | .writeCmd _, s => ((env.answer s.reqs).cmdCode, { s.asked with block := [] })
  | .spiSend b, s => ((), { s with block := s.block ++ [b] })
  | .writeDone lba, s => s.finish (env.answer s.reqs) lba (.write lba (sectorOf s.block))
  | .zeroDone lba, s => s.finish (env.answer s.reqs) lba (.zero lba)
  | .erase a b, s => ((), s.eraseRange env a b)
  | .eepromGet p, s => (s.eeprom p, s)
  | .eepromSet p b, s => ((), { s with eeprom := Function.update s.eeprom p b })

def op (o : FwOp) : Fw o.Reply := Prog.perform (S := fwSig) o

def ringGet (i : ℕ) : Fw Byte := op (.ringGet i)
def ringSet (i : ℕ) (b : Byte) : Fw Unit := op (.ringSet i b)
def getHead : Fw ℕ := op .getHead
def getTail : Fw ℕ := op .getTail
def setTail (t : ℕ) : Fw Unit := op (.setTail t)
def disableRx : Fw Unit := op .disableRx
def getRam : Fw Ram := op .getRam
def setRam (r : Ram) : Fw Unit := op (.setRam r)
def readCmd (lba : ℕ) : Fw ℤ := op (.readCmd lba)
def spiRecv (lba i : ℕ) : Fw Byte := op (.spiRecv lba i)
def writeCmd (lba : ℕ) : Fw ℤ := op (.writeCmd lba)
def spiSend (b : Byte) : Fw Unit := op (.spiSend b)
def writeDone (lba : ℕ) : Fw ℤ := op (.writeDone lba)
def zeroDone (lba : ℕ) : Fw ℤ := op (.zeroDone lba)
def eepromGet (p : ℕ) : Fw Byte := op (.eepromGet p)
def eepromSet (p : ℕ) (b : Byte) : Fw Unit := op (.eepromSet p b)

section Run

variable (env : Env) (s : Machine)

@[simp] theorem ringGet_run (i : ℕ) : (ringGet i).run (fwStep env) s = (.ok (s.ring i), s) := rfl

@[simp] theorem ringSet_run (i : ℕ) (b : Byte) : (ringSet i b).run (fwStep env) s =
    (.ok (), { s with ring := Function.update s.ring i b }) := rfl

@[simp] theorem getHead_run : getHead.run (fwStep env) s = (.ok s.ringHead, s) := rfl

@[simp] theorem getTail_run : getTail.run (fwStep env) s = (.ok s.ringTail, s) := rfl

@[simp] theorem setTail_run (t : ℕ) : (setTail t).run (fwStep env) s =
    (.ok (), { s with ringTail := t }) := rfl

@[simp] theorem getRam_run : getRam.run (fwStep env) s = (.ok s.ram, s) := rfl

theorem getRam_bind {α : Type} (f : Ram → Fw α) :
    (getRam >>= f).run (fwStep env) s = (f s.ram).run (fwStep env) s := rfl

@[simp] theorem setRam_run (r : Ram) : (setRam r).run (fwStep env) s = (.ok (), { s with ram := r }) := rfl

@[simp] theorem readCmd_run (lba : ℕ) : (readCmd lba).run (fwStep env) s =
    (.ok (env.answer s.reqs).readCode, s.asked) := rfl

@[simp] theorem spiRecv_run (lba i : ℕ) : (spiRecv lba i).run (fwStep env) s =
    (.ok ((s.card lba).byte i), s) := rfl

@[simp] theorem writeCmd_run (lba : ℕ) : (writeCmd lba).run (fwStep env) s =
    (.ok (env.answer s.reqs).cmdCode, { s.asked with block := [] }) := rfl

@[simp] theorem spiSend_run (b : Byte) : (spiSend b).run (fwStep env) s =
    (.ok (), { s with block := s.block ++ [b] }) := rfl

@[simp] theorem writeDone_run (lba : ℕ) : (writeDone lba).run (fwStep env) s =
    (.ok (s.finish (env.answer s.reqs) lba (.write lba (sectorOf s.block))).1,
      (s.finish (env.answer s.reqs) lba (.write lba (sectorOf s.block))).2) := rfl

@[simp] theorem zeroDone_run (lba : ℕ) : (zeroDone lba).run (fwStep env) s =
    (.ok (s.finish (env.answer s.reqs) lba (.zero lba)).1,
      (s.finish (env.answer s.reqs) lba (.zero lba)).2) := rfl

@[simp] theorem eepromGet_run (p : ℕ) : (eepromGet p).run (fwStep env) s = (.ok (s.eeprom p), s) := rfl

@[simp] theorem eepromSet_run (p : ℕ) (b : Byte) : (eepromSet p b).run (fwStep env) s =
    (.ok (), { s with eeprom := Function.update s.eeprom p b }) := rfl

end Run

/-- `if (ret != 0) return ret;` -/
def check (ret : ℤ) : Fw Unit := if ret = 0 then pure () else .fail (.code ret)

/-- `if (f() != 0) return c;` -/
def Fw.orCode {α : Type} (p : Fw α) (c : ℤ) : Fw α :=
  p.handle fun
    | .code _ => .fail (.code c)
    | e => .fail e

def Fw.returns {α : Type} (p : Fw α) (env : Env) (s : Machine) : Bool :=
  match (p.run (fwStep env) s).1 with
  | .ok _ => true
  | .error _ => false

theorem Fw.returns_run {α : Type} {p : Fw α} {env : Env} {s : Machine}
    (h : p.returns env s = true) :
    ∃ a, p.run (fwStep env) s = (.ok a, (p.run (fwStep env) s).2) := by
  unfold Fw.returns at h
  split at h
  · rename_i a ha
    exact ⟨a, Prod.ext ha rfl⟩
  · cases h

def Fw.ignoreCode (p : Fw Unit) : Fw Unit :=
  p.handle fun
    | .code _ => pure ()
    | e => .fail e

/-- A call whose return code is tested: 0 on success. -/
def Fw.returnCode (p : Fw Unit) : Fw ℤ :=
  (p >>= fun _ => pure 0).handle fun
    | .code c => pure c
    | e => .fail e

end Barelog
