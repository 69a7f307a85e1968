import Barelog.Lib.Watch
import Barelog.Spec.SdWire

/-! What goes over the bus in a call: the bytes sent and the edges of chip select, in their order. -/

namespace Barelog.Wire

inductive BusEvent
  | assert
  | release
  | byte (b : Byte)
deriving DecidableEq

def SpiOp.event : SpiOp → Option BusEvent
  | transfer b => some (.byte b)
  | csAssert => some .assert
  | csRelease => some .release
  | _ => none

def busLog (t : List (Prog.Exchange spiSig)) : List BusEvent := t.filterMap fun x => SpiOp.event x.1

section Calls

variable {κ : Type}

def SdCall.log (dev : Device κ) (c : SdCall) (s : Bus κ) : List BusEvent :=
  busLog (c.code.transcript (spiStep dev) s)

def callsLog (dev : Device κ) : List SdCall → Bus κ → List BusEvent
  | [], _ => []
  | c :: cs, s => c.log dev s ++ callsLog dev cs (c.run dev s).2

end Calls

/-- What the host is doing on the bus, as an analyser tells from the events: the card is not
selected, it is selected and no frame is open, `n + 1` bytes of a command frame are to come, or the
data of a block is being sent. -/
inductive BusPhase
  | released
  | selected
  | frame (n : ℕ)
  | data
deriving DecidableEq

/-- The next phase, and `none` for an event that is out of place: an assertion of chip select while
it is asserted, a release in a frame, a byte other than the fill byte 0xFF with the card not
selected, a command frame that starts below 0x40. -/
def BusPhase.next : BusPhase → BusEvent → Option BusPhase
  | released, .assert => some selected
  | released, .release => some released
  | released, .byte b => if b = 0xFF then some released else none
  | selected, .assert => none
  | selected, .release => some released
  | selected, .byte b =>
    if b = 0xFF then some selected
    else if b = 0xFE then some data
    else if 0x40 ≤ b then some (frame 4) else none
  | frame _, .assert => none
  | frame _, .release => none
  | frame 0, .byte _ => some selected
  | frame (n + 1), .byte _ => some (frame n)
  | data, .assert => none
  | data, .release => some released
  | data, .byte _ => some data

def phaseAfter (log : List BusEvent) : Option BusPhase :=
  log.foldl (fun x e => x.bind fun x => x.next e) (some .released)

end Barelog.Wire
