import Barelog.Spec.Uart

/-! `uart_available` as the instructions that avr-gcc makes of it: the 16-bit indices are loaded one
byte at a time, low byte first, and the RX interrupt can run between two loads. -/

namespace Barelog

/-- The interrupts between the loads: for each gap the byte in UDR0 if the RX interrupt runs there. -/
structure LoadGaps where
  headBytes : Option Byte
  indices : Option Byte
  tailBytes : Option Byte

def interrupted : Option Byte → Machine → Machine
  | none, s => s
  | some byte, s => rxIsr byte s

def availableLoads (g : LoadGaps) (s : Machine) : ℕ × Machine :=
  let headLow := s.ringHead % 256
  let s1 := interrupted g.headBytes s
  let headHigh := s1.ringHead / 256
  let s2 := interrupted g.indices s1
  let tailLow := s2.ringTail % 256
  let s3 := interrupted g.tailBytes s2
  let tailHigh := s3.ringTail / 256
  (ringCount (headHigh * 256 + headLow) (tailHigh * 256 + tailLow), s3)

def Machine.advanceTail (s : Machine) (n : ℕ) : Machine :=
  { s with ringTail := ringMask ((s.ringTail + n) % 2 ^ 16) }

/-- The states of the ring while the board logs. Between the calls of `uart_available` and
`uart_consume` the firmware works on the card, the scan state and the scratch half of the ring. -/
inductive RingReach : Machine → Prop
  | powerUp (card : ℕ → Sector) (eeprom : ℕ → Byte) : RingReach (.powerUp card eeprom)
  | rx {s s' : Machine} (hs : RingReach s) (hrx : RxStep s s') : RingReach s'
  | work {s s' : Machine} (hs : RingReach s) (hhead : s'.ringHead = s.ringHead)
      (htail : s'.ringTail = s.ringTail) (hrx : s'.rxEnabled = s.rxEnabled) : RingReach s'
  /-- a turn of the loop of `log_process` -/
  | process {s : Machine} (g : LoadGaps) (hs : RingReach s) (hn : 512 ≤ (availableLoads g s).1) :
      RingReach ((availableLoads g s).2.advanceTail 512)
  /-- `log_flush` -/
  | flush {s : Machine} (g : LoadGaps) (hs : RingReach s) :
      RingReach ((availableLoads g s).2.advanceTail (availableLoads g s).1)

end Barelog
