import Barelog.Spec.Machine

/-! The ring buffer of `uart.h` and the RX interrupt of `platform_atmega328p.c`. -/

namespace Barelog

def ringSize : ℕ := 1024

def ringMask (n : ℕ) : ℕ := n &&& (ringSize - 1)

theorem ringMask_eq (n : ℕ) : ringMask n = n % 1024 := Nat.and_two_pow_sub_one_eq_mod n 10

def ringCount (head tail : ℕ) : ℕ := ringMask ((head + 2 ^ 16 - tail) % 2 ^ 16)

def uartAvailable : Fw ℕ := do
  let head ← getHead
  let tail ← getTail
  pure (ringCount head tail)

def uartConsume (n : ℕ) : Fw Unit := do
  let tail ← getTail
  setTail (ringMask ((tail + n) % 2 ^ 16))

def Machine.unread (s : Machine) : ℕ := ringCount s.ringHead s.ringTail

theorem uartAvailable_run (env : Env) (s : Machine) :
    uartAvailable.run (fwStep env) s = (.ok s.unread, s) := rfl

def nextHead (s : Machine) : ℕ := ringMask ((s.ringHead + 1) % 2 ^ 16)

def rxIsr (byte : Byte) (s : Machine) : Machine :=
  if nextHead s ≠ s.ringTail then
    { s with
      ring := Function.update s.ring s.ringHead byte
      ringHead := nextHead s
      accepted := s.accepted ++ [byte] }
  else { s with dropped := s.dropped ++ [s.unread] }

def RxStep (s s' : Machine) : Prop := s.rxEnabled = true ∧ ∃ byte, s' = rxIsr byte s

end Barelog
