import Barelog.Spec.BusLog
import Barelog.Spec.SdCard

/-! The commands of a run and the answers of the card, as an analyser reads them from the bytes that
go over the bus in both directions. -/

namespace Barelog.Wire

/-- A command and its answer: R1, if one comes within 8 bytes, and the bytes received after it up to
the next command. -/
structure CmdRecord where
  cmd : Byte
  arg : ℕ
  r1 : Option Byte
  tail : List Byte
deriving DecidableEq

inductive Listening
  | gap
  | frame (bytes : List Byte)
  | poll (cmd : Byte) (arg n : ℕ)

structure Analyser where
  /-- the commands so far, the last one first -/
  recent : List CmdRecord
  listening : Listening

/-- A byte received in a gap belongs to the last command. -/
def hear (x : Byte) : List CmdRecord → List CmdRecord
  | [] => []
  | c :: l => { c with tail := c.tail ++ [x] } :: l

/-- The byte `b` goes to the card while `x` comes from it. -/
def Analyser.exchange : Analyser → Byte → Byte → Analyser
  | ⟨l, .gap⟩, b, x => if b &&& 0xC0 = 0x40 then ⟨l, .frame [b]⟩ else ⟨hear x l, .gap⟩
  | ⟨l, .frame bytes⟩, b, _ =>
    if bytes.length < 5 then ⟨l, .frame (bytes ++ [b])⟩
    else ⟨l, .poll (bytes.getD 0 0 &&& 0x3F) (frameArg bytes) 8⟩
  | ⟨l, .poll cmd arg n⟩, _, x =>
    if x ≠ 0xFF then ⟨⟨cmd, arg, some x, []⟩ :: l, .gap⟩
    else if n = 1 then ⟨⟨cmd, arg, none, []⟩ :: l, .gap⟩
    else ⟨l, .poll cmd arg (n - 1)⟩

def analyserStep : (o : SpiOp) → o.Reply → Analyser → Analyser
  | .transfer b, x, a => a.exchange b x
  | _, _, a => a

def commandLog (t : List (Prog.Exchange spiSig)) : List CmdRecord :=
  (Prog.observe (S := spiSig) analyserStep t ⟨[], .gap⟩).recent.reverse

end Barelog.Wire
