import Barelog.Lib.Stores
import Barelog.Lib.Watch
import Barelog.Spec.Machine

/-! Power loss while firmware code writes the EEPROM. A byte write is done or not done; the bytes
written so far stay, and the next boot starts from them. -/

namespace Barelog

/-- The byte writes to the EEPROM among the operations of a run. -/
def eepromWrites (t : List (Prog.Exchange fwSig)) : List (ℕ × Byte) :=
  t.filterMap fun x => match x with
    | ⟨.eepromSet p b, _⟩ => some (p, b)
    | _ => none

/-- The EEPROM when power is lost after `n` byte writes of `p`. -/
def cutEeprom {α : Type} (env : Env) (p : Fw α) (s : Machine) (n : ℕ) : ℕ → Byte :=
  Stores.store s.eeprom ((eepromWrites (p.transcript (fwStep env) s)).take n)

end Barelog
