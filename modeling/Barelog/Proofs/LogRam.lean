import Barelog.Proofs.Extend

/-! What a function leaves of the module variables: a property that every value it stores has,
given that every value it reads has it. -/

namespace Barelog

open Prog

variable {Q : Ram → Prop} {env : Env} {s s' : Machine} {α : Type}

def RamReply (Q : Ram → Prop) : (o : FwOp) → o.Reply → Prop
  | .getRam, r => Q r
  | _, _ => True

/-- The variables stored satisfy `Q`, no byte is consumed, and the RX interrupt stays on. -/
def RamOp (Q : Ram → Prop) : FwOp → Prop
  | .setRam r => Q r
  | .setTail _ => False
  | .disableRx => False
  | _ => True

abbrev RamKept (Q : Ram → Prop) {α : Type} (p : Fw α) : Prop := p.Only (RamReply Q) (RamOp Q)

theorem fwStep_indices (env : Env) (o : FwOp) (ho : ∀ t, o ≠ .setTail t) (s : Machine) :
    (fwStep env o s).2.ringHead = s.ringHead ∧ (fwStep env o s).2.ringTail = s.ringTail := by
  cases o with
  | setTail t => exact absurd rfl (ho t)
  | writeDone lba =>
    simp only [fwStep, Machine.finish]
    split <;> exact ⟨rfl, rfl⟩
  | zeroDone lba =>
    simp only [fwStep, Machine.finish]
    split <;> exact ⟨rfl, rfl⟩
  | _ => exact ⟨rfl, rfl⟩

theorem fwStep_ram (env : Env) (o : FwOp) (ho : ∀ r, o ≠ .setRam r) (s : Machine) :
    (fwStep env o s).2.ram = s.ram := by
  cases o with
  | setRam r => exact absurd rfl (ho r)
  | writeDone lba =>
    simp only [fwStep, Machine.finish]
    split <;> rfl
  | zeroDone lba =>
    simp only [fwStep, Machine.finish]
    split <;> rfl
  | _ => rfl

theorem ramOp_step (env : Env) (o : FwOp) (s : Machine) (ho : RamOp Q o) (hs : Q s.ram) :
    RamReply Q o (fwStep env o s).1 ∧ Q (fwStep env o s).2.ram := by
  cases o with
  | setRam r => exact ⟨trivial, ho⟩
  | getRam => exact ⟨hs, hs⟩
  | writeDone lba => exact ⟨trivial, (fwStep_ram env (.writeDone lba) (fun _ => nofun) s).symm ▸ hs⟩
  | zeroDone lba => exact ⟨trivial, (fwStep_ram env (.zeroDone lba) (fun _ => nofun) s).symm ▸ hs⟩
  | setTail t => cases ho
  | _ => exact ⟨trivial, hs⟩

theorem RamKept.run {p : Fw α} (hp : RamKept Q p) (hs : Q s.ram) {r : Except Stop α}
    (hrun : p.run (fwStep env) s = (r, s')) :
    Q s'.ram ∧ s'.ringHead = s.ringHead ∧ s'.ringTail = s.ringTail := by
  have hinv := Only.invariant (h := fwStep env) (I := fun t => Q t.ram ∧
    t.ringHead = s.ringHead ∧ t.ringTail = s.ringTail) hp (fun o t ho ht => ?_) ⟨hs, rfl, rfl⟩
  · rw [hrun] at hinv
    exact hinv
  · obtain ⟨hreply, hram⟩ := ramOp_step env o t ho ht.1
    have hidx := fwStep_indices env o (by rintro u rfl; exact ho) t
    exact ⟨hreply, hram, hidx.1.trans ht.2.1, hidx.2.trans ht.2.2⟩

theorem fwStep_rxEnabled (env : Env) (o : FwOp) (ho : o ≠ .disableRx) (s : Machine) :
    (fwStep env o s).2.rxEnabled = s.rxEnabled := by
  cases o with
  | disableRx => exact absurd rfl ho
  | writeDone lba =>
    simp only [fwStep, Machine.finish]
    split <;> rfl
  | zeroDone lba =>
    simp only [fwStep, Machine.finish]
    split <;> rfl
  | _ => rfl

theorem RamKept.rxEnabled {p : Fw α} (hp : RamKept Q p) (hs : Q s.ram) {r : Except Stop α}
    (hrun : p.run (fwStep env) s = (r, s')) : s'.rxEnabled = s.rxEnabled := by
  have hinv := Only.invariant (h := fwStep env) (I := fun t => Q t.ram ∧ t.rxEnabled = s.rxEnabled)
    hp (fun o t ho ht => ?_) ⟨hs, rfl⟩
  · rw [hrun] at hinv
    exact hinv.2
  · obtain ⟨hreply, hram⟩ := ramOp_step env o t ho ht.1
    have hrx := fwStep_rxEnabled env o (by rintro rfl; exact ho) t
    exact ⟨hreply, hram, hrx.trans ht.2⟩

theorem check_ram (ret : ℤ) : RamKept Q (check ret) := only_ite (fun _ => trivial) fun _ => trivial

theorem sdReadSector_ram (lba buf : ℕ) : RamKept Q (sdReadSector lba buf) :=
  only_bind (only_perform trivial) fun ret => only_bind (check_ram ret) fun _ =>
    only_forUp fun _ _ _ => only_bind (only_perform trivial) fun _ => only_perform trivial

theorem spiWriteBuf_ram (buf len : ℕ) : RamKept Q (spiWriteBuf buf len) :=
  only_forUp fun _ _ _ => only_bind (only_perform trivial) fun _ => only_perform trivial

theorem sdWriteSector_ram (lba buf : ℕ) : RamKept Q (sdWriteSector lba buf) :=
  only_bind (only_perform trivial) fun ret => only_bind (check_ram ret) fun _ =>
    only_bind (spiWriteBuf_ram buf 512) fun _ => only_bind (only_perform trivial) check_ram

theorem spiWriteSpan_ram (spanB : Option ℕ) (lenB : ℕ) : RamKept Q (spiWriteSpan spanB lenB) := by
  cases spanB with
  | none => trivial
  | some b => exact only_ite (fun _ => spiWriteBuf_ram _ _) fun _ => trivial

theorem sdWriteSectorZc_ram (lba spanA lenA : ℕ) (spanB : Option ℕ) (lenB : ℕ) :
    RamKept Q (sdWriteSectorZc lba spanA lenA spanB lenB) :=
  only_bind (only_perform trivial) fun ret => only_bind (check_ram ret) fun _ =>
    only_bind (spiWriteBuf_ram _ _) fun _ => only_bind (spiWriteSpan_ram spanB lenB) fun _ =>
      only_bind (only_perform trivial) check_ram

theorem sdWriteZeroSector_ram (lba : ℕ) : RamKept Q (sdWriteZeroSector lba) :=
  only_bind (only_perform trivial) fun ret => only_bind (check_ram ret) fun _ =>
    only_bind (only_forUp fun _ _ _ => only_perform trivial) fun _ =>
      only_bind (only_perform trivial) check_ram

theorem getRam_bind_ram {f : Ram → Fw α} (hf : ∀ r, Q r → RamKept Q (f r)) :
    RamKept Q (getRam >>= f) :=
  ⟨trivial, hf⟩

theorem ringGet_ram (i : ℕ) : RamKept Q (ringGet i) := only_perform trivial

theorem fatReadEntry_ram (c : ℕ) : RamKept Q (fatReadEntry c) :=
  getRam_bind_ram fun _ _ => only_bind (sdReadSector_ram _ _) fun _ =>
    only_bind (ringGet_ram _) fun _ => only_bind (ringGet_ram _) fun _ =>
      only_bind (ringGet_ram _) fun _ => only_bind (ringGet_ram _) fun _ => trivial

theorem putEntry_ram (off val : ℕ) : RamKept Q (putEntry off val) :=
  only_bind (only_perform trivial) fun _ => only_bind (only_perform trivial) fun _ =>
    only_bind (only_perform trivial) fun _ => only_bind (ringGet_ram _) fun _ => only_perform trivial

theorem fatWriteEntry_ram (c val : ℕ) : RamKept Q (fatWriteEntry c val) :=
  getRam_bind_ram fun _ _ => only_forUp fun _ _ _ => only_bind (sdReadSector_ram _ _) fun _ =>
    only_bind (putEntry_ram _ _) fun _ => sdWriteSector_ram _ _

theorem findFree_ram (fuel c : ℕ) : RamKept Q (findFree fuel c) := by
  induction fuel generalizing c with
  | zero => trivial
  | succ fuel ih =>
    exact only_bind (fatReadEntry_ram c) fun _ => only_ite (fun _ => trivial) fun _ => ih _

theorem zeroFill_ram (lo hi : ℕ) : RamKept Q (zeroFill lo hi) :=
  only_forUp fun i _ _ => sdWriteZeroSector_ram i

theorem setLogfile_ram {f : Logfile → Logfile} (hf : ∀ r, Q r → Q { r with logfile := f r.logfile }) :
    RamKept Q (setLogfile f) :=
  getRam_bind_ram fun r hr => only_perform (show Q { r with logfile := f r.logfile } from hf r hr)

/-- The extension stores the end of the file and its last cluster. -/
theorem extendLog_ram (fuel : ℕ) (hQ : ∀ r endLba lastClus, Q r →
    Q { r with logfile := { r.logfile with endLba := endLba, lastClus := lastClus } }) :
    RamKept Q (extendLog fuel) := by
  refine getRam_bind_ram fun r _ => only_bind (findFree_ram _ _) fun c => ?_
  refine only_bind (fatWriteEntry_ram _ _) fun _ => only_bind (fatWriteEntry_ram _ _) fun _ => ?_
  exact only_bind (only_perform trivial) fun _ => only_bind (zeroFill_ram _ _) fun _ =>
    setLogfile_ram fun r hr => hQ r _ _ hr

theorem makeRoom_ram (fuel : ℕ) (l : Logfile) (hQ : ∀ r endLba lastClus, Q r →
    Q { r with logfile := { r.logfile with endLba := endLba, lastClus := lastClus } }) :
    RamKept Q (makeRoom fuel l) :=
  only_ite (fun _ => extendLog_ram fuel hQ) fun _ => trivial

theorem append_ram (fuel spanA lenA : ℕ) (spanB : Option ℕ) (lenB : ℕ)
    (hQ : ∀ r l, Q r → Q { r with logfile := l }) :
    RamKept Q (fat32AppendSector fuel spanA lenA spanB lenB) :=
  getRam_bind_ram fun r _ => only_bind (makeRoom_ram fuel r.logfile fun r _ _ => hQ r _) fun _ =>
    only_bind (sdWriteSectorZc_ram _ _ _ _ _) fun _ => setLogfile_ram fun r => hQ r _

theorem ignoreCode_ram {p : Fw Unit} (hp : RamKept Q p) : RamKept Q p.ignoreCode :=
  only_handle hp fun e => by cases e <;> trivial

theorem makeRoom_keeps {fuel : ℕ} {l : Logfile} {r : Except Stop Unit}
    (hrun : (makeRoom fuel l).run (fwStep env) s = (r, s')) :
    (∃ endLba lastClus, s'.ram = { s.ram with logfile := { s.ram.logfile with
        endLba := endLba, lastClus := lastClus } }) ∧
      s'.ringHead = s.ringHead ∧ s'.ringTail = s.ringTail := by
  have hkept : RamKept (fun r => ∃ endLba lastClus, r = { s.ram with logfile := { s.ram.logfile with
      endLba := endLba, lastClus := lastClus } }) (makeRoom fuel l) := by
    refine makeRoom_ram fuel l ?_
    rintro r endLba lastClus ⟨_, _, rfl⟩
    exact ⟨endLba, lastClus, rfl⟩
  exact hkept.run ⟨s.ram.logfile.endLba, s.ram.logfile.lastClus, rfl⟩ hrun

end Barelog
