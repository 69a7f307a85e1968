import Barelog.Proofs.LogRam
import Barelog.Proofs.Mount

/-! The functions of the boot and of the commands consume no byte of the ring. -/

namespace Barelog

open Prog

variable {α : Type}

/-! The steps of a creation keep what holds of the module variables. -/

section Creation

variable {Q : Ram → Prop}

theorem doIf_ram {c : Prop} [Decidable c] {q : Fw Unit} (hq : RamKept Q q) : RamKept Q (doIf c q) :=
  only_ite (fun _ => hq) fun _ => trivial

theorem allocLoop_ram (nClus fuel c : ℕ) (a : Alloc) : RamKept Q (allocLoop nClus fuel c a) := by
  induction fuel generalizing c a with
  | zero => trivial
  | succ fuel ih =>
    refine only_ite (fun _ => only_bind (fatReadEntry_ram _) fun _ => ?_) fun _ => trivial
    exact only_ite (fun _ => ih _ _) fun _ => only_bind (doIf_ram (fatWriteEntry_ram _ _)) fun _ =>
      ih _ _

theorem allocChain_ram (fuel nClus : ℕ) : RamKept Q (allocChain fuel nClus) :=
  only_bind (allocLoop_ram _ _ _ _) fun _ => only_bind (doIf_ram trivial) fun _ =>
    only_bind (fatWriteEntry_ram _ _) fun _ => trivial

theorem clearSectors_ram (lba n : ℕ) : RamKept Q (clearSectors lba n) :=
  only_bind (only_perform trivial) fun _ => zeroFill_ram _ _

theorem enterLog_ram (preallocSz : ℕ) (name : Name) (p : Slot) (a : Alloc) :
    RamKept Q (enterLog preallocSz name p a) := by
  have hset : ∀ i n, RamKept Q (ringSet16 i n) := fun i n =>
    only_bind (only_perform trivial) fun _ => only_perform trivial
  refine only_bind (sdReadSector_ram _ _) fun _ => only_bind ?_ fun _ => sdWriteSector_ram _ _
  refine only_bind (only_forUp fun _ _ _ => only_perform trivial) fun _ =>
    only_bind (only_forUp fun _ _ _ => only_perform trivial) fun _ => ?_
  exact only_bind (only_perform trivial) fun _ => only_bind (hset _ _) fun _ =>
    only_bind (hset _ _) fun _ => only_bind (hset _ _) fun _ => hset _ _

end Creation

abbrev KeepsTail {α : Type} (p : Fw α) : Prop := RamKept (fun _ => True) p

theorem KeepsTail.orCode {p : Fw α} (hp : KeepsTail p) (c : ℤ) : KeepsTail (p.orCode c) :=
  only_handle hp fun e => by cases e <;> trivial

theorem KeepsTail.returnCode {p : Fw Unit} (hp : KeepsTail p) : KeepsTail p.returnCode :=
  only_handle (only_bind hp fun _ => trivial) fun e => by cases e <;> trivial

theorem setCfg_tail (c : Config) : KeepsTail (setCfg c) :=
  getRam_bind_ram fun _ _ => only_perform trivial

theorem ringGet16_tail (i : ℕ) : KeepsTail (ringGet16 i) :=
  only_bind (ringGet_ram _) fun _ => only_bind (ringGet_ram _) fun _ => trivial

theorem ringGet32_tail (i : ℕ) : KeepsTail (ringGet32 i) :=
  only_bind (ringGet16_tail _) fun _ => only_bind (ringGet16_tail _) fun _ => trivial

theorem eepromReadWord_tail (p : ℕ) : KeepsTail (eepromReadWord p) :=
  only_bind (only_perform trivial) fun _ => only_bind (only_perform trivial) fun _ => trivial

theorem eepromWriteWord_tail (p n : ℕ) : KeepsTail (eepromWriteWord p n) :=
  only_bind (only_perform trivial) fun _ => only_perform trivial

theorem eepromReadDword_tail (p : ℕ) : KeepsTail (eepromReadDword p) :=
  only_bind (eepromReadWord_tail _) fun _ => only_bind (eepromReadWord_tail _) fun _ => trivial

theorem eepromWriteDword_tail (p n : ℕ) : KeepsTail (eepromWriteDword p n) :=
  only_bind (eepromWriteWord_tail _ _) fun _ => eepromWriteWord_tail _ _

theorem configSave_tail (c : Config) : KeepsTail (configSave c) := by
  refine only_bind (eepromWriteDword_tail _ _) fun _ => only_bind (eepromWriteDword_tail _ _) fun _ => ?_
  refine only_bind (only_perform trivial) fun _ => only_bind (only_perform trivial) fun _ => ?_
  exact only_bind (eepromWriteWord_tail _ _) fun _ => only_bind (only_perform trivial) fun _ =>
    only_perform trivial

theorem factoryReset_tail : KeepsTail factoryReset :=
  only_bind (setCfg_tail _) fun _ => configSave_tail _

theorem configLoad_tail : KeepsTail configLoad := by
  refine only_bind (eepromReadDword_tail _) fun magic => only_ite (fun _ => factoryReset_tail)
    fun _ => ?_
  refine only_bind (eepromReadDword_tail _) fun _ => only_bind (only_perform trivial) fun _ =>
    only_bind (only_perform trivial) fun _ => only_bind (eepromReadWord_tail _) fun _ => ?_
  exact only_bind (only_perform trivial) fun _ => only_bind (only_perform trivial) fun _ =>
    setCfg_tail _

/-! `fat32_mount` and the commands that erase. -/

theorem findPart_tail (n i : ℕ) : KeepsTail (findPart n i) := by
  induction n generalizing i with
  | zero => trivial
  | succ n ih =>
    exact only_bind (ringGet_ram _) fun _ => only_ite (fun _ => ringGet32_tail _) fun _ => ih _

theorem fat32Mount_tail : KeepsTail fat32Mount := by
  have hstop : ∀ (c : Prop) [Decidable c], KeepsTail (doIf c (.fail (.code (-1)))) :=
    fun c _ => doIf_ram trivial
  have hrecord : ∀ p, KeepsTail (mountRecord p) := fun p => by
    refine only_bind (ringGet16_tail _) fun _ => only_bind (hstop _) fun _ =>
      only_bind (ringGet16_tail _) fun _ => only_bind (ringGet32_tail _) fun _ =>
        only_bind (hstop _) fun _ => ?_
    exact only_bind (ringGet16_tail _) fun _ => only_bind (ringGet_ram _) fun _ =>
      only_bind (ringGet32_tail _) fun _ => only_bind (ringGet_ram _) fun _ =>
        only_bind (ringGet32_tail _) fun _ => getRam_bind_ram fun _ _ => only_perform trivial
  rw [fat32Mount_eq]
  exact only_bind (sdReadSector_ram _ _) fun _ => only_bind (findPart_tail _ _) fun _ =>
    only_bind (hstop _) fun _ => only_bind (sdReadSector_ram _ _) fun _ => hrecord _

theorem closeRun_tail (run : Run) : KeepsTail (closeRun run) := by
  cases run with
  | none => trivial
  | some r => exact only_perform trivial

theorem trimEntries_tail (v : Vol) (n off clus : ℕ) (run : Run) :
    KeepsTail (trimEntries v n off clus run) := by
  induction n generalizing off clus run with
  | zero => trivial
  | succ n ih =>
    refine only_ite (fun _ => only_bind (closeRun_tail _) fun _ => ih _ _ _) fun _ => ?_
    refine only_bind (ringGet_ram _) fun _ => only_bind (ringGet_ram _) fun _ =>
      only_bind (ringGet_ram _) fun _ => only_bind (ringGet_ram _) fun _ => ?_
    refine only_ite (fun _ => ?_) fun _ => only_bind (closeRun_tail _) fun _ => ih _ _ _
    cases run with
    | none => exact ih _ _ _
    | some r => exact only_ite (fun _ => ih _ _ _) fun _ =>
        only_bind (only_perform trivial) fun _ => ih _ _ _

theorem trimSectors_tail (v : Vol) (n fatSec clus : ℕ) (run : Run) :
    KeepsTail (trimSectors v n fatSec clus run) := by
  induction n generalizing fatSec clus run with
  | zero => trivial
  | succ n ih =>
    exact only_bind (sdReadSector_ram _ _) fun _ => only_bind (trimEntries_tail _ _ _ _ _) fun _ =>
      ih _ _ _

theorem fat32TrimFree_tail : KeepsTail fat32TrimFree :=
  getRam_bind_ram fun _ _ => only_bind (trimSectors_tail _ _ _ _ _) fun run => closeRun_tail run

/-! `fat32_open_log`. -/

theorem nameEq_tail (name : Name) (e n j : ℕ) : KeepsTail (nameEq name e n j) := by
  induction n generalizing j with
  | zero => trivial
  | succ n ih =>
    exact only_bind (ringGet_ram _) fun _ => only_ite (fun _ => trivial) fun _ => ih _

theorem scanEntries_tail (name : Name) (lba n e : ℕ) (sc : Scan) :
    KeepsTail (scanEntries name lba n e sc) := by
  induction n generalizing e sc with
  | zero => trivial
  | succ n ih =>
    refine only_bind (ringGet_ram _) fun _ => only_ite (fun _ => trivial) fun _ =>
      only_ite (fun _ => ih _ _) fun _ => ?_
    refine only_bind (ringGet_ram _) fun _ => only_ite (fun _ => ih _ _) fun _ =>
      only_ite (fun _ => ih _ _) fun _ => ?_
    exact only_bind (nameEq_tail _ _ _ _) fun _ => only_ite (fun _ => trivial) fun _ => ih _ _

theorem scanSectors_tail (name : Name) (lba n k : ℕ) (sc : Scan) :
    KeepsTail (scanSectors name lba n k sc) := by
  induction n generalizing k sc with
  | zero => trivial
  | succ n ih =>
    refine only_bind (KeepsTail.orCode (sdReadSector_ram _ _) _) fun _ => ?_
    exact only_bind (scanEntries_tail _ _ _ _ _) fun _ => only_ite (fun _ => ih _ _) fun _ => trivial

theorem scanChain_tail (name : Name) (fuel clus : ℕ) (sc : Scan) :
    KeepsTail (scanChain name fuel clus sc) := by
  induction fuel generalizing clus sc with
  | zero => trivial
  | succ fuel ih =>
    refine only_ite (fun _ => getRam_bind_ram fun _ _ => ?_) fun _ => trivial
    refine only_bind (scanSectors_tail _ _ _ _ _) fun r => ?_
    obtain ⟨v, sc'⟩ := r
    cases v with
    | found => trivial
    | done => trivial
    | next => exact only_bind (KeepsTail.orCode (fatReadEntry_ram _) _) fun _ => ih _ _

theorem walkChain_tail (fuel c next : ℕ) : KeepsTail (walkChain fuel c next) := by
  induction fuel generalizing c next with
  | zero => trivial
  | succ fuel ih =>
    exact only_ite (fun _ => only_bind (fatReadEntry_ram _) fun _ => ih _ _) fun _ => trivial

theorem setLogfile_tail (f : Logfile → Logfile) : KeepsTail (setLogfile f) :=
  setLogfile_ram fun _ _ => trivial

theorem resumeLog_tail (fuel preallocSz nSectors : ℕ) (sc : Scan) :
    KeepsTail (resumeLog fuel preallocSz nSectors sc) := by
  refine only_bind (eepromReadWord_tail _) fun _ => only_bind (eepromReadWord_tail _) fun _ =>
    only_bind (ringGet16_tail _) fun _ => only_bind (ringGet16_tail _) fun _ => ?_
  exact getRam_bind_ram fun _ _ => only_bind (setLogfile_tail _) fun _ =>
    only_bind (walkChain_tail _ _ _) fun _ => setLogfile_tail _

theorem nameLoop_tail (fuel preallocSz nSectors k : ℕ) (last : Option (Name × Scan)) :
    KeepsTail (nameLoop fuel preallocSz nSectors k last) := by
  induction k generalizing last with
  | zero => trivial
  | succ k ih =>
    unfold nameLoop
    refine getRam_bind_ram fun r _ => only_ite (fun _ => ?_) fun _ => ?_
    · refine only_bind (getRam_bind_ram fun _ _ => scanChain_tail _ _ _ _) fun q => ?_
      refine only_ite (fun _ => only_bind (sdReadSector_ram _ _) fun _ =>
        only_bind (ringGet32_tail _) fun _ => ?_) fun _ => trivial
      exact only_ite (fun _ => only_bind (resumeLog_tail _ _ _ _) fun _ => trivial) fun _ =>
        only_bind (setCfg_tail _) fun _ => ih _
    · cases last with
      | none => trivial
      | some l => trivial

theorem createLog_tail (fuel preallocSz nSectors nClus : ℕ) (name : Name) (p : Slot) :
    KeepsTail (createLog fuel preallocSz nSectors nClus name p.1 p.2) := by
  rw [createLog_eq]
  refine only_bind (allocChain_ram _ _) fun a => only_bind ?_ fun _ => enterLog_ram _ _ _ _
  exact getRam_bind_ram fun _ _ => only_bind (setLogfile_tail _) fun _ => clearSectors_ram _ _

theorem fat32OpenLog_tail (fuel : ℕ) : KeepsTail (fat32OpenLog fuel) := by
  refine getRam_bind_ram fun _ _ => only_bind (doIf_ram trivial) fun _ => ?_
  refine only_bind (nameLoop_tail _ _ _ _ _) fun found => ?_
  cases found with
  | resumed => trivial
  | create name emptyLba emptyOff =>
    refine only_bind (doIf_ram trivial) fun _ => only_bind (createLog_tail _ _ _ _ _ (emptyLba, emptyOff))
      fun _ => ?_
    exact getRam_bind_ram fun _ _ => only_bind (setCfg_tail _) fun _ => configSave_tail _

end Barelog
