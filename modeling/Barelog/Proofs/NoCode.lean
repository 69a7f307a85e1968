import Barelog.Proofs.Extend

/-! When every SD operation succeeds, the functions of `fat32_log.c` have no error to report, but
for a directory with no free slot. -/

namespace Barelog

open Prog

def NoCode (env : Env) {α : Type} (p : Fw α) : Prop :=
  Avoids (fwStep env) (fun e => ∃ n, e = Stop.code n) p

section NoCode

variable {env : Env} {α β : Type}

theorem noCode_op (env : Env) (o : FwOp) : NoCode env (op o) :=
  avoids_perform (S := fwSig) o

theorem noCode_pure (env : Env) (a : α) : NoCode env (pure a : Fw α) := avoids_pure a

theorem NoCode.bind {p : Fw α} {f : α → Fw β} (hp : NoCode env p) (hf : ∀ a, NoCode env (f a)) :
    NoCode env (p >>= f) :=
  avoids_bind hp hf

theorem NoCode.ite {c : Prop} [Decidable c] {p q : Fw α} (hp : NoCode env p)
    (hq : NoCode env q) : NoCode env (if c then p else q) :=
  avoids_ite (fun _ => hp) fun _ => hq

theorem noCode_stop (env : Env) {e : Stop} (he : ∀ n, e ≠ .code n) :
    NoCode env (.fail e : Fw α) :=
  avoids_fail fun ⟨n, hn⟩ => he n hn

theorem NoCode.orCode {p : Fw α} (hp : NoCode env p) (c : ℤ) : NoCode env (p.orCode c) := by
  rintro s e s' hrun ⟨n, rfl⟩
  rcases orCode_cases hrun with ⟨_, hbad, _⟩ | ⟨e, hfail, he⟩
  · cases hbad
  · cases e with
    | code m => exact hp s _ s' hfail ⟨m, rfl⟩
    | hang => cases he
    | undef => cases he
    | repl => cases he

/-- The block commands with a card that answers every request. -/
theorem noCode_of_ok {p : Fw Unit} (h : ∀ s, (p.run (fwStep env) s).1 = .ok ()) : NoCode env p := by
  rintro s e s' hrun ⟨n, rfl⟩
  have := h s
  rw [hrun] at this
  cases this

theorem sdReadSector_noCode (hgood : env.Good) (lba buf : ℕ) : NoCode env (sdReadSector lba buf) :=
  noCode_of_ok fun s => by rw [sdReadSector_run, if_pos (hgood _)]

theorem sdWriteSector_noCode (hgood : env.Good) (lba buf : ℕ) : NoCode env (sdWriteSector lba buf) :=
  noCode_of_ok fun s => by rw [sdWriteSector_run, send_good hgood]

theorem sdWriteZeroSector_noCode (hgood : env.Good) (lba : ℕ) : NoCode env (sdWriteZeroSector lba) :=
  noCode_of_ok fun s => by rw [sdWriteZeroSector_run, send_good hgood]

theorem sdWriteSectorZc_noCode (hgood : env.Good) (lba spanA lenA : ℕ) (spanB : Option ℕ)
    (lenB : ℕ) : NoCode env (sdWriteSectorZc lba spanA lenA spanB lenB) :=
  noCode_of_ok fun s => by rw [sdWriteSectorZc_run, send_good hgood]

theorem fatReadEntry_noCode (hgood : env.Good) (c : ℕ) : NoCode env (fatReadEntry c) := by
  refine .bind (noCode_op _ _) fun r => .bind (sdReadSector_noCode hgood _ _) fun _ => ?_
  exact .bind (noCode_op _ _) fun _ => .bind (noCode_op _ _) fun _ =>
    .bind (noCode_op _ _) fun _ => .bind (noCode_op _ _) fun _ => noCode_pure _ _

theorem fatWriteEntry_noCode (hgood : env.Good) (c val : ℕ) : NoCode env (fatWriteEntry c val) := by
  refine .bind (noCode_op _ _) fun r => avoids_forUp fun f => ?_
  refine NoCode.bind (sdReadSector_noCode hgood _ _) fun _ => .bind ?_ fun _ =>
    sdWriteSector_noCode hgood _ _
  exact noCode_of_ok fun s => by rw [putEntry_run]

theorem zeroFill_noCode (hgood : env.Good) (lo hi : ℕ) : NoCode env (zeroFill lo hi) :=
  avoids_forUp fun _ => sdWriteZeroSector_noCode hgood _

theorem setLogfile_noCode (env : Env) (f : Logfile → Logfile) : NoCode env (setLogfile f) :=
  noCode_of_ok fun s => by rw [setLogfile_run]

/-! The search for a name. -/

theorem nameEq_noCode (env : Env) (name : Name) (e n j : ℕ) : NoCode env (nameEq name e n j) := by
  rintro s _ s' hrun ⟨_, rfl⟩
  rw [nameEq_run] at hrun
  cases hrun

theorem scanEntries_noCode (env : Env) (name : Name) (lba n e : ℕ) (sc : Scan) :
    NoCode env (scanEntries name lba n e sc) := by
  induction n generalizing e sc with
  | zero => exact noCode_pure _ _
  | succ n ih =>
    refine .bind (noCode_op _ _) fun first => .ite (noCode_pure _ _) (.ite (ih _ _) ?_)
    refine .bind (noCode_op _ _) fun attr => .ite (ih _ _) (.ite (ih _ _) ?_)
    exact .bind (nameEq_noCode _ _ _ _ _) fun hit => .ite (noCode_pure _ _) (ih _ _)

theorem scanSectors_noCode (hgood : env.Good) (name : Name) (lba n k : ℕ) (sc : Scan) :
    NoCode env (scanSectors name lba n k sc) := by
  induction n generalizing k sc with
  | zero => exact noCode_pure _ _
  | succ n ih =>
    refine .bind ((sdReadSector_noCode hgood _ _).orCode _) fun _ => ?_
    exact .bind (scanEntries_noCode _ _ _ _ _ _) fun r => .ite (ih _ _) (noCode_pure _ _)

theorem scanChain_noCode (hgood : env.Good) (name : Name) (fuel c : ℕ) (sc : Scan) :
    NoCode env (scanChain name fuel c sc) := by
  induction fuel generalizing c sc with
  | zero => exact noCode_stop _ nofun
  | succ fuel ih =>
    rw [scanChain]
    refine .ite (.bind (noCode_op _ _) fun r => ?_) (noCode_pure _ _)
    refine .bind (scanSectors_noCode hgood _ _ _ _ _) fun r => ?_
    obtain ⟨vd, sc'⟩ := r
    cases vd with
    | found => exact noCode_pure _ _
    | done => exact noCode_pure _ _
    | next => exact .bind ((fatReadEntry_noCode hgood _).orCode _) fun next => ih _ _

theorem walkChain_noCode (hgood : env.Good) (fuel c next : ℕ) : NoCode env (walkChain fuel c next) := by
  induction fuel generalizing c next with
  | zero => exact noCode_stop _ nofun
  | succ fuel ih =>
    rw [walkChain]
    exact .ite (.bind (fatReadEntry_noCode hgood _) fun _ => ih _ _) (noCode_pure _ _)

theorem resumeLog_noCode (hgood : env.Good) (fuel preallocSz nSectors : ℕ) (sc : Scan) :
    NoCode env (resumeLog fuel preallocSz nSectors sc) := by
  have hword : ∀ i, NoCode env (eepromReadWord i) := fun i =>
    .bind (noCode_op _ _) fun _ => .bind (noCode_op _ _) fun _ => noCode_pure _ _
  have hring : ∀ i, NoCode env (ringGet16 i) := fun i =>
    .bind (noCode_op _ _) fun _ => .bind (noCode_op _ _) fun _ => noCode_pure _ _
  refine .bind (hword _) fun _ => .bind (hword _) fun _ => .bind (hring _) fun _ =>
    .bind (hring _) fun _ => .bind (noCode_op _ _) fun _ => ?_
  exact .bind (setLogfile_noCode _ _) fun _ => .bind (walkChain_noCode hgood _ _ _) fun _ =>
    setLogfile_noCode _ _

theorem nameLoop_noCode (hgood : env.Good) (fuel preallocSz nSectors k : ℕ)
    (last : Option (Name × Scan)) : NoCode env (nameLoop fuel preallocSz nSectors k last) := by
  induction k generalizing last with
  | zero => exact noCode_stop _ fun _ h => by cases h
  | succ k ih =>
    have hsize : ∀ i, NoCode env (ringGet32 i) := fun i => by
      rintro s _ s' hrun ⟨_, rfl⟩
      rw [ringGet32_run] at hrun
      cases hrun
    unfold nameLoop
    refine .bind (noCode_op _ _) fun r => .ite ?_ ?_
    · refine .bind (.bind (noCode_op _ _) fun r => scanChain_noCode hgood _ _ _ _) fun q => ?_
      obtain ⟨found, sc⟩ := q
      refine .ite ?_ (noCode_pure _ _)
      refine .bind (sdReadSector_noCode hgood _ _) fun _ => .bind (hsize _) fun size => .ite ?_ ?_
      · exact .bind (resumeLog_noCode hgood _ _ _ _) fun _ => noCode_pure _ _
      · exact .bind (.bind (noCode_op _ _) fun _ => noCode_op _ _) fun _ => ih _
    · cases last with
      | none => exact noCode_stop _ fun _ h => by cases h
      | some q => exact noCode_pure _ _

/-! The searches for free clusters. -/

theorem NoCode.doIf {c : Prop} [Decidable c] {p : Fw Unit} (hp : c → NoCode env p) :
    NoCode env (doIf c p) :=
  avoids_ite hp fun _ => noCode_pure _ _

theorem allocLoop_noCode (hgood : env.Good) (nClus fuel c : ℕ) (a : Alloc) :
    NoCode env (allocLoop nClus fuel c a) := by
  induction fuel generalizing c a with
  | zero => exact noCode_stop _ nofun
  | succ fuel ih =>
    rw [allocLoop]
    refine .ite (.bind (fatReadEntry_noCode hgood _) fun val => .ite (ih _ _) ?_) (noCode_pure _ _)
    exact .bind (.doIf fun _ => fatWriteEntry_noCode hgood _ _) fun _ => ih _ _

/-- The allocation loop does not return before it has its clusters. -/
theorem allocLoop_found {nClus fuel c : ℕ} {a a1 : Alloc} {s s' : Machine}
    (hrun : (allocLoop nClus fuel c a).run (fwStep env) s = (.ok a1, s')) :
    nClus ≤ a1.foundClus := by
  induction fuel generalizing c a s with
  | zero => cases hrun
  | succ fuel ih =>
    rw [allocLoop] at hrun
    split at hrun
    · obtain ⟨val, s1, _, hrest⟩ := bind_returned hrun
      split at hrest
      · exact ih hrest
      · obtain ⟨_, s2, _, hgo⟩ := bind_returned hrest
        exact ih hgo
    · cases hrun
      omega

theorem createLog_noCode (hgood : env.Good) (fuel preallocSz nSectors nClus : ℕ) (name : Name)
    (emptyLba emptyOff : ℕ) :
    NoCode env (createLog fuel preallocSz nSectors nClus name emptyLba emptyOff) := by
  refine avoids_seq (allocLoop_noCode hgood _ _ _ _) fun a s s' hrun => ?_
  have hfound := allocLoop_found hrun
  refine NoCode.bind (.doIf fun hlt => absurd hlt (by omega)) fun _ => ?_
  refine .bind (fatWriteEntry_noCode hgood _ _) fun _ => .bind (noCode_op _ _) fun r => ?_
  refine .bind (setLogfile_noCode _ _) fun _ => .bind (noCode_op _ _) fun _ => ?_
  refine .bind (zeroFill_noCode hgood _ _) fun _ => .bind (sdReadSector_noCode hgood _ _) fun _ => ?_
  exact .bind (noCode_of_ok fun s => by rw [putDirEntry_run]) fun _ => sdWriteSector_noCode hgood _ _

theorem findFree_noCode (hgood : env.Good) (fuel c : ℕ) : NoCode env (findFree fuel c) := by
  induction fuel generalizing c with
  | zero => exact noCode_stop _ nofun
  | succ fuel ih =>
    rw [findFree]
    exact .bind (fatReadEntry_noCode hgood _) fun _ => .ite (noCode_pure _ _) (ih _)

theorem extendLog_noCode (hgood : env.Good) (fuel : ℕ) : NoCode env (extendLog fuel) := by
  refine .bind (noCode_op _ _) fun r => .bind (findFree_noCode hgood _ _) fun c => ?_
  refine .bind (fatWriteEntry_noCode hgood _ _) fun _ => .bind (fatWriteEntry_noCode hgood _ _) fun _ => ?_
  exact .bind (noCode_op _ _) fun _ => .bind (zeroFill_noCode hgood _ _) fun _ =>
    setLogfile_noCode _ _

theorem append_noCode (hgood : env.Good) (fuel spanA lenA : ℕ) (spanB : Option ℕ) (lenB : ℕ) :
    NoCode env (fat32AppendSector fuel spanA lenA spanB lenB) := by
  refine .bind (noCode_op _ _) fun r => .bind (.doIf fun _ => extendLog_noCode hgood _) fun _ => ?_
  exact .bind (sdWriteSectorZc_noCode hgood _ _ _ _ _) fun _ => setLogfile_noCode _ _

end NoCode

end Barelog
