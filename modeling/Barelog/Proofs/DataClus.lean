import Barelog.Proofs.NoCode
import Barelog.Proofs.OpenLog

/-! Which clusters the log file gets. The two searches for free clusters stop at data clusters
if and only if there are free data clusters enough; otherwise they go on behind the last data
cluster, and no error comes of it. -/

namespace Barelog

open Prog

variable {env : Env} {s s' : Machine} {v : Vol}

/-- The cards differ only in the entries of data clusters in the FAT copies. -/
def OnlyEntries (v : Vol) (card card' : ℕ → Sector) : Prop :=
  ∀ lba i, card' lba i ≠ card lba i → ∃ c f, IsDataClus v c ∧ f < v.numFats ∧
    lba = fatCopySector v c f ∧ fatOffset c ≤ i ∧ i < fatOffset c + 4

/-- An open log file: it ends in a data cluster, and the cursor is in the data region. -/
structure LogOk (s : Machine) : Prop where
  last : IsDataClus s.ram.vol s.ram.logfile.lastClus
  cursor : s.ram.vol.dataLba ≤ s.ram.logfile.curLba

/-- Only data clusters are linked into the FAT, and the new last cluster is one; with no free
data cluster for an extension the append fails, and leaves the rest of the card alone. -/
def AppendSafe (s : Machine) : Prop :=
  (∀ env fuel spanA lenA spanB lenB r s',
    (fat32AppendSector fuel spanA lenA spanB lenB).run (fwStep env) s = (r, s') →
      Grown s.ram.vol (fatTable s.ram.vol s.card) (fatTable s.ram.vol s'.card) ∧
        IsDataClus s.ram.vol s'.ram.logfile.lastClus) ∧
  (s.ram.logfile.endLba ≤ s.ram.logfile.curLba → freeClus s.ram.vol s.card = [] →
    ∀ env spanA lenA spanB lenB, ∃ fuel n s',
      (fat32AppendSector fuel spanA lenA spanB lenB).run (fwStep env) s = (.error (.code n), s') ∧
        OnlyEntries s.ram.vol s.card s'.card)

def OpenSafe (s : Machine) : Prop :=
  (∀ env fuel r s', (fat32OpenLog fuel).run (fwStep env) s = (r, s') →
    Grown s.ram.vol (fatTable s.ram.vol s.card) (fatTable s.ram.vol s'.card) ∧
      (NeedsClus s → r = .ok () →
        IsDataClus s.ram.vol s'.ram.logfile.firstClus ∧
          IsDataClus s.ram.vol s'.ram.logfile.lastClus)) ∧
  (NeedsClus s → (freeClus s.ram.vol s.card).length < clusWanted s →
    ∀ env, ∃ fuel n s', (fat32OpenLog fuel).run (fwStep env) s = (.error (.code n), s') ∧
      OnlyEntries s.ram.vol s.card s'.card)

/-! The append. -/

section Append

variable {fuel spanA lenA : ℕ} {spanB : Option ℕ} {lenB : ℕ} {r : Except Stop Unit}

theorem makeRoom_grown (hv : Geometry s.ram.vol) (hlog : LogOk s)
    (hroom : s.ram.logfile.endLba ≤ s.ram.logfile.curLba → freeClus s.ram.vol s.card ≠ [])
    (hrun : (makeRoom fuel s.ram.logfile).run (fwStep env) s = (r, s')) :
    Grown s.ram.vol (fatTable s.ram.vol s.card) (fatTable s.ram.vol s'.card) ∧
      IsDataClus s.ram.vol s'.ram.logfile.lastClus := by
  rcases makeRoom_cases hrun with ⟨_, _, rfl⟩ | ⟨hfull, hext⟩
  · exact ⟨fun x => .inl rfl, hlog.last⟩
  · rcases extendLog_cases hv hlog.last (hroom hfull) hext with ⟨c, _, h⟩ | ⟨_, _, _, hram, hgrown⟩
    · refine ⟨?_, ?_⟩
      · rw [h.table]
        have hsame : Grown s.ram.vol (fatTable s.ram.vol s.card) (fatTable s.ram.vol s.card) :=
          fun x => .inl rfl
        exact (hsame.update hlog.last (.inl h.free.1)).update h.free.1 (.inr rfl)
      · rw [h.ram]
        exact h.free.1
    · exact ⟨hgrown, hram ▸ hlog.last⟩

theorem append_grown (hv : Geometry s.ram.vol) (hlog : LogOk s)
    (hroom : s.ram.logfile.endLba ≤ s.ram.logfile.curLba → freeClus s.ram.vol s.card ≠ [])
    (hrun : (fat32AppendSector fuel spanA lenA spanB lenB).run (fwStep env) s = (r, s')) :
    Grown s.ram.vol (fatTable s.ram.vol s.card) (fatTable s.ram.vol s'.card) ∧
      IsDataClus s.ram.vol s'.ram.logfile.lastClus := by
  rcases append_cases hrun with ⟨t, hmake, hsend⟩ | ⟨e, _, hmake⟩
  · obtain ⟨hgrown, hlast⟩ := makeRoom_grown hv hlog hroom hmake
    have hlogged : ∀ d, fatTable s.ram.vol (Function.update t.card s.ram.logfile.curLba d) =
        fatTable s.ram.vol t.card := fatTable_update hv hlog.cursor
    have hend : fatTable s.ram.vol s'.card = fatTable s.ram.vol t.card ∧
        s'.ram.logfile.lastClus = t.ram.logfile.lastClus := by
      rcases hsend with ⟨_, hs'⟩ | ⟨_, _, hs' | hs'⟩
      · rw [hs'.card, hs'.ram]
        exact ⟨hlogged _, rfl⟩
      · rw [hs'.card, hs'.ram]
        exact ⟨rfl, rfl⟩
      · rw [hs'.card, hs'.ram]
        exact ⟨hlogged _, rfl⟩
    rw [hend.1, hend.2]
    exact ⟨hgrown, hlast⟩
  · exact makeRoom_grown hv hlog hroom hmake

theorem appendSafe_iff (hv : Geometry s.ram.vol) (hlog : LogOk s) : AppendSafe s ↔
    (s.ram.logfile.endLba ≤ s.ram.logfile.curLba → freeClus s.ram.vol s.card ≠ []) := by
  constructor
  · intro hsafe hfull hnone
    obtain ⟨fuel, n, s', hrun, _⟩ := hsafe.2 hfull hnone Env.ideal 0 0 none 0
    exact append_noCode (fun _ => rfl) fuel 0 0 none 0 s _ s' hrun ⟨n, rfl⟩
  · intro hroom
    exact ⟨fun env fuel spanA lenA spanB lenB r s' hrun => append_grown hv hlog hroom hrun,
      fun hfull hnone => absurd hnone (hroom hfull)⟩

end Append

/-! The open. -/

section Open

variable {fuel : ℕ} {r : Except Stop Unit}

theorem openLog_grown (hv : Geometry s.ram.vol) (hroot : RootOk s.ram.vol s.card)
    (hroom : NeedsClus s → clusWanted s ≤ (freeClus s.ram.vol s.card).length)
    (hrun : (fat32OpenLog fuel).run (fwStep env) s = (r, s')) :
    Grown s.ram.vol (fatTable s.ram.vol s.card) (fatTable s.ram.vol s'.card) ∧
      (NeedsClus s → r = .ok () →
        IsDataClus s.ram.vol s'.ram.logfile.firstClus ∧
          IsDataClus s.ram.vol s'.ram.logfile.lastClus) := by
  have hsame : ∀ {q t}, (searchName fuel s).run (fwStep env) s = (q, t) →
      Grown s.ram.vol (fatTable s.ram.vol s.card) (fatTable s.ram.vol t.card) :=
    fun hsearch x => .inl (by rw [(searchName_cases hsearch).vol.2])
  rcases openLog_cases hv.secPerClus hrun with ⟨e, rfl, hsearch⟩ | ⟨rfl, hsearch⟩ |
    ⟨name, p, s1, hsearch, hend⟩
  · exact ⟨hsame hsearch, fun _ hbad => by cases hbad⟩
  · exact ⟨hsame hsearch, fun hneeds => (hneeds.not_resumed hsearch).elim⟩
  obtain ⟨sc, hunnamed, rfl, _⟩ := searchName_create hsearch
  obtain ⟨hvol, hcard⟩ := (searchName_cases hsearch).vol
  by_cases hlba : sc.emptyLba = 0
  · rcases hend with ⟨_, rfl, rfl⟩ | ⟨hne, _⟩ | ⟨hne, _⟩
    · exact ⟨hsame hsearch, fun _ hbad => by cases hbad⟩
    · exact absurd hlba hne
    · exact absurd hlba hne
  have hneeds : NeedsClus s := ⟨name, sc, hunnamed, hlba⟩
  rcases hend with ⟨hzero, _⟩ | ⟨_, e, rfl, hcreate⟩ | ⟨_, rfl, s2, hcreate, rfl⟩
  · exact absurd hzero hlba
  · rcases createFile_cases hv hroot (hroom hneeds) hunnamed hlba hvol hcard hcreate with
      ⟨hbad, _⟩ | ⟨_, _, _, hgrown⟩
    · cases hbad
    · exact ⟨hgrown, fun _ hbad => by cases hbad⟩
  · rcases createFile_cases hv hroot (hroom hneeds) hunnamed hlba hvol hcard hcreate with
      ⟨_, hcreated⟩ | ⟨_, hbad, _⟩
    swap
    · cases hbad
    have hclus : ∀ x ∈ taken s1 (clusWanted s), IsDataClus s.ram.vol x :=
      fun x hx => hvol ▸ (mem_taken hx).1
    have hne : taken s1 (clusWanted s) ≠ [] := taken_ne_nil (by rw [hvol, hcard]; exact hroom hneeds)
      (clusNeeded_pos hv.secPerClus (preallocSectors_pos s))
    have hgrown := hcreated.chain.grown hclus hne
    rw [hvol, hcard] at hgrown
    refine ⟨hgrown, fun _ _ => ?_⟩
    have hlog : s2.counted.ram.logfile = newLog s1.ram.vol (preallocSize s) (preallocSectors s)
        (taken s1 (clusWanted s)) sc.slot := congrArg Ram.logfile hcreated.ram
    rw [hlog]
    exact ⟨hclus _ (headD_mem hne), hclus _ (getLastD_mem hne)⟩

/-- When every SD operation succeeds, a call that needs clusters has no error to return. -/
theorem openLog_noCode (hgood : env.Good) (hspc : 1 ≤ s.ram.vol.secPerClus) (hneeds : NeedsClus s)
    {n : ℤ} (hrun : (fat32OpenLog fuel).run (fwStep env) s = (.error (.code n), s')) : False := by
  rcases openLog_cases hspc hrun with ⟨e, he, hsearch⟩ | ⟨hbad, _⟩ | ⟨name, p, s1, hsearch, hend⟩
  · cases he
    exact nameLoop_noCode hgood _ _ _ _ _ s _ s' hsearch ⟨n, rfl⟩
  · cases hbad
  · rcases hend with ⟨hlba, _⟩ | ⟨_, e, he, hcreate⟩ | ⟨_, hbad, _⟩
    · obtain ⟨sc, hunnamed, rfl, _⟩ := searchName_create hsearch
      obtain ⟨name', sc', hunnamed', hne⟩ := hneeds
      rw [hunnamed.unique hunnamed'] at hlba
      exact hne hlba
    · cases he
      exact createLog_noCode hgood _ _ _ _ _ _ _ s1 _ s' hcreate ⟨n, rfl⟩
    · cases hbad

theorem openSafe_iff (hv : Geometry s.ram.vol) (hroot : RootOk s.ram.vol s.card) : OpenSafe s ↔
    (NeedsClus s → clusWanted s ≤ (freeClus s.ram.vol s.card).length) := by
  constructor
  · intro hsafe hneeds
    by_contra hfew
    obtain ⟨fuel, n, s', hrun, _⟩ := hsafe.2 hneeds (by omega) Env.ideal
    exact openLog_noCode (fun _ => rfl) hv.secPerClus hneeds hrun
  · intro hroom
    refine ⟨fun env fuel r s' hrun => openLog_grown hv hroot hroom hrun, fun hneeds hfew => ?_⟩
    have := hroom hneeds
    omega

end Open

/-- The log file gets data clusters only, and a call that finds too few fails, exactly when
there are never too few. -/
theorem log_chain_safe_iff (s : Machine) (hv : Geometry s.ram.vol) :
    (LogOk s → (AppendSafe s ↔
      (s.ram.logfile.endLba ≤ s.ram.logfile.curLba → freeClus s.ram.vol s.card ≠ []))) ∧
    (RootOk s.ram.vol s.card → (OpenSafe s ↔
      (NeedsClus s → clusWanted s ≤ (freeClus s.ram.vol s.card).length))) :=
  ⟨appendSafe_iff hv, openSafe_iff hv⟩

def smallVol : Vol where
  fatLba := 10
  fatSz32 := 1
  dataLba := 11
  rootClus := 2
  partLba := 1
  totSec := 2570
  secPerClus := 128
  numFats := 1

theorem smallVol_geometry : Geometry smallVol := by decide

def usedFat (n : ℕ) : Sector := fun i => if i < 4 * n then 0xFF else 0

def blankCard (d : Sector) : ℕ → Sector := Function.update (fun _ _ => 0) 10 d

def freshDisk : Machine :=
  let s := Machine.mounted smallVol (blankCard (usedFat 3))
  { s with ram := { s.ram with
    cfg := { configDefaults with preallocCode := 0 }
    logfile := ⟨2, 139, 139, 11, 0, 0, 0, 2⟩ } }

theorem freshDisk_root : RootOk freshDisk.ram.vol freshDisk.card :=
  rootOk_single (by decide) (by decide)

theorem log_chain_safe_fresh : AppendSafe freshDisk ∧ OpenSafe freshDisk := by
  obtain ⟨happend, hopen⟩ := log_chain_safe_iff freshDisk smallVol_geometry
  refine ⟨(happend ⟨by decide, by decide⟩).mpr fun _ => ?_, (hopen freshDisk_root).mpr fun _ => ?_⟩
  · decide +kernel
  · decide +kernel

/-- A full file on a volume with no free data cluster, whose FAT is 0 behind the entry of the
last one. -/
def fullDisk : Machine :=
  let s := Machine.mounted tinyVol (blankCard (usedFat 5))
  { s with ram := { s.ram with logfile := ⟨4, 14, 14, 11, 0, 512, 512, 4⟩ } }

/-- The append takes cluster 5, the volume has clusters 2 to 4. -/
theorem append_takes_slack : ¬ AppendSafe fullDisk ∧
    ∃ s', (fat32AppendSector 8 512 512 none 0).run (fwStep Env.ideal) fullDisk = (.ok (), s') ∧
      s'.ram.logfile.lastClus = 5 ∧ ¬ IsDataClus tinyVol 5 ∧ freeClus tinyVol fullDisk.card = [] := by
  have hret : (fat32AppendSector 8 512 512 none 0).returns Env.ideal fullDisk = true := by
    decide +kernel
  obtain ⟨_, hrun⟩ := Fw.returns_run hret
  have hlast : ((fat32AppendSector 8 512 512 none 0).run (fwStep Env.ideal)
      fullDisk).2.ram.logfile.lastClus = 5 := by
    decide +kernel
  refine ⟨fun hsafe => ?_, _, hrun, hlast, by decide, by decide +kernel⟩
  have hdata := (hsafe.1 _ _ _ _ _ _ _ _ hrun).2
  rw [hlast] at hdata
  exact absurd hdata (by decide)

end Barelog
