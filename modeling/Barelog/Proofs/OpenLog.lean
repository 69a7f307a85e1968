import Barelog.Proofs.ConfigSave
import Barelog.Proofs.Create

/-! `fat32_open_log` as a whole: the search for a name, then nothing more, a failure, or the
creation of a file and the new configuration. -/

namespace Barelog

open Prog

variable {env : Env} {s s' s1 : Machine} {v : Vol} {disk : ℕ → Sector}

def preallocSize (s : Machine) : ℕ := configPreallocBytes s.ram.cfg.preallocCode

/-- `n_sectors` -/
def preallocSectors (s : Machine) : ℕ := preallocSize s / 512

def searchName (fuel : ℕ) (s : Machine) : Fw NameSearch :=
  nameLoop fuel (preallocSize s) (preallocSectors s) 65536 none

def createFile (fuel : ℕ) (s : Machine) (name : Name) (p : Slot) : Fw Unit :=
  createLog fuel (preallocSize s) (preallocSectors s) (clusNeeded s.ram.vol (preallocSectors s))
    name p.1 p.2

/-- `cfg->log_num++; config_save(cfg);` -/
def Machine.counted (s : Machine) : Machine :=
  let cfg := { s.ram.cfg with logNum := (s.ram.cfg.logNum + 1) % 2 ^ 16 }
  { s with ram := { s.ram with cfg := cfg }, eeprom := savedConfig cfg s.eeprom }

theorem prealloc_bounds (code : ℕ) : 2048 ≤ configPreallocBytes code / 512 ∧
    configPreallocBytes code / 512 ≤ 65536 ∧
    configPreallocBytes code = 512 * (configPreallocBytes code / 512) := by
  unfold configPreallocBytes
  split <;> decide

theorem preallocSectors_pos (s : Machine) : 0 < preallocSectors s :=
  lt_of_lt_of_le (by decide) (prealloc_bounds _).1

theorem preallocSectors_lt (s : Machine) : preallocSectors s < 2 ^ 32 :=
  lt_of_le_of_lt (prealloc_bounds _).2.1 (by decide)

theorem clusNeeded_pos (hspc : 1 ≤ v.secPerClus) {n : ℕ} (hn : 0 < n) : 0 < clusNeeded v n :=
  Nat.div_pos (by omega) hspc

theorem openLog_no_spc (h : s.ram.vol.secPerClus = 0) (env : Env) (fuel : ℕ) :
    (fat32OpenLog fuel).run (fwStep env) s = (.error .undef, s) := by
  rw [fat32OpenLog, getRam_bind, doIf, if_pos h]
  rfl

theorem openLog_spc {fuel : ℕ} (hrun : (fat32OpenLog fuel).run (fwStep env) s = (.ok (), s')) :
    1 ≤ s.ram.vol.secPerClus := by
  by_contra hzero
  rw [openLog_no_spc (by omega)] at hrun
  cases hrun

theorem openLog_cases {fuel : ℕ} {r : Except Stop Unit} (hspc : 1 ≤ s.ram.vol.secPerClus)
    (hrun : (fat32OpenLog fuel).run (fwStep env) s = (r, s')) :
    (∃ e, r = .error e ∧ (searchName fuel s).run (fwStep env) s = (.error e, s')) ∨
    (r = .ok () ∧ (searchName fuel s).run (fwStep env) s = (.ok .resumed, s')) ∨
    ∃ name p s1, (searchName fuel s).run (fwStep env) s = (.ok (.create name p.1 p.2), s1) ∧
      ((p.1 = 0 ∧ r = .error (.code (-1)) ∧ s' = s1) ∨
       (p.1 ≠ 0 ∧ ∃ e, r = .error e ∧ (createFile fuel s name p).run (fwStep env) s1 = (.error e, s')) ∨
       (p.1 ≠ 0 ∧ r = .ok () ∧ ∃ s2, (createFile fuel s name p).run (fwStep env) s1 = (.ok (), s2) ∧
          s' = s2.counted)) := by
  rw [fat32OpenLog, getRam_bind, doIf, if_neg (by omega), pure_bind] at hrun
  rcases bind_ended hrun with ⟨found, s1, hsearch, hrest⟩ | ⟨e, hsearch, rfl⟩
  swap
  · exact .inl ⟨e, rfl, hsearch⟩
  cases found with
  | resumed =>
    cases hrest
    exact .inr (.inl ⟨rfl, hsearch⟩)
  | create name lba off =>
    refine .inr (.inr ⟨name, (lba, off), s1, hsearch, ?_⟩)
    dsimp only at hrest
    by_cases hlba : lba = 0
    · rw [doIf, if_pos hlba] at hrest
      cases hrest
      exact .inl ⟨hlba, rfl, rfl⟩
    · rw [doIf, if_neg hlba, pure_bind] at hrest
      right
      rcases bind_ended hrest with ⟨_, s2, hcreate, hsave⟩ | ⟨e, hcreate, rfl⟩
      · rw [getRam_bind, run_bind_ok (setCfg_run _ _ _), configSave_run] at hsave
        cases hsave
        exact .inr ⟨hlba, rfl, s2, hcreate, rfl⟩
      · exact .inl ⟨hlba, e, rfl, hcreate⟩

theorem openLog_created {fuel : ℕ} {name : Name} {p : Slot} {s2 : Machine}
    (hspc : 1 ≤ s.ram.vol.secPerClus)
    (hsearch : (searchName fuel s).run (fwStep env) s = (.ok (.create name p.1 p.2), s1))
    (hp : p.1 ≠ 0) (hcreate : (createFile fuel s name p).run (fwStep env) s1 = (.ok (), s2)) :
    (fat32OpenLog fuel).run (fwStep env) s = (.ok (), s2.counted) := by
  unfold searchName preallocSectors preallocSize at hsearch
  unfold createFile preallocSectors preallocSize at hcreate
  rw [fat32OpenLog, getRam_bind, doIf, if_neg (by omega), pure_bind, run_bind_ok hsearch]
  dsimp only
  rw [doIf, if_neg hp, pure_bind, run_bind_ok hcreate, getRam_bind,
    run_bind_ok (setCfg_run _ _ _), configSave_run]
  rfl

/-! What the search finds is a function of the directory. -/

/-- The search ends with a name to create and the directory scan `sc`. -/
def Unnamed (s : Machine) (name : Name) (sc : Scan) : Prop :=
  (∃ m, m < 65535 ∧ s.ram.cfg.logNum ≤ m ∧
    Skips s.ram.vol s.card (preallocSize s) s.ram.cfg.logNum m ∧ name = makeLogname m ∧
    ScansTo s.ram.vol s.card name false sc) ∨
  s.ram.cfg.logNum < 65535 ∧ Skips s.ram.vol s.card (preallocSize s) s.ram.cfg.logNum 65535 ∧
    name = makeLogname 65534 ∧ ScansTo s.ram.vol s.card name true sc

/-- The call needs clusters: the search ends with a name and with a slot for it. -/
def NeedsClus (s : Machine) : Prop := ∃ name sc, Unnamed s name sc ∧ sc.emptyLba ≠ 0

theorem Unnamed.unique {name name' : Name} {sc sc' : Scan} (h : Unnamed s name sc)
    (h' : Unnamed s name' sc') : sc = sc' := by
  have hfree : ∀ {m n sc sc'}, m < n → s.ram.cfg.logNum ≤ m →
      Skips s.ram.vol s.card (preallocSize s) s.ram.cfg.logNum n →
      ScansTo s.ram.vol s.card (makeLogname m) false sc → sc = sc' := by
    intro m n sc sc' hlt hle hskips hscan
    obtain ⟨sc1, hfound, _⟩ := hskips m hle hlt
    cases (hscan.unique hfound).1
  rcases h with ⟨m, hm, hle, hskips, rfl, hscan⟩ | ⟨hlt, hskips, rfl, hscan⟩
  · rcases h' with ⟨m', hm', hle', hskips', rfl, hscan'⟩ | ⟨hlt', hskips', rfl, hscan'⟩
    · rcases Nat.lt_trichotomy m m' with hlt | rfl | hlt
      · exact hfree hlt hle hskips' hscan
      · exact (hscan.unique hscan').2
      · exact (hfree hlt hle' hskips hscan').symm
    · exact hfree hm hle hskips' hscan
  · rcases h' with ⟨m', hm', hle', hskips', rfl, hscan'⟩ | ⟨hlt', hskips', rfl, hscan'⟩
    · exact (hfree hm' hle' hskips hscan').symm
    · exact (hscan.unique hscan').2

/-- A resumed file has a name before any name that is free. -/
theorem Unnamed.not_resumed {name : Name} {sc sc' : Scan} {m : ℕ} (h : Unnamed s name sc)
    (hm : m < 65535) (hle : s.ram.cfg.logNum ≤ m)
    (hskips : Skips s.ram.vol s.card (preallocSize s) s.ram.cfg.logNum m)
    (hscan : ScansTo s.ram.vol s.card (makeLogname m) true sc')
    (hsize : fileSize s.card sc'.found = preallocSize s) : False := by
  have hskipped : ∀ n, m < n → ¬ Skips s.ram.vol s.card (preallocSize s) s.ram.cfg.logNum n := by
    intro n hlt hn
    obtain ⟨sc1, hfound, hne⟩ := hn m hle hlt
    rw [(hfound.unique hscan).2] at hne
    exact hne hsize
  rcases h with ⟨n, _, hnle, hnskips, rfl, hnscan⟩ | ⟨_, hnskips, _⟩
  · rcases Nat.lt_trichotomy m n with hlt | rfl | hlt
    · exact hskipped n hlt hnskips
    · cases (hscan.unique hnscan).1
    · obtain ⟨sc1, hfound, _⟩ := hskips n hnle hlt
      cases (hfound.unique hnscan).1
  · exact hskipped _ hm hnskips

theorem searchName_cases {fuel : ℕ} {r : Except Stop NameSearch}
    (hrun : (searchName fuel s).run (fwStep env) s = (r, s')) :
    Searched s (preallocSize s) (preallocSectors s) r s' :=
  nameLoop_cases (fun _ _ h => by cases h) hrun

/-- A search that returns a name has scanned the directory for it. -/
theorem searchName_create {fuel : ℕ} {name : Name} {p : Slot}
    (hrun : (searchName fuel s).run (fwStep env) s = (.ok (.create name p.1 p.2), s1)) :
    ∃ sc, Unnamed s name sc ∧ sc.slot = p ∧ ∃ m, Scratch (s.withLogNum m) s1 ∧
      s.ram.cfg.logNum ≤ m ∧ (m < 65535 → name = makeLogname m) ∧ m ≤ 65535 := by
  by_cases hlt : s.ram.cfg.logNum < 65535
  · have hcases := searchName_cases hrun
    obtain ⟨lba, off⟩ := p
    generalize hr : (Except.ok (NameSearch.create name lba off) : Except Stop NameSearch) = r at hcases
    cases hcases with
    | resumed => cases hr
    | free m sc _ hm hskips hle hscan hend =>
      cases hr
      exact ⟨sc, .inl ⟨m, hm, hle, hskips, rfl, hscan⟩, rfl, m, hend, hle, fun _ => rfl, hm.le⟩
    | spent m sc _ hm hskips hle hscan hend =>
      cases hr
      subst hm
      exact ⟨sc, .inr ⟨hlt, hskips, rfl, hscan⟩, rfl, _, hend, hle, fun h => absurd h (by decide),
        le_rfl⟩
    | failed => cases hr
  · unfold searchName nameLoop at hrun
    rw [getRam_bind, if_neg hlt] at hrun
    cases hrun

theorem Searched.vol {P nS : ℕ} {r : Except Stop NameSearch} (h : Searched s P nS r s') :
    s'.ram.vol = s.ram.vol ∧ s'.card = s.card := by
  cases h with
  | resumed _ _ _ _ _ _ _ _ _ hend => exact ⟨by rw [hend.ram]; rfl, hend.card⟩
  | free _ _ _ _ _ _ _ hend => exact ⟨by rw [hend.ram]; rfl, hend.card⟩
  | spent _ _ _ _ _ _ _ hend => exact ⟨by rw [hend.ram]; rfl, hend.card⟩
  | failed _ _ _ hvol hend => exact ⟨by rw [hend.ram]; exact hvol, hend.card⟩

/-- A search for a file that needs clusters does not end with a resumption. -/
theorem NeedsClus.not_resumed {fuel : ℕ} (hneeds : NeedsClus s)
    (hrun : (searchName fuel s).run (fwStep env) s = (.ok .resumed, s')) : False := by
  obtain ⟨name, sc, hunnamed, _⟩ := hneeds
  have hcases := searchName_cases hrun
  generalize hr : (Except.ok NameSearch.resumed : Except Stop NameSearch) = r at hcases
  cases hcases with
  | resumed m sc' _ _ hm hskips hle hscan hsize _ =>
    exact hunnamed.not_resumed hm hle hskips hscan hsize
  | free => cases hr
  | spent => cases hr
  | failed => cases hr

theorem Unnamed.slot (hv : Geometry s.ram.vol) (hroot : RootOk s.ram.vol s.card) {name : Name}
    {sc : Scan} (h : Unnamed s name sc) (hlba : sc.emptyLba ≠ 0) :
    s.ram.vol.dataLba ≤ sc.emptyLba ∧ sc.emptyOff + 32 ≤ 512 := by
  obtain ⟨b, hscan⟩ : ∃ b, ScansTo s.ram.vol s.card name b sc := by
    rcases h with ⟨_, _, _, _, _, hscan⟩ | ⟨_, _, _, hscan⟩
    · exact ⟨_, hscan⟩
    · exact ⟨_, hscan⟩
  obtain ⟨hslot, _⟩ := hscan.sound.2.resolve_left hlba
  obtain ⟨c, k, hc, hlo, _, hk, hoff⟩ := hslot.place hv hroot
  have := hv.dataLba_le (hroot c hc)
  dsimp only at hlo hoff
  omega

def clusWanted (s : Machine) : ℕ := clusNeeded s.ram.vol (preallocSectors s)

/-- The creation after the search, with free data clusters enough. -/
theorem createFile_cases {fuel : ℕ} {name : Name} {sc : Scan} {r : Except Stop Unit}
    (hv : Geometry s.ram.vol) (hroot : RootOk s.ram.vol s.card)
    (hroom : clusWanted s ≤ (freeClus s.ram.vol s.card).length)
    (hunnamed : Unnamed s name sc) (hlba : sc.emptyLba ≠ 0)
    (hvol : s1.ram.vol = s.ram.vol) (hcard : s1.card = s.card)
    (hrun : (createFile fuel s name sc.slot).run (fwStep env) s1 = (r, s')) :
    (r = .ok () ∧ Created s1 (preallocSize s) (preallocSectors s) (taken s1 (clusWanted s)) name
        sc.slot s') ∨
      ∃ e, r = .error e ∧ ((∃ n, e = .code n) ∨ e = .hang ∧ fuel ≤ clusCount s.ram.vol) ∧
        Grown s.ram.vol (fatTable s.ram.vol s.card) (fatTable s.ram.vol s'.card) := by
  obtain ⟨hdata, hoff⟩ := hunnamed.slot hv hroot hlba
  have hwant := clusNeeded_pos hv.secPerClus (preallocSectors_pos s)
  rw [← hvol] at hv hdata
  rw [← hvol, ← hcard] at hroom
  have hcases := createLog_cases hv hroom hwant (preallocSectors_pos s) (preallocSectors_lt s)
    hdata hoff hrun
  rwa [hvol, hcard] at hcases

theorem Created.scratch {P nS : ℕ} {l : List ℕ} {name : Name} {p : Slot} (hs : Scratch s s1)
    (h : Created s1 P nS l name p s') : Created s P nS l name p s' := by
  obtain ⟨_, _, _, _, rfl⟩ := hs
  exact ⟨h.ram, h.eeprom, h.chain, h.events, h.outside, h.slot⟩

/-- A call that returns 0 has resumed a file or created one. -/
theorem openLog_ended {fuel : ℕ} (hv : Geometry s.ram.vol) (hroot : RootOk s.ram.vol s.card)
    (hroom : clusWanted s ≤ (freeClus s.ram.vol s.card).length)
    (hrun : (fat32OpenLog fuel).run (fwStep env) s = (.ok (), s')) :
    (searchName fuel s).run (fwStep env) s = (.ok .resumed, s') ∨
      ∃ name sc s1 s2, (searchName fuel s).run (fwStep env) s =
          (.ok (.create name sc.slot.1 sc.slot.2), s1) ∧ Unnamed s name sc ∧ sc.emptyLba ≠ 0 ∧
        Created s1 (preallocSize s) (preallocSectors s) (taken s (clusWanted s)) name sc.slot s2 ∧
        s' = s2.counted := by
  rcases openLog_cases hv.secPerClus hrun with ⟨_, hbad, _⟩ | ⟨_, hsearch⟩ |
    ⟨name, p, s1, hsearch, ⟨_, hbad, _⟩ | ⟨_, _, hbad, _⟩ | ⟨hlba, _, s2, hcreate, hs'⟩⟩
  · cases hbad
  · exact .inl hsearch
  · cases hbad
  · cases hbad
  obtain ⟨sc, hunnamed, rfl, -⟩ := searchName_create hsearch
  obtain ⟨hvol, hcard⟩ := (searchName_cases hsearch).vol
  rcases createFile_cases hv hroot hroom hunnamed hlba hvol hcard hcreate with ⟨_, h⟩ | ⟨_, hbad, _⟩
  swap
  · cases hbad
  rw [taken, hvol, hcard] at h
  exact .inr ⟨name, sc, s1, s2, hsearch, hunnamed, hlba, h, hs'⟩

/-- A call that needs clusters and returns 0 has created a file. -/
theorem openLog_new {fuel : ℕ} (hv : Geometry s.ram.vol) (hroot : RootOk s.ram.vol s.card)
    (hneeds : NeedsClus s) (hroom : clusWanted s ≤ (freeClus s.ram.vol s.card).length)
    (hrun : (fat32OpenLog fuel).run (fwStep env) s = (.ok (), s')) :
    ∃ name sc m s2, Unnamed s name sc ∧ sc.emptyLba ≠ 0 ∧
      s.ram.cfg.logNum ≤ m ∧ m ≤ 65535 ∧ (m < 65535 → name = makeLogname m) ∧
      Created (s.withLogNum m) (preallocSize s) (preallocSectors s) (taken s (clusWanted s)) name
        sc.slot s2 ∧ s' = s2.counted := by
  rcases openLog_ended hv hroot hroom hrun with
    hsearch | ⟨name, sc, s1, s2, hsearch, hunnamed, hlba, h, hs'⟩
  · exact (hneeds.not_resumed hsearch).elim
  · obtain ⟨-, -, -, m, hscratch, hle, hname, hm⟩ := searchName_create hsearch
    exact ⟨name, sc, m, s2, hunnamed, hlba, hle, hm, hname, h.scratch hscratch, hs'⟩

/-- A call leaves the card as it is, or has come to the creation of a file, from the same card. -/
theorem openLog_parts {fuel : ℕ} {r : Except Stop Unit} (hspc : 1 ≤ s.ram.vol.secPerClus)
    (hrun : (fat32OpenLog fuel).run (fwStep env) s = (r, s')) :
    s'.card = s.card ∨ ∃ name sc t r' t', Unnamed s name sc ∧ sc.emptyLba ≠ 0 ∧
      t.ram.vol = s.ram.vol ∧ t.card = s.card ∧
      (createFile fuel s name sc.slot).run (fwStep env) t = (r', t') ∧ s'.card = t'.card ∧
      (r = .ok () → r' = .ok ()) := by
  rcases openLog_cases hspc hrun with
    ⟨_, _, hsearch⟩ | ⟨_, hsearch⟩ | ⟨name, p, t, hsearch, ⟨_, _, rfl⟩ | ⟨hlba, e, rfl, hcreate⟩ |
      ⟨hlba, _, t2, hcreate, rfl⟩⟩
  · exact .inl (searchName_cases hsearch).vol.2
  · exact .inl (searchName_cases hsearch).vol.2
  · exact .inl (searchName_cases hsearch).vol.2
  · obtain ⟨sc, hunnamed, rfl, _⟩ := searchName_create hsearch
    obtain ⟨hvol, hcard⟩ := (searchName_cases hsearch).vol
    exact .inr ⟨name, sc, t, _, s', hunnamed, hlba, hvol, hcard, hcreate, rfl, nofun⟩
  · obtain ⟨sc, hunnamed, rfl, _⟩ := searchName_create hsearch
    obtain ⟨hvol, hcard⟩ := (searchName_cases hsearch).vol
    exact .inr ⟨name, sc, t, _, t2, hunnamed, hlba, hvol, hcard, hcreate, rfl, fun _ => rfl⟩

end Barelog
