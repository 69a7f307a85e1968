import Barelog.Proofs.SearchTotal

/-! The name of a new log file. The search takes the first number that names no file; when it runs
out of numbers it takes the last one all the same, if the scan for it has passed a deleted slot. -/

namespace Barelog

open Prog

/-- The directory has a live file entry with number `n`. -/
def Named (s : Machine) (slots : List Slot) (n : ℕ) : Prop :=
  ∃ p ∈ liveSlots s.card slots, IsFile s.card (makeLogname n) p

def Resumable (s : Machine) (slots : List Slot) (n : ℕ) : Prop :=
  ∃ p, (liveSlots s.card slots).find? (IsFile s.card (makeLogname n) ·) = some p ∧
    fileSize s.card p = preallocSize s

/-- A call that creates a file gives it the first name from `log_num` on that no file has, in a free
slot, and the number after it is saved; with no such name, and no file to resume, it returns an
error and writes nothing. -/
structure NamesLowest (env : Env) (fuel : ℕ) (s : Machine) (slots : List Slot) : Prop where
  created : ∀ s', (fat32OpenLog fuel).run (fwStep env) s = (.ok (), s') → s'.events ≠ s.events →
    ∃ n, s.ram.cfg.logNum ≤ n ∧ n < 65535 ∧ ¬ Named s slots n ∧
      (∀ k, s.ram.cfg.logNum ≤ k → k < n → Named s slots k) ∧
      (s'.ram.logfile.dirLba, s'.ram.logfile.dirOffset) ∈ slots ∧
      IsFree s.card (s'.ram.logfile.dirLba, s'.ram.logfile.dirOffset) ∧
      (∀ j, j < 11 → slotByte s'.card (s'.ram.logfile.dirLba, s'.ram.logfile.dirOffset) j =
        makeLogname n j) ∧
      s'.ram.cfg.logNum = n + 1 ∧ le16 s'.eeprom eepromOffLognum = n + 1
  exhausted : (∀ n, s.ram.cfg.logNum ≤ n → n < 65535 → Named s slots n ∧ ¬ Resumable s slots n) →
    ∃ c s', (fat32OpenLog fuel).run (fwStep env) s = (.error (.code c), s') ∧
      s'.events = s.events

/-- Some number from `log_num` on names no file or one to resume, or the last number is taken and no
deleted slot comes before its entry. -/
def NameLeft (s : Machine) (slots : List Slot) : Prop :=
  (∃ n, s.ram.cfg.logNum ≤ n ∧ n < 65535 ∧ (¬ Named s slots n ∨ Resumable s slots n)) ∨
    s.ram.cfg.logNum < 65535 ∧
      ∀ p ∈ slots.takeWhile (¬ IsFile s.card (makeLogname 65534) ·), ¬ IsFree s.card p

variable {env : Env} {s s' s1 : Machine} {l : List ℕ} {fuel n m : ℕ} {name : Name} {sc : Scan}
  {slots : List Slot}

theorem Searched.events {P nS : ℕ} {r : Except Stop NameSearch} (h : Searched s P nS r s') :
    s'.events = s.events := by
  cases h with
  | resumed _ _ _ _ _ _ _ _ _ hend => exact hend.events
  | free _ _ _ _ _ _ _ hend => exact hend.events
  | spent _ _ _ _ _ _ _ hend => exact hend.events
  | failed _ _ _ _ hend => exact hend.events

theorem ScansTo.named {b : Bool} (hl : RootChain s.ram.vol s.card l)
    (hmbr : ∀ p ∈ slotsOf s.ram.vol l, p.1 ≠ 0)
    (h : ScansTo s.ram.vol s.card (makeLogname n) b sc) :
    b = true ↔ Named s (slotsOf s.ram.vol l) n :=
  (h.flat hl hmbr).found_iff

/-- The numbers that are skipped are those of files that are not resumed. -/
theorem skips_iff (hgood : env.Good) (hl : RootChain s.ram.vol s.card l)
    (hmbr : ∀ p ∈ slotsOf s.ram.vol l, p.1 ≠ 0) :
    Skips s.ram.vol s.card (preallocSize s) s.ram.cfg.logNum m ↔
      ∀ n, s.ram.cfg.logNum ≤ n → n < m →
        Named s (slotsOf s.ram.vol l) n ∧ ¬ Resumable s (slotsOf s.ram.vol l) n := by
  constructor
  · intro h n hn hlt
    obtain ⟨sc, hscan, hsize⟩ := h n hn hlt
    refine ⟨(hscan.named hl hmbr).mp rfl, ?_⟩
    rintro ⟨p, hfind, hp⟩
    have hfound := (hscan.flat hl hmbr).found rfl
    rw [hfind] at hfound
    rw [Scan.found, ← Option.some.inj hfound] at hsize
    exact hsize hp
  · intro h n hn hlt
    obtain ⟨hnamed, hnot⟩ := h n hn hlt
    obtain ⟨b, sc, s', -, -, hto⟩ :=
      scanRootDir_returns hgood hl (Nat.lt_succ_self _) (makeLogname n)
    obtain rfl := (hto.named hl hmbr).mpr hnamed
    exact ⟨sc, hto, fun hsize => hnot ⟨_, (hto.flat hl hmbr).found rfl, hsize⟩⟩

/-- A call that returns 0 has resumed a file and written nothing, or it has created one, with a name
that is free or with the last one. -/
theorem openLog_named (hv : Geometry s.ram.vol) (hroot : RootOk s.ram.vol s.card)
    (hroom : clusWanted s ≤ (freeClus s.ram.vol s.card).length)
    (hrun : (fat32OpenLog fuel).run (fwStep env) s = (.ok (), s')) : s'.events = s.events ∨
    ∃ n name sc s2, sc.emptyLba ≠ 0 ∧ Created (s.withLogNum n) (preallocSize s) (preallocSectors s)
        (taken s (clusWanted s)) name sc.slot s2 ∧ s' = s2.counted ∧
      s.ram.cfg.logNum ≤ n ∧ Skips s.ram.vol s.card (preallocSize s) s.ram.cfg.logNum n ∧
      (n < 65535 ∧ name = makeLogname n ∧ ScansTo s.ram.vol s.card name false sc ∨
        n = 65535 ∧ name = makeLogname 65534 ∧ ScansTo s.ram.vol s.card name true sc) := by
  rcases openLog_ended hv hroot hroom hrun with
    hsearch | ⟨name, sc, s1, s2, hsearch, -, hlba, h, hs'⟩
  · exact .inl (searchName_cases hsearch).events
  right
  have hcases := searchName_cases hsearch
  generalize hr : (Except.ok (NameSearch.create name sc.slot.1 sc.slot.2) :
    Except Stop NameSearch) = r at hcases
  cases hcases with
  | resumed => cases hr
  | free n sc' _ hn hskips hle hscan hend =>
    obtain ⟨rfl, hlba', hoff'⟩ : name = makeLogname n ∧ sc.emptyLba = sc'.emptyLba ∧
        sc.emptyOff = sc'.emptyOff := by simpa [Scan.slot] using hr
    have hslot : sc.slot = sc'.slot := Prod.ext hlba' hoff'
    rw [hslot] at h
    exact ⟨n, _, sc', s2, hlba' ▸ hlba, h.scratch hend, hs', hle, hskips, .inl ⟨hn, rfl, hscan⟩⟩
  | spent n sc' _ hn hskips hle hscan hend =>
    subst hn
    obtain ⟨rfl, hlba', hoff'⟩ : name = makeLogname (65535 - 1) ∧ sc.emptyLba = sc'.emptyLba ∧
        sc.emptyOff = sc'.emptyOff := by simpa [Scan.slot] using hr
    have hslot : sc.slot = sc'.slot := Prod.ext hlba' hoff'
    rw [hslot] at h
    exact ⟨65535, _, sc', s2, hlba' ▸ hlba, h.scratch hend, hs', hle, hskips,
      .inr ⟨rfl, rfl, hscan⟩⟩
  | failed => cases hr

/-- With `log_num` at its limit the name is read before it is set. -/
theorem openLog_undef (hv : Geometry s.ram.vol) (hnum : 65535 ≤ s.ram.cfg.logNum) :
    (fat32OpenLog fuel).run (fwStep env) s = (.error .undef, s) := by
  have hsearch : (searchName fuel s).run (fwStep env) s = (.error .undef, s) := by
    unfold searchName nameLoop
    rw [getRam_bind, if_neg (not_lt.mpr hnum)]
    rfl
  rcases hrun : (fat32OpenLog fuel).run (fwStep env) s with ⟨r, s'⟩
  rcases openLog_cases hv.secPerClus hrun with ⟨e, rfl, he⟩ | ⟨_, hbad⟩ | ⟨_, _, _, hbad, _⟩
  · obtain ⟨rfl, rfl⟩ : Stop.undef = e ∧ s = s' := by simpa using hsearch.symm.trans he
    rfl
  · cases hsearch.symm.trans hbad
  · cases hsearch.symm.trans hbad

/-- A call with no name left and a deleted slot before the last one creates a file. -/
theorem NamesLowest.left (hgood : env.Good) (hv : Geometry s.ram.vol)
    (hroot : RootOk s.ram.vol s.card) (hl : RootChain s.ram.vol s.card l) (hfuel : l.length < fuel)
    (hclus : clusCount s.ram.vol < fuel)
    (hroom : clusWanted s ≤ (freeClus s.ram.vol s.card).length)
    (h : NamesLowest env fuel s (slotsOf s.ram.vol l)) : NameLeft s (slotsOf s.ram.vol l) := by
  have hmbr := hl.ne_zero hv hroot
  by_contra hleft
  rw [NameLeft, not_or] at hleft
  obtain ⟨hnone, hdel⟩ := hleft
  have hall : ∀ n, s.ram.cfg.logNum ≤ n → n < 65535 →
      Named s (slotsOf s.ram.vol l) n ∧ ¬ Resumable s (slotsOf s.ram.vol l) n := by
    intro n hn hlt
    by_contra hnot
    rw [not_and_or, not_not] at hnot
    exact hnone ⟨n, hn, hlt, hnot⟩
  obtain ⟨c, s', hrun, -⟩ := h.exhausted hall
  by_cases hnum : s.ram.cfg.logNum < 65535
  · have hskips := (skips_iff hgood hl hmbr).mpr hall
    obtain ⟨sc, hscan, -⟩ := hskips 65534 (by omega) (by decide)
    have hlba : sc.emptyLba ≠ 0 := fun hzero => hdel ⟨hnum, (hscan.empty_iff hl hmbr).mp hzero⟩
    have hneeds : NeedsClus s := ⟨_, sc, .inr ⟨hnum, hskips, rfl, hscan⟩, hlba⟩
    obtain ⟨s1, hrun1⟩ := openLog_returns hgood hv hroot hl hfuel hroom hclus hneeds
    cases hrun.symm.trans hrun1
  · cases hrun.symm.trans (openLog_undef hv (not_lt.mp hnum))

theorem savedConfig_logNum (c : Config) (eeprom : ℕ → Byte) :
    le16 (savedConfig c eeprom) eepromOffLognum = c.logNum % 2 ^ 16 :=
  le16_of_bytes (n := c.logNum) (savedConfig_low c eeprom (by decide))
    (savedConfig_low c eeprom (by decide))

theorem NameLeft.lowest (hgood : env.Good) (hv : Geometry s.ram.vol)
    (hroot : RootOk s.ram.vol s.card) (hl : RootChain s.ram.vol s.card l) (hfuel : l.length < fuel)
    (hroom : clusWanted s ≤ (freeClus s.ram.vol s.card).length)
    (h : NameLeft s (slotsOf s.ram.vol l)) : NamesLowest env fuel s (slotsOf s.ram.vol l) := by
  have hmbr := hl.ne_zero hv hroot
  constructor
  · intro s' hrun hwrote
    obtain ⟨n, name, sc, s2, hlba, hcreated, rfl, hle, hskips, hend⟩ :=
      (openLog_named hv hroot hroom hrun).resolve_left hwrote
    have hnamed := (skips_iff hgood hl hmbr).mp hskips
    rcases hend with ⟨hn, rfl, hscan⟩ | ⟨rfl, rfl, hscan⟩
    · have hflat := hscan.flat hl hmbr
      have hfind : (slotsOf s.ram.vol l).find? (IsFree s.card ·) = some sc.slot :=
        hflat.empty rfl hlba
      have hfree : IsFree s.card sc.slot := by simpa using List.find?_some hfind
      have hmem : sc.slot ∈ slotsOf s.ram.vol l := List.mem_of_find?_eq_some hfind
      have hlog : (s2.counted.ram.logfile.dirLba, s2.counted.ram.logfile.dirOffset) = sc.slot := by
        rw [Machine.counted, hcreated.ram]
        rfl
      have hnum : s2.counted.ram.cfg.logNum = n + 1 := by
        rw [Machine.counted, hcreated.ram]
        exact Nat.mod_eq_of_lt (show n + 1 < 2 ^ 16 by omega)
      rw [hlog]
      refine ⟨n, hle, hn, fun hbad => ?_, fun k hk hkn => (hnamed k hk hkn).1, hmem, hfree, ?_, hnum,
        ?_⟩
      · exact Bool.false_ne_true ((hscan.named hl hmbr).mpr hbad)
      · intro j hj
        obtain ⟨_, k, -, -, -, hk, hoff⟩ := hl.place hv hroot hmem
        obtain ⟨d, hd, -⟩ := hcreated.slot
        change (s2.card sc.slot.1).byte (sc.slot.2 + j) = _
        rw [hd, byte_withEntry _ _ _ (by omega), stored, if_pos (by omega), Nat.add_sub_cancel_left,
          entryByte, if_pos hj]
      · have hsaved := savedConfig_logNum s2.counted.ram.cfg s2.eeprom
        rw [hnum, Nat.mod_eq_of_lt (show n + 1 < 2 ^ 16 by omega)] at hsaved
        exact hsaved
    · -- the last name was taken: no deleted slot comes before its entry
      rcases h with ⟨k, hk, hlt, hk'⟩ | ⟨_, hnone⟩
      · obtain ⟨h1, h2⟩ := hnamed k hk hlt
        exact (hk'.elim (fun h => h h1) h2).elim
      · exact absurd ((hscan.empty_iff hl hmbr).mpr hnone) hlba
  · intro hall
    rcases h with ⟨n, hn, hlt, hn'⟩ | ⟨hnum, hnone⟩
    · obtain ⟨h1, h2⟩ := hall n hn hlt
      exact (hn'.elim (fun h => h h1) h2).elim
    · have hskips := (skips_iff hgood hl hmbr).mpr hall
      obtain ⟨sc, hscan, -⟩ := hskips 65534 (by omega) (by decide)
      have hlba := (hscan.empty_iff hl hmbr).mpr hnone
      obtain ⟨s1, hsearch⟩ :=
        searchName_returns hgood hl hfuel (.inr ⟨hnum, hskips, rfl, hscan⟩)
      rcases hrun : (fat32OpenLog fuel).run (fwStep env) s with ⟨r, s'⟩
      rcases openLog_cases hv.secPerClus hrun with ⟨_, _, hbad⟩ | ⟨_, hbad⟩ |
        ⟨name, p, s2, hcreate, hend⟩
      · cases hsearch.symm.trans hbad
      · cases hsearch.symm.trans hbad
      · obtain ⟨⟨rfl, hp, -⟩, rfl⟩ : (makeLogname 65534 = name ∧ sc.emptyLba = p.1 ∧
            sc.emptyOff = p.2) ∧ s1 = s2 := by simpa using hsearch.symm.trans hcreate
        rcases hend with ⟨_, rfl, rfl⟩ | ⟨hne, _⟩ | ⟨hne, _⟩
        · exact ⟨_, _, rfl, (searchName_cases hsearch).events⟩
        · exact absurd (hp.symm.trans hlba) hne
        · exact absurd (hp.symm.trans hlba) hne

/-- A new log file gets the lowest free name, and a call with no name left fails without a trace,
exactly when there is a name left, or the last one is taken and no deleted slot comes before its
entry. -/
theorem names_lowest_iff (env : Env) (hgood : env.Good) (fuel : ℕ) (s : Machine) (l : List ℕ)
    (hv : Geometry s.ram.vol) (hroot : RootOk s.ram.vol s.card)
    (hl : RootChain s.ram.vol s.card l)
    (hroom : clusWanted s ≤ (freeClus s.ram.vol s.card).length) (hfuel : l.length < fuel)
    (hclus : clusCount s.ram.vol < fuel) :
    NamesLowest env fuel s (slotsOf s.ram.vol l) ↔ NameLeft s (slotsOf s.ram.vol l) :=
  ⟨fun h => h.left hgood hv hroot hl hfuel hclus hroom,
    fun h => h.lowest hgood hv hroot hl hfuel hroom⟩

/-- The first name is taken. -/
theorem names_lowest_second :
    NamesLowest Env.ideal 64 listedDisk (slotsOf listedDisk.ram.vol [2]) := by
  have hroom : clusWanted listedDisk ≤ (freeClus listedDisk.ram.vol listedDisk.card).length := by
    decide +kernel
  refine (names_lowest_iff Env.ideal (fun _ => rfl) 64 listedDisk [2] smallVol_geometry
    listedDisk_root listedDisk_chain hroom (by decide) (by decide)).mpr ?_
  refine .inl ⟨listedDisk.ram.cfg.logNum + 1, Nat.le_succ _, by decide, .inl ?_⟩
  rintro ⟨p, hp, hfile⟩
  rw [listedDisk_live, List.mem_singleton] at hp
  subst hp
  exact absurd hfile (by decide +kernel)

/-- A directory with a deleted entry and, behind it, an empty file with the last name. -/
def lastNameSector : Sector := fun i =>
  if i = 0 then 0xE5 else if 32 ≤ (i : ℕ) ∧ (i : ℕ) < 43 then makeLogname 65534 (i - 32) else 0

/-- A fresh disk with that directory, and the last number for the next file. -/
def lastNameDisk : Machine :=
  { freshDisk with
    card := Function.update freshDisk.card 11 lastNameSector
    ram := { freshDisk.ram with cfg := { freshDisk.ram.cfg with logNum := 65534 } } }

theorem lastNameDisk_slots : ∃ rest,
    slotsOf lastNameDisk.ram.vol [2] = (11, 0) :: (11, 32) :: rest := ⟨_, rfl⟩

theorem lastNameDisk_chain : RootChain lastNameDisk.ram.vol lastNameDisk.card [2] where
  head := rfl
  link := by decide
  linked := Links.linked_singleton _ _
  ends := by decide

theorem lastNameDisk_root : RootOk lastNameDisk.ram.vol lastNameDisk.card :=
  rootOk_single (by decide) (by decide)

/-- The deleted entry becomes a second file with the last name. -/
theorem names_lowest_duplicate :
    ¬ NamesLowest Env.ideal 64 lastNameDisk (slotsOf lastNameDisk.ram.vol [2]) := by
  intro h
  have hleft := h.left (fun _ => rfl : Env.ideal.Good) smallVol_geometry lastNameDisk_root
    lastNameDisk_chain (by decide) (by decide) (by decide +kernel)
  obtain ⟨rest, hslots⟩ := lastNameDisk_slots
  rw [hslots] at hleft
  have hfirst : ¬ IsFile lastNameDisk.card (makeLogname 65534) (11, 0) := by decide +kernel
  have hfile : IsFile lastNameDisk.card (makeLogname 65534) (11, 32) := by decide +kernel
  have hlive : liveSlots lastNameDisk.card ((11, 0) :: (11, 32) :: rest) =
      (11, 0) :: (11, 32) :: liveSlots lastNameDisk.card rest := by
    rw [liveSlots_cons (by decide +kernel), liveSlots_cons (by decide +kernel)]
  rcases hleft with ⟨n, hn, hlt, hnot⟩ | ⟨-, hnone⟩
  · obtain rfl : n = 65534 := Nat.le_antisymm (by omega) hn
    rcases hnot with hnot | ⟨p, hfind, hsize⟩
    · refine hnot ⟨(11, 32), ?_, hfile⟩
      rw [hlive]
      simp
    · rw [hlive, List.find?_cons_of_neg (by simpa using hfirst),
        List.find?_cons_of_pos (by simpa using hfile)] at hfind
      rw [← Option.some.inj hfind] at hsize
      exact absurd hsize (by decide +kernel)
  · refine hnone (11, 0) ?_ (by decide +kernel)
    rw [List.takeWhile_cons_of_pos (by simpa using hfirst)]
    exact List.mem_cons_self

end Barelog
