import Barelog.Proofs.RootDir

/-! The search of `fat32_open_log` for a log file to resume or a name to create. It reads the
card only, and it stops at the first name that is free or that has a file of the
pre-allocated size. -/

namespace Barelog

open Prog

def recovery (eeprom : ℕ → Byte) : ℕ := le32 eeprom eepromOffRecLo

def firstClusOf (card : ℕ → Sector) (p : Slot) : ℕ :=
  le16 (slotByte card p) deFstClusHi * 2 ^ 16 + le16 (slotByte card p) deFstClusLo

def Scan.found (sc : Scan) : Slot := (sc.foundLba, sc.foundOff)

def Scan.slot (sc : Scan) : Slot := (sc.emptyLba, sc.emptyOff)

/-- The log file as the resume path sets it up from the entry in slot `p`. -/
def resumedLog (s : Machine) (preallocSz nSectors : ℕ) (p : Slot) (last : ℕ) : Logfile where
  firstClus := firstClusOf s.card p
  curLba := u32 (clusToLba s.ram.vol (firstClusOf s.card p) + recovery s.eeprom / 512)
  endLba := u32 (clusToLba s.ram.vol (firstClusOf s.card p) + nSectors)
  dirLba := p.1
  dirOffset := p.2
  bytesWritten := recovery s.eeprom
  preallocSize := preallocSz
  lastClus := last

/-- The first cluster of the file, as the resume path reads it from the buffer. -/
def resumeFirst (s : Machine) (sc : Scan) : ℕ :=
  le16 s.ring (sc.foundOff + deFstClusHi) * 2 ^ 16 + le16 s.ring (sc.foundOff + deFstClusLo)

def walkingLog (s : Machine) (preallocSz nSectors : ℕ) (sc : Scan) : Logfile where
  firstClus := resumeFirst s sc
  curLba := u32 (clusToLba s.ram.vol (resumeFirst s sc) + recovery s.eeprom / 512)
  endLba := u32 (clusToLba s.ram.vol (resumeFirst s sc) + nSectors)
  dirLba := sc.foundLba
  dirOffset := sc.foundOff
  bytesWritten := recovery s.eeprom
  preallocSize := preallocSz
  lastClus := s.ram.logfile.lastClus

def Machine.withLogNum (s : Machine) (m : ℕ) : Machine :=
  { s with ram := { s.ram with cfg := { s.ram.cfg with logNum := m } } }

def Machine.withLogfile (s : Machine) (l : Logfile) : Machine :=
  { s with ram := { s.ram with logfile := l } }

/-- The names from number `a` up to `m` have files, of another size than `preallocSz`. -/
def Skips (v : Vol) (card : ℕ → Sector) (preallocSz a m : ℕ) : Prop :=
  ∀ k, a ≤ k → k < m → ∃ sc, ScansTo v card (makeLogname k) true sc ∧
    fileSize card sc.found ≠ preallocSz

inductive Searched (s : Machine) (preallocSz nSectors : ℕ) :
    Except Stop NameSearch → Machine → Prop
  | resumed (m : ℕ) (sc : Scan) (last : ℕ) (s' : Machine) (hm : m < 65535)
      (hskips : Skips s.ram.vol s.card preallocSz s.ram.cfg.logNum m) (hle : s.ram.cfg.logNum ≤ m)
      (hscan : ScansTo s.ram.vol s.card (makeLogname m) true sc)
      (hsize : fileSize s.card sc.found = preallocSz)
      (hend : Scratch ((s.withLogNum m).withLogfile
        (resumedLog s preallocSz nSectors sc.found last)) s') :
      Searched s preallocSz nSectors (.ok .resumed) s'
  | free (m : ℕ) (sc : Scan) (s' : Machine) (hm : m < 65535)
      (hskips : Skips s.ram.vol s.card preallocSz s.ram.cfg.logNum m) (hle : s.ram.cfg.logNum ≤ m)
      (hscan : ScansTo s.ram.vol s.card (makeLogname m) false sc)
      (hend : Scratch (s.withLogNum m) s') :
      Searched s preallocSz nSectors (.ok (.create (makeLogname m) sc.emptyLba sc.emptyOff)) s'
  | spent (m : ℕ) (sc : Scan) (s' : Machine) (hm : m = 65535)
      (hskips : Skips s.ram.vol s.card preallocSz s.ram.cfg.logNum m) (hle : s.ram.cfg.logNum ≤ m)
      (hscan : ScansTo s.ram.vol s.card (makeLogname (m - 1)) true sc)
      (hend : Scratch (s.withLogNum m) s') :
      Searched s preallocSz nSectors (.ok (.create (makeLogname (m - 1)) sc.emptyLba sc.emptyOff)) s'
  | failed (e : Stop) (ram : Ram) (s' : Machine) (hvol : ram.vol = s.ram.vol)
      (hend : Scratch { s with ram := ram } s') : Searched s preallocSz nSectors (.error e) s'

variable {env : Env} {s s' s1 : Machine} {v : Vol} {disk : ℕ → Sector} {p : Slot} {lba : ℕ}

theorem ringGet16_run (env : Env) (i : ℕ) (s : Machine) :
    (ringGet16 i).run (fwStep env) s = (.ok (le16 s.ring i), s) := rfl

theorem ringGet32_run (env : Env) (i : ℕ) (s : Machine) :
    (ringGet32 i).run (fwStep env) s = (.ok (le32 s.ring i), s) := rfl

theorem eepromReadWord_run (env : Env) (i : ℕ) (s : Machine) :
    (eepromReadWord i).run (fwStep env) s = (.ok (le16 s.eeprom i), s) := rfl

theorem Buffered.le16 (h : Buffered s lba) {off i : ℕ} (hi : off + i + 1 < 512) :
    le16 s.ring (off + i) = le16 (slotByte s.card (lba, off)) i := by
  rw [Barelog.le16, h _ (by omega), h _ (by omega)]
  rfl

theorem Buffered.le32 (h : Buffered s lba) {off i : ℕ} (hi : off + i + 3 < 512) :
    le32 s.ring (off + i) = le32 (slotByte s.card (lba, off)) i := by
  rw [Barelog.le32, h.le16 (by omega), Nat.add_assoc, h.le16 (by omega)]
  rfl

theorem IsRootSlot.offset (h : IsRootSlot v disk p) : ∃ k, k < 16 ∧ p.2 = 32 * k := by
  obtain ⟨n, hmem⟩ := h
  obtain ⟨c, _, hp⟩ := List.mem_flatMap.mp hmem
  obtain ⟨j, _, hp⟩ := List.mem_flatMap.mp hp
  obtain ⟨k, hk, rfl⟩ := List.mem_map.mp hp
  obtain ⟨i, hi, rfl⟩ := List.mem_range'.mp hk
  exact ⟨i, hi, by omega⟩

theorem walkChain_cases {fuel c next : ℕ} {r : Except Stop ℕ}
    (hrun : (walkChain fuel c next).run (fwStep env) s = (r, s')) : Scratch s s' := by
  induction fuel generalizing c next s with
  | zero =>
    cases hrun
    exact .refl _
  | succ fuel ih =>
    rw [walkChain] at hrun
    split at hrun
    · rcases bind_ended hrun with ⟨val, s1, hread, hgo⟩ | ⟨e, hread, rfl⟩
      · exact (fatReadEntry_cases hread).2.trans (ih hgo)
      · exact (fatReadEntry_cases hread).2
    · cases hrun
      exact .refl _

theorem setLogfile_run (env : Env) (f : Logfile → Logfile) (s : Machine) :
    (setLogfile f).run (fwStep env) s = (.ok (), s.withLogfile (f s.ram.logfile)) := rfl

theorem setCfg_run (env : Env) (c : Config) (s : Machine) : (setCfg c).run (fwStep env) s =
    (.ok (), { s with ram := { s.ram with cfg := c } }) := rfl

theorem Scratch.withRam (h : Scratch s s') (r : Ram) :
    Scratch { s with ram := r } { s' with ram := r } := by
  obtain ⟨_, _, _, hr, rfl⟩ := h
  exact ⟨_, _, _, hr, rfl⟩

theorem Scratch.withLogfile (h : Scratch s s') (l : Logfile) :
    Scratch (s.withLogfile l) (s'.withLogfile l) := by
  have hr := h.withRam { s.ram with logfile := l }
  rwa [Machine.withLogfile, Machine.withLogfile, h.ram]

theorem Scratch.withLogNum (h : Scratch s s') (m : ℕ) :
    Scratch (s.withLogNum m) (s'.withLogNum m) := by
  have hr := h.withRam { s.ram with cfg := { s.ram.cfg with logNum := m } }
  rwa [Machine.withLogNum, Machine.withLogNum, h.ram]

theorem resumeLog_run (env : Env) (fuel preallocSz nSectors : ℕ) (sc : Scan) (s : Machine) :
    (resumeLog fuel preallocSz nSectors sc).run (fwStep env) s =
      Prog.run (fwStep env) (do
        let last ← walkChain fuel (resumeFirst s sc) (resumeFirst s sc)
        setLogfile fun l => { l with lastClus := last })
      (s.withLogfile (walkingLog s preallocSz nSectors sc)) := by
  rw [resumeLog, run_bind_ok (eepromReadWord_run _ _ _), run_bind_ok (eepromReadWord_run _ _ _),
    run_bind_ok (ringGet16_run _ _ _), run_bind_ok (ringGet16_run _ _ _), getRam_bind,
    run_bind_ok (setLogfile_run _ _ _)]
  rfl

/-- The resume path, with the directory sector in the buffer. -/
theorem resumeLog_cases {fuel preallocSz nSectors : ℕ} {sc : Scan} {r : Except Stop Unit}
    (hbuf : Buffered s sc.foundLba) (hoff : sc.foundOff + 32 ≤ 512)
    (hrun : (resumeLog fuel preallocSz nSectors sc).run (fwStep env) s = (r, s')) :
    (∃ last, r = .ok () ∧
      Scratch (s.withLogfile (resumedLog s preallocSz nSectors sc.found last)) s') ∨
    ∃ e l, r = .error e ∧ Scratch (s.withLogfile l) s' := by
  have hfirst : resumeFirst s sc = firstClusOf s.card sc.found := by
    rw [resumeFirst, hbuf.le16 (by unfold deFstClusHi; omega), hbuf.le16 (by unfold deFstClusLo; omega)]
    rfl
  rw [resumeLog_run, walkingLog, hfirst] at hrun
  rcases bind_ended hrun with ⟨last, s1, hwalk, hset⟩ | ⟨e, hwalk, rfl⟩
  · have hscratch := (walkChain_cases hwalk).withLogfile
      (resumedLog s preallocSz nSectors sc.found last)
    have hram := (walkChain_cases hwalk).ram
    rw [setLogfile_run, hram] at hset
    cases hset
    exact .inl ⟨last, rfl, hscratch⟩
  · exact .inr ⟨e, _, rfl, walkChain_cases hwalk⟩

/-- What the turns before have left in `name` and in the out parameters. -/
def LastScan (s : Machine) (last : Option (Name × Scan)) : Prop :=
  ∀ name sc, last = some (name, sc) → s.ram.cfg.logNum ≤ 65535 ∧
    name = makeLogname (s.ram.cfg.logNum - 1) ∧ ScansTo s.ram.vol s.card name true sc

theorem Skips.cons {preallocSz a m : ℕ} {sc : Scan}
    (hscan : ScansTo v disk (makeLogname a) true sc) (hsize : fileSize disk sc.found ≠ preallocSz)
    (h : Skips v disk preallocSz (a + 1) m) : Skips v disk preallocSz a m := by
  intro k hk hkm
  rcases Nat.eq_or_lt_of_le hk with rfl | hlt
  · exact ⟨sc, hscan, hsize⟩
  · exact h k hlt hkm

/-- The search goes on with the next number from a state that only differs in scratch memory. -/
theorem Searched.step {preallocSz nSectors : ℕ} {sc : Scan} {r : Except Stop NameSearch}
    (hscan : ScansTo s.ram.vol s.card (makeLogname s.ram.cfg.logNum) true sc)
    (hsize : fileSize s.card sc.found ≠ preallocSz)
    (hs1 : Scratch (s.withLogNum (s.ram.cfg.logNum + 1)) s1)
    (h : Searched s1 preallocSz nSectors r s') : Searched s preallocSz nSectors r s' := by
  have hvol : s1.ram.vol = s.ram.vol := by rw [hs1.ram]; rfl
  have hnum : s1.ram.cfg.logNum = s.ram.cfg.logNum + 1 := by rw [hs1.ram]; rfl
  have hcard : s1.card = s.card := hs1.card
  have heeprom : s1.eeprom = s.eeprom := hs1.eeprom
  have hlogNum : ∀ m, Scratch (s.withLogNum m) (s1.withLogNum m) := fun m => hs1.withLogNum m
  cases h with
  | resumed m sc' last _ hm hskips hle hscan' hsize' hend =>
    rw [hvol, hcard, hnum] at hskips
    rw [hvol, hcard] at hscan'
    rw [hcard] at hsize'
    have hlog : resumedLog s1 preallocSz nSectors sc'.found last =
        resumedLog s preallocSz nSectors sc'.found last := by
      rw [resumedLog, hvol, hcard, heeprom]
      rfl
    rw [hlog] at hend
    exact .resumed m sc' last _ hm (hskips.cons hscan hsize) (by omega) hscan' hsize'
      (((hlogNum m).withLogfile _).trans hend)
  | free m sc' _ hm hskips hle hscan' hend =>
    rw [hvol, hcard, hnum] at hskips
    rw [hvol, hcard] at hscan'
    exact .free m sc' _ hm (hskips.cons hscan hsize) (by omega) hscan' ((hlogNum m).trans hend)
  | spent m sc' _ hm hskips hle hscan' hend =>
    rw [hvol, hcard, hnum] at hskips
    rw [hvol, hcard] at hscan'
    exact .spent m sc' _ hm (hskips.cons hscan hsize) (by omega) hscan' ((hlogNum m).trans hend)
  | failed e ram _ hram hend =>
    refine .failed e ram _ (hram.trans hvol) (Scratch.trans ?_ hend)
    obtain ⟨_, _, _, hr, rfl⟩ := hs1
    exact ⟨_, _, _, hr, rfl⟩

theorem readFound_cases {sc : Scan} {r : Except Stop Unit}
    (hrun : (sdReadSector sc.foundLba 0).run (fwStep env) s = (r, s')) :
    Scratch s s' ∧ (r = .ok () ∧ Buffered s' sc.foundLba ∨ ∃ e, r = .error e) := by
  rcases sdReadSector_cases hrun with ⟨rfl, rfl⟩ | ⟨c, rfl, rfl⟩
  · exact ⟨scratch_load _ _, .inl ⟨rfl, fun i hi => load_inside hi⟩⟩
  · exact ⟨scratch_asked s, .inr ⟨_, rfl⟩⟩

/-- The turn of the loop for a name that has a file: the search ends with its resumption or a
failure, or it goes on with the next number. -/
theorem takeFound_cases {fuel preallocSz nSectors m : ℕ} {sc : Scan} {next : Fw NameSearch}
    {r : Except Stop NameSearch} (hm : s.ram.cfg.logNum = m) (hlt : m < 65535)
    (hto : ScansTo s.ram.vol s.card (makeLogname m) true sc)
    (hs1 : Scratch s s1)
    (hrun : Prog.run (fwStep env) (do
      sdReadSector sc.foundLba 0
      let size ← ringGet32 (sc.foundOff + deFileSize)
      if size = preallocSz then
        resumeLog fuel preallocSz nSectors sc
        pure .resumed
      else
        setCfg { s.ram.cfg with logNum := (s.ram.cfg.logNum + 1) % 2 ^ 16 }
        next) s1 = (r, s')) :
    Searched s preallocSz nSectors r s' ∨ fileSize s.card sc.found ≠ preallocSz ∧
      ∃ s2, Scratch (s.withLogNum (m + 1)) s2 ∧ next.run (fwStep env) s2 = (r, s') := by
  subst hm
  have hnone : Skips s.ram.vol s.card preallocSz s.ram.cfg.logNum s.ram.cfg.logNum :=
    fun k hk hkm => by omega
  obtain ⟨j, hj, hoff⟩ := (hto.sound.1 rfl).1.offset
  replace hoff : sc.foundOff = 32 * j := hoff
  rcases bind_ended hrun with ⟨_, s2, hread, hrest⟩ | ⟨e, hread, rfl⟩
  swap
  · exact .inl (.failed e s.ram _ rfl (hs1.trans (readFound_cases hread).1))
  obtain ⟨hs2, ⟨_, hbuf⟩ | ⟨_, hbad⟩⟩ := readFound_cases hread
  swap
  · cases hbad
  replace hs2 := hs1.trans hs2
  have hsize : le32 (slotByte s2.card (sc.foundLba, sc.foundOff)) deFileSize =
      fileSize s.card sc.found := by
    rw [hs2.card]
    rfl
  rw [run_bind_ok (ringGet32_run _ _ _), hbuf.le32 (by unfold deFileSize; omega), hsize] at hrest
  split at hrest
  · rename_i heq
    rcases bind_ended hrest with ⟨_, s3, hres, hpure⟩ | ⟨e, hres, rfl⟩
    · rcases resumeLog_cases hbuf (by omega) hres with ⟨l, _, hs3⟩ | ⟨_, _, hbad, _⟩
      · cases hpure
        have hlog : resumedLog s2 preallocSz nSectors sc.found l =
            resumedLog s preallocSz nSectors sc.found l := by
          rw [resumedLog, hs2.card, hs2.ram, hs2.eeprom]
          rfl
        rw [hlog] at hs3
        exact .inl (.resumed _ sc l _ hlt hnone le_rfl hto heq ((hs2.withLogfile _).trans hs3))
      · cases hbad
    · rcases resumeLog_cases hbuf (by omega) hres with ⟨_, hbad, _⟩ | ⟨_, l, _, hs3⟩
      · cases hbad
      · exact .inl (.failed e { s.ram with logfile := l } _ rfl ((hs2.withLogfile l).trans hs3))
  · rename_i hne
    rw [Nat.mod_eq_of_lt (show s.ram.cfg.logNum + 1 < 2 ^ 16 by omega),
      run_bind_ok (setCfg_run _ _ _), hs2.ram] at hrest
    exact .inr ⟨hne, _, hs2.withRam _, hrest⟩

/-- The search has a start, a turn for each number, and the ends of `Searched`. -/
theorem nameLoop_cases {fuel preallocSz nSectors k : ℕ} {last : Option (Name × Scan)}
    {r : Except Stop NameSearch} (hlast : LastScan s last)
    (hrun : (nameLoop fuel preallocSz nSectors k last).run (fwStep env) s = (r, s')) :
    Searched s preallocSz nSectors r s' := by
  induction k generalizing s last with
  | zero =>
    cases hrun
    exact .failed _ _ _ rfl (.refl _)
  | succ k ih =>
    have hnone : Skips s.ram.vol s.card preallocSz s.ram.cfg.logNum s.ram.cfg.logNum :=
      fun k hk hkm => by omega
    unfold nameLoop at hrun
    rw [getRam_bind] at hrun
    split at hrun
    · rename_i hlt
      rcases bind_ended hrun with ⟨⟨found, sc⟩, s1, hscan, hrest⟩ | ⟨e, hscan, rfl⟩
      · obtain ⟨hs1, ⟨_, _, hr, hto⟩ | hbad | ⟨hbad, _⟩⟩ := scanRootDir_cases hscan
        · cases hr
          cases found with
          | false =>
            cases hrest
            exact .free _ sc _ hlt hnone le_rfl hto hs1
          | true =>
            rcases takeFound_cases rfl hlt hto hs1 hrest with hdone | ⟨hsize, s2, hs2, hnext⟩
            · exact hdone
            · refine .step hto hsize hs2 (ih ?_ hnext)
              intro name sc' hsome
              cases hsome
              rw [hs2.ram, hs2.card]
              exact ⟨hlt, rfl, hto⟩
        · cases hbad
        · cases hbad
      · exact .failed e s.ram _ rfl (scanRootDir_cases hscan).1
    · rename_i hge
      cases last with
      | none =>
        cases hrun
        exact .failed _ _ _ rfl (.refl _)
      | some q =>
        obtain ⟨name, sc⟩ := q
        cases hrun
        obtain ⟨hle, rfl, hto⟩ := hlast name sc rfl
        exact .spent _ sc _ (by omega) hnone le_rfl hto (.refl _)

end Barelog
