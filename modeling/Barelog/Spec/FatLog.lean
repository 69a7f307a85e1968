import Barelog.Spec.Fat
import Barelog.Spec.Config

/-! `fat32_log.c`: the search for a file name, the creation and resumption of the log file,
appends and the directory update. A `while` loop of the source takes fuel, and stops with
`hang` when it has used it up. -/

namespace Barelog

abbrev Name := ℕ → Byte

/-- "LOG00000TXT" with the digits of `num` filled in from the right. -/
def makeLogname (num : ℕ) : Name :=
  ([7, 6, 5, 4, 3].foldl
    (fun (p : Name × ℕ) i => (Function.update p.1 i (.ofNat (0x30 + p.2 % 10)), p.2 / 10))
    (fun i => [0x4C, 0x4F, 0x47, 0x30, 0x30, 0x30, 0x30, 0x30, 0x54, 0x58, 0x54].getD i 0,
      num)).1

def ringGet16 (i : ℕ) : Fw ℕ := do
  let lo ← ringGet i
  let hi ← ringGet (i + 1)
  pure (lo.toNat + hi.toNat * 2 ^ 8)

def ringGet32 (i : ℕ) : Fw ℕ := do
  let lo ← ringGet16 i
  let hi ← ringGet16 (i + 2)
  pure (lo + hi * 2 ^ 16)

def ringSet16 (i n : ℕ) : Fw Unit := do
  ringSet i (.ofNat n)
  ringSet (i + 1) (.ofNat (n / 2 ^ 8))

def ringSet32 (i n : ℕ) : Fw Unit := do
  ringSet16 i n
  ringSet16 (i + 2) (n / 2 ^ 16)

/-! Offsets in `struct dir_entry`; the name is at 0. -/

def deAttr : ℕ := 11
def deFstClusHi : ℕ := 20
def deFstClusLo : ℕ := 26
def deFileSize : ℕ := 28

/-- The out parameters of `scan_root_dir` and its `got_empty`. An offset counts only when
its LBA is not 0. -/
structure Scan where
  foundLba : ℕ
  foundOff : ℕ
  emptyLba : ℕ
  emptyOff : ℕ
  gotEmpty : Bool

def Scan.start : Scan := ⟨0, 0, 0, 0, false⟩

/-- How far a part of the scan has got: the entry is found, the end-of-directory marker is
met, or the scan goes on. -/
inductive Verdict
  | found
  | done
  | next
deriving DecidableEq

/-- The comparison of the name in the entry at `e` with `name`, from byte `j`. -/
def nameEq (name : Name) (e : ℕ) : ℕ → ℕ → Fw Bool
  | 0, _ => pure true
  | n + 1, j => do
    let b ← ringGet (e + j)
    if b ≠ name j then pure false else nameEq name e n (j + 1)

def Scan.empty (sc : Scan) (lba e : ℕ) : Scan :=
  if sc.gotEmpty then sc else { sc with emptyLba := lba, emptyOff := e }

def scanEntries (name : Name) (lba : ℕ) : ℕ → ℕ → Scan → Fw (Verdict × Scan)
  | 0, _, sc => pure (.next, sc)
  | n + 1, e, sc => do
    let first ← ringGet e
    if first = 0x00 then
      pure (.done, sc.empty lba e)
    else if first = 0xE5 then
      scanEntries name lba n (e + 32) { sc.empty lba e with gotEmpty := true }
    else
      let attr ← ringGet (e + deAttr)
      if attr &&& 0x08 ≠ 0 then
        scanEntries name lba n (e + 32) sc
      else if attr &&& 0x10 ≠ 0 then
        scanEntries name lba n (e + 32) sc
      else
        let hit ← nameEq name e 11 0
        if hit then
          pure (.found, { sc with foundLba := lba, foundOff := e })
        else
          scanEntries name lba n (e + 32) sc

def scanSectors (name : Name) (lba : ℕ) : ℕ → ℕ → Scan → Fw (Verdict × Scan)
  | 0, _, sc => pure (.next, sc)
  | n + 1, s, sc => do
    (sdReadSector (u32 (lba + s)) 0).orCode (-1)
    let (v, sc) ← scanEntries name (u32 (lba + s)) 16 0 sc
    if v = .next then scanSectors name lba n (s + 1) sc else pure (v, sc)

def scanChain (name : Name) : ℕ → ℕ → Scan → Fw (Bool × Scan)
  | 0, _, _ => .fail .hang
  | fuel + 1, clus, sc => do
    if 2 ≤ clus ∧ clus < 0x0FFFFFF8 then
      let r ← getRam
      let (v, sc) ← scanSectors name (clusToLba r.vol clus) r.vol.secPerClus 0 sc
      match v with
      | .found => pure (true, sc)
      | .done => pure (false, sc)
      | .next =>
        let next ← (fatReadEntry clus).orCode (-1)
        scanChain name fuel next sc
    else
      pure (false, sc)

/-- Returns whether the name is found. -/
def scanRootDir (fuel : ℕ) (name : Name) : Fw (Bool × Scan) := do
  let r ← getRam
  scanChain name fuel r.vol.rootClus .start

def setLogfile (f : Logfile → Logfile) : Fw Unit := do
  let r ← getRam
  setRam { r with logfile := f r.logfile }

/-- The walk to the end of the chain in the resume path: `c` is the cluster last read. -/
def walkChain : ℕ → ℕ → ℕ → Fw ℕ
  | 0, _, _ => .fail .hang
  | fuel + 1, c, next => do
    if next < 0x0FFFFFF8 then
      let entry ← fatReadEntry next
      walkChain fuel next entry
    else
      pure c

/-- The resume path, with the directory sector in the buffer. -/
def resumeLog (fuel preallocSz nSectors : ℕ) (sc : Scan) : Fw Unit := do
  let lo ← eepromReadWord eepromOffRecLo
  let hi ← eepromReadWord eepromOffRecHi
  let bw := lo + hi * 2 ^ 16
  let clusHi ← ringGet16 (sc.foundOff + deFstClusHi)
  let clusLo ← ringGet16 (sc.foundOff + deFstClusLo)
  let first := clusHi * 2 ^ 16 + clusLo
  let r ← getRam
  setLogfile fun l => { l with
    firstClus := first
    curLba := u32 (clusToLba r.vol first + bw / 512)
    endLba := u32 (clusToLba r.vol first + nSectors)
    dirLba := sc.foundLba
    dirOffset := sc.foundOff
    bytesWritten := bw
    preallocSize := preallocSz }
  let last ← walkChain fuel first first
  setLogfile fun l => { l with lastClus := last }

/-- How the search for a name ends: with a resumed file, or with the variables `name`,
`empty_lba` and `empty_off` of the creation. -/
inductive NameSearch
  | resumed
  | create (name : Name) (emptyLba emptyOff : ℕ)

/-- The loop `while (cfg->log_num < 65535)`. `last` is what the turn before left in `name`
and in the out parameters, which are uninitialised before the first turn. -/
def nameLoop (fuel preallocSz nSectors : ℕ) : ℕ → Option (Name × Scan) → Fw NameSearch
  | 0, _ => .fail .hang
  | k + 1, last => do
    let r ← getRam
    if r.cfg.logNum < 65535 then
      let name := makeLogname r.cfg.logNum
      let (found, sc) ← scanRootDir fuel name
      if found then
        sdReadSector sc.foundLba 0
        let size ← ringGet32 (sc.foundOff + deFileSize)
        if size = preallocSz then
          resumeLog fuel preallocSz nSectors sc
          pure .resumed
        else
          setCfg { r.cfg with logNum := (r.cfg.logNum + 1) % 2 ^ 16 }
          nameLoop fuel preallocSz nSectors k (some (name, sc))
      else
        pure (.create name sc.emptyLba sc.emptyOff)
    else
      match last with
      | none => .fail .undef
      | some (name, sc) => pure (.create name sc.emptyLba sc.emptyOff)

/-- The locals of the allocation loop. -/
structure Alloc where
  prevClus : ℕ
  firstClus : ℕ
  lastClus : ℕ
  foundClus : ℕ

/-- `for (c = 2; found_clus < n_clus; c++)`. -/
def allocLoop (nClus : ℕ) : ℕ → ℕ → Alloc → Fw Alloc
  | 0, _, _ => .fail .hang
  | fuel + 1, c, a => do
    if a.foundClus < nClus then
      let val ← fatReadEntry c
      if val ≠ 0 then
        allocLoop nClus fuel (u32 (c + 1)) a
      else
        let first := if a.foundClus = 0 then c else a.firstClus
        Prog.doIf (a.prevClus ≠ 0) (fatWriteEntry a.prevClus c)
        allocLoop nClus fuel (u32 (c + 1)) ⟨c, first, c, a.foundClus + 1⟩
    else
      pure a

def zeroFill (lo hi : ℕ) : Fw Unit := Prog.forUp lo (hi - lo) sdWriteZeroSector

/-- The directory entry of the new file, stored over the slot at `off` of the buffer. -/
def putDirEntry (name : Name) (off firstClus preallocSz : ℕ) : Fw Unit := do
  Prog.forUp 0 32 fun i => ringSet (off + i) 0
  Prog.forUp 0 11 fun j => ringSet (off + j) (name j)
  ringSet (off + deAttr) 0x20
  ringSet16 (off + deFstClusHi) (firstClus / 2 ^ 16)
  ringSet16 (off + deFstClusLo) (firstClus % 2 ^ 16)
  ringSet32 (off + deFileSize) preallocSz

def createLog (fuel preallocSz nSectors nClus : ℕ) (name : Name) (emptyLba emptyOff : ℕ) :
    Fw Unit := do
  let a ← allocLoop nClus fuel 2 ⟨0, 0, 0, 0⟩
  Prog.doIf (a.foundClus < nClus) (.fail (.code (-1)))
  fatWriteEntry a.lastClus 0x0FFFFFFF
  let r ← getRam
  let curLba := clusToLba r.vol a.firstClus
  let endLba := u32 (curLba + nSectors)
  setLogfile fun _ => {
    firstClus := a.firstClus
    lastClus := a.lastClus
    curLba := curLba
    endLba := endLba
    dirLba := emptyLba
    dirOffset := emptyOff
    bytesWritten := 0
    preallocSize := preallocSz }
  sdErase curLba (u32 (endLba + 2 ^ 32 - 1))
  zeroFill curLba endLba
  sdReadSector emptyLba 0
  putDirEntry name emptyOff a.firstClus preallocSz
  sdWriteSector emptyLba 0

def clusNeeded (v : Vol) (nSectors : ℕ) : ℕ := (nSectors + v.secPerClus - 1) / v.secPerClus

def fat32OpenLog (fuel : ℕ) : Fw Unit := do
  let r ← getRam
  let preallocSz := configPreallocBytes r.cfg.preallocCode
  let nSectors := preallocSz / 512
  -- the division by sec_per_clus
  Prog.doIf (r.vol.secPerClus = 0) (.fail .undef)
  let found ← nameLoop fuel preallocSz nSectors 65536 none
  match found with
  | .resumed => pure ()
  | .create name emptyLba emptyOff =>
    Prog.doIf (emptyLba = 0) (.fail (.code (-1)))
    createLog fuel preallocSz nSectors (clusNeeded r.vol nSectors) name emptyLba emptyOff
    let r ← getRam
    let cfg := { r.cfg with logNum := (r.cfg.logNum + 1) % 2 ^ 16 }
    setCfg cfg
    configSave cfg

def findFree : ℕ → ℕ → Fw ℕ
  | 0, _ => .fail .hang
  | fuel + 1, c => do
    let val ← fatReadEntry c
    if val = 0 then pure c else findFree fuel (u32 (c + 1))

def extendLog (fuel : ℕ) : Fw Unit := do
  let r ← getRam
  let c ← findFree fuel 2
  fatWriteEntry r.logfile.lastClus c
  fatWriteEntry c 0x0FFFFFFF
  let lba := clusToLba r.vol c
  let endLba := u32 (lba + r.vol.secPerClus)
  sdErase lba (u32 (endLba + 2 ^ 32 - 1))
  zeroFill lba endLba
  setLogfile fun l => { l with endLba := endLba, lastClus := c }

def fat32AppendSector (fuel spanA lenA : ℕ) (spanB : Option ℕ) (lenB : ℕ) : Fw Unit := do
  let r ← getRam
  Prog.doIf (r.logfile.curLba ≥ r.logfile.endLba) (extendLog fuel)
  sdWriteSectorZc r.logfile.curLba spanA lenA spanB lenB
  setLogfile fun l => { l with
    curLba := u32 (l.curLba + 1)
    bytesWritten := u32 (l.bytesWritten + (lenA + lenB)) }

def fat32Flush : Fw Unit := do
  let r ← getRam
  sdReadSector r.logfile.dirLba 0
  ringSet32 (r.logfile.dirOffset + deFileSize) r.logfile.bytesWritten
  sdWriteSector r.logfile.dirLba 0

def fat32BytesWritten : Fw ℕ := do
  let r ← getRam
  pure r.logfile.bytesWritten

end Barelog
