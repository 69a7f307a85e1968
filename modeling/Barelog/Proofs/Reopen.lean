import Barelog.Proofs.AppendRun
import Barelog.Proofs.Flush
import Barelog.Proofs.ReplFlush
import Barelog.Proofs.Mount
import Barelog.Proofs.RingTail

/-! A log file that is created, appended to and flushed, a power loss, and the next boot. The flush
has stored a size below that of the pre-allocation, so the search does not resume the file. -/

namespace Barelog

open Prog

variable {env : Env} {s s' s1 t : Machine} {α : Type} {n : ℕ} {p : Slot}

/-! What the EEPROM keeps. -/

def NotSet : FwOp → Prop
  | .eepromSet _ _ => False
  | _ => True

abbrev NoEeprom (q : Fw α) : Prop := q.Only (fun _ _ => True) NotSet

theorem fwStep_eeprom (env : Env) {o : FwOp} (ho : NotSet o) (s : Machine) :
    (fwStep env o s).2.eeprom = s.eeprom := by
  cases o with
  | eepromSet i b => exact ho.elim
  | writeDone lba =>
    simp only [fwStep, Machine.finish]
    split <;> rfl
  | zeroDone lba =>
    simp only [fwStep, Machine.finish]
    split <;> rfl
  | _ => rfl

theorem NoEeprom.run {q : Fw α} (hq : NoEeprom q) {r : Except Stop α}
    (hrun : q.run (fwStep env) s = (r, s')) : s'.eeprom = s.eeprom := by
  have hstep : ∀ (o : FwOp) (t : Machine), NotSet o → t.eeprom = s.eeprom →
      True ∧ (fwStep env o t).2.eeprom = s.eeprom :=
    fun o t ho ht => ⟨trivial, (fwStep_eeprom env ho t).trans ht⟩
  have hinv := Only.invariant (I := fun t : Machine => t.eeprom = s.eeprom) hq hstep rfl
  rwa [hrun] at hinv

theorem InBuffer.eeprom {d : ℕ} {q : Fw α} (hq : InBuffer d q) (hs : s.ram.logfile.dirOffset = d)
    {r : Except Stop α} (hrun : q.run (fwStep env) s = (r, s')) : s'.eeprom = s.eeprom := by
  have hstep : ∀ (o : FwOp) (t : Machine), Driver d o →
      t.ram.logfile.dirOffset = d ∧ t.eeprom = s.eeprom → SameSlot d o (fwStep env o t).1 ∧
        (fwStep env o t).2.ram.logfile.dirOffset = d ∧ (fwStep env o t).2.eeprom = s.eeprom := by
    intro o t ho ht
    obtain ⟨hreply, hslot⟩ := driver_slot env o t ho ht.1
    refine ⟨hreply, hslot, (fwStep_eeprom env ?_ t).trans ht.2⟩
    cases o with
    | eepromSet i b => exact ho
    | _ => trivial
  have hinv := Only.invariant (I := fun t : Machine => t.ram.logfile.dirOffset = d ∧
    t.eeprom = s.eeprom) hq hstep ⟨hs, rfl⟩
  rw [hrun] at hinv
  exact hinv.2

theorem sdWriteSectorZc_noEeprom (lba spanA lenA : ℕ) (spanB : Option ℕ) (lenB : ℕ) :
    NoEeprom (sdWriteSectorZc lba spanA lenA spanB lenB) := by
  have hbuf : ∀ b len, NoEeprom (spiWriteBuf b len) := fun b len =>
    only_forUp fun _ _ _ => only_bind (only_perform trivial) fun _ => only_perform trivial
  have hcheck : ∀ ret, NoEeprom (check ret) := fun ret =>
    only_ite (fun _ => trivial) fun _ => trivial
  refine only_bind (only_perform trivial) fun ret => only_bind (hcheck ret) fun _ =>
    only_bind (hbuf _ _) fun _ => only_bind ?_ fun _ => only_bind (only_perform trivial) hcheck
  cases spanB with
  | none => trivial
  | some b => exact only_ite (fun _ => hbuf _ _) fun _ => trivial

theorem makeRoom_low (d fuel : ℕ) (l : Logfile) : InBuffer d (makeRoom fuel l) := by
  refine only_ite (fun _ => ?_) fun _ => trivial
  rw [extendLog_eq]
  exact getRam_bind_low fun r _ => only_bind (findFree_low _ _) fun c => extendWith_low r c

theorem makeRoom_eeprom {fuel : ℕ} {l : Logfile} {r : Except Stop Unit}
    (hrun : (makeRoom fuel l).run (fwStep env) s = (r, s')) : s'.eeprom = s.eeprom :=
  (makeRoom_low s.ram.logfile.dirOffset fuel l).eeprom rfl hrun

/-- What a whole append leaves of `logfile`, the configuration and the EEPROM. -/
theorem append_logged {fuel spanA lenA : ℕ} {spanB : Option ℕ} {lenB : ℕ}
    (hrun : (fat32AppendSector fuel spanA lenA spanB lenB).run (fwStep env) s = (.ok (), s')) :
    s'.ram.cfg = s.ram.cfg ∧ s'.ram.logfile.dirLba = s.ram.logfile.dirLba ∧
      s'.ram.logfile.dirOffset = s.ram.logfile.dirOffset ∧
      s'.ram.logfile.bytesWritten = u32 (s.ram.logfile.bytesWritten + (lenA + lenB)) ∧
      s'.eeprom = s.eeprom := by
  obtain ⟨u, hroom, -, -, -, -, hram, -⟩ := append_returned hrun
  obtain ⟨⟨endLba, lastClus, hkeep⟩, -⟩ := makeRoom_keeps hroom
  have heeprom : s'.eeprom = s.eeprom := by
    rw [append_eq, getRam_bind, run_bind_ok hroom] at hrun
    obtain ⟨_, u1, hsend, hrun⟩ := bind_returned hrun
    rw [setLogfile_run] at hrun
    obtain rfl := (Prod.mk.inj hrun).2
    exact ((sdWriteSectorZc_noEeprom _ _ _ _ _).run hsend).trans (makeRoom_eeprom hroom)
  rw [hram, hkeep]
  exact ⟨rfl, rfl, rfl, rfl, heeprom⟩

/-! The creation. -/

variable {fuel preallocSz nSectors nClus : ℕ} {name : Name}

/-- What a creation leaves of the module variables and of the slot. -/
theorem createLog_made
    (hrun : (createLog fuel preallocSz nSectors nClus name p.1 p.2).run (fwStep env) s =
      (.ok (), s')) :
    (s'.ram.cfg = s.ram.cfg ∧ s'.ram.logfile.dirLba = p.1 ∧ s'.ram.logfile.dirOffset = p.2 ∧
      s'.ram.logfile.bytesWritten = 0) ∧
      (p.2 + 32 ≤ 512 → slotByte s'.card p 0 = name 0) := by
  rw [createLog_eq] at hrun
  obtain ⟨a, u1, halloc, hrun⟩ := bind_returned hrun
  obtain ⟨_, u2, hclear, henter⟩ := bind_returned hrun
  have hkept1 : RamKept (fun r => r.cfg = s.ram.cfg) (allocChain fuel nClus) := allocChain_ram _ _
  obtain ⟨hcfg, -⟩ := hkept1.run rfl halloc
  rw [clearLog_run] at hclear
  generalize hl : u1.withLogfile _ = u at hclear
  have hu : u.ram.cfg = s.ram.cfg ∧ u.ram.logfile.dirLba = p.1 ∧ u.ram.logfile.dirOffset = p.2 ∧
      u.ram.logfile.bytesWritten = 0 := by
    rw [← hl]
    exact ⟨hcfg, rfl, rfl, rfl⟩
  have hkept2 : RamKept (fun r => r = u.ram) (clearSectors (clusToLba u1.ram.vol a.firstClus)
      nSectors) := clearSectors_ram _ _
  have hkept3 : RamKept (fun r => r = u.ram) (enterLog preallocSz name p a) := enterLog_ram _ _ _ _
  obtain ⟨hram2, -⟩ := hkept2.run rfl hclear
  obtain ⟨hram3, -⟩ := hkept3.run hram2 henter
  refine ⟨by rw [hram3]; exact hu, fun hoff => ?_⟩
  rcases enterLog_cases hoff henter with ⟨-, h⟩ | ⟨n, hbad, -⟩
  · have hlt : p.2 + 0 < 512 := by omega
    have hin : p.2 ≤ p.2 + 0 ∧ p.2 + 0 < p.2 + 32 := by omega
    have hcard : s'.card p.1 = withEntry (u2.card p.1) p.2 (entryByte name a.firstClus preallocSz) := by
      rw [h.card]
      exact Function.update_self _ _ _
    rw [slotByte, hcard, Sector.byte, dif_pos hlt]
    change stored _ p.2 32 _ (p.2 + 0) = _
    rw [stored, if_pos hin, Nat.add_zero, Nat.sub_self]
    rfl
  · cases hbad

theorem searchName_slot (hlba : p.1 ≠ 0)
    (hrun : (searchName fuel s).run (fwStep env) s = (.ok (.create name p.1 p.2), s')) :
    IsFree s.card p ∧ p.2 + 32 ≤ 512 ∧ name 0 = 0x4C ∧
      ∃ m, s'.ram.cfg = { s.ram.cfg with logNum := m } := by
  obtain ⟨sc, hunnamed, rfl, m, hscratch, -⟩ := searchName_create hrun
  obtain ⟨b, n, hscan, rfl⟩ : ∃ b n, ScansTo s.ram.vol s.card name b sc ∧ name = makeLogname n := by
    rcases hunnamed with ⟨m, _, _, _, hname, hscan⟩ | ⟨_, _, hname, hscan⟩
    · exact ⟨_, _, hscan, hname⟩
    · exact ⟨_, _, hscan, hname⟩
  obtain ⟨⟨k, hslot⟩, hfree⟩ := hscan.sound.2.resolve_left hlba
  obtain ⟨c, -, hslot⟩ := List.mem_flatMap.mp hslot
  obtain ⟨i, -, hslot⟩ := List.mem_flatMap.mp hslot
  obtain ⟨j, hj, heq⟩ := List.mem_map.mp hslot
  have hoff : 32 * j = sc.emptyOff := congrArg Prod.snd heq
  rw [List.mem_range'_1] at hj
  refine ⟨hfree, ?_, by simp [makeLogname], m, by rw [hscratch.ram]; rfl⟩
  change sc.emptyOff + 32 ≤ 512
  omega

/-! The next boot. -/

/-- A boot that ends with a log file in use has found one of the pre-allocated size, or it has
created one in a free slot. -/
theorem boot_slot {card : ℕ → Sector} {eeprom : ℕ → Byte} {rxLow : Bool} (hconfig : HasConfig eeprom)
    (hreset : ¬ (rxLow = true ∧ (storedConfig eeprom).flags &&& cfgFlIgnoreRxRst = 0))
    (hrun : (boot fuel rxLow).run (fwStep env) (.powerUp card eeprom) = (.ok (), s')) :
    fileSize card (s'.ram.logfile.dirLba, s'.ram.logfile.dirOffset) =
        configPreallocBytes (storedConfig eeprom).preallocCode ∨
      IsFree card (s'.ram.logfile.dirLba, s'.ram.logfile.dirOffset) ∧
        s'.ram.logfile.bytesWritten = 0 := by
  have hload : (Machine.powerUp card eeprom).configured rxLow =
      { Machine.powerUp card eeprom with
        ram := { (Machine.powerUp card eeprom).ram with cfg := storedConfig eeprom } } := by
    have h : (Machine.powerUp card eeprom).loadConfig = { Machine.powerUp card eeprom with
        ram := { (Machine.powerUp card eeprom).ram with cfg := storedConfig eeprom } } := if_pos hconfig
    unfold Machine.configured
    rw [h]
    exact if_neg hreset
  rw [boot_run, hload] at hrun
  obtain ⟨_, u, hmount, hopen⟩ := bind_returned hrun
  rcases fat32Mount_cases hmount with ⟨-, -, hend⟩ | ⟨⟨c, hbad⟩, -⟩
  swap
  · cases hbad
  have hcard : u.card = card := hend.card
  have hcfg : u.ram.cfg = storedConfig eeprom := by
    rw [hend.ram]
    rfl
  rcases openLog_cases (openLog_spc hopen) hopen with ⟨e, hbad, -⟩ | ⟨-, hsearch⟩ | ⟨name, p, u1, hsearch, h⟩
  · cases hbad
  · have hcases := searchName_cases hsearch
    generalize hr : (Except.ok NameSearch.resumed : Except Stop NameSearch) = r at hcases
    cases hcases with
    | resumed m sc last _ hm hskips hle hscan hsize hend =>
      left
      rw [hend.ram, ← hcfg, ← hcard]
      exact hsize
    | free => cases hr
    | spent => cases hr
    | failed => cases hr
  · rcases h with ⟨-, hbad, -⟩ | ⟨-, e, hbad, -⟩ | ⟨hlba, -, u2, hcreate, rfl⟩
    · cases hbad
    · cases hbad
    · obtain ⟨hfree, -⟩ := searchName_slot hlba hsearch
      obtain ⟨⟨-, hdir, hoff, hzero⟩, -⟩ := createLog_made hcreate
      right
      rw [hcard] at hfree
      change IsFree card (u2.ram.logfile.dirLba, u2.ram.logfile.dirOffset) ∧ _
      rw [hdir, hoff]
      exact ⟨hfree, hzero⟩

/-! The log file in use. -/

def Machine.padSectors (s : Machine) : ℕ := if s.unread > 0 then 1 else 0

/-- A run with an open log file: `n` sectors are appended, some of them by the flushes. -/
inductive LogRun (env : Env) (s : Machine) : ℕ → Machine → Prop
  | opened : LogRun env s 0 s
  | idle {n : ℕ} {t t' : Machine} : LogRun env s n t → Idle t t' → LogRun env s n t'
  | append {n : ℕ} {t t' : Machine} (call : AppendCall) : LogRun env s n t →
      call.lenA + call.lenB = 512 → call.code.run (fwStep env) t = (.ok (), t') →
      LogRun env s (n + 1) t'
  | flush {n : ℕ} {t t' : Machine} (fuel : ℕ) : LogRun env s n t →
      (logFlush fuel).run (fwStep env) t = (.ok (), t') → LogRun env s (n + t.padSectors) t'

structure LoggedTo (s : Machine) (n : ℕ) (t : Machine) : Prop where
  cfg : t.ram.cfg = s.ram.cfg
  dirLba : t.ram.logfile.dirLba = s.ram.logfile.dirLba
  dirOffset : t.ram.logfile.dirOffset = s.ram.logfile.dirOffset
  bytes : t.ram.logfile.bytesWritten = u32 (512 * n)
  low : ∀ i, i < 14 → t.eeprom i = s.eeprom i
  first : n = 0 → slotByte t.card (s.ram.logfile.dirLba, s.ram.logfile.dirOffset) 0 =
    slotByte s.card (s.ram.logfile.dirLba, s.ram.logfile.dirOffset) 0

theorem LoggedTo.idle (h : LoggedTo s n t) (hidle : Idle t s') : LoggedTo s n s' := by
  obtain ⟨_, _, _, _, _, _, rfl⟩ := hidle
  exact ⟨h.cfg, h.dirLba, h.dirOffset, h.bytes, h.low, h.first⟩

theorem LoggedTo.append {fuel spanA lenA : ℕ} {spanB : Option ℕ} {lenB : ℕ} (h : LoggedTo s n t)
    (hlen : lenA + lenB = 512)
    (hrun : (fat32AppendSector fuel spanA lenA spanB lenB).run (fwStep env) t = (.ok (), s')) :
    LoggedTo s (n + 1) s' := by
  obtain ⟨hcfg, hlba, hoff, hbytes, heeprom⟩ := append_logged hrun
  refine ⟨hcfg.trans h.cfg, hlba.trans h.dirLba, hoff.trans h.dirOffset, ?_, ?_, nofun⟩
  · rw [hbytes, h.bytes, hlen]
    simp only [u32]
    omega
  · rw [heeprom]
    exact h.low

theorem ignoreCode_returned {q : Fw Unit} (hq : NoCode env q)
    (hrun : q.ignoreCode.run (fwStep env) s = (.ok (), s')) : q.run (fwStep env) s = (.ok (), s') := by
  rw [Fw.ignoreCode, handle_run] at hrun
  rcases hr : q.run (fwStep env) s with ⟨r, u⟩
  rw [hr] at hrun
  cases r with
  | ok _ => exact hrun
  | error e =>
    cases e with
    | code c => exact (hq s _ u hr ⟨c, rfl⟩).elim
    | hang => cases hrun
    | undef => cases hrun
    | repl => cases hrun

theorem LoggedTo.tail {fuel : ℕ} (hgood : env.Good) (h : LoggedTo s n t)
    (hrun : (doIf (t.unread > 0) (flushTail fuel t.unread)).run (fwStep env) t = (.ok (), s')) :
    LoggedTo s (n + t.padSectors) s' := by
  rw [Machine.padSectors]
  by_cases hpend : t.unread > 0
  swap
  · rw [doIf, if_neg hpend] at hrun
    cases hrun
    rwa [if_neg hpend]
  rw [doIf, if_pos hpend, flushTail, run_bind_ok (padSector_run env _ t)] at hrun
  rw [if_pos hpend]
  obtain ⟨_, u, happend, hconsume⟩ := bind_returned hrun
  have hidle : Idle t (t.withRing (padRing t.ring t.ringTail t.unread)) :=
    ⟨_, _, _, _, _, _, rfl⟩
  have hnext := (h.idle hidle).append rfl (ignoreCode_returned (append_noCode hgood _ _ _ _ _) happend)
  cases hconsume
  exact hnext.idle ⟨_, _, _, _, _, _, rfl⟩

/-! The flush. -/

theorem flushedCard_sector (hgood : env.Good) : s.flushedCard env s.ram.logfile.dirLba =
    sizedSector (s.card s.ram.logfile.dirLba) s.ram.logfile := by
  have hlands : flushLands env s.reqs := by
    rw [flushLands, hgood, hgood, hgood]
    decide
  rw [Machine.flushedCard, if_pos hlands]
  exact Function.update_self _ _ _

theorem flushedCard_slot (hgood : env.Good) {i : ℕ} (hi : s.ram.logfile.dirOffset + i < 512) :
    slotByte (s.flushedCard env) (s.ram.logfile.dirLba, s.ram.logfile.dirOffset) i =
      putSize (s.card s.ram.logfile.dirLba).byte (s.ram.logfile.dirOffset + deFileSize)
        s.ram.logfile.bytesWritten (s.ram.logfile.dirOffset + i) := by
  rw [slotByte, flushedCard_sector hgood, Sector.byte, dif_pos hi]
  rfl

theorem le32_slotByte (card : ℕ → Sector) (p : Slot) (i : ℕ) :
    le32 (slotByte card p) i = le32 (card p.1).byte (p.2 + i) := by
  simp only [le32, le16, slotByte, Nat.add_assoc]

theorem putSize_bytes (b : ℕ → Byte) (off n : ℕ) : putSize b off n off = .ofNat n ∧
    putSize b off n (off + 1) = .ofNat (n / 2 ^ 8) ∧
    putSize b off n (off + 2) = .ofNat (n / 2 ^ 16) ∧
    putSize b off n (off + 3) = .ofNat (n / 2 ^ 16 / 2 ^ 8) := by
  have hne : off ≠ off + 2 + 1 := by omega
  simp [putSize, hne]

theorem sizedSector_size (d : Sector) (l : Logfile) (hoff : l.dirOffset + 32 ≤ 512) :
    le32 (sizedSector d l).byte (l.dirOffset + deFileSize) = l.bytesWritten % 2 ^ 32 := by
  obtain ⟨h0, h1, h2, h3⟩ := putSize_bytes d.byte (l.dirOffset + deFileSize) l.bytesWritten
  have hbyte : ∀ k, k < 4 → (sizedSector d l).byte (l.dirOffset + deFileSize + k) =
      putSize d.byte (l.dirOffset + deFileSize) l.bytesWritten (l.dirOffset + deFileSize + k) := by
    intro k hk
    have hlt : l.dirOffset + deFileSize + k < 512 := by
      unfold deFileSize
      omega
    rw [Sector.byte, dif_pos hlt]
    rfl
  exact le32_of_bytes ((hbyte 0 (by decide)).trans h0) ((hbyte 1 (by decide)).trans h1)
    ((hbyte 2 (by decide)).trans h2) ((hbyte 3 (by decide)).trans h3)

theorem fileSize_flushed (hgood : env.Good) (hoff : s.ram.logfile.dirOffset + 32 ≤ 512) :
    fileSize (s.flushedCard env) (s.ram.logfile.dirLba, s.ram.logfile.dirOffset) =
      s.ram.logfile.bytesWritten % 2 ^ 32 := by
  rw [fileSize, le32_slotByte, flushedCard_sector hgood]
  exact sizedSector_size _ _ hoff

theorem first_flushed (hgood : env.Good) (hoff : s.ram.logfile.dirOffset + 32 ≤ 512) :
    slotByte (s.flushedCard env) (s.ram.logfile.dirLba, s.ram.logfile.dirOffset) 0 =
      slotByte s.card (s.ram.logfile.dirLba, s.ram.logfile.dirOffset) 0 := by
  rw [flushedCard_slot hgood (by omega)]
  simp only [putSize, Function.update_apply, deFileSize]
  repeat rw [if_neg (by omega)]
  rfl

/-- A flush stores the number of bytes written as the size of the file. -/
theorem LoggedTo.flush {fuel : ℕ} (hgood : env.Good) (hoff : s.ram.logfile.dirOffset + 32 ≤ 512)
    (h : LoggedTo s n t) (hrun : (logFlush fuel).run (fwStep env) t = (.ok (), s')) :
    LoggedTo s (n + t.padSectors) s' ∧
      fileSize s'.card (s.ram.logfile.dirLba, s.ram.logfile.dirOffset) =
        u32 (512 * (n + t.padSectors)) := by
  rw [logFlush, run_bind_ok (uartAvailable_run env t), logFlushFrom] at hrun
  obtain ⟨_, u, htail, hrun⟩ := bind_returned hrun
  have hu := h.tail hgood htail
  obtain ⟨r, w, hflush, hr, hram, hcard, -⟩ := fat32Flush_run env u
  have heeprom : w.eeprom = u.eeprom := (fat32Flush_low (hu.dirOffset ▸ hoff)).eeprom rfl hflush
  rw [run_bind_ok (ignoreCode_run hflush hr), saveRecord_run] at hrun
  cases hrun
  have hsize := fileSize_flushed (s := u) hgood (hu.dirOffset ▸ hoff)
  have hfirst := first_flushed (s := u) hgood (hu.dirOffset ▸ hoff)
  rw [hu.dirLba, hu.dirOffset, ← hcard] at hsize hfirst
  refine ⟨⟨?_, ?_, ?_, ?_, ?_, fun hn => hfirst.trans (hu.first hn)⟩, ?_⟩
  · exact (congrArg Ram.cfg hram).trans hu.cfg
  · exact (congrArg (fun r => r.logfile.dirLba) hram).trans hu.dirLba
  · exact (congrArg (fun r => r.logfile.dirOffset) hram).trans hu.dirOffset
  · exact (congrArg (fun r => r.logfile.bytesWritten) hram).trans hu.bytes
  · intro i hi
    exact (savedRecord_low _ _ (by omega)).trans (heeprom ▸ hu.low i hi)
  · exact hsize.trans (by rw [hu.bytes]; simp only [u32]; omega)

theorem LogRun.logged (hgood : env.Good) (hoff : s.ram.logfile.dirOffset + 32 ≤ 512)
    (hzero : s.ram.logfile.bytesWritten = 0) (h : LogRun env s n t) : LoggedTo s n t := by
  induction h with
  | opened => exact ⟨rfl, rfl, rfl, hzero, fun _ _ => rfl, fun _ => rfl⟩
  | idle _ hidle ih => exact ih.idle hidle
  | append call _ hlen hrun ih => exact ih.append hlen hrun
  | flush fuel _ hrun ih => exact (ih.flush hgood hoff hrun).1

/-! The two boots. -/

def Creates (env : Env) (fuel : ℕ) (s s' : Machine) : Prop :=
  (∃ (name : Name) (p : Slot) (u : Machine),
      (searchName fuel s).run (fwStep env) s = (.ok (.create name p.1 p.2), u)) ∧
    (fat32OpenLog fuel).run (fwStep env) s = (.ok (), s')

structure Made (prealloc : ℕ) (s : Machine) : Prop where
  config : HasConfig s.eeprom
  stored : storedConfig s.eeprom = s.ram.cfg
  prealloc : s.ram.cfg.preallocCode = prealloc
  offset : s.ram.logfile.dirOffset + 32 ≤ 512
  empty : s.ram.logfile.bytesWritten = 0
  name : slotByte s.card (s.ram.logfile.dirLba, s.ram.logfile.dirOffset) 0 = 0x4C

theorem Creates.created {fuel : ℕ} (h : Creates env fuel s s') :
    ∃ name p u m t, p.2 + 32 ≤ 512 ∧ name 0 = 0x4C ∧ u.ram.cfg = { s.ram.cfg with logNum := m } ∧
      (createFile fuel s name p).run (fwStep env) u = (.ok (), t) ∧ s' = t.counted := by
  obtain ⟨⟨name, p, u, hsearch⟩, hopen⟩ := h
  rcases openLog_cases (openLog_spc hopen) hopen with ⟨e, hbad, -⟩ | ⟨-, hbad⟩ | ⟨name, p, u, hsearch, h⟩
  · cases hbad
  · rw [hsearch] at hbad
    cases hbad
  rcases h with ⟨-, hbad, -⟩ | ⟨-, e, hbad, -⟩ | ⟨hlba, -, t, hcreate, hs'⟩
  · cases hbad
  · cases hbad
  obtain ⟨-, hoff, hname, m, hcfg⟩ := searchName_slot hlba hsearch
  exact ⟨name, p, u, m, t, hoff, hname, hcfg, hcreate, hs'⟩

theorem Creates.made {fuel : ℕ} (hfits : s.ram.cfg.Fits) (h : Creates env fuel s s') :
    Made s.ram.cfg.preallocCode s' := by
  obtain ⟨name, p, u, m, t, hoff, hname, hcfg, hcreate, rfl⟩ := h.created
  obtain ⟨⟨hkept, hdir, hslot, hzero⟩, hfirst⟩ := createLog_made hcreate
  have hall : t.ram.cfg = { s.ram.cfg with logNum := m } := hkept.trans hcfg
  have hcounted : Config.Fits t.counted.ram.cfg := by
    change Config.Fits { t.ram.cfg with logNum := (t.ram.cfg.logNum + 1) % 2 ^ 16 }
    rw [hall]
    exact ⟨hfits.baud, hfits.escCount, Nat.mod_lt _ (by decide), hfits.preallocCode⟩
  refine ⟨hasConfig_saved _ _, storedConfig_saved hcounted _, ?_, ?_, hzero, ?_⟩
  · change t.ram.cfg.preallocCode = _
    rw [hall]
  · change t.ram.logfile.dirOffset + 32 ≤ 512
    rw [hslot]
    exact hoff
  · change slotByte t.card (t.ram.logfile.dirLba, t.ram.logfile.dirOffset) 0 = 0x4C
    rw [hdir, hslot]
    exact (hfirst hoff).trans hname

theorem storedConfig_congr {e e' : ℕ → Byte} (h : ∀ i, i < 14 → e i = e' i) :
    storedConfig e = storedConfig e' ∧ (HasConfig e ↔ HasConfig e') := by
  have h32 : ∀ i, i + 4 ≤ 14 → le32 e i = le32 e' i := fun i hi =>
    le32_congr fun j _ hj => h j (by omega)
  have h16 : ∀ i, i + 2 ≤ 14 → le16 e i = le16 e' i := fun i hi =>
    le16_congr fun j _ hj => h j (by omega)
  constructor
  · rw [storedConfig, storedConfig, h32 _ (by decide), h16 _ (by decide), h _ (by decide),
      h _ (by decide), h _ (by decide), h _ (by decide)]
  · rw [HasConfig, HasConfig, h32 _ (by decide)]

/-- The log file in use is the one of `t`, with the same cursor. -/
structure Reopened (t s : Machine) : Prop where
  dirLba : s.ram.logfile.dirLba = t.ram.logfile.dirLba
  dirOffset : s.ram.logfile.dirOffset = t.ram.logfile.dirOffset
  bytesWritten : s.ram.logfile.bytesWritten = t.ram.logfile.bytesWritten
  curLba : s.ram.logfile.curLba = t.ram.logfile.curLba

/-- The search of the next boot resumes files of the pre-allocated size only, and it creates files
in free slots only. -/
theorem LoggedTo.not_reopened {fuel code : ℕ} {rxLow : Bool} {r : Except Stop Unit}
    (hmade : Made code s) (hn : n < configPreallocBytes code / 512) (h : LoggedTo s n t)
    (hsize : fileSize t.card (s.ram.logfile.dirLba, s.ram.logfile.dirOffset) = u32 (512 * n))
    (hreset : ¬ (rxLow = true ∧ t.ram.cfg.flags &&& cfgFlIgnoreRxRst = 0))
    (hboot : (boot fuel rxLow).run (fwStep env) (.powerUp t.card t.eeprom) = (r, s')) :
    ¬ (r = .ok () ∧ Reopened t s') := by
  rintro ⟨rfl, hsame⟩
  obtain ⟨hconfig, hmagic⟩ := storedConfig_congr h.low
  obtain ⟨-, hmax, hprealloc⟩ := prealloc_bounds code
  have hcfg : storedConfig t.eeprom = s.ram.cfg := hconfig.trans hmade.stored
  rw [h.cfg, ← hcfg] at hreset
  have hslot := boot_slot (hmagic.mpr hmade.config) hreset hboot
  rw [hsame.dirLba, hsame.dirOffset, h.dirLba, h.dirOffset] at hslot
  rcases hslot with hfull | ⟨hfree, hempty⟩
  · rw [hsize, hcfg, hmade.prealloc] at hfull
    simp only [u32] at hfull
    omega
  · rw [hsame.bytesWritten, h.bytes] at hempty
    simp only [u32] at hempty
    have hfirst := (h.first (by omega)).trans hmade.name
    rw [IsFree, hfirst] at hfree
    exact absurd hfree (by decide)

/-- A log file with fewer sectors than the pre-allocation has is never reopened: its size is the
number of bytes that the flush has stored. -/
theorem reopen_never {env' : Env} {fuel fuel1 fuel2 : ℕ} {t' : Machine} {rxLow : Bool}
    {r : Except Stop Unit} (hgood : env.Good) (hfits : s.ram.cfg.Fits)
    (hcreate : Creates env fuel s s1) (hlog : LogRun env s1 n t)
    (hflush : (logFlush fuel1).run (fwStep env) t = (.ok (), t'))
    (hn : n + t.padSectors < preallocSectors s)
    (hreset : ¬ (rxLow = true ∧ t'.ram.cfg.flags &&& cfgFlIgnoreRxRst = 0))
    (hboot : (boot fuel2 rxLow).run (fwStep env') (.powerUp t'.card t'.eeprom) = (r, s')) :
    ¬ (r = .ok () ∧ Reopened t' s') := by
  have hmade := hcreate.made hfits
  have hlogged := hlog.logged hgood hmade.offset hmade.empty
  obtain ⟨hend, hsize⟩ := hlogged.flush hgood hmade.offset hflush
  exact hend.not_reopened hmade hn hsize hreset hboot

/-! A card that boots, and a log file without a byte. -/

theorem bootMachine_fits : bootMachine.ram.cfg.Fits :=
  ⟨by decide +kernel, by decide +kernel, by decide +kernel, by decide +kernel⟩

theorem bootMachine_creates : ∃ s, Creates Env.ideal 64 bootMachine s ∧ s.unread = 0 ∧
    s.ram.logfile.curLba < s.ram.logfile.endLba := by
  have hgood : Env.ideal.Good := fun _ => rfl
  obtain ⟨-, hvol, hcard⟩ := bootMachine_mounts
  have hv : Geometry bootMachine.ram.vol := hvol ▸ smallVol_geometry
  have hroot : RootOk bootMachine.ram.vol bootMachine.card := by
    rw [hvol, hcard]
    exact rootOk_single (by decide) (by decide)
  have hroom : clusWanted bootMachine ≤ (freeClus bootMachine.ram.vol bootMachine.card).length := by
    decide +kernel
  have hrow : taken bootMachine (clusWanted bootMachine) =
      List.range' (firstFree bootMachine) (clusWanted bootMachine) := by
    decide +kernel
  have hsearch : searchesSlot Env.ideal 64 bootMachine = true := by decide +kernel
  obtain ⟨hneeds, s, hopen⟩ := openLog_succeeds 64 hgood hv hroot hroom (by rw [hvol]; decide) hsearch
  obtain ⟨name, p, u, -, hname⟩ := searchesSlot_run hsearch
  obtain ⟨-, hhead, htail⟩ := (fat32OpenLog_tail 64).run trivial hopen
  have hring : bootMachine.ringHead = 0 ∧ bootMachine.ringTail = 0 := by decide +kernel
  refine ⟨s, ⟨⟨name, p, u, hname⟩, hopen⟩, ?_, ?_⟩
  · rw [Machine.unread, hhead, htail, hring.1, hring.2]
    rfl
  · obtain ⟨_, _, _, _, _, _, _, _, _, h, rfl⟩ := openLog_new hv hroot hneeds hroom hopen
    have hlaid := h.laid hv hroom hrow
    have hsec := preallocSectors_pos bootMachine
    rw [hlaid.cursor, hlaid.limit, List.length_nil]
    omega

/-- One sector is appended. The next boot has another log file, or none. -/
theorem reopen_never_boot : ∃ s u t, Creates Env.ideal 64 bootMachine s ∧ LogRun Env.ideal s 1 u ∧
    (logFlush 64).run (fwStep Env.ideal) u = (.ok (), t) ∧
    ∀ r s', (boot 64 false).run (fwStep Env.ideal) (.powerUp t.card t.eeprom) = (r, s') →
      ¬ (r = .ok () ∧ Reopened t s') := by
  have hgood : Env.ideal.Good := fun _ => rfl
  obtain ⟨s, hcreate, hempty, hroom⟩ := bootMachine_creates
  obtain ⟨u, hcall, hhead, htail⟩ := append_answered hgood sectorCall hroom
  have hzero : u.unread = 0 := by rw [Machine.unread, hhead, htail, ← Machine.unread, hempty]
  have hpad : u.padSectors = 0 := by rw [Machine.padSectors, hzero, if_neg (by decide)]
  obtain ⟨t, hflush, -⟩ := logFlush_idle Env.ideal 64 hzero
  have hrun : LogRun Env.ideal s 1 u := .append sectorCall .opened rfl hcall
  have hsec : preallocSectors bootMachine = 2048 := by decide +kernel
  refine ⟨s, u, t, hcreate, hrun, hflush, fun r s' hboot => ?_⟩
  exact reopen_never hgood bootMachine_fits hcreate hrun hflush (by rw [hpad, hsec]; decide)
    (fun h => absurd h.1 (by decide)) hboot

theorem empty_log_not_reopened : ∃ s t r s', Creates Env.ideal 64 bootMachine s ∧
    (logFlush 64).run (fwStep Env.ideal) s = (.ok (), t) ∧
    (boot 64 false).run (fwStep Env.ideal) (.powerUp t.card t.eeprom) = (r, s') ∧
      ¬ (r = .ok () ∧ Reopened t s') := by
  have hgood : Env.ideal.Good := fun _ => rfl
  obtain ⟨s, hcreate, hempty, -⟩ := bootMachine_creates
  obtain ⟨t, hflush, -⟩ := logFlush_idle Env.ideal 64 hempty
  have hmade := hcreate.made bootMachine_fits
  obtain ⟨hend, hsize⟩ := (LogRun.opened.logged hgood hmade.offset hmade.empty).flush hgood
    hmade.offset hflush
  have hnone : 0 + s.padSectors < configPreallocBytes bootMachine.ram.cfg.preallocCode / 512 := by
    rw [Machine.padSectors, hempty, if_neg (by decide)]
    exact lt_of_lt_of_le (by decide) (prealloc_bounds _).1
  exact ⟨s, t, _, _, hcreate, hflush, rfl,
    hend.not_reopened hmade hnone hsize (nofun ∘ And.left) rfl⟩

end Barelog
