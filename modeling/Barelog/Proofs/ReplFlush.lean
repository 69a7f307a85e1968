import Barelog.Proofs.AppendRun
import Barelog.Proofs.Scan
import Barelog.Proofs.LogRam

/-! The `log_flush` of `repl_enter`. It is written for less than a sector of pending bytes, and
in `repl_enter` there is a sector or more: it appends one sector and consumes everything. -/

namespace Barelog

open Prog

variable {env : Env} {s s' t : Machine} {fuel avail : ℕ}

/-! The parts of `log_flush` behind the append, with a card that answers. -/

/-- The bytes of a directory sector with the size `n` stored at `off`. -/
def putSize (b : ℕ → Byte) (off n : ℕ) : ℕ → Byte :=
  Function.update (Function.update (Function.update (Function.update b off (.ofNat n))
    (off + 1) (.ofNat (n / 2 ^ 8))) (off + 2) (.ofNat (n / 2 ^ 16)))
    (off + 2 + 1) (.ofNat (n / 2 ^ 16 / 2 ^ 8))

theorem putSize_congr {b b' : ℕ → Byte} {i : ℕ} (h : b i = b' i) (off n : ℕ) :
    putSize b off n i = putSize b' off n i := by
  simp only [putSize, Function.update_apply]
  split_ifs <;> first | rfl | exact h

def sizedSector (d : Sector) (l : Logfile) : Sector :=
  fun i => putSize d.byte (l.dirOffset + deFileSize) l.bytesWritten i

def flushLands (env : Env) (n : ℕ) : Prop :=
  env.answer n = .good ∧ env.answer (n + 1) ≠ .refuse ∧ (env.answer (n + 2)).landed = true

instance (env : Env) (n : ℕ) : Decidable (flushLands env n) := instDecidableAnd

def Machine.flushedCard (s : Machine) (env : Env) : ℕ → Sector :=
  if flushLands env s.reqs then Function.update s.card s.ram.logfile.dirLba
    (sizedSector (s.card s.ram.logfile.dirLba) s.ram.logfile)
  else s.card

def Machine.flushEvents (s : Machine) (env : Env) : List CardEvent :=
  if flushLands env s.reqs then [.write s.ram.logfile.dirLba
    (sizedSector (s.card s.ram.logfile.dirLba) s.ram.logfile)]
  else []

theorem flushedCard_of_ne {lba : ℕ} (h : lba ≠ s.ram.logfile.dirLba) :
    s.flushedCard env lba = s.card lba := by
  rw [Machine.flushedCard]
  split_ifs
  · exact Function.update_of_ne h _ _
  · rfl

/-- `fat32_flush` returns, with or without an error, and touches the directory sector only. -/
theorem fat32Flush_run (env : Env) (s : Machine) :
    ∃ r s', fat32Flush.run (fwStep env) s = (r, s') ∧ (r = .ok () ∨ ∃ c, r = .error (.code c)) ∧
      s'.ram = s.ram ∧ s'.card = s.flushedCard env ∧
      s'.ringHead = s.ringHead ∧ s'.ringTail = s.ringTail ∧
      s'.events = s.events ++ s.flushEvents env := by
  have hsector : ∀ ring : ℕ → Byte,
      sectorAt (putSize (load ring 0 (s.card s.ram.logfile.dirLba) 512)
        (s.ram.logfile.dirOffset + deFileSize) s.ram.logfile.bytesWritten) 0 =
          sizedSector (s.card s.ram.logfile.dirLba) s.ram.logfile := by
    intro ring
    funext i
    rw [sectorAt, Nat.zero_add]
    exact putSize_congr (load_inside i.isLt) _ _
  have hset : ∀ u : Machine, (ringSet32 (s.ram.logfile.dirOffset + deFileSize)
      s.ram.logfile.bytesWritten).run (fwStep env) u = (.ok (), u.withRing (putSize u.ring
        (s.ram.logfile.dirOffset + deFileSize) s.ram.logfile.bytesWritten)) := fun _ => rfl
  rw [fat32Flush, getRam_bind]
  by_cases hread : env.answer s.reqs = .good
  swap
  · have hlost : (sdReadSector s.ram.logfile.dirLba 0).run (fwStep env) s =
        (.error (.code (env.answer s.reqs).readCode), s.asked) := by
      rw [sdReadSector_run, if_neg hread]
    rw [run_bind_error hlost, Machine.flushedCard, Machine.flushEvents,
      if_neg (fun h => hread h.1), if_neg (fun h => hread h.1)]
    exact ⟨_, _, rfl, .inr ⟨_, rfl⟩, rfl, rfl, rfl, rfl, (List.append_nil _).symm⟩
  have hgot : (sdReadSector s.ram.logfile.dirLba 0).run (fwStep env) s = (.ok (),
      { s.asked with ring := load s.ring 0 (s.card s.ram.logfile.dirLba) 512 }) := by
    rw [sdReadSector_run, if_pos hread]
  rw [run_bind_ok hgot, run_bind_ok (hset _), sdWriteSector_run, Machine.send, Machine.flushedCard,
    Machine.flushEvents]
  change ∃ r s', (if env.answer (s.reqs + 1) = .refuse then _ else _) = (r, s') ∧ _
  by_cases hcmd : env.answer (s.reqs + 1) = .refuse
  · rw [if_pos hcmd, if_neg (fun h => h.2.1 hcmd), if_neg (fun h => h.2.1 hcmd)]
    exact ⟨_, _, rfl, .inr ⟨_, rfl⟩, rfl, rfl, rfl, rfl, (List.append_nil _).symm⟩
  rw [if_neg hcmd]
  change ∃ r s', ((if env.answer (s.reqs + 2) = .good then _ else _),
    (if (env.answer (s.reqs + 2)).landed then _ else _)) = (r, s') ∧ _
  refine ⟨_, _, rfl, ?_, ?_⟩
  · split_ifs
    · exact .inl rfl
    · exact .inr ⟨_, rfl⟩
  by_cases hland : (env.answer (s.reqs + 2)).landed = true
  · rw [if_pos hland, if_pos ⟨hread, hcmd, hland⟩, if_pos ⟨hread, hcmd, hland⟩]
    exact ⟨rfl, congrArg (Function.update s.card s.ram.logfile.dirLba) (hsector s.ring), rfl, rfl,
      congrArg (fun d => s.events ++ [CardEvent.write s.ram.logfile.dirLba d]) (hsector s.ring)⟩
  · rw [if_neg hland, if_neg (fun h => hland h.2.2), if_neg (fun h => hland h.2.2)]
    exact ⟨rfl, rfl, rfl, rfl, (List.append_nil _).symm⟩

theorem eepromUpdateByte_run (env : Env) (p : ℕ) (b : Byte) (s : Machine) :
    (eepromUpdateByte p b).run (fwStep env) s =
      (.ok (), { s with eeprom := Function.update s.eeprom p b }) := by
  rw [eepromUpdateByte, run_bind_ok (eepromGet_run env s p)]
  split_ifs with h
  · rw [← h, Function.update_eq_self]
    rfl
  · rfl

def savedRecord (bw : ℕ) (eeprom : ℕ → Byte) : ℕ → Byte :=
  Function.update (Function.update (Function.update (Function.update eeprom
    eepromOffRecLo (.ofNat bw)) (eepromOffRecLo + 1) (.ofNat (bw / 2 ^ 8)))
    eepromOffRecHi (.ofNat (bw / 2 ^ 16))) (eepromOffRecHi + 1) (.ofNat (bw / 2 ^ 24))

theorem saveRecord_run (env : Env) (s : Machine) : saveRecord.run (fwStep env) s =
    (.ok (), { s with eeprom := savedRecord s.ram.logfile.bytesWritten s.eeprom }) := by
  rw [saveRecord, fat32BytesWritten, bind_assoc, getRam_bind]
  rw [run_bind_ok (run_pure _ _ s), run_bind_ok (eepromUpdateByte_run ..),
    run_bind_ok (eepromUpdateByte_run ..), run_bind_ok (eepromUpdateByte_run ..)]
  exact eepromUpdateByte_run ..

theorem savedRecord_low (bw : ℕ) (eeprom : ℕ → Byte) {i : ℕ} (hi : i < 16) :
    savedRecord bw eeprom i = eeprom i := by
  simp only [savedRecord, Function.update_apply, eepromOffRecLo, eepromOffRecHi]
  repeat rw [if_neg (by omega)]

def replFlush (fuel : ℕ) : Fw Unit := do
  disableRx
  logFlush fuel

theorem replEnter_eq (fuel : ℕ) : replEnter fuel = (replFlush fuel >>= fun _ => .fail .repl) := rfl

def Machine.padded (s : Machine) : Machine :=
  { s with rxEnabled := false, ring := padRing s.ring s.ringTail s.unread }

/-- `log_flush` from the call of the append on. -/
def flushPadded (fuel avail : ℕ) : Fw Unit := do
  (fat32AppendSector fuel 0 512 none 0).ignoreCode
  uartConsume avail
  fat32Flush.ignoreCode
  saveRecord

theorem logFlush_pending (hn : 0 < s.unread) : (logFlush fuel).run (fwStep env) s =
    (flushPadded fuel s.unread).run (fwStep env)
      (s.withRing (padRing s.ring s.ringTail s.unread)) := by
  rw [logFlush, run_bind_ok (uartAvailable_run env s), logFlushFrom, doIf, if_pos hn, flushTail, bind_assoc,
    run_bind_ok (padSector_run env s.unread s), flushPadded, bind_assoc]

theorem replFlush_run (hn : 0 < s.unread) : (replFlush fuel).run (fwStep env) s =
    (flushPadded fuel s.unread).run (fwStep env) s.padded := by
  have hoff : disableRx.run (fwStep env) s = (.ok (), { s with rxEnabled := false }) := rfl
  rw [replFlush, run_bind_ok hoff]
  exact logFlush_pending hn

theorem ignoreCode_run {p : Fw Unit} {r : Except Stop Unit} (h : p.run (fwStep env) s = (r, s'))
    (hr : r = .ok () ∨ ∃ c, r = .error (.code c)) :
    p.ignoreCode.run (fwStep env) s = (.ok (), s') := by
  rw [Fw.ignoreCode, handle_run, h]
  rcases hr with rfl | ⟨c, rfl⟩
  · rfl
  · rfl

theorem flushPadded_run (avail : ℕ) {r : Except Stop Unit}
    (happend : (fat32AppendSector fuel 0 512 none 0).run (fwStep env) s = (r, t))
    (hr : r = .ok () ∨ ∃ c, r = .error (.code c)) :
    ∃ s', (flushPadded fuel avail).run (fwStep env) s = (.ok (), s') ∧ s'.ram = t.ram ∧
      s'.card = t.flushedCard env ∧
      s'.ringHead = t.ringHead ∧ s'.ringTail = ringMask ((t.ringTail + avail) % 2 ^ 16) ∧
      s'.events = t.events ++ t.flushEvents env := by
  have hconsume : (uartConsume avail).run (fwStep env) t =
      (.ok (), { t with ringTail := ringMask ((t.ringTail + avail) % 2 ^ 16) }) := rfl
  obtain ⟨r', u, hflush, hr', hram, hcard, hhead, htail, hevents⟩ :=
    fat32Flush_run env { t with ringTail := ringMask ((t.ringTail + avail) % 2 ^ 16) }
  rw [flushPadded, run_bind_ok (ignoreCode_run happend hr), run_bind_ok hconsume,
    run_bind_ok (ignoreCode_run hflush hr'), saveRecord_run]
  exact ⟨_, rfl, hram, hcard, hhead, htail, hevents⟩

theorem flushPadded_returned (hrun : (flushPadded fuel avail).run (fwStep env) s = (.ok (), s')) :
    ∃ r t, (fat32AppendSector fuel 0 512 none 0).run (fwStep env) s = (r, t) ∧
      (r = .ok () ∨ ∃ c, r = .error (.code c)) := by
  obtain ⟨_, t, happend, -⟩ := bind_returned hrun
  rw [Fw.ignoreCode, handle_run] at happend
  rcases hr : (fat32AppendSector fuel 0 512 none 0).run (fwStep env) s with ⟨r, u⟩
  rw [hr] at happend
  refine ⟨r, u, rfl, ?_⟩
  cases r with
  | ok a => exact .inl rfl
  | error e =>
    cases e with
    | code c => exact .inr ⟨c, rfl⟩
    | hang => cases happend
    | undef => cases happend
    | repl => cases happend

theorem logFlush_idle (env : Env) (fuel : ℕ) {m : Machine} (hm : m.unread = 0) :
    ∃ m', (logFlush fuel).run (fwStep env) m = (.ok (), m') ∧ m'.ringHead = m.ringHead ∧
      m'.ringTail = m.ringTail ∧ m'.events = m.events ++ m.flushEvents env := by
  have hnone : (doIf (0 > 0) (flushTail fuel 0)).run (fwStep env) m = (.ok (), m) := rfl
  obtain ⟨r, u, hflush, hr, -, -, hhead, htail, hevents⟩ := fat32Flush_run env m
  rw [logFlush, run_bind_ok (uartAvailable_run env m), hm, logFlushFrom, run_bind_ok hnone,
    run_bind_ok (ignoreCode_run hflush hr), saveRecord_run]
  exact ⟨_, rfl, hhead, htail, hevents⟩

/-! What is appended. -/

/-- Some value of the escape counter makes `log_process` find the end of the escape sequence in
the next sector of pending bytes. -/
def Detects (s : Machine) : Prop :=
  ∃ seen, seen < 2 ^ 8 ∧ (scanBytes s.ram.cfg (s.queue.take 512) seen).1 = true

/-- The `log_flush` of `repl_enter` appends all pending bytes, in order, and zeros up to a full
sector, and consumes them. -/
def FlushesAll (env : Env) (fuel : ℕ) (s : Machine) : Prop :=
  ∃ (s' : Machine) (blocks : List Sector) (pad : ℕ),
    (replFlush fuel).run (fwStep env) s = (.ok (), s') ∧ pad < 512 ∧
    blocks.flatMap List.ofFn = s.queue ++ List.replicate pad 0 ∧
    (∀ i (hi : i < blocks.length), s'.card (u32 (s.ram.logfile.curLba + i)) = blocks[i]) ∧
    s'.ram.logfile.bytesWritten = u32 (s.ram.logfile.bytesWritten + 512 * blocks.length) ∧
    s'.unread = 0

/-- `log_process` has called `repl_enter` with a sector or more pending. -/
structure Entering (s : Machine) : Prop where
  ring : RingOk s
  pending : 512 ≤ s.unread
  escCount : s.ram.cfg.escCount < 2 ^ 8
  cursor : s.ram.logfile.curLba < 2 ^ 32
  dir : s.ram.logfile.curLba < s.ram.logfile.endLba → s.ram.logfile.dirLba ≠ s.ram.logfile.curLba

/-- Byte `j` of the blocks is byte `j` mod 512 of block `j` / 512. -/
theorem flatMap_ofFn_getElem? (blocks : List Sector) (j : ℕ) :
    (blocks.flatMap List.ofFn)[j]? = (blocks[j / 512]?).map fun d => d.byte (j % 512) := by
  induction blocks generalizing j with
  | nil => rfl
  | cons d blocks ih =>
    rw [List.flatMap_cons, List.getElem?_append, List.length_ofFn]
    split_ifs with hj
    · rw [Nat.div_eq_of_lt hj, Nat.mod_eq_of_lt hj, List.getElem?_cons_zero, Option.map_some,
        List.getElem?_ofFn, dif_pos hj, Sector.byte, dif_pos hj]
    · rw [ih, show j / 512 = (j - 512) / 512 + 1 by omega, List.getElem?_cons_succ,
        show j % 512 = (j - 512) % 512 by omega]

theorem flatMap_ofFn_length (blocks : List Sector) :
    (blocks.flatMap List.ofFn).length = 512 * blocks.length := by
  induction blocks with
  | nil => rfl
  | cons d blocks ih =>
    rw [List.flatMap_cons, List.length_append, ih, List.length_ofFn, List.length_cons]
    omega

/-- Pending byte `j` is in the sector `j` / 512 from the cursor on. -/
theorem FlushesAll.byte (h : FlushesAll env fuel s) {j : ℕ} (hj : j < s.unread) :
    ∃ s', (replFlush fuel).run (fwStep env) s = (.ok (), s') ∧
      (s'.card (u32 (s.ram.logfile.curLba + j / 512))).byte (j % 512) =
        s.ring ((s.ringTail + j) % 1024) := by
  obtain ⟨s', blocks, pad, hrun, -, hbytes, hcard, -, -⟩ := h
  have hq : (s.queue ++ List.replicate pad 0)[j]? = some (s.ring ((s.ringTail + j) % 1024)) := by
    have hlt : j < s.queue.length := by rwa [queue_length]
    rw [List.getElem?_append_left hlt, List.getElem?_eq_getElem hlt, queue_getElem hlt]
  rw [← hbytes, flatMap_ofFn_getElem?, Option.map_eq_some_iff] at hq
  obtain ⟨d, hd, hbyte⟩ := hq
  obtain ⟨hlt, rfl⟩ := List.getElem?_eq_some_iff.mp hd
  refine ⟨s', hrun, ?_⟩
  rw [hcard _ hlt, hbyte]

/-- An append that fails leaves the count of the bytes written. -/
theorem append_failed {c : ℤ}
    (hrun : (fat32AppendSector fuel 0 512 none 0).run (fwStep env) s = (.error (.code c), t)) :
    t.ram.logfile.bytesWritten = s.ram.logfile.bytesWritten := by
  rcases append_cases hrun with ⟨u, hmake, ⟨hbad, _⟩ | ⟨_, _, hend⟩⟩ | ⟨_, _, hmake⟩
  · cases hbad
  · obtain ⟨⟨endLba, lastClus, hram⟩, _⟩ := makeRoom_keeps hmake
    have htram : t.ram = u.ram := by
      rcases hend with hend | hend
      · exact hend.ram
      · exact hend.ram
    rw [htram, hram]
  · obtain ⟨⟨endLba, lastClus, hram⟩, _⟩ := makeRoom_keeps hmake
    rw [hram]

theorem flushPadded_appended {avail : ℕ}
    (hrun : (flushPadded fuel avail).run (fwStep env) s = (.ok (), s'))
    (hbw : s'.ram.logfile.bytesWritten ≠ s.ram.logfile.bytesWritten) :
    ∃ t, (fat32AppendSector fuel 0 512 none 0).run (fwStep env) s = (.ok (), t) := by
  obtain ⟨r, t, happend, hr⟩ := flushPadded_returned hrun
  rcases hr with rfl | ⟨c, rfl⟩
  · exact ⟨t, happend⟩
  obtain ⟨u, hend, hram, -⟩ := flushPadded_run avail happend (.inr ⟨c, rfl⟩)
  obtain rfl : s' = u := congrArg Prod.snd (hrun.symm.trans hend)
  rw [hram, append_failed happend] at hbw
  exact absurd rfl hbw

/-- So if everything is appended, the append has returned 0. -/
theorem FlushesAll.appended (h : FlushesAll env fuel s) (hn : 512 ≤ s.unread) (hlt : s.unread < 1024) :
    ∃ t, (fat32AppendSector fuel 0 512 none 0).run (fwStep env) s.padded = (.ok (), t) := by
  obtain ⟨s', blocks, pad, hrun, hpad, hbytes, -, hbw, -⟩ := h
  rw [replFlush_run (by omega)] at hrun
  have hlen : 512 * blocks.length = s.unread + pad := by
    have hflat := congrArg List.length hbytes
    rw [flatMap_ofFn_length, List.length_append, queue_length, List.length_replicate] at hflat
    exact hflat
  refine flushPadded_appended hrun fun hkept => ?_
  have hkept : s'.ram.logfile.bytesWritten = s.ram.logfile.bytesWritten := hkept
  rw [hkept] at hbw
  unfold u32 at hbw
  omega

theorem FlushesAll.answered (h : FlushesAll env fuel s) (hn : 512 ≤ s.unread) (hlt : s.unread < 1024)
    (hroom : s.ram.logfile.curLba < s.ram.logfile.endLba) :
    env.answer s.reqs ≠ .refuse ∧ env.answer (s.reqs + 1) = .good := by
  obtain ⟨t, happend⟩ := h.appended hn hlt
  obtain ⟨u, hmake, hcmd, hdone, -⟩ := append_returned happend
  rcases makeRoom_cases hmake with ⟨-, -, rfl⟩ | ⟨hfull, -⟩
  · exact ⟨hcmd, hdone⟩
  · exact absurd hroom (not_lt.mpr hfull)

/-- With room in the file and an answer to the two requests, `log_flush` appends the padded
sector and nothing else. -/
theorem replFlush_room (hn : 0 < s.unread) (hroom : s.ram.logfile.curLba < s.ram.logfile.endLba)
    (hdir : s.ram.logfile.dirLba ≠ s.ram.logfile.curLba)
    (hcmd : env.answer s.reqs ≠ .refuse) (hdone : env.answer (s.reqs + 1) = .good) :
    ∃ s', (replFlush fuel).run (fwStep env) s = (.ok (), s') ∧
      s'.card s.ram.logfile.curLba = sectorAt (padRing s.ring s.ringTail s.unread) 0 ∧
      s'.ram.logfile.bytesWritten = u32 (s.ram.logfile.bytesWritten + 512) ∧
      s'.ringHead = s.ringHead ∧ s'.ringTail = ringMask ((s.ringTail + s.unread) % 2 ^ 16) := by
  have hmake : (makeRoom fuel s.padded.ram.logfile).run (fwStep env) s.padded = (.ok (), s.padded) :=
    makeRoom_idle hroom s.padded
  obtain ⟨t, happend⟩ : ∃ t, (fat32AppendSector fuel 0 512 none 0).run (fwStep env) s.padded =
      (.ok (), t) := append_of_room hmake hcmd hdone
  obtain ⟨u, hmake', -, -, -, hcard, hram, -, hhead, htail, -⟩ := append_returned happend
  obtain rfl : s.padded = u := congrArg Prod.snd (hmake.symm.trans hmake')
  have hsector : spanSector s.padded.ring 0 512 none 0 =
      sectorAt (padRing s.ring s.ringTail s.unread) 0 := by
    rw [spanSector, spanBytes, Option.elim_none, List.append_nil]
    exact sectorOf_ring _ 0
  obtain ⟨s', hend, hram', hcard', hhead', htail', -⟩ :=
    flushPadded_run s.unread happend (.inl rfl)
  have hdirLba : t.ram.logfile.dirLba = s.ram.logfile.dirLba := by
    rw [hram]
    rfl
  refine ⟨s', (replFlush_run hn).trans hend, ?_, ?_, ?_, ?_⟩
  · rw [hcard', flushedCard_of_ne (by rw [hdirLba]; exact hdir.symm), hcard, ← hsector]
    exact Function.update_self ..
  · rw [hram', hram]
    rfl
  · exact hhead'.trans hhead
  · rw [htail', htail]
    rfl

/-- What the append leaves does not depend on the ring, but for the sector at the cursor when
there is room for it. -/
theorem append_blind {t1 t2 : Machine} {ring1 ring2 : ℕ → Byte}
    (h1 : (fat32AppendSector fuel 0 512 none 0).run (fwStep env) (s.withRing ring1) = (.ok (), t1))
    (h2 : (fat32AppendSector fuel 0 512 none 0).run (fwStep env) (s.withRing ring2) = (.ok (), t2)) :
    t1.ram = t2.ram ∧ t1.reqs = t2.reqs ∧
      (s.ram.logfile.curLba < s.ram.logfile.endLba →
        t2.ram.logfile.dirLba = s.ram.logfile.dirLba) ∧
      ∀ lba, (s.ram.logfile.curLba < s.ram.logfile.endLba → lba ≠ s.ram.logfile.curLba) →
        t1.card lba = t2.card lba := by
  obtain ⟨u1, hmake1, -, -, -, hcard1, hram1, hreqs1, -⟩ := append_returned h1
  obtain ⟨u2, hmake2, -, -, -, hcard2, hram2, hreqs2, -⟩ := append_returned h2
  rw [hram1, hram2, hreqs1, hreqs2, hcard1, hcard2]
  rcases makeRoom_cases (s := s.withRing ring1) hmake1 with ⟨hroom, -, rfl⟩ | ⟨hfull, hext1⟩
  · rcases makeRoom_cases (s := s.withRing ring2) hmake2 with ⟨-, -, rfl⟩ | ⟨hfull, -⟩
    · refine ⟨rfl, rfl, fun _ => rfl, fun lba hne => ?_⟩
      have hlba : lba ≠ (s.withRing ring1).ram.logfile.curLba := hne hroom
      have hlba2 : lba ≠ (s.withRing ring2).ram.logfile.curLba := hne hroom
      rw [Function.update_of_ne hlba, Function.update_of_ne hlba2]
      rfl
    · exact absurd hroom (not_lt.mpr hfull)
  · rcases makeRoom_cases (s := s.withRing ring2) hmake2 with ⟨hroom, -, -⟩ | ⟨-, hext2⟩
    · exact absurd hroom (not_lt.mpr hfull)
    have hsame := extendLog_forgets ring2 hext1
    have hu2 : u2 = u1.withRing (splice u1.ring ring2) :=
      congrArg Prod.snd (hext2.symm.trans hsame)
    have hspan : spanSector (splice u1.ring ring2) 0 512 none 0 = spanSector u1.ring 0 512 none 0 := by
      refine spanSector_congr fun i hi => splice_low ?_
      rcases hi with hi | ⟨_, hbad, _⟩
      · omega
      · cases hbad
    rw [hu2]
    refine ⟨rfl, rfl, fun hroom => absurd hroom (not_lt.mpr hfull), fun lba _ => ?_⟩
    change _ = Function.update u1.card s.ram.logfile.curLba
      (spanSector (splice u1.ring ring2) 0 512 none 0) lba
    rw [hspan]
    rfl

/-- So two rings with as many bytes pending leave the same there. -/
theorem replFlush_blind (hn : 0 < s.unread) {s1 s2 t1 t2 : Machine}
    {ring1 ring2 : ℕ → Byte} (hdir : s.ram.logfile.curLba < s.ram.logfile.endLba →
      s.ram.logfile.dirLba ≠ s.ram.logfile.curLba)
    (h1 : (replFlush fuel).run (fwStep env) (s.withRing ring1) = (.ok (), s1))
    (happend1 : (fat32AppendSector fuel 0 512 none 0).run (fwStep env) (s.withRing ring1).padded =
      (.ok (), t1))
    (h2 : (replFlush fuel).run (fwStep env) (s.withRing ring2) = (.ok (), s2))
    (happend2 : (fat32AppendSector fuel 0 512 none 0).run (fwStep env) (s.withRing ring2).padded =
      (.ok (), t2)) {lba : ℕ}
    (hlba : s.ram.logfile.curLba < s.ram.logfile.endLba → lba ≠ s.ram.logfile.curLba) :
    s1.card lba = s2.card lba := by
  rw [replFlush_run (s := s.withRing ring1) hn] at h1
  rw [replFlush_run (s := s.withRing ring2) hn] at h2
  obtain ⟨u1, hend1, -, hcard1, -⟩ := flushPadded_run s.unread happend1 (.inl rfl)
  obtain ⟨u2, hend2, -, hcard2, -⟩ := flushPadded_run s.unread happend2 (.inl rfl)
  obtain rfl : s1 = u1 := congrArg Prod.snd (h1.symm.trans hend1)
  obtain rfl : s2 = u2 := congrArg Prod.snd (h2.symm.trans hend2)
  obtain ⟨hram, hreqs, hsame, hcards⟩ :=
    append_blind (s := { s with rxEnabled := false }) happend1 happend2
  have hslot : t1.card t2.ram.logfile.dirLba = t2.card t2.ram.logfile.dirLba := by
    refine hcards _ fun hroom => ?_
    rw [hsame hroom]
    exact hdir hroom
  rw [hcard1, hcard2, Machine.flushedCard, Machine.flushedCard, hram, hreqs, hslot]
  split_ifs
  · by_cases hd : lba = t2.ram.logfile.dirLba
    · rw [hd, Function.update_self, Function.update_self]
    · rw [Function.update_of_ne hd, Function.update_of_ne hd]
      exact hcards lba hlba
  · exact hcards lba hlba

/-! The condition. -/

/-- A ring that starts with the end of an escape sequence. -/
theorem detects_of_first (h : Entering s) (hfirst : s.ring s.ringTail = s.ram.cfg.escChar) :
    Detects s := by
  have hlen : 0 < (s.queue.take 512).length := by
    have := h.pending
    rw [List.length_take, queue_length]
    omega
  have htail := h.ring.tail
  have hesc := h.escCount
  rcases hq : s.queue.take 512 with _ | ⟨b, bs⟩
  · rw [hq] at hlen
    cases hlen
  have hb : b = s.ram.cfg.escChar := by
    have h0 : (s.queue.take 512)[0]? = some b := by rw [hq]; rfl
    rw [List.getElem?_take_of_lt (by omega), List.getElem?_eq_getElem (by
      rw [queue_length]; have := h.pending; omega), queue_getElem, Nat.add_zero,
      Nat.mod_eq_of_lt htail, hfirst] at h0
    exact (Option.some.inj h0).symm
  refine ⟨s.ram.cfg.escCount - 1, by omega, ?_⟩
  rw [hq, scanBytes, if_pos hb, if_pos (by omega)]

theorem Entering.withRing (h : Entering s) (ring : ℕ → Byte) : Entering (s.withRing ring) :=
  ⟨⟨h.ring.head, h.ring.tail⟩, h.pending, h.escCount, h.cursor, h.dir⟩

/-- Bytes that `log_flush` does not append for every ring: those behind the first sector, and all
of them when the file has to be extended. -/
theorem not_flushesAll_of_blind (env : Env) (fuel : ℕ) (h : Entering s) {j : ℕ} (hj0 : 0 < j)
    (hj : j < s.unread) (hblind : s.ram.logfile.curLba < s.ram.logfile.endLba →
      u32 (s.ram.logfile.curLba + j / 512) ≠ s.ram.logfile.curLba) :
    ∃ ring, Detects (s.withRing ring) ∧ ¬ FlushesAll env fuel (s.withRing ring) := by
  have hpending := h.pending
  have htail := h.ring.tail
  have hlt := h.ring.unread_lt
  obtain ⟨cell, hcell⟩ : ∃ cell, cell = (s.ringTail + j) % 1024 := ⟨_, rfl⟩
  obtain ⟨ring1, hring1⟩ : ∃ ring : ℕ → Byte, ∀ i, ring i = s.ram.cfg.escChar := ⟨fun _ => _, fun _ => rfl⟩
  obtain ⟨ring2, hring2⟩ : ∃ ring, ring = Function.update ring1 cell (otherByte s.ram.cfg.escChar) :=
    ⟨_, rfl⟩
  have hfirst : ring2 s.ringTail = s.ram.cfg.escChar := by
    rw [hring2, Function.update_of_ne (by omega), hring1]
  have hother : ring2 ((s.ringTail + j) % 1024) = otherByte s.ram.cfg.escChar := by
    rw [hring2, ← hcell, Function.update_self]
  have hd1 : Detects (s.withRing ring1) := detects_of_first (h.withRing ring1) (hring1 _)
  have hd2 : Detects (s.withRing ring2) := detects_of_first (h.withRing ring2) hfirst
  by_contra hall
  push Not at hall
  obtain ⟨s1, hrun1, hbyte1⟩ := (hall ring1 hd1).byte hj
  obtain ⟨s2, hrun2, hbyte2⟩ := (hall ring2 hd2).byte hj
  obtain ⟨t1, happend1⟩ := (hall ring1 hd1).appended hpending hlt
  obtain ⟨t2, happend2⟩ := (hall ring2 hd2).appended hpending hlt
  have hsame := replFlush_blind (by omega) h.dir hrun1 happend1 hrun2 happend2 hblind
  have hb1 := hbyte1.trans (hring1 _)
  have hb2 := hbyte2.trans hother
  change (s1.card (u32 (s.ram.logfile.curLba + j / 512))).byte (j % 512) = _ at hb1
  change (s2.card (u32 (s.ram.logfile.curLba + j / 512))).byte (j % 512) = _ at hb2
  rw [hsame, hb2] at hb1
  exact otherByte_ne _ hb1

theorem sectorAt_byte (ring : ℕ → Byte) {i : ℕ} (hi : i < 512) : (sectorAt ring 0).byte i = ring i := by
  rw [Sector.byte, dif_pos hi, sectorAt, Nat.zero_add]

/-- With the tail past 768, the copy of span b runs into its source for some ring. -/
theorem not_flushesAll_of_overlap (fuel : ℕ) (h : Entering s) (hn : s.unread = 512)
    (hroom : s.ram.logfile.curLba < s.ram.logfile.endLba) (hcmd : env.answer s.reqs ≠ .refuse)
    (hdone : env.answer (s.reqs + 1) = .good) (htail : 768 < s.ringTail) :
    ∃ ring, Detects (s.withRing ring) ∧ ¬ FlushesAll env fuel (s.withRing ring) := by
  have hlt := h.ring.tail
  obtain ⟨len, hlen⟩ : ∃ len, len = 1024 - s.ringTail := ⟨_, rfl⟩
  obtain ⟨ring, hring⟩ : ∃ ring : ℕ → Byte, ring = Function.update (fun _ => s.ram.cfg.escChar) len
    (otherByte s.ram.cfg.escChar) := ⟨_, rfl⟩
  have hesc : ∀ i, i ≠ len → ring i = s.ram.cfg.escChar := fun i hi => by
    rw [hring, Function.update_of_ne hi]
  have hother : ring len = otherByte s.ram.cfg.escChar := by rw [hring, Function.update_self]
  have hfirst : ring s.ringTail = s.ram.cfg.escChar := hesc _ (by omega)
  refine ⟨ring, detects_of_first (h.withRing ring) hfirst, fun hall => ?_⟩
  -- pending byte 2 * len is the one in cell len; the sector has that of cell 0 in its place
  have hj : len + len < (s.withRing ring).unread := by
    change len + len < s.unread
    omega
  obtain ⟨s1, hrun1, hbyte⟩ := hall.byte hj
  have hn' : 0 < (s.withRing ring).unread := by
    change 0 < s.unread
    omega
  obtain ⟨s2, hrun2, hcard, -⟩ := replFlush_room hn' hroom (h.dir hroom) hcmd hdone
  obtain rfl : s1 = s2 := congrArg Prod.snd (hrun1.symm.trans hrun2)
  change (s1.card (u32 (s.ram.logfile.curLba + (len + len) / 512))).byte ((len + len) % 512) =
    ring ((s.ringTail + (len + len)) % 1024) at hbyte
  change s1.card s.ram.logfile.curLba = sectorAt (padRing ring s.ringTail s.unread) 0 at hcard
  have hsent : padRing ring s.ringTail 512 (len + len) = ring 0 := by
    rw [padRing_low hlt le_rfl (by omega), if_neg (by omega), if_neg (by omega), ← hlen,
      Nat.add_mod_left, Nat.mod_self]
  rw [show (len + len) / 512 = 0 by omega, Nat.add_zero, u32_of_lt h.cursor, hcard,
    Nat.mod_eq_of_lt (show len + len < 512 by omega), sectorAt_byte _ (by omega), hn, hsent,
    hesc 0 (by omega), show (s.ringTail + (len + len)) % 1024 = len by omega, hother] at hbyte
  exact otherByte_ne _ hbyte.symm

/-- A sector pending, room in the file and the tail at most at 768: everything is appended. -/
theorem flushesAll_of_room (h : Entering s) (hn : s.unread = 512)
    (hroom : s.ram.logfile.curLba < s.ram.logfile.endLba) (hcmd : env.answer s.reqs ≠ .refuse)
    (hdone : env.answer (s.reqs + 1) = .good) (htail : s.ringTail ≤ 768) :
    FlushesAll env fuel s := by
  obtain ⟨s', hrun, hcard, hbw, hhead, htail'⟩ := replFlush_room (by omega) hroom (h.dir hroom) hcmd hdone
  refine ⟨s', [sectorAt (padRing s.ring s.ringTail s.unread) 0], 0, hrun, by decide, ?_, ?_, ?_, ?_⟩
  · rw [List.flatMap_singleton, List.replicate_zero, List.append_nil]
    refine List.ext_getElem (by rw [List.length_ofFn, queue_length, hn]) fun i h1 h2 => ?_
    have hi : i < 512 := by rwa [List.length_ofFn] at h1
    have hlt := h.ring.tail
    rw [List.getElem_ofFn, queue_getElem]
    change padRing s.ring s.ringTail s.unread (0 + i) = _
    rw [Nat.zero_add, hn, padRing_low hlt le_rfl hi, if_neg (by omega)]
    split_ifs with hA
    · rw [Nat.mod_eq_of_lt hA]
    · -- span b is no longer than span a
      have hcell : i % (1024 - s.ringTail) = (s.ringTail + i) % 1024 := by
        rw [Nat.mod_eq_sub_mod (by omega), Nat.mod_eq_of_lt (by omega)]
        omega
      rw [hcell]
  · intro i hi
    have hi0 : i = 0 := Nat.lt_one_iff.mp hi
    subst hi0
    rw [Nat.add_zero, u32_of_lt h.cursor, hcard, List.getElem_singleton]
  · rw [hbw, List.length_singleton, Nat.mul_one]
  · have hq := h.ring.head_eq
    have hlt := h.ring.head
    have ht := h.ring.tail
    rw [Machine.unread, hhead, htail', ringMask_eq, ringCount_eq hlt (Nat.mod_lt _ (by decide)),
      Fifo.count]
    omega

/-- The `log_flush` of `repl_enter` appends the pending bytes, whatever they are, exactly when
there is just one sector of them, the copies do not overlap, the file is not extended and the
card takes the sector. -/
theorem repl_flush_iff (env : Env) (fuel : ℕ) (s : Machine) (h : Entering s) :
    (∀ ring, Detects (s.withRing ring) → FlushesAll env fuel (s.withRing ring)) ↔
      s.unread = 512 ∧ s.ringTail ≤ 768 ∧ s.ram.logfile.curLba < s.ram.logfile.endLba ∧
        env.answer s.reqs ≠ .refuse ∧ env.answer (s.reqs + 1) = .good := by
  have hpending := h.pending
  constructor
  · intro hall
    have hroom : s.ram.logfile.curLba < s.ram.logfile.endLba := by
      by_contra hfull
      obtain ⟨ring, hdetect, hlost⟩ := not_flushesAll_of_blind env fuel h
        (show 0 < 511 by omega) (by omega) fun h => absurd h hfull
      exact hlost (hall ring hdetect)
    have hn : s.unread = 512 := by
      by_contra hmore
      -- byte 512 would be in the sector after the one that is appended
      obtain ⟨ring, hdetect, hlost⟩ := not_flushesAll_of_blind env fuel h
        (show 0 < 512 by omega) (by omega) fun _ => by
          have hcur := h.cursor
          unfold u32
          omega
      exact hlost (hall ring hdetect)
    obtain ⟨hcmd, hdone⟩ := (hall (fun _ => s.ram.cfg.escChar)
      (detects_of_first (h.withRing _) rfl)).answered hpending h.ring.unread_lt hroom
    refine ⟨hn, ?_, hroom, hcmd, hdone⟩
    by_contra htail
    obtain ⟨ring, hdetect, hlost⟩ := not_flushesAll_of_overlap fuel h hn hroom hcmd hdone
      (by omega)
    exact hlost (hall ring hdetect)
  · rintro ⟨hn, htail, hroom, hcmd, hdone⟩ ring -
    exact flushesAll_of_room (h.withRing ring) hn hroom hcmd hdone htail

/-- A log file with room for a sector, and `head` bytes pending from the start of the ring. -/
def enteringMachine (head : ℕ) : Machine :=
  let s := Machine.mounted tinyVol fun _ _ => 0
  { s with ringHead := head, ram := { s.ram with logfile := ⟨3, 13, 14, 12, 0, 0, 512, 3⟩ } }

theorem enteringMachine_entering {head : ℕ} (h : 512 ≤ head) (hlt : head < 1024) :
    Entering (enteringMachine head) := by
  have hok : RingOk (enteringMachine head) := ⟨hlt, show 0 < 1024 by decide⟩
  refine ⟨hok, ?_, show 3 < 2 ^ 8 by decide, show 13 < 2 ^ 32 by decide, fun _ => show 12 ≠ 13 by decide⟩
  rw [hok.unread_eq, Fifo.count]
  change 512 ≤ (head + 1024 - 0) % 1024
  omega

/-- Exactly one sector is pending, three escape characters and then other bytes. -/
theorem repl_flush_one_sector : FlushesAll Env.ideal 1
    ((enteringMachine 512).withRing fun i => if i < 3 then 0x1A else .ofNat i) := by
  have h : Entering (enteringMachine 512) := enteringMachine_entering le_rfl (by decide)
  refine (repl_flush_iff Env.ideal 1 (enteringMachine 512) h).mpr ⟨by decide, by decide, by decide,
    by decide, rfl⟩ _ ?_
  exact detects_of_first (h.withRing _) (by decide)

/-- 600 bytes are pending: those behind the first sector are consumed and not appended. -/
theorem repl_flush_loses : ∃ ring, Detects ((enteringMachine 600).withRing ring) ∧
    ¬ FlushesAll Env.ideal 1 ((enteringMachine 600).withRing ring) :=
  not_flushesAll_of_blind Env.ideal 1 (enteringMachine_entering (by decide) (by decide))
    (show 0 < 512 by decide) (by decide +kernel) fun _ => by decide

end Barelog
