import Barelog.Proofs.ReplFlush

/-! The partial sector that `log_flush` appends. The copy of span b has to move its bytes up by
the length of span a; it goes upward, so with a span b longer than span a it repeats the first
bytes of the ring instead. -/

namespace Barelog

open Prog

variable {env : Env} {s s' : Machine} {fuel : ℕ}

/-- `log_flush` appends one sector, the pending bytes in order and then zeros, and the ring is
empty. The rest of what it does to the card is the directory sector. -/
def AppendsPending (env : Env) (fuel : ℕ) (s : Machine) : Prop :=
  ∃ (s' : Machine) (d : Sector) (dir : List CardEvent),
    (logFlush fuel).run (fwStep env) s = (.ok (), s') ∧
    s'.events = s.events ++ .write s.ram.logfile.curLba d :: dir ∧
    (∀ e ∈ dir, ∃ d', e = .write s.ram.logfile.dirLba d') ∧
    (∀ j, j < s.unread → d.byte j = s.ring ((s.ringTail + j) % 1024)) ∧
    (∀ j, s.unread ≤ j → j < 512 → d.byte j = 0) ∧
    s'.ram.logfile.curLba = u32 (s.ram.logfile.curLba + 1) ∧
    s'.ram.logfile.bytesWritten = u32 (s.ram.logfile.bytesWritten + 512) ∧
    s'.unread = 0

/-- The bytes of span b repeat with the length of span a as the period. -/
def SpanBRepeats (s : Machine) : Prop :=
  ∀ k, k + (1024 - s.ringTail) + (1024 - s.ringTail) < s.unread →
    s.ring (k + (1024 - s.ringTail)) = s.ring k

/-- Less than a sector is pending, and the file has room for one. -/
structure Flushing (s : Machine) : Prop where
  ring : RingOk s
  pending : 0 < s.unread
  short : s.unread < 512
  room : s.ram.logfile.curLba < s.ram.logfile.endLba

/-- With the two requests answered, `log_flush` appends the padded sector. -/
theorem logFlush_run (fuel : ℕ) (h : Flushing s) (hcmd : env.answer s.reqs ≠ .refuse)
    (hdone : env.answer (s.reqs + 1) = .good) :
    ∃ s' dir, (logFlush fuel).run (fwStep env) s = (.ok (), s') ∧
      s'.events = s.events ++
        .write s.ram.logfile.curLba (sectorAt (padRing s.ring s.ringTail s.unread) 0) :: dir ∧
      (∀ e ∈ dir, ∃ d', e = .write s.ram.logfile.dirLba d') ∧
      s'.ram.logfile.curLba = u32 (s.ram.logfile.curLba + 1) ∧
      s'.ram.logfile.bytesWritten = u32 (s.ram.logfile.bytesWritten + 512) ∧ s'.unread = 0 := by
  set p : Machine := s.withRing (padRing s.ring s.ringTail s.unread) with hp
  have hmake : (makeRoom fuel p.ram.logfile).run (fwStep env) p = (.ok (), p) :=
    makeRoom_idle h.room p
  obtain ⟨t, happend⟩ : ∃ t, (fat32AppendSector fuel 0 512 none 0).run (fwStep env) p =
      (.ok (), t) := append_of_room hmake hcmd hdone
  obtain ⟨u, hmake', -, -, -, -, hram, -, hhead, htail, hevents⟩ := append_returned happend
  obtain rfl : p = u := congrArg Prod.snd (hmake.symm.trans hmake')
  have hsector : spanSector p.ring 0 512 none 0 =
      sectorAt (padRing s.ring s.ringTail s.unread) 0 := by
    rw [spanSector, spanBytes, Option.elim_none, List.append_nil]
    exact sectorOf_ring _ 0
  obtain ⟨s', hend, hram', -, hhead', htail', hevents'⟩ :=
    flushPadded_run s.unread happend (.inl rfl)
  refine ⟨s', t.flushEvents env, (logFlush_pending h.pending).trans hend, ?_, ?_, ?_, ?_, ?_⟩
  · rw [hevents', hevents, hsector, List.append_assoc]
    rfl
  · intro e he
    have hdir : t.ram.logfile.dirLba = s.ram.logfile.dirLba := by
      rw [hram]
      rfl
    rw [Machine.flushEvents] at he
    split_ifs at he
    · rw [← hdir, List.mem_singleton.mp he]
      exact ⟨_, rfl⟩
    · cases he
  · rw [hram', hram]
    rfl
  · rw [hram', hram]
    rfl
  · have hq := h.ring.head_eq
    have hlt := h.ring.head
    have ht := h.ring.tail
    have hn := h.short
    have hsame : s'.ringHead = s.ringHead := hhead'.trans hhead
    have hnext : s'.ringTail = ringMask ((s.ringTail + s.unread) % 2 ^ 16) := by
      rw [htail', htail]
      rfl
    rw [Machine.unread, hsame, hnext, ringMask_eq, ringCount_eq hlt (Nat.mod_lt _ (by decide)),
      Fifo.count]
    omega

theorem AppendsPending.answered (h : AppendsPending env fuel s) (hs : Flushing s) :
    env.answer s.reqs ≠ .refuse ∧ env.answer (s.reqs + 1) = .good := by
  obtain ⟨s', d, dir, hrun, -, -, -, -, -, hbw, -⟩ := h
  rw [logFlush_pending hs.pending] at hrun
  -- an append that fails does not count the sector
  have hcounts : s'.ram.logfile.bytesWritten ≠ s.ram.logfile.bytesWritten := by
    intro hkept
    rw [hkept] at hbw
    unfold u32 at hbw
    omega
  obtain ⟨t, happend⟩ := flushPadded_appended hrun hcounts
  obtain ⟨u, hmake, hcmd, hdone, -⟩ := append_returned happend
  obtain rfl := congrArg Prod.snd ((makeRoom_idle hs.room _).symm.trans hmake)
  exact ⟨hcmd, hdone⟩

theorem paddedByte (h : Flushing s) {j : ℕ} (hj : j < 512) :
    (sectorAt (padRing s.ring s.ringTail s.unread) 0).byte j =
      if s.unread ≤ j then 0
      else if s.ringTail + j < 1024 then s.ring (s.ringTail + j)
      else s.ring (j % (1024 - s.ringTail)) := by
  rw [sectorAt_byte _ hj, padRing_low h.ring.tail h.short.le hj]

/-- A repeating span b is what the copy makes of it. -/
theorem SpanBRepeats.mod (h : SpanBRepeats s) (ht : s.ringTail < 1024) (k : ℕ)
    (hk : k + (1024 - s.ringTail) < s.unread) : s.ring k = s.ring (k % (1024 - s.ringTail)) := by
  induction k using Nat.strong_induction_on with
  | _ k ih =>
    rcases Nat.lt_or_ge k (1024 - s.ringTail) with hlt | hge
    · rw [Nat.mod_eq_of_lt hlt]
    · have hstep := h (k - (1024 - s.ringTail)) (by omega)
      rw [Nat.sub_add_cancel hge] at hstep
      rw [hstep, ih _ (by omega) (by omega), ← Nat.mod_eq_sub_mod hge]

theorem AppendsPending.repeats (h : AppendsPending env fuel s) (hs : Flushing s) :
    SpanBRepeats s := by
  obtain ⟨hcmd, hdone⟩ := h.answered hs
  obtain ⟨s1, dir1, hrun1, hevents1, -⟩ := logFlush_run fuel hs hcmd hdone
  obtain ⟨s', d, dir, hrun, hevents, -, hbytes, -⟩ := h
  obtain rfl : s' = s1 := congrArg Prod.snd (hrun.symm.trans hrun1)
  have hcons := List.append_cancel_left (hevents.symm.trans hevents1)
  have hd : d = sectorAt (padRing s.ring s.ringTail s.unread) 0 := by
    injection hcons with hwrite _
    injection hwrite
  have ht := hs.ring.tail
  have hn := hs.short
  -- byte `j` of the sector for a `j` in span b
  have hsent : ∀ k, k + (1024 - s.ringTail) < s.unread →
      s.ring k = s.ring (k % (1024 - s.ringTail)) := by
    intro k hk
    have hbyte := hbytes _ hk
    rw [hd, paddedByte hs (by omega), if_neg (by omega), if_neg (by omega), Nat.add_mod_right,
      show (s.ringTail + (k + (1024 - s.ringTail))) % 1024 = k by omega] at hbyte
    exact hbyte.symm
  intro k hk
  rw [hsent k (by omega), hsent _ hk, Nat.add_mod_right]

theorem appendsPending_of_repeats (hs : Flushing s) (hrep : SpanBRepeats s)
    (hcmd : env.answer s.reqs ≠ .refuse) (hdone : env.answer (s.reqs + 1) = .good) :
    AppendsPending env fuel s := by
  obtain ⟨s', dir, hrun, hevents, hdir, hcur, hbw, hempty⟩ :=
    logFlush_run fuel hs hcmd hdone
  have ht := hs.ring.tail
  have hn := hs.short
  refine ⟨s', _, dir, hrun, hevents, hdir, ?_, ?_, hcur, hbw, hempty⟩
  · intro j hj
    rw [paddedByte hs (by omega), if_neg (by omega)]
    split_ifs with hA
    · rw [Nat.mod_eq_of_lt hA]
    · rw [show (s.ringTail + j) % 1024 = j - (1024 - s.ringTail) by omega,
        hrep.mod ht (j - (1024 - s.ringTail)) (by omega), ← Nat.mod_eq_sub_mod (by omega)]
  · intro j hj hlt
    rw [paddedByte hs hlt, if_pos hj]

/-- `log_flush` appends the pending bytes exactly when the card answers and the bytes of span b
repeat with the length of span a as the period, as they do when span b is no longer than span a. -/
theorem idle_flush_iff (env : Env) (fuel : ℕ) (s : Machine) (hring : RingOk s)
    (hpending : 0 < s.unread) (hshort : s.unread < 512)
    (hroom : s.ram.logfile.curLba < s.ram.logfile.endLba) :
    AppendsPending env fuel s ↔
      SpanBRepeats s ∧ env.answer s.reqs ≠ .refuse ∧ env.answer (s.reqs + 1) = .good := by
  have hs : Flushing s := ⟨hring, hpending, hshort, hroom⟩
  constructor
  · intro h
    exact ⟨h.repeats hs, h.answered hs⟩
  · rintro ⟨hrep, hcmd, hdone⟩
    exact appendsPending_of_repeats hs hrep hcmd hdone

/-- A log file with room for a sector; the tail is at `tail` and the head at `head`. -/
def flushingMachine (tail head : ℕ) (ring : ℕ → Byte) : Machine :=
  { enteringMachine head with ringTail := tail, ring := ring }

theorem flushingMachine_flushing {tail head : ℕ} (ring : ℕ → Byte) (ht : tail < 1024)
    (hh : head < 1024) (hlo : 0 < (head + 1024 - tail) % 1024)
    (hhi : (head + 1024 - tail) % 1024 < 512) : Flushing (flushingMachine tail head ring) := by
  have hok : RingOk (flushingMachine tail head ring) := ⟨hh, ht⟩
  have hunread : (flushingMachine tail head ring).unread = (head + 1024 - tail) % 1024 :=
    hok.unread_eq
  refine ⟨hok, ?_, ?_, show 13 < 14 by decide⟩
  · rw [hunread]
    exact hlo
  · rw [hunread]
    exact hhi

/-- Bytes 1 2 3 4 3 are pending, 1 in cell 1022: span b repeats after two bytes. -/
theorem idle_flush_iff_wrapped : AppendsPending Env.ideal 1
    (flushingMachine 1022 3 fun i => if i = 2 then 3 else .ofNat (i + 3)) := by
  have hs := flushingMachine_flushing (fun i => if i = 2 then 3 else .ofNat (i + 3))
    (show 1022 < 1024 by decide) (show 3 < 1024 by decide) (by decide) (by decide)
  refine (idle_flush_iff Env.ideal 1 _ hs.ring hs.pending hs.short hs.room).mpr
    ⟨fun k hk => ?_, by decide, rfl⟩
  have hpending : k + 2 + 2 < 5 := hk
  obtain rfl : k = 0 := by omega
  rfl

/-- Bytes 8 9 0 1 2 are pending, 8 in cell 1022; byte 4 of the sector is a second 0. -/
theorem idle_flush_repeats :
    ¬ AppendsPending Env.ideal 1 (flushingMachine 1022 3 fun i => .ofNat (i % 1014)) := by
  intro h
  have hs := flushingMachine_flushing (fun i => .ofNat (i % 1014)) (show 1022 < 1024 by decide)
    (show 3 < 1024 by decide) (by decide) (by decide)
  have hrep := h.repeats hs 0 (by decide)
  exact absurd hrep (by decide)

end Barelog
