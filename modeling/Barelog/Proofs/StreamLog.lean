import Barelog.Proofs.StreamFile

/-! Logging from the creation of the file on: turns of the drain loop with RX interrupts anywhere in
them, bytes that arrive in between, and flushes while the line is idle. After a flush the file on the
card is the received stream, with each flushed sector filled up with zeros. -/

namespace Barelog

open Prog Labelled

variable {env env' : Env} {s s' s0 t : Machine} {fuel fuel' : ℕ} {l : List ℕ}

/-- The main loop between two steps. `log_flush` runs with less than a sector pending and no
interrupt in it, and the copy of its span b does not run into its source. -/
inductive Logging (env : Env) (s0 : Machine) : Machine → Prop
  | start : Logging env s0 s0
  | rx {s s' : Machine} (h : Logging env s0 s) (hrx : RxStep s s') : Logging env s0 s'
  | turn {s s' : Machine} {fuel : ℕ} {b : Bool} (h : Logging env s0 s)
      (hroom : s.ram.logfile.curLba < s.ram.logfile.endLba)
      (hrun : Exec (fwStep env) (fun _ => RxStep) (logProcessTurn fuel) s (.ok b) s') :
      Logging env s0 s'
  | flush {s s' : Machine} {fuel : ℕ} (h : Logging env s0 s)
      (hroom : s.ram.logfile.curLba < s.ram.logfile.endLba) (hshort : s.unread < 512)
      (hspan : SpanBRepeats s) (hrun : (logFlush fuel).run (fwStep env) s = (.ok (), s')) :
      Logging env s0 s'

/-- The bytes consumed so far are in the records of the file, and with the queue they are all that
has been received. -/
structure Streamed (s0 : Machine) (lg : CommitLog.Log Sector) (consumed new : List Byte)
    (s : Machine) : Prop where
  ring : RingOk s
  file : LogFile s0 lg s
  counts : lg.Ok
  packed : Blocks.Packed 512 0 consumed (lg.records.map List.ofFn)
  stream : consumed ++ s.queue = s0.queue ++ new
  accepted : s.accepted = s0.accepted ++ new

/-! The flush. -/

theorem accepted_of_run {α : Type} {p : Fw α} {r : Except Stop α}
    (hrun : p.run (fwStep env) s = (r, s')) : s'.accepted = s.accepted := by
  have h := run_accepted env p s
  rwa [hrun] at h

/-- The sector that a flush appends is the queue, filled up with zeros. -/
theorem padded_queue (hs : Flushing s) (hspan : SpanBRepeats s) :
    List.ofFn (sectorAt (padRing s.ring s.ringTail s.unread) 0) = Blocks.padded 512 0 s.queue := by
  have ht := hs.ring.tail
  have hn := hs.short
  have hlen : (Blocks.padded 512 (0 : Byte) s.queue).length = 512 :=
    Blocks.padded_length (by rw [queue_length]; omega)
  refine List.ext_getElem (by rw [sector_length, hlen]) fun i h1 h2 => ?_
  have hi : i < 512 := hlen ▸ h2
  have hbyte := paddedByte hs hi
  rw [Sector.byte, dif_pos hi] at hbyte
  rw [List.getElem_ofFn, Blocks.padded_getElem]
  refine hbyte.trans ?_
  by_cases hq : i < s.unread
  · rw [if_neg (by omega), dif_pos (by rwa [queue_length]), queue_getElem]
    split_ifs with hA
    · rw [Nat.mod_eq_of_lt hA]
    · rw [show (s.ringTail + i) % 1024 = i - (1024 - s.ringTail) by omega,
        hspan.mod ht (i - (1024 - s.ringTail)) (by omega), ← Nat.mod_eq_sub_mod (by omega)]
  · rw [if_pos (by omega), dif_neg (by rwa [queue_length])]

/-- The end of a flush, with a card that answers. -/
theorem flushRest_trace (hgood : env.Good) (hrun : flushRest.run (fwStep env) s = (.ok (), s')) :
    Trace LogStep s [.commit true] s' ∧ s'.ringHead = s.ringHead ∧ s'.ringTail = s.ringTail := by
  obtain ⟨u, hflush⟩ := flush_succeeds hgood s
  obtain ⟨r, u', hflush', -, -, -, hhead, htail, -⟩ := fat32Flush_run env s
  obtain rfl : u = u' := congrArg Prod.snd (hflush.symm.trans hflush')
  rw [flushRest, run_bind_ok (ignoreCode_run hflush (.inl rfl)), saveRecord_run] at hrun
  obtain rfl := congrArg Prod.snd hrun
  have hcommit : LogStep s (some (.commit true)) u := .flush env hflush (by simp)
  exact ⟨(Trace.start.seen hcommit).silent (.apart ⟨rfl, rfl, rfl⟩), hhead, htail⟩

theorem flush_empty (hn : s.unread = 0) :
    (logFlush fuel).run (fwStep env) s = flushRest.run (fwStep env) s := by
  rw [logFlush, run_bind_ok (uartAvailable_run env s), logFlushFrom, hn]
  rfl

theorem flush_pending_trace (hgood : env.Good) (hs : Flushing s)
    (hrun : (logFlush fuel).run (fwStep env) s = (.ok (), s')) :
    Trace LogStep s [.append (sectorAt (padRing s.ring s.ringTail s.unread) 0) true, .commit true] s' ∧
      RingOk s' := by
  set p : Machine := s.withRing (padRing s.ring s.ringTail s.unread) with hp
  let call : AppendCall := ⟨fuel, 0, 512, none, 0⟩
  obtain ⟨u, hcall, hhead, htail⟩ := append_answered (s := p) hgood call hs.room
  have hblock : call.block p = sectorAt (padRing s.ring s.ringTail s.unread) 0 := by
    rw [AppendCall.block, spanSector, spanBytes, Option.elim_none, List.append_nil]
    exact sectorOf_ring _ 0
  have hconsume : (uartConsume s.unread).run (fwStep env) u =
      (.ok (), { u with ringTail := ringMask ((u.ringTail + s.unread) % 2 ^ 16) }) := rfl
  have heq : flushPadded fuel s.unread = (do
      call.code.ignoreCode
      uartConsume s.unread
      flushRest) := rfl
  rw [logFlush_pending hs.pending, heq, run_bind_ok (ignoreCode_run hcall (.inl rfl)),
    run_bind_ok hconsume] at hrun
  obtain ⟨hrest, hhead', htail'⟩ := flushRest_trace hgood hrun
  have hstart : Trace LogStep s [] p := Trace.start.silent (.apart ⟨rfl, rfl, rfl⟩)
  have happend : LogStep p (some (.append (call.block p) true)) u :=
    .append env call rfl hs.room hcall (by simp)
  rw [hblock] at happend
  have hconsumed : Trace LogStep s [.append (sectorAt (padRing s.ring s.ringTail s.unread) 0) true]
      { u with ringTail := ringMask ((u.ringTail + s.unread) % 2 ^ 16) } :=
    (hstart.seen happend).silent (.apart ⟨rfl, rfl, rfl⟩)
  refine ⟨hconsumed.append hrest, ?_, ?_⟩
  · rw [hhead']
    exact hhead.symm ▸ hs.ring.head
  · rw [htail', ringMask_eq]
    exact Nat.mod_lt _ (by decide)

theorem flush_step (hgood : env.Good) (hok : RingOk s) (hshort : s.unread < 512)
    (hroom : s.ram.logfile.curLba < s.ram.logfile.endLba) (hspan : SpanBRepeats s)
    (hrun : (logFlush fuel).run (fwStep env) s = (.ok (), s')) :
    ∃ ds : List Sector, Trace LogStep s (ds.map (.append · true) ++ [.commit true]) s' ∧
      (ds = [] ∧ s.queue = [] ∨ ∃ d, ds = [d] ∧ List.ofFn d = Blocks.padded 512 0 s.queue) ∧
      s'.queue = [] ∧ RingOk s' := by
  rcases Nat.eq_zero_or_pos s.unread with hn | hn
  · rw [flush_empty hn] at hrun
    obtain ⟨htrace, hhead, htail⟩ := flushRest_trace hgood hrun
    have hzero : s'.unread = 0 := by rw [← hn, Machine.unread, Machine.unread, hhead, htail]
    exact ⟨[], htrace, .inl ⟨rfl, List.eq_nil_of_length_eq_zero (by rw [queue_length, hn])⟩,
      List.eq_nil_of_length_eq_zero (by rw [queue_length, hzero]), hhead ▸ hok.head, htail ▸ hok.tail⟩
  · have hs : Flushing s := ⟨hok, hn, hshort, hroom⟩
    have hcmd : env.answer s.reqs ≠ .refuse := by
      rw [hgood]
      decide
    obtain ⟨s1, _, hrun1, -, -, -, -, hzero⟩ := logFlush_run fuel hs hcmd (hgood _)
    obtain rfl : s' = s1 := congrArg Prod.snd (hrun.symm.trans hrun1)
    obtain ⟨htrace, hok'⟩ := flush_pending_trace hgood hs hrun
    exact ⟨[sectorAt (padRing s.ring s.ringTail s.unread) 0], htrace,
      .inr ⟨_, rfl, padded_queue hs hspan⟩,
      List.eq_nil_of_length_eq_zero (by rw [queue_length, hzero]), hok'⟩

/-! The run. -/

theorem Streamed.rx {lg : CommitLog.Log Sector} {consumed new : List Byte}
    (h : Streamed s0 lg consumed new s) (hrx : RxStep s s') :
    ∃ new', Streamed s0 lg consumed new' s' := by
  obtain ⟨-, hram, hcard, -⟩ := hrx.rest
  have hfile := h.file.apart ⟨congrArg Ram.vol hram, congrArg Ram.logfile hram, hcard⟩
  rcases hrx.queue h.ring with ⟨byte, -, hq, hacc, -⟩ | ⟨hq, hacc, -⟩
  · refine ⟨new ++ [byte], hrx.ok h.ring, hfile, h.counts, h.packed, ?_, ?_⟩
    · rw [hq, ← List.append_assoc, h.stream, List.append_assoc]
    · rw [hacc, h.accepted, List.append_assoc]
  · exact ⟨new, hrx.ok h.ring, hfile, h.counts, h.packed, by rw [hq, h.stream],
      by rw [hacc, h.accepted]⟩

theorem Streamed.turn {lg : CommitLog.Log Sector} {consumed new : List Byte} {b : Bool}
    (hgood : env.Good) (h0 : EmptyLog s0) (h : Streamed s0 lg consumed new s)
    (hroom : s.ram.logfile.curLba < s.ram.logfile.endLba)
    (hrun : Exec (fwStep env) (fun _ => RxStep) (logProcessTurn fuel) s (.ok b) s') :
    ∃ lg' consumed' new', Streamed s0 lg' consumed' new' s' := by
  have hwrap : s.ram.logfile.endLba < 2 ^ 32 := by
    rw [h.file.logfile]
    exact h0.wrap
  obtain ⟨more, ds, hacc, hstream, hok, ⟨rfl, hapart⟩ | ⟨d, rfl, hapart⟩⟩ :=
    turn_step hgood h.ring hroom hwrap hrun
  · refine ⟨lg, consumed, new ++ more, hok, h.file.apart hapart, h.counts, h.packed, ?_, ?_⟩
    · rw [List.flatMap_nil, List.nil_append] at hstream
      rw [hstream, ← List.append_assoc, h.stream, List.append_assoc]
    · rw [hacc, h.accepted, List.append_assoc]
  · refine ⟨_, consumed ++ List.ofFn d, new ++ more, hok, (h.file.advance h0 hroom d).apart hapart,
      (CommitLog.Step.append lg d).ok h.counts, ?_, ?_, ?_⟩
    · rw [List.map_append]
      exact h.packed.full (sector_length d)
    · rw [List.flatMap_singleton] at hstream
      rw [List.append_assoc, hstream, ← List.append_assoc, h.stream, List.append_assoc]
    · rw [hacc, h.accepted, List.append_assoc]

/-- After a flush all that has been received is in the file, and all of it counts. -/
theorem Streamed.flush {lg : CommitLog.Log Sector} {consumed new : List Byte}
    (hgood : env.Good) (h0 : EmptyLog s0) (h : Streamed s0 lg consumed new s)
    (hroom : s.ram.logfile.curLba < s.ram.logfile.endLba) (hshort : s.unread < 512)
    (hspan : SpanBRepeats s) (hrun : (logFlush fuel).run (fwStep env) s = (.ok (), s')) :
    ∃ lg', Streamed s0 lg' (s0.queue ++ new) new s' ∧ lg'.view = some lg'.records ∧ s'.queue = [] := by
  obtain ⟨ds, htrace, hds, hempty, hok⟩ := flush_step hgood h.ring hshort hroom hspan hrun
  obtain ⟨lg', hlog, hfile⟩ := h.file.run h0 htrace
  have hrecords : lg'.records = lg.records ++ ds := by
    rw [CommitLog.Run.records hlog, CommitLog.appended_append]
    congr 1
    rcases hds with ⟨rfl, -⟩ | ⟨d, rfl, -⟩
    · rfl
    · rfl
  have hview : lg'.view = some lg'.records := CommitLog.Run.view_commit hlog
  refine ⟨lg', ⟨hok, hfile, CommitLog.Run.ok hlog h.counts, ?_, ?_, ?_⟩, hview, hempty⟩
  · rw [hrecords, List.map_append, ← h.stream]
    rcases hds with ⟨rfl, hq⟩ | ⟨d, rfl, hd⟩
    · rw [hq, List.append_nil, List.map_nil, List.append_nil]
      exact h.packed
    · rw [List.map_singleton, hd]
      exact h.packed.block _ (by rw [queue_length]; omega)
  · rw [hempty, List.append_nil]
  · rw [accepted_of_run hrun, h.accepted]

theorem scanBytes_other {c : Config} {bs : List Byte} (h : ∀ b ∈ bs, b ≠ c.escChar) (seen : ℕ) :
    (scanBytes c bs seen).1 = false := by
  induction bs generalizing seen with
  | nil => rfl
  | cons b bs ih =>
    rw [scanBytes, if_neg (h b List.mem_cons_self)]
    exact ih (fun b' hb => h b' (List.mem_cons_of_mem _ hb)) 0

/-- A turn with a sector pending from the start of the ring on, without an escape character. -/
theorem turn_drains (fuel : ℕ) (hgood : env.Good) (htail : s.ringTail = 0) (hn : 512 ≤ s.unread)
    (hroom : s.ram.logfile.curLba < s.ram.logfile.endLba)
    (hquiet : ∀ i, i < 512 → s.ring i ≠ s.ram.cfg.escChar) :
    ∃ s', (logProcessTurn fuel).run (fwStep env) s = (.ok true, s') ∧ s'.ringHead = s.ringHead ∧
      s'.ringTail = 512 := by
  have hscan : (scanBytes s.ram.cfg ((List.range 512).map fun i => s.ring (0 + i))
      s.ram.escSeen).1 = false := by
    refine scanBytes_other (fun b hb => ?_) _
    obtain ⟨i, hi, rfl⟩ := List.mem_map.mp hb
    rw [Nat.zero_add]
    exact hquiet i (List.mem_range.mp hi)
  obtain ⟨k, hspan⟩ : ∃ k, (scanSpan fuel (some 0) 512).run (fwStep env) s =
      (.ok (), s.withEscSeen k) := by
    refine ⟨(scanBytes s.ram.cfg ((List.range 512).map fun i => s.ring (0 + i)) s.ram.escSeen).2, ?_⟩
    rw [scanSpan, run_bind_ok (scanEscape_run env 512 0 s), hscan, doIf, if_neg Bool.false_ne_true,
      run_pure]
  let call : AppendCall := ⟨fuel, 0, 512, none, 0⟩
  obtain ⟨u, hcall, hhead, htail'⟩ := append_answered (s := s.withEscSeen k) hgood call hroom
  have hconsume : (uartConsume 512).run (fwStep env) u =
      (.ok (), { u with ringTail := ringMask ((u.ringTail + 512) % 2 ^ 16) }) := rfl
  have hget : getTail.run (fwStep env) s = (.ok 0, s) := by
    rw [getTail_run, htail]
  have heq : (scanSpan fuel (some 0) 512 >>= fun _ => scanSpan fuel none 0 >>= fun _ =>
      call.code.ignoreCode >>= fun _ => uartConsume 512 >>= fun _ => (pure true : Fw Bool)).run
        (fwStep env) s =
      (.ok true, { u with ringTail := ringMask ((u.ringTail + 512) % 2 ^ 16) }) := by
    rw [run_bind_ok hspan, scanSpan, run_bind_ok (run_pure _ _ _),
      run_bind_ok (ignoreCode_run hcall (.inl rfl)), run_bind_ok hconsume, run_pure]
  refine ⟨{ u with ringTail := ringMask ((u.ringTail + 512) % 2 ^ 16) }, ?_, hhead, ?_⟩
  · rw [logProcessTurn, run_bind_ok (uartAvailable_run env s), if_pos hn, run_bind_ok hget]
    exact heq
  · dsimp only
    rw [htail', show (s.withEscSeen k).ringTail = 0 from htail]
    rfl

/-- `n` bytes are received while there is room for them. -/
theorem Logging.receives (h : Logging env s0 s) (hok : RingOk s) (hon : s.rxEnabled = true) (b : Byte)
    {n : ℕ} (hn : s.unread + n ≤ 1023) : ∃ t, Logging env s0 t ∧ RingOk t ∧ t.rxEnabled = true ∧
      t.queue = s.queue ++ List.replicate n b ∧ t.accepted = s.accepted ++ List.replicate n b ∧
      t.ringTail = s.ringTail ∧ t.ram = s.ram := by
  induction n with
  | zero => exact ⟨s, h, hok, hon, by simp, by simp, rfl, rfl⟩
  | succ n ih =>
    obtain ⟨t, ht, hok', hon', hqueue, hacc, htail, hram⟩ := ih (by omega)
    have hrx : RxStep t (rxIsr b t) := ⟨hon', b, rfl⟩
    obtain ⟨htail', hram', -, -, -, -, -, hon''⟩ := hrx.rest
    have hlen : t.unread = s.unread + n := by
      rw [← queue_length t, hqueue, List.length_append, queue_length, List.length_replicate]
    obtain ⟨hqueue', hacc', -⟩ := rxIsr_queue hok' b (by omega)
    refine ⟨rxIsr b t, ht.rx hrx, hrx.ok hok', hon''.trans hon', ?_, ?_, htail'.trans htail,
      hram'.trans hram⟩
    · rw [hqueue', hqueue, List.append_assoc, ← List.replicate_succ']
    · rw [hacc', hacc, List.append_assoc, ← List.replicate_succ']

theorem ring_replicate {n i : ℕ} {b : Byte} (htail : s.ringTail = 0) (hn : n ≤ 1024)
    (hqueue : s.queue = List.replicate n b) (hi : i < n) : s.ring i = b := by
  have hin : i < s.queue.length := by rwa [hqueue, List.length_replicate]
  have hcell := queue_getElem hin
  rw [htail, Nat.zero_add, Nat.mod_eq_of_lt (by omega)] at hcell
  have hmem : s.queue[i] ∈ List.replicate n b := hqueue ▸ List.getElem_mem hin
  rw [← hcell, List.eq_of_mem_replicate hmem]

/-- A turn that appends the 512 bytes pending while byte 513 is received. -/
theorem Logging.appends {b : Byte} (h : Logging env s0 s) (hgood : env.Good) (hok : RingOk s)
    (hon : s.rxEnabled = true) (htail : s.ringTail = 0) (hqueue : s.queue = List.replicate 512 b)
    (hb : b ≠ s.ram.cfg.escChar) (hroom : s.ram.logfile.curLba < s.ram.logfile.endLba) :
    ∃ u, Logging env s0 u ∧ RingOk u ∧ u.unread = 1 ∧ u.ringTail = 512 ∧
      u.ram.logfile = s.ram.logfile.advance 512 ∧ u.accepted = s.accepted ++ [b] := by
  have hlen : s.unread = 512 := by rw [← queue_length, hqueue, List.length_replicate]
  have hrx : RxStep s (rxIsr b s) := ⟨hon, b, rfl⟩
  obtain ⟨htail1, hram1, -⟩ := hrx.rest
  obtain ⟨hqueue1, hacc1, -⟩ := rxIsr_queue hok b (by omega)
  rw [hqueue, ← List.replicate_succ'] at hqueue1
  have hok1 := hrx.ok hok
  have hlen1 : (rxIsr b s).unread = 513 := by
    rw [← queue_length, hqueue1, List.length_replicate]
  have htail1' : (rxIsr b s).ringTail = 0 := htail1.trans htail
  have hquiet : ∀ i, i < 512 → (rxIsr b s).ring i ≠ (rxIsr b s).ram.cfg.escChar := by
    intro i hi
    rw [ring_replicate htail1' (by decide) hqueue1 (by omega), hram1]
    exact hb
  obtain ⟨u, hturn, hhead2, htail2⟩ :=
    turn_drains 0 hgood htail1' (by omega) (by rw [hram1]; exact hroom) hquiet
  have hexec := turn_env hok (by omega) hrx hturn
  obtain ⟨-, hlogfile⟩ : Has s.ram.vol (if true then s.ram.logfile.advance 512 else s.ram.logfile)
    u.ram := triple_turn_ram hgood hroom 0 s _ u ⟨rfl, rfl⟩ hexec
  rw [if_pos rfl] at hlogfile
  have hhead3 : u.ringHead = 513 := by
    rw [hhead2, ← hok1.head_eq, htail1', hlen1]
  refine ⟨u, h.turn hroom hexec, ⟨by omega, by omega⟩, ?_, htail2, hlogfile, ?_⟩
  · rw [Machine.unread, hhead3, htail2]
    rfl
  · rw [accepted_of_run hturn, hacc1]

end Barelog
