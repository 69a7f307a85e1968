import Barelog.Proofs.Ring
import Mathlib.Data.List.GetD

/-! `log_process` with RX interrupts between any two of its operations. The interrupt only
appends to the queue, so the first 512 bytes of it, once they are there, stay the same
until the tail moves; the sector is sent from them in place. -/

namespace Barelog

open Prog

/-- The `done` sectors and the queue together are the queue of `s0` and all bytes accepted
since, and a byte was dropped only with 1023 unread. -/
structure Flow (s0 : Machine) (done : List Sector) (lf : Logfile) (evs : List CardEvent)
    (s : Machine) : Prop where
  ok : RingOk s
  logfile : s.ram.logfile = lf
  events : s.events = evs
  stream : ∃ new, s.accepted = s0.accepted ++ new ∧
    done.flatMap List.ofFn ++ s.queue = s0.queue ++ new
  dropped : ∃ drops, s.dropped = s0.dropped ++ drops ∧ ∀ n ∈ drops, n = 1023

/-- Inside a turn: the tail is at `t`, 512 bytes are there, and `φ` holds of the variables,
the data block sent so far and the 512 bytes. -/
structure Busy (s0 : Machine) (done : List Sector) (lf : Logfile) (evs : List CardEvent) (t : ℕ)
    (φ : Ram → List Byte → List Byte → Prop) (s : Machine) : Prop where
  flow : Flow s0 done lf evs s
  tail : s.ringTail = t
  enough : 512 ≤ s.unread
  fact : φ s.ram s.block (s.queue.take 512)

variable {env : Env} {s0 : Machine} {done : List Sector} {lf : Logfile} {evs : List CardEvent}
  {t : ℕ} {φ : Ram → List Byte → List Byte → Prop} {E : Stop → Prop}

theorem flow_stable : Stable RxStep (Flow s0 done lf evs) := by
  intro s s' hrx hs
  obtain ⟨_, hram, _, _, _, _, hevents, _⟩ := hrx.rest
  obtain ⟨new, hacc, hstream⟩ := hs.stream
  obtain ⟨drops, hdrop, hall⟩ := hs.dropped
  refine ⟨hrx.ok hs.ok, by rw [hram, hs.logfile], by rw [hevents, hs.events], ?_, ?_⟩
  · rcases hrx.queue hs.ok with ⟨byte, _, hq, ha, _⟩ | ⟨hq, ha, _⟩
    · refine ⟨new ++ [byte], by rw [ha, hacc, List.append_assoc], ?_⟩
      rw [hq, ← List.append_assoc, hstream, List.append_assoc]
    · exact ⟨new, by rw [ha, hacc], by rw [hq, hstream]⟩
  · rcases hrx.queue hs.ok with ⟨byte, _, _, _, hd⟩ | ⟨_, _, hd⟩
    · exact ⟨drops, by rw [hd, hdrop], hall⟩
    · refine ⟨drops ++ [1023], by rw [hd, hdrop, List.append_assoc], fun n hn => ?_⟩
      rcases List.mem_append.mp hn with h | h
      · exact hall n h
      · exact List.mem_singleton.mp h

theorem busy_stable : Stable RxStep (Busy s0 done lf evs t φ) := by
  intro s s' hrx hs
  obtain ⟨htail, hram, _, _, hblock, _⟩ := hrx.rest
  refine ⟨flow_stable _ _ hrx hs.flow, by rw [htail, hs.tail],
    hs.enough.trans (hrx.unread_le hs.flow.ok), ?_⟩
  rw [hram, hblock, hrx.queue_take hs.flow.ok hs.enough]
  exact hs.fact

/-- A step of the main loop that leaves the ring, its history and the log file as they are. -/
theorem Busy.same {s s' : Machine} {ψ : Ram → List Byte → List Byte → Prop}
    (hs : Busy s0 done lf evs t φ s) (hring : s'.ring = s.ring)
    (hhead : s'.ringHead = s.ringHead) (htail : s'.ringTail = s.ringTail)
    (hlog : s'.ram.logfile = s.ram.logfile) (hev : s'.events = s.events)
    (hacc : s'.accepted = s.accepted) (hdrop : s'.dropped = s.dropped)
    (hfact : φ s.ram s.block (s.queue.take 512) → ψ s'.ram s'.block (s.queue.take 512)) :
    Busy s0 done lf evs t ψ s' := by
  have hq : s'.queue = s.queue := queue_eq_of_ring hring hhead htail
  refine ⟨⟨⟨hhead ▸ hs.flow.ok.head, htail ▸ hs.flow.ok.tail⟩, hlog.trans hs.flow.logfile,
    hev.trans hs.flow.events, ?_, ?_⟩, htail.trans hs.tail, ?_, ?_⟩
  · rw [hacc, hq]
    exact hs.flow.stream
  · rw [hdrop]
    exact hs.flow.dropped
  · rw [← queue_length, hq, queue_length]
    exact hs.enough
  · rw [hq]
    exact hfact hs.fact

theorem triple_read {P : Machine → Prop} {o : FwOp} (hP : Stable RxStep P)
    (ho : ∀ s, (fwStep env o s).2 = s) :
    Triple (fwStep env) RxStep P (op o : Fw o.Reply) (fun _ => P) E :=
  triple_perform hP (fun _ => hP) fun s hs => by rw [ho]; exact hs

theorem triple_getTail {P : Machine → Prop} (hP : Stable RxStep P) :
    Triple (fwStep env) RxStep P getTail (fun tail s => s.ringTail = tail ∧ P s) E :=
  triple_perform hP
    (fun _ s s' hrx hs => ⟨hrx.rest.1.trans hs.1, hP s s' hrx hs.2⟩) fun _ hs => ⟨rfl, hs⟩

theorem triple_getRam {P : Machine → Prop} (hP : Stable RxStep P) :
    Triple (fwStep env) RxStep P getRam (fun r s => s.ram = r ∧ P s) E :=
  triple_perform hP
    (fun _ s s' hrx hs => ⟨hrx.rest.2.1.trans hs.1, hP s s' hrx hs.2⟩) fun _ hs => ⟨rfl, hs⟩

/-- The count read is a lower bound for what is in the ring from then on. -/
theorem triple_uartAvailable {P : Machine → Prop} (hP : Stable RxStep P)
    (hok : ∀ s, P s → RingOk s) :
    Triple (fwStep env) RxStep P uartAvailable (fun n s => n ≤ s.unread ∧ P s) E := by
  have hbound : ∀ n, Stable RxStep fun s => n ≤ s.unread ∧ P s :=
    fun n s s' hrx hs => ⟨hs.1.trans (hrx.unread_le (hok s hs.2)), hP s s' hrx hs.2⟩
  have hhead : ∀ head, Stable RxStep fun s => ringCount head s.ringTail ≤ s.unread ∧ P s := by
    intro head s s' hrx hs
    rw [hrx.rest.1]
    exact hbound _ s s' hrx hs
  refine triple_bind (triple_perform hP hhead fun s hs => ⟨le_rfl, hs⟩) fun head => ?_
  refine triple_bind (triple_getTail (hhead head)) fun tail => ?_
  refine triple_pure (hbound _) fun s hs => ?_
  rw [← hs.1]
  exact hs.2

theorem triple_scanEscape (len buf : ℕ) :
    Triple (fwStep env) RxStep (Busy s0 done lf evs t fun _ _ _ => True) (scanEscape len buf)
      (fun _ => Busy s0 done lf evs t fun _ _ _ => True) E := by
  induction len generalizing buf with
  | zero => exact triple_pure busy_stable fun _ hs => hs
  | succ len ih =>
    have hset : ∀ (r : Ram) (seen : ℕ), Triple (fwStep env) RxStep
        (fun s => s.ram = r ∧ Busy s0 done lf evs t (fun _ _ _ => True) s)
        (setRam { r with escSeen := seen })
        (fun _ => Busy s0 done lf evs t fun _ _ _ => True) E := by
      intro r seen
      refine triple_perform (fun s s' hrx hs => ⟨hrx.rest.2.1.trans hs.1,
        busy_stable s s' hrx hs.2⟩) (fun _ => busy_stable) ?_
      rintro s ⟨rfl, hs⟩
      exact hs.same rfl rfl rfl rfl rfl rfl rfl id
    rw [scanEscape]
    refine triple_bind (triple_read busy_stable fun _ => rfl) fun b => ?_
    refine triple_bind (triple_getRam busy_stable) fun r => ?_
    refine triple_ite (fun _ => ?_) fun _ => ?_
    · refine triple_bind (hset r _) fun _ => triple_ite (fun _ => ?_) fun _ => ih _
      exact triple_pure busy_stable fun _ hs => hs
    · exact triple_bind (hset r 0) fun _ => ih _

/-- The bytes from place `j` of the queue on, sent from the `len` ring cells they are in. -/
theorem triple_spiWriteBuf {buf len j : ℕ} (hj : j + len ≤ 512)
    (hcell : ∀ i, i < len → buf + i = (t + (j + i)) % 1024) :
    Triple (fwStep env) RxStep (Busy s0 done lf evs t fun _ b q => b = q.take j)
      (spiWriteBuf buf len) (fun _ => Busy s0 done lf evs t fun _ b q => b = q.take (j + len))
      E := by
  have hbody : ∀ i, 0 ≤ i → i < 0 + len → Triple (fwStep env) RxStep
      (Busy s0 done lf evs t fun _ b q => b = q.take (j + i))
      (do let b ← ringGet (buf + i); spiSend b)
      (fun _ => Busy s0 done lf evs t fun _ b q => b = q.take (j + (i + 1))) E := by
    intro i _ hi
    refine triple_bind (M := fun x => Busy s0 done lf evs t
      fun _ b q => b = q.take (j + i) ∧ q[j + i]? = some x) ?_ fun x => ?_
    · refine triple_perform busy_stable (fun _ => busy_stable) fun s hs => ?_
      refine hs.same rfl rfl rfl rfl rfl rfl rfl fun hb => ⟨hb, ?_⟩
      have hlt : j + i < s.queue.length := by
        have := hs.enough
        rw [queue_length]
        omega
      rw [List.getElem?_take_of_lt (by omega), List.getElem?_eq_getElem hlt, queue_getElem hlt,
        hs.tail, ← hcell i (by omega)]
      rfl
    · refine triple_perform busy_stable (fun _ => busy_stable) fun s hs => ?_
      refine hs.same rfl rfl rfl rfl rfl rfl rfl fun ⟨hb, hx⟩ => ?_
      change s.block ++ [x] = (s.queue.take 512).take (j + (i + 1))
      rw [← Nat.add_assoc, List.take_add_one, hb, hx]
      rfl
  have hloop := triple_forUp (fun i => busy_stable) hbody
  rwa [Nat.zero_add] at hloop

theorem spans_cases {tail : ℕ} (ht : tail < 1024) (n : ℕ) :
    (tail + n ≤ 1024 ∧ spans tail n = (n, none, 0)) ∨
      (1024 < tail + n ∧ spans tail n = (1024 - tail, some 0, n - (1024 - tail))) := by
  unfold spans ringSize
  split
  · exact .inl ⟨by omega, rfl⟩
  · exact .inr ⟨by omega, rfl⟩

theorem ofFn_sectorOf {b : List Byte} (hb : b.length = 512) : List.ofFn (sectorOf b) = b := by
  refine List.ext_getElem (by rw [List.length_ofFn, hb]) fun i h1 h2 => ?_
  rw [List.getElem_ofFn]
  exact List.getD_eq_getElem b 0 h2

theorem triple_check {P : Machine → Prop} (hP : Stable RxStep P) (ret : ℤ) :
    Triple (fwStep env) RxStep (fun s => ret = 0 ∧ P s) (check ret) (fun _ => P) E := by
  refine triple_of_fact fun hret => ?_
  rw [check, if_pos hret]
  exact triple_pure hP fun _ hs => hs

theorem stable_and {P : Machine → Prop} {c : Prop} (hP : Stable RxStep P) :
    Stable RxStep fun s => c ∧ P s :=
  fun s s' hrx hs => ⟨hs.1, hP s s' hrx hs.2⟩

/-- The zero-copy write of the 512 bytes, with a card that answers. -/
theorem triple_sdWriteSectorZc (hgood : env.Good) (ht : t < 1024) (lba : ℕ) :
    Triple (fwStep env) RxStep (Busy s0 done lf evs t fun _ _ _ => True)
      (sdWriteSectorZc lba t (spans t 512).1 (spans t 512).2.1 (spans t 512).2.2)
      (fun _ s => ∃ d, Busy s0 done lf (evs ++ [.write lba d]) t
        (fun _ _ q => q = List.ofFn d) s) E := by
  have hstable : Stable RxStep fun s => ∃ d, Busy s0 done lf (evs ++ [.write lba d]) t
      (fun _ _ q => q = List.ofFn d) s :=
    fun s s' hrx ⟨d, hs⟩ => ⟨d, busy_stable s s' hrx hs⟩
  have hfinish : Triple (fwStep env) RxStep (Busy s0 done lf evs t fun _ b q => b = q.take 512)
      (do let ret ← writeDone lba; check ret)
      (fun _ s => ∃ d, Busy s0 done lf (evs ++ [.write lba d]) t
        (fun _ _ q => q = List.ofFn d) s) E := by
    refine triple_bind (M := fun ret s => ret = 0 ∧ ∃ d, Busy s0 done lf (evs ++ [.write lba d]) t
      (fun _ _ q => q = List.ofFn d) s) ?_ fun ret => triple_check hstable ret
    refine triple_perform busy_stable (fun _ => stable_and hstable) fun s hs => ?_
    have hq : s.block = s.queue.take 512 := by
      have := hs.fact
      rwa [List.take_take, Nat.min_self] at this
    have hlen : s.block.length = 512 := by
      rw [hq, List.length_take, queue_length, Nat.min_eq_left hs.enough]
    have hstep : fwStep env (.writeDone lba) s = (0, { s with
        card := Function.update s.card lba (sectorOf s.block)
        events := s.events ++ [.write lba (sectorOf s.block)]
        block := []
        reqs := s.reqs + 1 }) := by
      simp only [fwStep, Machine.finish, hgood s.reqs, SdAnswer.landed, if_true, Machine.land,
        SdAnswer.finishCode]
    rw [hstep]
    exact ⟨rfl, sectorOf s.block, ⟨⟨hs.flow.ok.head, hs.flow.ok.tail⟩, hs.flow.logfile,
      by rw [hs.flow.events], hs.flow.stream, hs.flow.dropped⟩, hs.tail, hs.enough,
      ((ofFn_sectorOf hlen).trans hq).symm⟩
  unfold sdWriteSectorZc
  refine triple_bind (M := fun ret s => ret = 0 ∧ Busy s0 done lf evs t
    (fun _ b q => b = q.take 0) s) ?_ fun ret => ?_
  · refine triple_perform busy_stable (fun _ => stable_and busy_stable) fun s hs => ⟨?_, ?_⟩
    · simp only [fwStep, hgood s.reqs, SdAnswer.cmdCode]
    · exact hs.same rfl rfl rfl rfl rfl rfl rfl fun _ => rfl
  refine triple_bind (triple_check busy_stable ret) fun _ => ?_
  rcases spans_cases ht 512 with ⟨hfit, he⟩ | ⟨hwrap, he⟩
  · rw [he]
    refine triple_bind (triple_spiWriteBuf (by omega) fun i hi => by omega) fun _ => ?_
    exact triple_bind (triple_pure busy_stable fun _ hs => hs) fun _ => hfinish
  · rw [he]
    refine triple_bind (triple_spiWriteBuf (by omega) fun i hi => by omega) fun _ => ?_
    have hlen : 0 + (1024 - t) + (512 - (1024 - t)) = 512 := by omega
    have hsecond : Triple (fwStep env) RxStep
        (Busy s0 done lf evs t fun _ b q => b = q.take (0 + (1024 - t)))
        (spiWriteBuf 0 (512 - (1024 - t))) (fun _ => Busy s0 done lf evs t fun _ b q =>
          b = q.take (0 + (1024 - t) + (512 - (1024 - t)))) E :=
      triple_spiWriteBuf (by omega) fun i hi => by omega
    rw [hlen] at hsecond
    refine triple_bind ?_ fun _ => hfinish
    rw [spiWriteSpan, doIf, if_pos (show 512 - (1024 - t) > 0 by omega)]
    exact hsecond

/-- The append to a file that was at `lf`, with `d` sent. -/
def Appended (s0 : Machine) (done : List Sector) (lf : Logfile) (evs : List CardEvent) (t : ℕ)
    (s : Machine) : Prop :=
  ∃ d bw, Busy s0 done { lf with curLba := u32 (lf.curLba + 1), bytesWritten := bw }
    (evs ++ [.write lf.curLba d]) t (fun _ _ q => q = List.ofFn d) s

theorem appended_stable : Stable RxStep (Appended s0 done lf evs t) :=
  fun s s' hrx ⟨d, bw, hs⟩ => ⟨d, bw, busy_stable s s' hrx hs⟩

theorem triple_append (hgood : env.Good) (ht : t < 1024) (hroom : lf.curLba < lf.endLba)
    (fuel : ℕ) :
    Triple (fwStep env) RxStep (Busy s0 done lf evs t fun _ _ _ => True)
      (fat32AppendSector fuel t (spans t 512).1 (spans t 512).2.1 (spans t 512).2.2)
      (fun _ => Appended s0 done lf evs t) E := by
  have hstable : Stable RxStep fun s => ∃ d, Busy s0 done lf
      (evs ++ [.write lf.curLba d]) t (fun _ _ q => q = List.ofFn d) s :=
    fun s s' hrx ⟨d, hs⟩ => ⟨d, busy_stable s s' hrx hs⟩
  have hput : Triple (fwStep env) RxStep (fun s => ∃ d, Busy s0 done lf
      (evs ++ [.write lf.curLba d]) t (fun _ _ q => q = List.ofFn d) s)
      (setLogfile fun l => { l with
        curLba := u32 (l.curLba + 1)
        bytesWritten := u32 (l.bytesWritten + ((spans t 512).1 + (spans t 512).2.2)) })
      (fun _ => Appended s0 done lf evs t) E := by
    unfold setLogfile
    refine triple_bind (triple_getRam hstable) fun r => ?_
    refine triple_perform (fun s s' hrx hs => ⟨hrx.rest.2.1.trans hs.1,
      hstable s s' hrx hs.2⟩) (fun _ => appended_stable) ?_
    rintro s ⟨rfl, d, hs⟩
    refine ⟨d, u32 (lf.bytesWritten + ((spans t 512).1 + (spans t 512).2.2)), ?_⟩
    have hlf := hs.flow.logfile
    exact ⟨⟨⟨hs.flow.ok.head, hs.flow.ok.tail⟩, by simp [fwStep, hlf], hs.flow.events,
      hs.flow.stream, hs.flow.dropped⟩, hs.tail, hs.enough, hs.fact⟩
  unfold fat32AppendSector
  refine triple_bind (M := fun r s => r.logfile = lf ∧ Busy s0 done lf evs t
    (fun _ _ _ => True) s) ?_ fun r => ?_
  · refine triple_conseq (triple_getRam busy_stable) (fun _ hs => hs) ?_
    rintro r s ⟨rfl, hs⟩
    exact ⟨hs.flow.logfile, hs⟩
  refine triple_of_fact fun hr => ?_
  rw [hr, doIf, if_neg (by omega)]
  refine triple_bind (M := fun _ => Busy s0 done lf evs t fun _ _ _ => True)
    (triple_pure busy_stable fun _ hs => hs) fun _ => ?_
  exact triple_bind (triple_sdWriteSectorZc hgood ht _) fun _ => hput

theorem triple_uartConsume {d : Sector} :
    Triple (fwStep env) RxStep (Busy s0 done lf evs t fun _ _ q => q = List.ofFn d)
      (uartConsume 512) (fun _ => Flow s0 (done ++ [d]) lf evs) E := by
  unfold uartConsume
  refine triple_bind (triple_getTail busy_stable) fun tail => ?_
  refine triple_perform (fun s s' hrx hs => ⟨hrx.rest.1.trans hs.1, busy_stable s s' hrx hs.2⟩)
    (fun _ => flow_stable) ?_
  rintro s ⟨rfl, hs⟩
  obtain ⟨hok, hq⟩ := queue_consume hs.flow.ok hs.enough
  obtain ⟨new, hacc, hstream⟩ := hs.flow.stream
  refine ⟨hok, hs.flow.logfile, hs.flow.events, ⟨new, hacc, ?_⟩, hs.flow.dropped⟩
  have hq' : (fwStep env (.setTail (ringMask ((s.ringTail + 512) % 2 ^ 16))) s).2.queue =
      s.queue.drop 512 := hq
  rw [hq', ← hstream, List.flatMap_append, List.flatMap_singleton, ← hs.fact, List.append_assoc,
    List.take_append_drop]

def appendEvents (lba : ℕ) (done : List Sector) : List CardEvent :=
  done.mapIdx fun i d => .write (lba + i) d

theorem appendEvents_concat (lba : ℕ) (done : List Sector) (d : Sector) :
    appendEvents lba (done ++ [d]) = appendEvents lba done ++ [.write (lba + done.length) d] := by
  simp [appendEvents, List.mapIdx_append]

/-- At the test of the loop, `n` turns after `s0`. -/
def AtTest (s0 : Machine) (n : ℕ) (s : Machine) : Prop :=
  ∃ done lf, done.length = n ∧ lf.curLba = s0.ram.logfile.curLba + n ∧
    lf.endLba = s0.ram.logfile.endLba ∧
    Flow s0 done lf (s0.events ++ appendEvents s0.ram.logfile.curLba done) s

theorem atTest_stable (n : ℕ) : Stable RxStep (AtTest s0 n) :=
  fun s s' hrx ⟨done, lf, h1, h2, h3, hs⟩ => ⟨done, lf, h1, h2, h3, flow_stable s s' hrx hs⟩

/-- A scan that finds the escape sequence does not return. -/
theorem triple_scanSpan (fuel : ℕ) (buf : Option ℕ) (len : ℕ) :
    Triple (fwStep env) RxStep (Busy s0 done lf evs t fun _ _ _ => True) (scanSpan fuel buf len)
      (fun _ => Busy s0 done lf evs t fun _ _ _ => True) fun _ => True := by
  cases buf with
  | none => exact triple_pure busy_stable fun _ hs => hs
  | some b =>
    refine triple_bind (triple_scanEscape len b) fun hit => ?_
    refine triple_ite (fun _ => ?_) fun _ => triple_pure busy_stable fun _ hs => hs
    intro s r s' _ hrun
    cases r with
    | error e => trivial
    | ok a =>
      obtain ⟨_, _, _, hrun⟩ := hrun.bind_returned
      obtain ⟨_, _, _, hrun⟩ := hrun.bind_returned
      cases hrun.fail_inv.1

theorem atTest_succ {n : ℕ} {bw : ℕ} {d : Sector} {s : Machine}
    (hlen : done.length = n) (hcur : lf.curLba = s0.ram.logfile.curLba + n)
    (hend : lf.endLba = s0.ram.logfile.endLba) (hwrap : lf.curLba + 1 < 2 ^ 32)
    (hs : Flow s0 (done ++ [d]) { lf with curLba := u32 (lf.curLba + 1), bytesWritten := bw }
      (s0.events ++ appendEvents s0.ram.logfile.curLba done ++ [.write lf.curLba d]) s) :
    AtTest s0 (n + 1) s := by
  refine ⟨done ++ [d], { lf with curLba := u32 (lf.curLba + 1), bytesWritten := bw },
    by rw [List.length_append, hlen, List.length_singleton], ?_, hend, ?_⟩
  · change u32 (lf.curLba + 1) = _
    rw [u32, Nat.mod_eq_of_lt hwrap, hcur, Nat.add_assoc]
  · rw [appendEvents_concat, hlen, ← hcur, ← List.append_assoc]
    exact hs

theorem triple_logProcessTurn (hgood : env.Good) (fuel : ℕ) {n : ℕ}
    (hend : s0.ram.logfile.endLba < 2 ^ 32)
    (hroom : s0.ram.logfile.curLba + n < s0.ram.logfile.endLba) :
    Triple (fwStep env) RxStep (AtTest s0 n) (logProcessTurn fuel)
      (fun b s => b = true → AtTest s0 (n + 1) s) fun _ => True := by
  intro s r s' hs hrun
  obtain ⟨done, lf, hlen, hcur, hlend, hflow⟩ := hs
  have hstable : ∀ b : Bool, Stable RxStep fun s => b = true → AtTest s0 (n + 1) s :=
    fun b s s' hrx hs hb => atTest_stable _ s s' hrx (hs hb)
  suffices hturn : Triple (fwStep env) RxStep
      (Flow s0 done lf (s0.events ++ appendEvents s0.ram.logfile.curLba done))
      (logProcessTurn fuel) (fun b s => b = true → AtTest s0 (n + 1) s) fun _ => True from
    hturn s r s' hflow hrun
  refine triple_bind (triple_uartAvailable flow_stable fun _ hs => hs.ok) fun avail =>
    triple_ite (fun havail => ?_) fun _ => ?_
  · -- the ring holds 512 bytes; from here on the tail is fixed
    refine triple_bind (M := fun t s => t < 1024 ∧ Busy s0 done lf
      (s0.events ++ appendEvents s0.ram.logfile.curLba done) t (fun _ _ _ => True) s) ?_
      fun t => triple_of_fact fun ht => ?_
    · have hmore : Stable RxStep fun s : Machine => avail ≤ s.unread ∧ Flow s0 done lf
          (s0.events ++ appendEvents s0.ram.logfile.curLba done) s :=
        fun s s' hrx hs => ⟨hs.1.trans (hrx.unread_le hs.2.ok), flow_stable s s' hrx hs.2⟩
      refine triple_perform hmore (fun _ => stable_and busy_stable) fun s hs => ?_
      exact ⟨hs.2.ok.tail, hs.2, rfl, le_trans havail hs.1, trivial⟩
    refine triple_bind (triple_scanSpan fuel (some t) _) fun _ => ?_
    refine triple_bind (triple_scanSpan fuel _ _) fun _ => ?_
    refine triple_bind (triple_handle (fun _ => appended_stable)
      (triple_append (E := fun _ => False) hgood ht (by omega) fuel) fun e he => he.elim)
      fun _ => ?_
    refine triple_bind (M := fun _ => AtTest s0 (n + 1)) ?_ fun _ =>
      triple_pure (hstable true) fun _ hs _ => hs
    rintro s r s' ⟨d, bw, hs⟩ hrun
    have h1 := triple_uartConsume (E := fun _ => True) s r s' hs hrun
    cases r with
    | error e => trivial
    | ok a => exact atTest_succ hlen hcur hlend (by omega) h1
  · exact triple_pure (hstable false) fun _ _ hb => by cases hb

/-- Whenever `log_process` is at the test of its loop, `n` turns after `s0`, it has appended
`n` sectors at the LBAs from `cur_lba` on, and these sectors followed by the ring are what the
ring held at first followed by the bytes accepted since. -/
theorem log_process_stream (env : Env) (hgood : env.Good) (fuel n : ℕ) (s0 s : Machine)
    (hok : RingOk s0) (hend : s0.ram.logfile.endLba < 2 ^ 32)
    (hroom : s0.ram.logfile.curLba + n ≤ s0.ram.logfile.endLba)
    (hrun : Turns (fwStep env) RxStep (logProcessTurn fuel) n s0 s) :
    ∃ done new drops, done.length = n ∧
      s.events = s0.events ++ appendEvents s0.ram.logfile.curLba done ∧
      s.accepted = s0.accepted ++ new ∧
      done.flatMap List.ofFn ++ s.queue = s0.queue ++ new ∧
      s.dropped = s0.dropped ++ drops ∧ (∀ k ∈ drops, k = 1023) ∧
      s.ringHead < 1024 ∧ s.ringTail < 1024 := by
  have hstart : AtTest s0 0 s0 := by
    refine ⟨[], s0.ram.logfile, rfl, rfl, rfl, hok, rfl, ?_, ⟨[], ?_, ?_⟩, [], ?_, ?_⟩ <;>
      simp [appendEvents]
  have hstep : ∀ k, k < n → Triple (fwStep env) RxStep (AtTest s0 k) (logProcessTurn fuel)
      (fun b s => b = true → AtTest s0 (k + 1) s) fun _ => True :=
    fun k hk => triple_logProcessTurn hgood fuel hend (by omega)
  obtain ⟨done, lf, hlen, _, _, hs⟩ :=
    Turns.invariant (atTest_stable 0) hstep le_rfl hstart hrun
  obtain ⟨new, hacc, hstream⟩ := hs.stream
  obtain ⟨drops, hdrop, hall⟩ := hs.dropped
  exact ⟨done, new, drops, hlen, hs.events, hacc, hstream, hdrop, hall, hs.ok.head, hs.ok.tail⟩

theorem fwStep_accepted (env : Env) (o : FwOp) (s : Machine) :
    (fwStep env o s).2.accepted = s.accepted := by
  cases o with
  | writeDone lba =>
    simp only [fwStep, Machine.finish]
    split <;> rfl
  | zeroDone lba =>
    simp only [fwStep, Machine.finish]
    split <;> rfl
  | _ => rfl

theorem run_accepted (env : Env) {α : Type} (p : Fw α) (s : Machine) :
    (p.run (fwStep env) s).2.accepted = s.accepted := by
  induction p generalizing s with
  | ret a => rfl
  | fail e => rfl
  | act o k ih => exact (ih _ _).trans (fwStep_accepted env o s)

/-- An interrupt between the count of the unread bytes and the rest of the turn. -/
theorem turn_env {env : Env} {fuel : ℕ} {b : Bool} {s s1 s' : Machine} (hok : RingOk s)
    (hn : 512 ≤ s.unread) (hrx : RxStep s s1)
    (hrun : (logProcessTurn fuel).run (fwStep env) s1 = (.ok b, s')) :
    Exec (fwStep env) (fun _ => RxStep) (logProcessTurn fuel) s (.ok b) s' := by
  rw [logProcessTurn, run_bind_ok (uartAvailable_run env s1),
    if_pos (hn.trans (hrx.unread_le hok))] at hrun
  refine .bind (exec_of_run (uartAvailable_run env s)) (.env hrx ?_)
  rw [if_pos hn]
  exact exec_of_run hrun

/-- 524 bytes are pending, in two spans, and one sector is left in the file. -/
def pendingSector : Machine :=
  { Machine.powerUp (fun _ _ => 0) fun _ => 0xFF with
    ring := fun i => .ofNat i
    ringHead := 100
    ringTail := 600
    ram := ⟨⟨10, 1, 20, 2, 1, 1000, 1, 1⟩, ⟨3, 21, 22, 20, 0, 0, 512, 3⟩, configDefaults, 0⟩ }

/-- One byte arrives before the turn and one in it. -/
theorem log_process_stream_pending : ∃ (s : Machine) (done : List Sector),
    Turns (fwStep Env.ideal) RxStep (logProcessTurn 0) 1 pendingSector s ∧ done.length = 1 ∧
      done.flatMap List.ofFn ++ s.queue = pendingSector.queue ++ [0x41, 0x42] := by
  have hbefore : RxStep pendingSector (rxIsr 0x41 pendingSector) := ⟨rfl, _, rfl⟩
  have hwithin : RxStep (rxIsr 0x41 pendingSector) (rxIsr 0x42 (rxIsr 0x41 pendingSector)) :=
    ⟨rfl, _, rfl⟩
  have hmore : (match ((logProcessTurn 0).run (fwStep Env.ideal)
      (rxIsr 0x42 (rxIsr 0x41 pendingSector))).1 with
      | .ok b => b
      | .error _ => false) = true := by decide +kernel
  have haccepted := run_accepted Env.ideal (logProcessTurn 0) (rxIsr 0x42 (rxIsr 0x41 pendingSector))
  rcases hrun : (logProcessTurn 0).run (fwStep Env.ideal) (rxIsr 0x42 (rxIsr 0x41 pendingSector))
    with ⟨_ | b, s⟩
  · rw [hrun] at hmore
    cases hmore
  · rw [hrun] at hmore haccepted
    obtain rfl : b = true := hmore
    have hok : RingOk pendingSector := ⟨by decide, by decide⟩
    have hturn : Turns (fwStep Env.ideal) RxStep (logProcessTurn 0) 1 pendingSector s :=
      .turn (.here (.single hbefore)) (turn_env (hbefore.ok hok) (by decide) hwithin hrun)
    obtain ⟨done, new, drops, hlen, _, hacc, hstream, _⟩ :=
      log_process_stream Env.ideal (fun _ => rfl) 0 1 pendingSector s hok (by decide) (by decide)
        hturn
    obtain rfl : [0x41, 0x42] = new := haccepted.symm.trans hacc
    exact ⟨s, done, hturn, hlen, hstream⟩

end Barelog
