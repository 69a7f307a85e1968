import Barelog.Proofs.Buffer
import Barelog.Proofs.Ring

/-! `log_flush` with RX interrupts between any two of its operations. It stores in the first
half of the ring, as the pad of the partial sector and as the sector buffer, so a byte that
arrives meanwhile is only safe in a cell that the rest of the flush does not store. -/

namespace Barelog

open Prog

variable {env : Env} {s s' s1 : Machine} {d a t : ℕ} {acc : List Byte}

def Stores (i : ℕ) : FwOp → Prop
  | .ringSet j _ => j = i
  | _ => False

/-- The replies of a machine with the directory entry at `d` and the ring tail at `t`. -/
def FlushReply (d t : ℕ) : (o : FwOp) → o.Reply → Prop
  | .getRam, r => r.logfile.dirOffset = d
  | .getTail, tail => tail = t
  | _, _ => True

/-- The code `q` that is left may store ring cell `i`. -/
def StillStores (q : Fw Unit) (s : Machine) (i : ℕ) : Prop :=
  q.May (FlushReply s.ram.logfile.dirOffset s.ringTail) (Stores i)

/-- An RX interrupt which, if it stores its byte, does so in a cell that the code left does not
store any more. -/
def RxKept (q : Fw Unit) (s s' : Machine) : Prop :=
  RxStep s s' ∧ (s'.accepted ≠ s.accepted → ¬ StillStores q s s.ringHead)

def FlushOp (d : ℕ) : FwOp → Prop
  | .ringSet i _ => i < 512
  | .setTail _ => False
  | .setRam r => r.logfile.dirOffset = d
  | _ => True

/-- With the tail at `t`, the unread bytes but the first `a` are the ones accepted after `acc`,
and `q` stores none of their cells. -/
structure Kept (acc : List Byte) (t a d : ℕ) (q : Fw Unit) (s : Machine) : Prop where
  ok : RingOk s
  tail : s.ringTail = t
  slot : s.ram.logfile.dirOffset = d
  le : a ≤ s.unread
  stream : s.accepted = acc ++ s.queue.drop a
  safe : ∀ j, a ≤ j → j < s.unread → ¬ q.May (FlushReply d t) (Stores ((t + j) % 1024))

theorem Driver.flushOp {o : FwOp} (ho : Driver d o) : FlushOp d o := by
  cases o <;> first | exact trivial | exact ho

theorem unread_succ {byte : Byte} (hq : s'.queue = s.queue ++ [byte]) :
    s'.unread = s.unread + 1 := by
  rw [← queue_length, hq, List.length_append, queue_length, List.length_singleton]

theorem Kept.rx {q : Fw Unit} (hs : Kept acc t a d q s) (hrx : RxKept q s s') :
    Kept acc t a d q s' := by
  obtain ⟨hstep, hsafe⟩ := hrx
  obtain ⟨htail, hram, _⟩ := hstep.rest
  have hle := hs.le
  rcases hstep.queue hs.ok with ⟨byte, _, hq, hacc, _⟩ | ⟨hq, hacc, _⟩
  · have hun := unread_succ hq
    refine ⟨hstep.ok hs.ok, by rw [htail, hs.tail], by rw [hram, hs.slot], by omega, ?_, ?_⟩
    · rw [hacc, hq, hs.stream, List.drop_append_of_le_length (by rw [queue_length]; exact hle),
        List.append_assoc]
    · intro j hj hlt
      rcases Nat.lt_succ_iff_lt_or_eq.mp (hun ▸ hlt) with h | rfl
      · exact hs.safe j hj h
      · -- the new byte is in the cell at the head
        have hhead := hs.ok.head_eq
        have hnew : s'.accepted ≠ s.accepted := by
          rw [hacc]
          simp
        have := hsafe hnew
        rwa [StillStores, hs.slot, ← hhead, hs.tail] at this
  · have hun : s'.unread = s.unread := by rw [← queue_length, hq, queue_length]
    refine ⟨hstep.ok hs.ok, by rw [htail, hs.tail], by rw [hram, hs.slot], by omega, ?_, ?_⟩
    · rw [hacc, hq, hs.stream]
    · intro j hj hlt
      exact hs.safe j hj (hun ▸ hlt)

/-- The ring, its indices and the bytes accepted, as an operation leaves them. -/
theorem flushOp_ring (env : Env) {o : FwOp} (ho : FlushOp d o) (hs : s.ram.logfile.dirOffset = d)
    (ht : s.ringTail = t) :
    (fwStep env o s).2.ringHead = s.ringHead ∧ (fwStep env o s).2.ringTail = s.ringTail ∧
      (fwStep env o s).2.accepted = s.accepted ∧ FlushReply d t o (fwStep env o s).1 ∧
      (fwStep env o s).2.ram.logfile.dirOffset = d ∧
      ((fwStep env o s).2.ring = s.ring ∨
        ∃ i b, o = .ringSet i b ∧ (fwStep env o s).2.ring = Function.update s.ring i b) := by
  cases o with
  | ringSet i b => exact ⟨rfl, rfl, rfl, trivial, hs, .inr ⟨i, b, rfl, rfl⟩⟩
  | setTail t => exact ho.elim
  | setRam r => exact ⟨rfl, rfl, rfl, trivial, ho, .inl rfl⟩
  | getRam => exact ⟨rfl, rfl, rfl, hs, hs, .inl rfl⟩
  | getTail => exact ⟨rfl, rfl, rfl, ht, hs, .inl rfl⟩
  | writeDone lba =>
    simp only [fwStep, Machine.finish]
    split <;> exact ⟨rfl, rfl, rfl, trivial, hs, .inl rfl⟩
  | zeroDone lba =>
    simp only [fwStep, Machine.finish]
    split <;> exact ⟨rfl, rfl, rfl, trivial, hs, .inl rfl⟩
  | _ => exact ⟨rfl, rfl, rfl, trivial, hs, .inl rfl⟩

theorem Kept.act (env : Env) {o : FwOp} {k : o.Reply → Fw Unit} (hs : Kept acc t a d (.act o k) s)
    (ho : FlushOp d o) : Kept acc t a d (k (fwStep env o s).1) (fwStep env o s).2 := by
  obtain ⟨hhead, htail, hacc, hreply, hslot, hring⟩ := flushOp_ring env ho hs.slot hs.tail
  have hun : (fwStep env o s).2.unread = s.unread := by
    rw [Machine.unread, Machine.unread, hhead, htail]
  have hdrop : (fwStep env o s).2.queue.drop a = s.queue.drop a := by
    rw [Machine.queue, Machine.queue, hun, htail, Fifo.contents_drop, Fifo.contents_drop]
    rcases hring with hring | ⟨i, b, rfl, hring⟩
    · rw [hring]
    · rw [hring]
      refine Fifo.contents_update_outside _ _ fun j hj hcell => ?_
      refine hs.safe (a + j) (Nat.le_add_right _ _) (by omega) (.inl ?_)
      rw [← hcell, Nat.mod_add_mod, hs.tail, Nat.add_assoc]
      rfl
  refine ⟨⟨hhead ▸ hs.ok.head, htail ▸ hs.ok.tail⟩, htail.trans hs.tail, hslot, hun ▸ hs.le,
    by rw [hacc, hdrop, hs.stream], fun j hj hlt hmay => ?_⟩
  exact hs.safe j hj (hun ▸ hlt) (.inr ⟨_, hreply, hmay⟩)

theorem Kept.phase {β : Type} {p : Fw β} {f : β → Fw Unit} {b : β}
    (hrun : Exec (fwStep env) (fun q => RxKept (q >>= f)) p s (.ok b) s')
    (hp : p.Only (FlushReply d t) (FlushOp d)) (hs : Kept acc t a d (p >>= f) s) :
    Kept acc t a d (f b) s' := by
  generalize hr : (Except.ok b : Except Stop β) = r at hrun
  induction hrun with
  | ret c s =>
    cases hr
    exact hs
  | fail e s => cases hr
  | act _ ih =>
    have hreply := (flushOp_ring env hp.1 hs.slot hs.tail).2.2.2.1
    exact ih (hp.2 _ hreply) (hs.act env hp.1) hr
  | env h1 _ ih => exact ih hp (hs.rx h1) hr

theorem Kept.consume {p : Fw Unit} (hp : ∀ u, p.Only (FlushReply d u) fun o => o ≠ FwOp.getTail)
    (hrun : Exec (fwStep env) RxKept (uartConsume a >>= fun _ => p) s (.ok ()) s')
    (hs : Kept acc t a d (uartConsume a >>= fun _ => p) s) :
    ∃ s1, Exec (fwStep env) RxKept p s1 (.ok ()) s' ∧ Kept acc ((t + a) % 1024) 0 d p s1 := by
  have hstar : ∀ q : Fw Unit, ∀ u u', Relation.ReflTransGen (RxKept q) u u' →
      Kept acc t a d q u → Kept acc t a d q u' := by
    intro q u u' hrx hu
    induction hrx with
    | refl => exact hu
    | tail _ h1 ih => exact ih.rx h1
  obtain ⟨s1, hrx1, hrun1⟩ := Exec.act_inv hrun
  have hs1 := (hstar _ _ _ hrx1 hs).act env trivial
  obtain ⟨s2, hrx2, hrun2⟩ := Exec.act_inv hrun1
  have hs2 := hstar _ _ _ hrx2 hs1
  have htail : s1.ringTail = s2.ringTail := (hstar _ _ _ hrx1 hs).tail.trans hs2.tail.symm
  have htail2 := hs2.tail
  have hlt2 := hs2.ok.tail
  obtain ⟨hok, hq⟩ := queue_consume hs2.ok hs2.le
  set s3 : Machine := { s2 with ringTail := ringMask ((s2.ringTail + a) % 2 ^ 16) } with hs3
  have hrun3 : Exec (fwStep env) RxKept p s3 (.ok ()) s' := by
    rw [hs3, ← htail]
    exact hrun2
  have hun : s3.unread = s2.unread - a := by
    rw [← queue_length, hq, List.length_drop, queue_length]
  refine ⟨s3, hrun3, hok, ?_, hs2.slot, Nat.zero_le _, ?_, fun j _ hj hmay => ?_⟩
  · change ringMask ((s2.ringTail + a) % 2 ^ 16) = _
    rw [ringMask_eq]
    omega
  · rw [List.drop_zero, hq]
    exact hs2.stream
  · refine hs2.safe (a + j) (Nat.le_add_right _ _) (by omega) (.inr ⟨(), trivial, ?_⟩)
    rw [← Nat.add_assoc, ← Nat.mod_add_mod]
    refine hmay.of_replies ((hp _).mono (fun _ _ hr => hr) fun o ho r hr => ?_)
    cases o <;> first | exact hr | exact absurd rfl ho

/-! The parts of a flush. -/

theorem InBuffer.within {β : Type} {p : Fw β} {A : FwOp → Prop} (hp : InBuffer d p)
    (hA : ∀ o, Driver d o → A o) : p.Only (FlushReply d t) A :=
  hp.mono (fun o r hr => by cases o <;> first | exact hr | trivial) hA

theorem InBuffer.flush {β : Type} {p : Fw β} (hp : InBuffer d p) :
    p.Only (FlushReply d t) (FlushOp d) :=
  hp.within fun _ ho => ho.flushOp

theorem spiWriteBuf_flush (buf len : ℕ) : (spiWriteBuf buf len).Only (FlushReply d t) (FlushOp d) :=
  only_forUp fun _ _ _ => only_bind (only_perform trivial) fun _ => only_perform trivial

theorem spiWriteSpan_flush (spanB : Option ℕ) (lenB : ℕ) :
    (spiWriteSpan spanB lenB).Only (FlushReply d t) (FlushOp d) := by
  cases spanB with
  | none => trivial
  | some b => exact only_ite (fun _ => spiWriteBuf_flush b lenB) fun _ => trivial

theorem append_flush (fuel spanA lenA : ℕ) (spanB : Option ℕ) (lenB : ℕ) :
    (fat32AppendSector fuel spanA lenA spanB lenB).Only (FlushReply d t) (FlushOp d) := by
  rw [append_eq]
  refine only_bind (only_perform trivial) fun r => only_bind ?_ fun _ => ?_
  · refine only_ite (fun _ => ?_) fun _ => trivial
    rw [extendLog_eq]
    exact only_bind (only_perform trivial) fun r => only_bind (findFree_low _ _).flush fun c =>
      (extendWith_low r c).flush
  · refine only_bind ?_ fun _ => (setLogfile_low fun _ => rfl).flush
    refine only_bind (only_perform trivial) fun ret => only_bind (check_low ret).flush fun _ => ?_
    refine only_bind (spiWriteBuf_flush _ _) fun _ => only_bind (spiWriteSpan_flush _ _) fun _ => ?_
    exact only_bind (only_perform trivial) fun ret => (check_low ret).flush

theorem ignoreCode_flush {p : Fw Unit} (hp : p.Only (FlushReply d t) (FlushOp d)) :
    p.ignoreCode.Only (FlushReply d t) (FlushOp d) :=
  only_handle hp fun e => by cases e <;> trivial

theorem spans_len (tail n : ℕ) : (spans tail n).1 + (spans tail n).2.2 = n := by
  unfold spans
  split
  · rfl
  · dsimp only
    omega

theorem padSector_flush {avail : ℕ} (havail : avail ≤ 512) :
    (padSector avail).Only (FlushReply d t) (FlushOp d) := by
  refine only_bind (only_perform trivial) fun tail => ?_
  have hlen := spans_len tail avail
  generalize spans tail avail = sp at hlen ⊢
  obtain ⟨lenA, spanB, lenB⟩ := sp
  dsimp only at hlen ⊢
  refine only_bind ?_ fun _ => only_bind (only_forUp fun j _ hj => ?_) fun _ =>
    only_forUp fun j _ hj => only_perform (show j < 512 by omega)
  · cases spanB with
    | none => trivial
    | some b =>
      refine only_forUp fun k _ hk => only_bind (only_perform trivial) fun _ => ?_
      exact only_perform (show lenA + k < 512 by omega)
  · exact only_bind (only_perform trivial) fun _ => only_perform (show j < 512 by omega)

theorem ringSet32_low {i : ℕ} (hi : i + 3 < 512) (n : ℕ) : InBuffer d (ringSet32 i n) := by
  refine only_bind ?_ fun _ => ?_
  · exact only_bind (ringSet_low (by omega) _) fun _ => ringSet_low (by omega) _
  · exact only_bind (ringSet_low (by omega) _) fun _ => ringSet_low (by omega) _

theorem fat32Flush_low (hd : d + 32 ≤ 512) : InBuffer d fat32Flush := by
  refine getRam_bind_low fun r hr => only_bind (sdReadSector_low _) fun _ => ?_
  rw [hr]
  exact only_bind (ringSet32_low (by unfold deFileSize; omega) _) fun _ => sdWriteSector_low _

/-- What `log_flush` does after the partial sector. -/
def flushRest : Fw Unit := do
  fat32Flush.ignoreCode
  saveRecord

theorem flushRest_only (hd : d + 32 ≤ 512) :
    flushRest.Only (FlushReply d t) fun o => FlushOp d o ∧ o ≠ FwOp.getTail := by
  have hupdate : ∀ p b, (eepromUpdateByte p b).Only (FlushReply d t) fun o =>
      FlushOp d o ∧ o ≠ FwOp.getTail := fun p b =>
    only_bind (only_perform ⟨trivial, nofun⟩) fun old =>
      only_ite (fun _ => trivial) fun _ => only_perform ⟨trivial, nofun⟩
  have hflush : fat32Flush.Only (FlushReply d t) fun o => FlushOp d o ∧ o ≠ FwOp.getTail := by
    refine (fat32Flush_low hd).within fun o ho => ⟨ho.flushOp, ?_⟩
    rintro rfl
    exact ho
  refine only_bind (only_handle hflush fun e => by cases e <;> trivial) fun _ => ?_
  refine only_bind (only_bind (only_perform ⟨trivial, nofun⟩) fun _ => trivial) fun bw => ?_
  exact only_bind (hupdate _ _) fun _ => only_bind (hupdate _ _) fun _ =>
    only_bind (hupdate _ _) fun _ => hupdate _ _

theorem flushRest_flush (hd : d + 32 ≤ 512) : flushRest.Only (FlushReply d t) (FlushOp d) :=
  (flushRest_only hd).mono (fun _ _ hr => hr) fun _ ho => ho.1

/-- `log_flush` once `uart_available` has read `ring_head`. -/
def logFlushAt (fuel head : ℕ) : Fw Unit := do
  let tail ← getTail
  logFlushFrom fuel (ringCount head tail)

theorem flush_eq_of_pending {fuel : ℕ} (ha : a > 0) : logFlushFrom fuel a =
    ((padSector a >>= fun _ => (fat32AppendSector fuel 0 512 none 0).ignoreCode) >>= fun _ =>
      uartConsume a >>= fun _ => flushRest) := by
  rw [logFlushFrom, doIf, if_pos ha, flushTail]
  simp only [bind_assoc]
  rfl

theorem Kept.last {p : Fw Unit} (hp : p.Only (FlushReply d t) (FlushOp d))
    (hrun : Exec (fwStep env) RxKept p s (.ok ()) s') (hs : Kept acc t a d p s) :
    s'.accepted = acc ++ s'.queue.drop a := by
  have hbind : (fun q : Fw Unit => RxKept (q >>= fun u => pure u)) = RxKept := by
    funext q
    rw [bind_pure]
  have hs' : Kept acc t a d (p >>= fun u => pure u) s := by rwa [bind_pure]
  exact (Kept.phase (hbind ▸ hrun) hp hs').stream

/-- A flush with `a` bytes pending, up to its end. -/
theorem Kept.flushed {fuel : ℕ} (ha : a < 512) (hd : d + 32 ≤ 512)
    (hrun : Exec (fwStep env) RxKept (logFlushFrom fuel a) s (.ok ()) s')
    (hs : Kept acc t a d (logFlushFrom fuel a) s) : s'.accepted = acc ++ s'.queue := by
  rcases Nat.eq_zero_or_pos a with rfl | hpos
  · exact Kept.last (a := 0) (flushRest_flush hd) hrun hs
  · rw [flush_eq_of_pending hpos] at hrun hs
    obtain ⟨_, s1, hpad, hrest⟩ := hrun.bind_returned
    have hs1 := Kept.phase hpad (only_bind (padSector_flush ha.le) fun _ =>
      ignoreCode_flush (append_flush _ _ _ _ _)) hs
    obtain ⟨s2, hlast, hs2⟩ := hs1.consume
      (fun _ => (flushRest_only hd).mono (fun _ _ hr => hr) fun _ ho => ho.2) hrest
    exact hs2.last (flushRest_flush hd) hlast

/-- While RX interrupts store only in cells that the flush no longer stores, every byte accepted
after `uart_available` has read `ring_head` is in the ring when `log_flush` returns. -/
theorem log_flush_keeps (env : Env) (fuel : ℕ) (s s' : Machine) (hok : RingOk s)
    (hidle : s.unread < 512) (hslot : s.ram.logfile.dirOffset + 32 ≤ 512)
    (hrun : Exec (fwStep env) RxKept (logFlushAt fuel s.ringHead) s (.ok ()) s') :
    s'.accepted = s.accepted ++ s'.queue := by
  obtain ⟨s1, hrx, hrun1⟩ := Exec.act_inv hrun
  have hstart : Kept s.accepted s.ringTail s.unread s.ram.logfile.dirOffset
      (logFlushAt fuel s.ringHead) s := by
    refine ⟨hok, rfl, rfl, le_rfl, ?_, fun j hj hlt => absurd hlt (by omega)⟩
    rw [List.drop_eq_nil_of_le (by rw [queue_length]), List.append_nil]
  have hs1 : Kept s.accepted s.ringTail s.unread s.ram.logfile.dirOffset
      (logFlushAt fuel s.ringHead) s1 := by
    clear hrun hrun1
    induction hrx with
    | refl => exact hstart
    | tail _ h1 ih => exact ih.rx h1
  have htail : ringCount s.ringHead s1.ringTail = s.unread := by
    rw [hs1.tail]
    rfl
  have hs2 := hs1.act env trivial
  change Kept _ _ _ _ (logFlushFrom fuel (ringCount s.ringHead s1.ringTail)) s1 at hs2
  change Exec _ _ (logFlushFrom fuel (ringCount s.ringHead s1.ringTail)) s1 _ _ at hrun1
  rw [htail] at hs2 hrun1
  exact hs2.flushed hidle hslot hrun1

def LowStore : FwOp → Prop
  | .ringSet i _ => i < 512
  | _ => True

theorem FlushOp.lowStore {o : FwOp} (ho : FlushOp d o) : LowStore o := by
  cases o <;> first | exact trivial | exact ho

theorem logFlushAt_low {fuel head : ℕ} (hcount : ringCount head t ≤ 512) (hd : d + 32 ≤ 512) :
    (logFlushAt fuel head).Only (FlushReply d t) LowStore := by
  have hlow : ∀ {β : Type} {p : Fw β}, p.Only (FlushReply d t) (FlushOp d) →
      p.Only (FlushReply d t) LowStore :=
    fun hp => hp.mono (fun _ _ hr => hr) fun _ ho => ho.lowStore
  have hconsume : (uartConsume (ringCount head t)).Only (FlushReply d t) LowStore :=
    only_bind (only_perform trivial) fun _ => only_perform trivial
  have hpart : (flushTail fuel (ringCount head t)).Only (FlushReply d t) LowStore :=
    only_bind (hlow (padSector_flush hcount)) fun _ =>
      only_bind (hlow (ignoreCode_flush (append_flush _ _ _ _ _))) fun _ => hconsume
  have hdo : (doIf (ringCount head t > 0) (flushTail fuel (ringCount head t))).Only
      (FlushReply d t) LowStore := only_ite (fun _ => hpart) fun _ => trivial
  have hfrom : (logFlushFrom fuel (ringCount head t)).Only (FlushReply d t) LowStore :=
    only_bind hdo fun _ => hlow (flushRest_flush hd)
  refine ⟨trivial, fun tail htail => ?_⟩
  obtain rfl : tail = t := htail
  exact hfrom

/-- An interrupt with the head in the second half of the ring is always safe. -/
theorem rxKept_of_high {p : Fw Unit} (hrx : RxStep s s') (hhead : 512 ≤ s.ringHead)
    (hp : p.Only (FlushReply s.ram.logfile.dirOffset s.ringTail) LowStore) :
    RxKept p s s' := by
  refine ⟨hrx, fun _ => not_may_of_only hp fun o ho hstores => ?_⟩
  cases o with
  | ringSet i b =>
    have hi : i < 512 := ho
    have he : i = s.ringHead := hstores
    omega
  | _ => exact hstores

/-- Idle, with nothing pending and the one sector of the log file not written yet. -/
def idleMachine (head : ℕ) : Machine :=
  let s := Machine.mounted tinyVol fun _ _ => 0
  { s with
    ringHead := head
    ringTail := head
    ram := { s.ram with logfile := ⟨3, 12, 13, 11, 0, 0, 512, 3⟩ } }

/-- A byte that arrives at the start of the flush, with the head at 600. -/
theorem log_flush_keeps_high : ∃ s', Exec (fwStep Env.ideal) RxKept (logFlushAt 0 600)
    (idleMachine 600) (.ok ()) s' ∧ s'.queue = [0x42] := by
  have hrx : RxKept (logFlushAt 0 600) (idleMachine 600) (rxIsr 0x42 (idleMachine 600)) :=
    rxKept_of_high ⟨rfl, _, rfl⟩ (by decide) (logFlushAt_low (by decide) (by decide))
  have hret : (logFlushAt 0 600).returns Env.ideal (rxIsr 0x42 (idleMachine 600)) = true := by
    decide +kernel
  have hacc : ((logFlushAt 0 600).run (fwStep Env.ideal)
      (rxIsr 0x42 (idleMachine 600))).2.accepted = [0x42] := by decide +kernel
  obtain ⟨_, hrun⟩ := Fw.returns_run hret
  have hexec := Exec.env hrx (exec_of_run hrun)
  have hkeeps := log_flush_keeps Env.ideal 0 (idleMachine 600) _ ⟨by decide, by decide⟩
    (by decide) (by decide) hexec
  rw [hacc, show (idleMachine 600).accepted = [] from rfl, List.nil_append] at hkeeps
  exact ⟨_, hexec, hkeeps.symm⟩

/-- The same with the head at 0: the read of the directory sector stores over the byte. -/
theorem log_flush_loses_byte : ∃ s', Exec (fwStep Env.ideal) (fun _ => RxStep) (logFlushAt 0 0)
    (idleMachine 0) (.ok ()) s' ∧ s'.accepted = [0x42] ∧ s'.queue = [0x00] := by
  have hrx : RxStep (idleMachine 0) (rxIsr 0x42 (idleMachine 0)) := ⟨rfl, _, rfl⟩
  have hret : (logFlushAt 0 0).returns Env.ideal (rxIsr 0x42 (idleMachine 0)) = true := by
    decide +kernel
  have hacc : ((logFlushAt 0 0).run (fwStep Env.ideal)
      (rxIsr 0x42 (idleMachine 0))).2.accepted = [0x42] := by decide +kernel
  have hqueue : ((logFlushAt 0 0).run (fwStep Env.ideal)
      (rxIsr 0x42 (idleMachine 0))).2.queue = [0x00] := by decide +kernel
  obtain ⟨_, hrun⟩ := Fw.returns_run hret
  exact ⟨_, .env hrx (exec_of_run hrun), hacc, hqueue⟩

end Barelog
