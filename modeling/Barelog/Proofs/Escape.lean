import Barelog.Proofs.Flush
import Barelog.Proofs.ReplFlush

/-! The escape sequence over a run of the logger: turns of `log_process` and calls of
`log_flush` in any order, with RX interrupts anywhere. The counter is that of a scan of all
bytes consumed, as long as a flush takes no byte that would move it. -/

namespace Barelog

open Prog Relation

variable {env : Env} {fuel : ℕ} {s0 s s' t : Machine} {c : Config} {bs w : List Byte}
  {seen tail : ℕ} {r : Except Stop Unit}

/-! The scan finds runs of the escape character. -/

/-- `esc_count` escape characters in a row. -/
def HasRun (c : Config) (bs : List Byte) : Prop :=
  List.replicate c.escCount c.escChar <:+: bs

theorem replicate_infix_cons {n : ℕ} {a b : Byte} {l l' : List Byte} (hb : b ≠ a)
    (hn : l.length < n) (h : List.replicate n a <:+: l ++ b :: l') : List.replicate n a <:+: l' := by
  obtain ⟨pre, post, heq⟩ := h
  have hlen := congrArg List.length heq
  simp only [List.length_append, List.length_replicate, List.length_cons] at hlen
  by_cases hpre : pre.length ≤ l.length
  · -- then place `l.length` is inside the run
    have hat : (pre ++ List.replicate n a ++ post)[l.length]? = some a := by
      rw [List.append_assoc, List.getElem?_append_right hpre, List.getElem?_append_left
        (by rw [List.length_replicate]; omega), List.getElem?_replicate, if_pos (by omega)]
    rw [heq, List.getElem?_append_right le_rfl, Nat.sub_self, List.getElem?_cons_zero] at hat
    exact absurd (Option.some.inj hat) hb
  · have hdrop := congrArg (List.drop (l.length + 1)) heq
    rw [List.append_assoc, List.drop_append_of_le_length (by omega), List.drop_append,
      List.drop_eq_nil_of_le (Nat.le_succ _), Nat.add_sub_cancel_left] at hdrop
    exact ⟨_, post, (List.append_assoc ..).trans hdrop⟩

theorem scanBytes_iff (h1 : 1 ≤ c.escCount) (h2 : c.escCount < 2 ^ 8) (bs : List Byte)
    (hseen : seen < c.escCount) : (scanBytes c bs seen).1 = true ↔
      HasRun c (List.replicate seen c.escChar ++ bs) := by
  induction bs generalizing seen with
  | nil =>
    refine ⟨nofun, fun h => ?_⟩
    have hlen := h.length_le
    rw [List.append_nil, List.length_replicate, List.length_replicate] at hlen
    omega
  | cons b bs ih =>
    rw [scanBytes]
    by_cases hb : b = c.escChar
    · have hpush : List.replicate seen c.escChar ++ b :: bs =
          List.replicate (seen + 1) c.escChar ++ bs := by
        rw [hb, List.replicate_succ', List.append_assoc, List.singleton_append]
      rw [if_pos hb, Nat.mod_eq_of_lt (by omega), hpush]
      by_cases hend : seen + 1 ≥ c.escCount
      · have hn : seen + 1 = c.escCount := by omega
        rw [if_pos hend, hn]
        exact ⟨fun _ => (List.prefix_append _ _).isInfix, fun _ => rfl⟩
      · rw [if_neg hend]
        exact ih (by omega)
    · rw [if_neg hb, ih (by omega), List.replicate_zero, List.nil_append]
      constructor
      · intro h
        exact h.trans ((List.suffix_cons b bs).trans (List.suffix_append _ _)).isInfix
      · intro h
        exact replicate_infix_cons hb (by rwa [List.length_replicate]) h

/-! What stops the functions: only `repl_enter` gets to the command loop. -/

def NotRepl (e : Stop) : Prop := e ≠ .repl

theorem op_fails (E : Stop → Prop) (o : FwOp) : (op o).Fails E := fun _ => trivial

theorem check_fails (ret : ℤ) : (check ret).Fails NotRepl :=
  fails_ite (fun _ => trivial) fun _ => (nofun : Stop.code ret ≠ .repl)

theorem sdReadSector_fails (lba buf : ℕ) : (sdReadSector lba buf).Fails NotRepl :=
  fails_bind (op_fails _ _) fun ret => fails_bind (check_fails ret) fun _ =>
    fails_forUp fun _ => fails_bind (op_fails _ _) fun _ => op_fails _ _

theorem spiWriteBuf_fails (buf len : ℕ) : (spiWriteBuf buf len).Fails NotRepl :=
  fails_forUp fun _ => fails_bind (op_fails _ _) fun _ => op_fails _ _

theorem sdWriteSector_fails (lba buf : ℕ) : (sdWriteSector lba buf).Fails NotRepl :=
  fails_bind (op_fails _ _) fun ret => fails_bind (check_fails ret) fun _ =>
    fails_bind (spiWriteBuf_fails buf 512) fun _ => fails_bind (op_fails _ _) check_fails

theorem sdWriteSectorZc_fails (lba spanA lenA : ℕ) (spanB : Option ℕ) (lenB : ℕ) :
    (sdWriteSectorZc lba spanA lenA spanB lenB).Fails NotRepl := by
  refine fails_bind (op_fails _ _) fun ret => fails_bind (check_fails ret) fun _ =>
    fails_bind (spiWriteBuf_fails _ _) fun _ => fails_bind ?_ fun _ =>
      fails_bind (op_fails _ _) check_fails
  cases spanB with
  | none => trivial
  | some b => exact fails_ite (fun _ => spiWriteBuf_fails _ _) fun _ => trivial

theorem sdWriteZeroSector_fails (lba : ℕ) : (sdWriteZeroSector lba).Fails NotRepl :=
  fails_bind (op_fails _ _) fun ret => fails_bind (check_fails ret) fun _ =>
    fails_bind (fails_forUp fun _ => op_fails _ _) fun _ => fails_bind (op_fails _ _) check_fails

theorem fatReadEntry_fails (n : ℕ) : (fatReadEntry n).Fails NotRepl :=
  fails_bind (op_fails _ _) fun _ => fails_bind (sdReadSector_fails _ _) fun _ =>
    fails_bind (op_fails _ _) fun _ => fails_bind (op_fails _ _) fun _ =>
      fails_bind (op_fails _ _) fun _ => fails_bind (op_fails _ _) fun _ => trivial

theorem fatWriteEntry_fails (n val : ℕ) : (fatWriteEntry n val).Fails NotRepl :=
  fails_bind (op_fails _ _) fun _ => fails_forUp fun _ => fails_bind (sdReadSector_fails _ _) fun _ =>
    fails_bind (fails_bind (op_fails _ _) fun _ => fails_bind (op_fails _ _) fun _ =>
      fails_bind (op_fails _ _) fun _ => fails_bind (op_fails _ _) fun _ => op_fails _ _)
        fun _ => sdWriteSector_fails _ _

theorem findFree_fails (fuel n : ℕ) : (findFree fuel n).Fails NotRepl := by
  induction fuel generalizing n with
  | zero => exact (nofun : Stop.hang ≠ .repl)
  | succ fuel ih =>
    exact fails_bind (fatReadEntry_fails n) fun _ => fails_ite (fun _ => trivial) fun _ => ih _

theorem setLogfile_fails (f : Logfile → Logfile) : (setLogfile f).Fails NotRepl :=
  fails_bind (op_fails _ _) fun _ => op_fails _ _

theorem append_fails (fuel spanA lenA : ℕ) (spanB : Option ℕ) (lenB : ℕ) :
    (fat32AppendSector fuel spanA lenA spanB lenB).Fails NotRepl := by
  refine fails_bind (op_fails _ _) fun r => fails_bind (fails_ite (fun _ => ?_) fun _ => trivial)
    fun _ => fails_bind (sdWriteSectorZc_fails _ _ _ _ _) fun _ => setLogfile_fails _
  refine fails_bind (op_fails _ _) fun r => fails_bind (findFree_fails _ _) fun n => ?_
  refine fails_bind (fatWriteEntry_fails _ _) fun _ => fails_bind (fatWriteEntry_fails _ _) fun _ => ?_
  exact fails_bind (op_fails _ _) fun _ =>
    fails_bind (fails_forUp fun i => sdWriteZeroSector_fails i) fun _ => setLogfile_fails _

theorem ignoreCode_fails {p : Fw Unit} (hp : p.Fails NotRepl) : p.ignoreCode.Fails NotRepl :=
  fails_handle hp fun e he => by cases e <;> trivial

theorem uartConsume_fails (n : ℕ) : (uartConsume n).Fails NotRepl :=
  fails_bind (op_fails _ _) fun _ => op_fails _ _

theorem padSector_fails (avail : ℕ) : (padSector avail).Fails NotRepl := by
  refine fails_bind (op_fails _ _) fun tail => ?_
  generalize spans tail avail = sp
  obtain ⟨lenA, spanB, lenB⟩ := sp
  refine fails_bind ?_ fun _ => fails_bind (fails_forUp fun _ =>
    fails_bind (op_fails _ _) fun _ => op_fails _ _) fun _ => fails_forUp fun _ => op_fails _ _
  cases spanB with
  | none => trivial
  | some b => exact fails_forUp fun _ => fails_bind (op_fails _ _) fun _ => op_fails _ _

theorem flushRest_fails : flushRest.Fails NotRepl := by
  have hupdate : ∀ p b, (eepromUpdateByte p b).Fails NotRepl := fun p b =>
    fails_bind (op_fails _ _) fun _ => fails_ite (fun _ => trivial) fun _ => op_fails _ _
  have hset : ∀ i n, (ringSet32 i n).Fails NotRepl := fun i n =>
    fails_bind (fails_bind (op_fails _ _) fun _ => op_fails _ _) fun _ =>
      fails_bind (op_fails _ _) fun _ => op_fails _ _
  have hflush : fat32Flush.Fails NotRepl := fails_bind (op_fails _ _) fun _ =>
    fails_bind (sdReadSector_fails _ _) fun _ => fails_bind (hset _ _) fun _ =>
      sdWriteSector_fails _ _
  refine fails_bind (ignoreCode_fails hflush) fun _ => ?_
  refine fails_bind (fails_bind (op_fails _ _) fun _ => trivial) fun bw => ?_
  exact fails_bind (hupdate _ _) fun _ => fails_bind (hupdate _ _) fun _ =>
    fails_bind (hupdate _ _) fun _ => hupdate _ _

theorem logFlushFrom_fails (fuel avail : ℕ) : (logFlushFrom fuel avail).Fails NotRepl := by
  refine fails_bind (fails_ite (fun _ => ?_) fun _ => trivial) fun _ => flushRest_fails
  exact fails_bind (padSector_fails avail) fun _ =>
    fails_bind (ignoreCode_fails (append_fails _ _ _ _ _)) fun _ => uartConsume_fails avail

theorem scanEscape_fails (len buf : ℕ) : (scanEscape len buf).Fails fun _ => False := by
  induction len generalizing buf with
  | zero => trivial
  | succ len ih =>
    refine fails_bind (op_fails _ _) fun b => fails_bind (op_fails _ _) fun r => ?_
    refine fails_ite (fun _ => fails_bind (op_fails _ _) fun _ => ?_) fun _ =>
      fails_bind (op_fails _ _) fun _ => ih _
    exact fails_ite (fun _ => trivial) fun _ => ih _

/-! The stream, and how far it is consumed. -/

/-- The bytes pending in `s0` and those received since. -/
def received (s0 s : Machine) : List Byte := s0.queue ++ s.accepted.drop s0.accepted.length

def consumed (s0 s : Machine) : List Byte := (received s0 s).take ((received s0 s).length - s.unread)

/-- The unread bytes are in the ring as they were received. -/
def Intact (s0 s : Machine) : Prop := received s0 s = consumed s0 s ++ s.queue

/-- With the tail at `tail`, `bs` is consumed of the stream, and `w` comes next. -/
structure Spent (s0 : Machine) (c : Config) (bs w : List Byte) (seen tail : ℕ) (s : Machine) :
    Prop where
  ok : RingOk s
  tail : s.ringTail = tail
  cfg : s.ram.cfg = c
  seen : s.ram.escSeen = seen
  stream : ∃ new rest, s.accepted = s0.accepted ++ new ∧ s0.queue ++ new = bs ++ (w ++ rest) ∧
    (w ++ rest).length = s.unread

/-- And all that comes next is in the ring. -/
structure Fresh (s0 : Machine) (c : Config) (bs : List Byte) (seen tail : ℕ) (s : Machine) :
    Prop where
  ok : RingOk s
  tail : s.ringTail = tail
  cfg : s.ram.cfg = c
  seen : s.ram.escSeen = seen
  stream : ∃ new, s.accepted = s0.accepted ++ new ∧ s0.queue ++ new = bs ++ s.queue

/-- And the next 512 bytes of it are `w`. -/
structure Next (s0 : Machine) (c : Config) (bs : List Byte) (seen tail : ℕ) (w : List Byte)
    (s : Machine) : Prop where
  fresh : Fresh s0 c bs seen tail s
  enough : 512 ≤ s.unread
  sector : s.queue.take 512 = w

theorem received_eq {new : List Byte} (h : s.accepted = s0.accepted ++ new) :
    received s0 s = s0.queue ++ new := by
  rw [received, h, List.drop_append_of_le_length le_rfl, List.drop_length, List.nil_append]

theorem Spent.consumed (h : Spent s0 c bs w seen tail s) : consumed s0 s = bs := by
  obtain ⟨new, rest, hacc, hstream, hlen⟩ := h.stream
  rw [Barelog.consumed, received_eq hacc, hstream, List.length_append, hlen, Nat.add_sub_cancel,
    List.take_left]

theorem Spent.fresh (h : Spent s0 c bs w seen tail s) (hintact : Intact s0 s) :
    Fresh s0 c bs seen tail s := by
  obtain ⟨new, rest, hacc, hstream, hlen⟩ := h.stream
  refine ⟨h.ok, h.tail, h.cfg, h.seen, new, hacc, ?_⟩
  rw [← received_eq hacc, hintact, h.consumed]

theorem Fresh.spent (h : Fresh s0 c bs seen tail s) (n : ℕ) :
    Spent s0 c bs (s.queue.take n) seen tail s := by
  obtain ⟨new, hacc, hstream⟩ := h.stream
  refine ⟨h.ok, h.tail, h.cfg, h.seen, new, s.queue.drop n, hacc, ?_, ?_⟩
  · rw [List.take_append_drop, hstream]
  · rw [List.take_append_drop, queue_length]

theorem Spent.forget (h : Spent s0 c bs w seen tail s) : Spent s0 c bs [] seen tail s := by
  obtain ⟨new, rest, hacc, hstream, hlen⟩ := h.stream
  exact ⟨h.ok, h.tail, h.cfg, h.seen, new, w ++ rest, hacc, hstream, hlen⟩

theorem spent_stable : Stable RxStep (Spent s0 c bs w seen tail) := by
  intro s s' hrx hs
  obtain ⟨htail, hram, _⟩ := hrx.rest
  obtain ⟨new, rest, hacc, hstream, hlen⟩ := hs.stream
  refine ⟨hrx.ok hs.ok, htail.trans hs.tail, by rw [hram, hs.cfg], by rw [hram, hs.seen], ?_⟩
  rcases hrx.queue hs.ok with ⟨byte, _, hq, ha, _⟩ | ⟨hq, ha, _⟩
  · refine ⟨new ++ [byte], rest ++ [byte], by rw [ha, hacc, List.append_assoc], ?_, ?_⟩
    · rw [← List.append_assoc, hstream, List.append_assoc, List.append_assoc]
    · rw [unread_succ hq, ← List.append_assoc, List.length_append, hlen, List.length_singleton]
  · refine ⟨new, rest, by rw [ha, hacc], hstream, ?_⟩
    rw [hlen, ← queue_length s, ← hq, queue_length]

theorem fresh_stable : Stable RxStep (Fresh s0 c bs seen tail) := by
  intro s s' hrx hs
  obtain ⟨htail, hram, _⟩ := hrx.rest
  obtain ⟨new, hacc, hstream⟩ := hs.stream
  refine ⟨hrx.ok hs.ok, htail.trans hs.tail, by rw [hram, hs.cfg], by rw [hram, hs.seen], ?_⟩
  rcases hrx.queue hs.ok with ⟨byte, _, hq, ha, _⟩ | ⟨hq, ha, _⟩
  · refine ⟨new ++ [byte], by rw [ha, hacc, List.append_assoc], ?_⟩
    rw [← List.append_assoc, hstream, hq, List.append_assoc]
  · exact ⟨new, by rw [ha, hacc], by rw [hstream, hq]⟩

theorem next_stable : Stable RxStep (Next s0 c bs seen tail w) := by
  intro s s' hrx hs
  refine ⟨fresh_stable s s' hrx hs.fresh, hs.enough.trans (hrx.unread_le hs.fresh.ok), ?_⟩
  rw [hrx.queue_take hs.fresh.ok hs.enough, hs.sector]

theorem Next.length (h : Next s0 c bs seen tail w s) : w.length = 512 := by
  have henough := h.enough
  rw [← h.sector, List.length_take, queue_length]
  omega

theorem Next.withEscSeen (h : Next s0 c bs seen tail w s) (seen' : ℕ) :
    Next s0 c bs seen' tail w { s with ram := { s.ram with escSeen := seen' } } :=
  ⟨⟨⟨h.fresh.ok.head, h.fresh.ok.tail⟩, h.fresh.tail, h.fresh.cfg, rfl, h.fresh.stream⟩, h.enough,
    h.sector⟩

theorem triple_scanPiece {len buf j : ℕ} (hj : j + len ≤ 512)
    (hcell : ∀ i, i < len → buf + i = (tail + (j + i)) % 1024) :
    Triple (fwStep env) RxStep (Next s0 c bs seen tail w) (scanEscape len buf)
      (fun hit s => hit = (scanBytes c ((w.drop j).take len) seen).1 ∧
        Next s0 c bs (scanBytes c ((w.drop j).take len) seen).2 tail w s) fun _ => False := by
  have hstable : ∀ (hit : Bool) p n, Stable RxStep fun s => hit = p ∧ Next s0 c bs n tail w s :=
    fun hit p n => stable_and next_stable
  induction len generalizing buf j seen with
  | zero => exact triple_pure (hstable _ _ _) fun s hs => ⟨rfl, hs⟩
  | succ len ih =>
    rw [scanEscape]
    refine triple_bind (M := fun b s => w[j]? = some b ∧ Next s0 c bs seen tail w s) ?_ fun b => ?_
    · refine triple_perform next_stable (fun _ => stable_and next_stable) fun s hs => ⟨?_, hs⟩
      have hlt : j < s.queue.length := by
        have := hs.enough
        rw [queue_length]
        omega
      rw [← hs.sector, List.getElem?_take_of_lt (by omega), List.getElem?_eq_getElem hlt,
        queue_getElem hlt, hs.fresh.tail, ← Nat.add_zero j, ← hcell 0 (Nat.succ_pos _)]
      rfl
    refine triple_of_fact fun hb => ?_
    have hpiece : (w.drop j).take (len + 1) = b :: (w.drop (j + 1)).take len := by
      obtain ⟨hlt, rfl⟩ := List.getElem?_eq_some_iff.mp hb
      rw [List.drop_eq_getElem_cons hlt, List.take_succ_cons]
    have hnext : ∀ i, i < len → buf + 1 + i = (tail + (j + 1 + i)) % 1024 := fun i hi => by
      rw [show buf + 1 + i = buf + (i + 1) by omega, hcell (i + 1) (by omega)]
      congr 2
      omega
    rw [hpiece, scanBytes]
    refine triple_bind (triple_getRam next_stable) fun r => ?_
    have hput : ∀ n, Triple (fwStep env) RxStep
        (fun s => s.ram = r ∧ Next s0 c bs seen tail w s) (setRam { r with escSeen := n })
        (fun _ => Next s0 c bs n tail w) fun _ => False := by
      intro n
      refine triple_perform (fun s s' hrx hs => ⟨hrx.rest.2.1.trans hs.1,
        next_stable s s' hrx hs.2⟩) (fun _ => next_stable) ?_
      rintro s ⟨rfl, hs⟩
      exact hs.withEscSeen n
    have hread : ∀ {α : Type} {p : Fw α} {Q : α → Machine → Prop},
        (r.cfg = c → r.escSeen = seen → Triple (fwStep env) RxStep
          (fun s => s.ram = r ∧ Next s0 c bs seen tail w s) p Q fun _ => False) →
        Triple (fwStep env) RxStep (fun s => s.ram = r ∧ Next s0 c bs seen tail w s) p Q
          fun _ => False := by
      rintro α p Q hp s r' s' ⟨rfl, hs⟩ hrun
      exact hp hs.fresh.cfg hs.fresh.seen s r' s' ⟨rfl, hs⟩ hrun
    refine hread fun hcfg hrseen => ?_
    have hchar : r.cfg.escChar = c.escChar := by rw [hcfg]
    have hcount : r.cfg.escCount = c.escCount := by rw [hcfg]
    rw [hchar, hcount, hrseen]
    by_cases hesc : b = c.escChar
    · rw [if_pos hesc, if_pos hesc]
      by_cases hend : (seen + 1) % 2 ^ 8 ≥ c.escCount
      · rw [if_pos hend]
        refine triple_bind (hput _) fun _ => ?_
        rw [if_pos hend]
        exact triple_pure (hstable _ _ _) fun s hs => ⟨rfl, hs⟩
      · rw [if_neg hend]
        refine triple_bind (hput _) fun _ => ?_
        rw [if_neg hend]
        exact ih (by omega) hnext
    · rw [if_neg hesc, if_neg hesc]
      exact triple_bind (hput 0) fun _ => ih (by omega) hnext

/-! The parts of a turn and of a flush that only store in the ring and in `logfile`. -/

def ScanRam (c : Config) (seen : ℕ) (r : Ram) : Prop := r.cfg = c ∧ r.escSeen = seen

theorem padSector_ram {Q : Ram → Prop} (avail : ℕ) : RamKept Q (padSector avail) := by
  refine only_bind (only_perform trivial) fun tail => ?_
  generalize spans tail avail = sp
  obtain ⟨lenA, spanB, lenB⟩ := sp
  refine only_bind ?_ fun _ => only_bind (only_forUp fun _ _ _ =>
    only_bind (only_perform trivial) fun _ => only_perform trivial) fun _ =>
      only_forUp fun _ _ _ => only_perform trivial
  cases spanB with
  | none => trivial
  | some b => exact only_forUp fun _ _ _ => only_bind (only_perform trivial) fun _ =>
      only_perform trivial

theorem flushRest_ram {Q : Ram → Prop} : RamKept Q flushRest := by
  have hupdate : ∀ p b, RamKept Q (eepromUpdateByte p b) := fun p b =>
    only_bind (only_perform trivial) fun _ => only_ite (fun _ => trivial) fun _ =>
      only_perform trivial
  have hset : ∀ i n, RamKept Q (ringSet32 i n) := fun i n =>
    only_bind (only_bind (only_perform trivial) fun _ => only_perform trivial) fun _ =>
      only_bind (only_perform trivial) fun _ => only_perform trivial
  have hflush : RamKept Q fat32Flush := getRam_bind_ram fun _ _ =>
    only_bind (sdReadSector_ram _ _) fun _ => only_bind (hset _ _) fun _ => sdWriteSector_ram _ _
  refine only_bind (ignoreCode_ram hflush) fun _ => ?_
  refine only_bind (getRam_bind_ram fun _ _ => trivial) fun bw => ?_
  exact only_bind (hupdate _ _) fun _ => only_bind (hupdate _ _) fun _ =>
    only_bind (hupdate _ _) fun _ => hupdate _ _

theorem Spent.act (env : Env) {o : FwOp} (ho : RamOp (ScanRam c seen) o)
    (h : Spent s0 c bs w seen tail s) : RamReply (ScanRam c seen) o (fwStep env o s).1 ∧
      Spent s0 c bs w seen tail (fwStep env o s).2 := by
  obtain ⟨hreply, hcfg, hseen⟩ := ramOp_step env o s ho ⟨h.cfg, h.seen⟩
  obtain ⟨hhead, htail⟩ := fwStep_indices env o (by rintro u rfl; exact ho) s
  obtain ⟨new, rest, hacc, hstream, hlen⟩ := h.stream
  refine ⟨hreply, ⟨hhead ▸ h.ok.head, htail ▸ h.ok.tail⟩, htail.trans h.tail, hcfg, hseen, new, rest,
    (fwStep_accepted env o s).trans hacc, hstream, ?_⟩
  rw [hlen, Machine.unread, Machine.unread, hhead, htail]

theorem Spent.phase {α : Type} {p : Fw α} {r : Except Stop α}
    (hrun : Exec (fwStep env) (fun _ => RxStep) p s r s') (hp : RamKept (ScanRam c seen) p)
    (h : Spent s0 c bs w seen tail s) : Spent s0 c bs w seen tail s' :=
  hrun.invariant hp (fun _ _ ho => Spent.act env ho) (fun _ _ _ hrx => spent_stable _ _ hrx) h

theorem triple_consume : Triple (fwStep env) RxStep (Spent s0 c bs w seen tail)
    (uartConsume w.length)
    (fun _ s => ∃ tail', Spent s0 c (bs ++ w) [] seen tail' s) fun _ => False := by
  refine triple_bind (triple_getTail spent_stable) fun t => ?_
  refine triple_perform (fun s s' hrx hs => ⟨hrx.rest.1.trans hs.1, spent_stable s s' hrx hs.2⟩)
    (fun _ s s' hrx ⟨tail', hs⟩ => ⟨tail', spent_stable s s' hrx hs⟩) ?_
  rintro s ⟨rfl, hs⟩
  obtain ⟨new, rest, hacc, hstream, hlen⟩ := hs.stream
  rw [List.length_append] at hlen
  obtain ⟨hok, hq⟩ := queue_consume (n := w.length) hs.ok (by omega)
  refine ⟨_, hok, rfl, hs.cfg, hs.seen, new, rest, hacc, ?_, ?_⟩
  · rw [hstream, List.append_assoc, List.nil_append]
  · have hun := congrArg List.length hq
    rw [queue_length, List.length_drop, queue_length] at hun
    rw [List.nil_append]
    exact (show rest.length = s.unread - w.length by omega).trans hun.symm

/-! Entering command mode. -/

/-- Everything is consumed, it starts with `bs`, and no more is received. -/
structure Entered (s0 : Machine) (bs : List Byte) (s : Machine) : Prop where
  off : s.rxEnabled = false
  stream : ∃ rest, received s0 s = bs ++ rest
  empty : s.unread = 0

theorem entered_stable : Stable RxStep (Entered s0 bs) := by
  intro s s' hrx hs
  have hon := hrx.1
  rw [hs.off] at hon
  cases hon

theorem fwStep_rxOff (env : Env) (o : FwOp) (s : Machine) (hs : s.rxEnabled = false) :
    (fwStep env o s).2.rxEnabled = false := by
  by_cases ho : o = .disableRx
  · rw [ho]
    rfl
  · exact (fwStep_rxEnabled env o ho s).trans hs

theorem run_rxOff (env : Env) {α : Type} (p : Fw α) (hs : s.rxEnabled = false) :
    (p.run (fwStep env) s).2.rxEnabled = false := by
  induction p generalizing s with
  | ret a => exact hs
  | fail e => exact hs
  | act o k ih => exact ih _ (fwStep_rxOff env o s hs)

theorem replFlush_empties (hok : RingOk s) (hn : 0 < s.unread)
    (hrun : (replFlush fuel).run (fwStep env) s = (.ok (), s')) : s'.unread = 0 := by
  rw [replFlush_run hn] at hrun
  obtain ⟨r, t, happend, hr⟩ := flushPadded_returned hrun
  obtain ⟨u, hend, -, -, hhead, htail, -⟩ := flushPadded_run s.unread happend hr
  obtain rfl : s' = u := congrArg Prod.snd (hrun.symm.trans hend)
  have hkept : RamKept (fun _ => True) (fat32AppendSector fuel 0 512 none 0) :=
    append_ram _ _ _ _ _ fun _ _ _ => trivial
  obtain ⟨-, hhead1, htail1⟩ := hkept.run trivial happend
  have hq := hok.head_eq
  have hlt := hok.head
  have ht := hok.tail
  have hhead2 : s'.ringHead = s.ringHead := hhead.trans hhead1
  have htail2 : s'.ringTail = ringMask ((s.ringTail + s.unread) % 2 ^ 16) := by
    rw [htail, htail1]
    rfl
  rw [Machine.unread, hhead2, htail2, ringMask_eq, ringCount_eq hlt (Nat.mod_lt _ (by decide)),
    Fifo.count]
  omega

theorem run_fails {α : Type} {E : Stop → Prop} {p : Fw α} {e : Stop} (hp : p.Fails E)
    (hrun : p.run (fwStep env) s = (.error e, s')) : E e := by
  have hexec : Exec (fwStep env) (fun _ _ _ => False) p s (.error e) s' := exec_of_run hrun
  exact hexec.fails hp

theorem replEnter_exec (h : Next s0 c bs seen tail w s)
    (hrun : Exec (fwStep env) (fun _ => RxStep) (replEnter fuel) s r s') :
    r ≠ .ok () ∧ (r = .error .repl → Entered s0 (bs ++ w) s') := by
  obtain ⟨s1, hrx, hrest⟩ := Exec.act_inv hrun
  have h1 : Next s0 c bs seen tail w s1 := next_stable.star _ _ hrx h
  -- with the RX interrupt off the rest runs undisturbed
  have hend : (replEnter fuel).run (fwStep env) s1 = (r, s') := by
    have hrun1 := Exec.run_of_rest hrest (fwStep_rxOff env) (fun _ u u' hu hstep => by
      rw [hstep.1] at hu
      cases hu) rfl
    exact hrun1
  rw [replEnter_eq] at hend
  rcases bind_ended hend with ⟨_, s2, hflush, hfail⟩ | ⟨e, hflush, rfl⟩
  · cases hfail
    refine ⟨nofun, fun _ => ?_⟩
    have hempty := replFlush_empties h1.fresh.ok (by have := h1.enough; omega) hflush
    have hacc : s'.accepted = s1.accepted := by
      have := run_accepted env (replFlush fuel) s1
      rwa [hflush] at this
    have hoff : s'.rxEnabled = false := by
      have := run_rxOff env (s := { s1 with rxEnabled := false }) (logFlush fuel) rfl
      rwa [show (logFlush fuel).run (fwStep env) { s1 with rxEnabled := false } = (.ok (), s') from
        hflush] at this
    obtain ⟨new, hnew, hstream⟩ := h1.fresh.stream
    refine ⟨hoff, ⟨s1.queue.drop 512, ?_⟩, hempty⟩
    rw [received_eq (hacc.trans hnew), hstream, ← h1.sector, List.append_assoc,
      List.take_append_drop]
  · have hfails : (replFlush fuel).Fails NotRepl := fails_bind (op_fails _ _) fun _ =>
      fails_bind (fails_bind (op_fails _ _) fun _ => fails_bind (op_fails _ _) fun _ => trivial)
        fun avail => logFlushFrom_fails fuel avail
    refine ⟨nofun, fun hr => ?_⟩
    cases hr
    exact absurd rfl (run_fails hfails hflush)

theorem scanSpan_exec {buf : Option ℕ} {len j : ℕ} (h : Next s0 c bs seen tail w s)
    (hrun : Exec (fwStep env) (fun _ => RxStep) (scanSpan fuel buf len) s r s')
    (hj : j + len ≤ 512) (hnone : buf = none → len = 0)
    (hcell : ∀ b, buf = some b → ∀ i, i < len → b + i = (tail + (j + i)) % 1024) :
    (∃ seen', scanBytes c ((w.drop j).take len) seen = (false, seen') ∧ r = .ok () ∧
        Next s0 c bs seen' tail w s') ∨
      ((scanBytes c ((w.drop j).take len) seen).1 = true ∧ r ≠ .ok () ∧
        (r = .error .repl → Entered s0 (bs ++ w) s')) := by
  cases buf with
  | none =>
    obtain ⟨rfl, hstar⟩ := Exec.ret_inv hrun
    rw [hnone rfl]
    exact .inl ⟨seen, rfl, rfl, next_stable.star _ _ hstar h⟩
  | some b =>
    rcases Exec.bind_cases hrun with ⟨hit, s1, hscan, hrest⟩ | ⟨e, s1, hscan, -, -⟩
    swap
    · exact (hscan.fails (scanEscape_fails len b)).elim
    obtain ⟨hhit, h1⟩ := triple_scanPiece hj (hcell b rfl) s _ s1 h hscan
    rw [doIf] at hrest
    by_cases htrue : hit = true
    · rw [if_pos htrue] at hrest
      exact .inr ⟨hhit.symm.trans htrue, replEnter_exec h1 hrest⟩
    · rw [if_neg htrue] at hrest
      obtain ⟨rfl, hstar⟩ := Exec.ret_inv hrest
      refine .inl ⟨_, Prod.ext ?_ rfl, rfl, next_stable.star _ _ hstar h1⟩
      rw [← hhit]
      exact Bool.not_eq_true _ ▸ htrue

/-- How a turn of `log_process` ends: with nothing done, with 512 bytes scanned and consumed,
or in command mode, with the escape sequence among the bytes consumed. -/
inductive Turned (s0 : Machine) (c : Config) (bs : List Byte) (seen : ℕ) :
    Except Stop Bool → Machine → Prop
  | idle {tail : ℕ} {s : Machine} (h : Spent s0 c bs [] seen tail s) :
      Turned s0 c bs seen (.ok false) s
  | sector {w : List Byte} {seen' tail : ℕ} {s : Machine}
      (hscan : scanBytes c w seen = (false, seen')) (h : Spent s0 c (bs ++ w) [] seen' tail s) :
      Turned s0 c bs seen (.ok true) s
  | stopped {e : Stop} {s : Machine} (h : e = .repl → ∃ w, (scanBytes c w seen).1 = true ∧
      Entered s0 (bs ++ w) s) : Turned s0 c bs seen (.error e) s

theorem scanSpans_eq {lenA lenB : ℕ} (hw : w.length = 512) (hlen : lenA + lenB = 512) :
    scanBytes c w seen = if (scanBytes c ((w.drop 0).take lenA) seen).1 then
      scanBytes c ((w.drop 0).take lenA) seen
    else scanBytes c ((w.drop lenA).take lenB) (scanBytes c ((w.drop 0).take lenA) seen).2 := by
  rw [← scanBytes_append, List.drop_zero,
    List.take_of_length_le (show (w.drop lenA).length ≤ lenB by rw [List.length_drop]; omega),
    List.take_append_drop]

/-- The two spans of a sector are the cells of the next 512 bytes. -/
theorem spans_cells (hlt : tail < 1024) : ∃ lenA spanB lenB,
    spans tail 512 = (lenA, spanB, lenB) ∧ lenA + lenB = 512 ∧
    (∀ i, i < lenA → tail + i = (tail + (0 + i)) % 1024) ∧ (spanB = none → lenB = 0) ∧
    ∀ b, spanB = some b → ∀ i, i < lenB → b + i = (tail + (lenA + i)) % 1024 := by
  rcases spans_cases hlt 512 with ⟨hfit, he⟩ | ⟨hwrap, he⟩
  · exact ⟨_, _, _, he, rfl, fun i hi => by omega, fun _ => rfl, nofun⟩
  · refine ⟨_, _, _, he, by omega, fun i hi => by omega, nofun, fun b hb i hi => ?_⟩
    cases hb
    omega

theorem turn_exec {r : Except Stop Bool} (h : Fresh s0 c bs seen tail s)
    (hrun : Exec (fwStep env) (fun _ => RxStep) (logProcessTurn fuel) s r s') :
    Turned s0 c bs seen r s' := by
  have hstable : Stable RxStep (Fresh s0 c bs seen tail) := fresh_stable
  have havailable : Triple (fwStep env) RxStep (Fresh s0 c bs seen tail) uartAvailable
      (fun n u => n ≤ u.unread ∧ Fresh s0 c bs seen tail u) fun _ => False :=
    triple_uartAvailable hstable fun _ hs => hs.ok
  rcases Exec.bind_cases hrun with ⟨avail, s1, havail, hrest⟩ | ⟨e, s1, havail, -, -⟩
  swap
  · exact (havailable s _ s1 h havail).elim
  obtain ⟨hle, h1⟩ := havailable s _ s1 h havail
  by_cases hmore : avail ≥ 512
  swap
  · rw [if_neg hmore] at hrest
    obtain ⟨rfl, hstar⟩ := Exec.ret_inv hrest
    exact .idle ((hstable.star _ _ hstar h1).spent 0).forget
  rw [if_pos hmore] at hrest
  have hpend : Stable RxStep fun u => 512 ≤ u.unread ∧ Fresh s0 c bs seen tail u :=
    fun u u' hrx hu => ⟨hu.1.trans (hrx.unread_le hu.2.ok), hstable u u' hrx hu.2⟩
  have hgetTail : Triple (fwStep env) RxStep (fun u => 512 ≤ u.unread ∧ Fresh s0 c bs seen tail u)
      getTail (fun t u => u.ringTail = t ∧ 512 ≤ u.unread ∧ Fresh s0 c bs seen tail u)
      fun _ => False := triple_getTail hpend
  rcases Exec.bind_cases hrest with ⟨t, s2, ht, hrest⟩ | ⟨e, s2, ht, -, -⟩
  swap
  · exact (hgetTail s1 _ s2 ⟨hle.trans' hmore, h1⟩ ht).elim
  obtain ⟨htail, henough, h2⟩ := hgetTail s1 _ s2 ⟨hle.trans' hmore, h1⟩ ht
  obtain rfl : tail = t := h2.tail.symm.trans htail
  obtain ⟨w, hw⟩ : ∃ w, s2.queue.take 512 = w := ⟨_, rfl⟩
  have hnext : Next s0 c bs seen tail w s2 := ⟨h2, henough, hw⟩
  obtain ⟨lenA, spanB, lenB, he, hlen, hcellA, hnone, hcellB⟩ := spans_cells (htail ▸ h2.ok.tail)
  rw [he] at hrest
  have hboth : scanBytes c w seen = _ := scanSpans_eq hnext.length hlen
  rcases Exec.bind_cases hrest with ⟨_, s3, hscan, hrest⟩ | ⟨e, s3, hscan, hstar, rfl⟩
  swap
  · rcases scanSpan_exec (j := 0) hnext hscan (by omega) nofun (fun b hb => Option.some.inj hb ▸ hcellA) with
      ⟨_, _, hbad, _⟩ | ⟨hfound, _, henter⟩
    · cases hbad
    · refine .stopped fun hrepl => ⟨w, ?_, ?_⟩
      · rw [hboth, if_pos hfound, hfound]
      · subst hrepl
        exact entered_stable.star _ _ hstar (henter rfl)
  rcases scanSpan_exec (j := 0) hnext hscan (by omega) nofun (fun b hb => Option.some.inj hb ▸ hcellA) with
    ⟨seenA, hscanA, -, h3⟩ | ⟨_, hbad, _⟩
  swap
  · exact absurd rfl hbad
  rw [hscanA, if_neg Bool.false_ne_true] at hboth
  rcases Exec.bind_cases hrest with ⟨_, s4, hscan, hrest⟩ | ⟨e, s4, hscan, hstar, rfl⟩
  swap
  · rcases scanSpan_exec h3 hscan (by omega) hnone hcellB with ⟨_, _, hbad, _⟩ | ⟨hfound, _, henter⟩
    · cases hbad
    · refine .stopped fun hrepl => ⟨w, ?_, ?_⟩
      · rw [hboth, hfound]
      · subst hrepl
        exact entered_stable.star _ _ hstar (henter rfl)
  rcases scanSpan_exec h3 hscan (by omega) hnone hcellB with ⟨seenB, hscanB, -, h4⟩ | ⟨_, hbad, _⟩
  swap
  · exact absurd rfl hbad
  rw [hscanB] at hboth
  have hspent : Spent s0 c bs w seenB tail s4 := by
    have := h4.fresh.spent 512
    rwa [h4.sector] at this
  rcases Exec.bind_cases hrest with ⟨_, s5, happend, hrest⟩ | ⟨e, s5, happend, -, rfl⟩
  swap
  · refine .stopped fun hrepl => ?_
    exact absurd hrepl (happend.fails (ignoreCode_fails (append_fails _ _ _ _ _)))
  have h5 := hspent.phase happend (ignoreCode_ram (append_ram _ _ _ _ _ fun _ _ hr => hr))
  rw [show (512 : ℕ) = w.length from hnext.length.symm] at hrest
  rcases Exec.bind_cases hrest with ⟨_, s6, hconsume, hrest⟩ | ⟨e, s6, hconsume, -, -⟩
  swap
  · exact (triple_consume s5 _ s6 h5 hconsume).elim
  obtain ⟨tail', h6⟩ := triple_consume s5 _ s6 h5 hconsume
  obtain ⟨rfl, hstar⟩ := Exec.ret_inv hrest
  exact .sector hboth (spent_stable.star _ _ hstar h6)

/-- A flush consumes what is pending when it reads `ring_head`, unscanned. -/
theorem flush_exec (h : Fresh s0 c bs seen tail s)
    (hrun : Exec (fwStep env) (fun _ => RxStep) (logFlushAt fuel s.ringHead) s r s') :
    r ≠ .error .repl ∧ (r = .ok () → ∃ tail', Spent s0 c (bs ++ s.queue) [] seen tail' s') := by
  have hs : Spent s0 c bs s.queue seen tail s := by
    have := h.spent s.queue.length
    rwa [List.take_length] at this
  obtain ⟨s1, hrx, hrest⟩ := Exec.act_inv hrun
  have h1 := spent_stable.star _ _ hrx hs
  have hcount : ringCount s.ringHead s1.ringTail = s.queue.length := by
    rw [h1.tail, ← hs.tail, queue_length]
    rfl
  change Exec _ _ (logFlushFrom fuel (ringCount s.ringHead s1.ringTail)) s1 r s' at hrest
  rw [hcount] at hrest
  refine ⟨?_, ?_⟩
  · rintro rfl
    exact hrest.fails (logFlushFrom_fails fuel _) rfl
  rintro rfl
  generalize s.queue = w at h1 hrest ⊢
  rcases Nat.eq_zero_or_pos w.length with hzero | hpos
  · obtain rfl := List.eq_nil_of_length_eq_zero hzero
    rw [List.append_nil]
    exact ⟨tail, h1.phase hrest flushRest_ram⟩
  rw [flush_eq_of_pending hpos] at hrest
  obtain ⟨_, s2, hpad, hrest⟩ := hrest.bind_returned
  have h2 := h1.phase hpad (only_bind (padSector_ram _) fun _ =>
    ignoreCode_ram (append_ram _ _ _ _ _ fun _ _ hr => hr))
  obtain ⟨_, s3, hconsume, hrest⟩ := hrest.bind_returned
  obtain ⟨tail', h3⟩ := triple_consume s2 _ s3 h2 hconsume
  exact ⟨tail', h3.phase hrest flushRest_ram⟩

/-! Runs of the logger. -/

inductive LogCall
  | process
  | flush

/-- A run of the logger from `s0`: turns of `log_process`, calls of `log_flush` from its read of
`ring_head` on, and RX interrupts, each call in a state with `ok`. It goes on while it has
returned from every call. -/
inductive Session (env : Env) (fuel : ℕ) (ok : LogCall → Machine → Prop) (s0 : Machine) :
    Except Stop Unit → Machine → Prop
  | start : Session env fuel ok s0 (.ok ()) s0
  | rx {s s' : Machine} (hs : Session env fuel ok s0 (.ok ()) s) (hrx : RxStep s s') :
      Session env fuel ok s0 (.ok ()) s'
  | process {s s' : Machine} {r : Except Stop Bool} (hs : Session env fuel ok s0 (.ok ()) s)
      (hok : ok .process s)
      (hrun : Exec (fwStep env) (fun _ => RxStep) (logProcessTurn fuel) s r s') :
      Session env fuel ok s0 (r.map fun _ => ()) s'
  | flush {s s' : Machine} {r : Except Stop Unit} (hs : Session env fuel ok s0 (.ok ()) s)
      (hok : ok .flush s)
      (hrun : Exec (fwStep env) (fun _ => RxStep) (logFlushAt fuel s.ringHead) s r s') :
      Session env fuel ok s0 r s'

/-- The unread bytes are as received, and a scan of what a flush takes would find nothing and
leave the counter where it is. -/
def Scanned (s0 : Machine) : LogCall → Machine → Prop
  | .process, s => Intact s0 s
  | .flush, s => Intact s0 s ∧ scanBytes s.ram.cfg s.queue s.ram.escSeen = (false, s.ram.escSeen)

/-- The counter is where a scan of everything consumed leaves it. -/
def Followed (s0 : Machine) (s : Machine) : Prop :=
  ∃ bs tail, Spent s0 s0.ram.cfg bs [] s.ram.escSeen tail s ∧
    scanBytes s0.ram.cfg bs 0 = (false, s.ram.escSeen)

theorem Followed.of_spent (h : Spent s0 s0.ram.cfg bs [] seen tail s)
    (hscan : scanBytes s0.ram.cfg bs 0 = (false, seen)) : Followed s0 s := by
  obtain rfl := h.seen
  exact ⟨bs, tail, h, hscan⟩

theorem scanBytes_more {n n' : ℕ} {b : Bool} (hbs : scanBytes c bs 0 = (false, n))
    (hw : scanBytes c w n = (b, n')) : scanBytes c (bs ++ w) 0 = (b, n') := by
  rw [scanBytes_append, hbs, if_neg Bool.false_ne_true, hw]

/-- The calls keep the counter right, and only a run in the stream gets to command mode. -/
theorem Session.followed (h : Session env fuel (Scanned s0) s0 r s) (hok : RingOk s0)
    (hseen : s0.ram.escSeen = 0) : (r = .ok () → Followed s0 s) ∧
      (r = .error .repl → (scanBytes s0.ram.cfg (consumed s0 s) 0).1 = true) := by
  induction h with
  | start =>
    have hspent : Spent s0 s0.ram.cfg [] [] 0 s0.ringTail s0 := by
      refine ⟨hok, rfl, rfl, hseen, [], s0.queue, ?_, ?_, ?_⟩
      · rw [List.append_nil]
      · rw [List.append_nil, List.nil_append, List.nil_append]
      · rw [List.nil_append, queue_length]
    exact ⟨fun _ => Followed.of_spent hspent rfl, nofun⟩
  | rx _ hrx ih =>
    obtain ⟨bs, tail, hspent, hscan⟩ := ih.1 rfl
    exact ⟨fun _ => Followed.of_spent (spent_stable _ _ hrx hspent) hscan, nofun⟩
  | process _ hintact hrun ih =>
    obtain ⟨bs, tail, hspent, hscan⟩ := ih.1 rfl
    cases turn_exec (hspent.fresh hintact) hrun with
    | idle h => exact ⟨fun _ => Followed.of_spent h hscan, nofun⟩
    | sector hw h => exact ⟨fun _ => Followed.of_spent h (scanBytes_more hscan hw), nofun⟩
    | stopped h =>
      refine ⟨nofun, fun hr => ?_⟩
      obtain ⟨w, hw, hentered⟩ := h (by cases hr; rfl)
      obtain ⟨rest, hstream⟩ := hentered.stream
      have hfound : (scanBytes s0.ram.cfg (bs ++ w) 0).1 = true := by
        rw [scanBytes_more hscan (Prod.mk.eta (p := scanBytes _ w _)).symm]
        exact hw
      rw [consumed, hentered.empty, Nat.sub_zero, List.take_length, hstream, scanBytes_append,
        if_pos hfound, hfound]
  | flush _ hok hrun ih =>
    obtain ⟨bs, tail, hspent, hscan⟩ := ih.1 rfl
    obtain ⟨hrepl, hret⟩ := flush_exec (hspent.fresh hok.1) hrun
    refine ⟨fun hr => ?_, fun hr => absurd hr hrepl⟩
    obtain ⟨tail', h⟩ := hret hr
    have hw := hok.2
    rw [hspent.cfg] at hw
    exact Followed.of_spent h (scanBytes_more hscan hw)

/-- In a run of the logger in which no unread byte is stored over and a scan of the bytes that
each flush takes would change nothing, the bytes consumed hold `esc_count` escape characters in a
row when command mode is entered, and do not while it is not. -/
theorem escape_entered (env : Env) (fuel : ℕ) (s0 s : Machine) (r : Except Stop Unit)
    (hok : RingOk s0) (hpos : 1 ≤ s0.ram.cfg.escCount) (hwidth : s0.ram.cfg.escCount < 2 ^ 8)
    (hseen : s0.ram.escSeen = 0) (hrun : Session env fuel (Scanned s0) s0 r s) :
    (r = .ok () → ¬ HasRun s0.ram.cfg (consumed s0 s)) ∧
      (r = .error .repl → HasRun s0.ram.cfg (consumed s0 s)) := by
  have hiff : (scanBytes s0.ram.cfg (consumed s0 s) 0).1 = true ↔
      HasRun s0.ram.cfg (List.replicate 0 s0.ram.cfg.escChar ++ consumed s0 s) :=
    scanBytes_iff hpos hwidth (consumed s0 s) hpos
  rw [List.replicate_zero, List.nil_append] at hiff
  obtain ⟨hgo, hstop⟩ := hrun.followed hok hseen
  refine ⟨fun hr hrunOf => ?_, fun hr => hiff.mp (hstop hr)⟩
  obtain ⟨bs, tail, hspent, hscan⟩ := hgo hr
  have hfound := hiff.mpr hrunOf
  rw [hspent.consumed, hscan] at hfound
  cases hfound

theorem intact_start (s : Machine) : Intact s s := by
  rw [Intact, consumed, received, List.drop_length, List.append_nil, queue_length, Nat.sub_self,
    List.take_zero, List.nil_append]

def escMachine (head : ℕ) : Machine :=
  let s := enteringMachine head
  { s with ring := fun _ => 0x1A, ram := { s.ram with cfg := configDefaults } }

/-- A sector of escape characters, in one turn of `log_process`. -/
theorem escape_entered_sector : ∃ s,
    Session Env.ideal 1 (Scanned (escMachine 512)) (escMachine 512) (.error .repl) s ∧
      HasRun configDefaults (consumed (escMachine 512) s) := by
  have hstop : (match ((logProcessTurn 1).run (fwStep Env.ideal) (escMachine 512)).1 with
      | .ok _ => false
      | .error e => decide (e = .repl)) = true := by decide +kernel
  have hrun := exec_run (h := fwStep Env.ideal) (fun _ => RxStep) (logProcessTurn 1) (escMachine 512)
  generalize (logProcessTurn 1).run (fwStep Env.ideal) (escMachine 512) = out at hstop hrun
  obtain ⟨r, s⟩ := out
  cases r with
  | ok a => cases hstop
  | error e =>
    obtain rfl : e = .repl := of_decide_eq_true hstop
    have hsession : Session Env.ideal 1 (Scanned (escMachine 512)) (escMachine 512)
        (.error .repl) s := .process .start (intact_start _) hrun
    exact ⟨s, hsession, (escape_entered Env.ideal 1 (escMachine 512) s (.error .repl)
      ⟨by decide, by decide⟩ (by decide) (by decide) rfl hsession).2 rfl⟩

/-- Three escape characters are pending when the idle flush comes: it consumes them, and command
mode is not entered. -/
theorem escape_missed : ∃ s, RingOk (escMachine 3) ∧ (escMachine 3).ram.escSeen = 0 ∧
    Session Env.ideal 1 (fun _ _ => True) (escMachine 3) (.ok ()) s ∧
      HasRun (escMachine 3).ram.cfg (consumed (escMachine 3) s) := by
  have hret : (logFlushAt 1 3).returns Env.ideal (escMachine 3) = true := by decide +kernel
  have hrunOf : HasRun configDefaults (consumed (escMachine 3)
      ((logFlushAt 1 3).run (fwStep Env.ideal) (escMachine 3)).2) := by
    unfold HasRun
    decide +kernel
  obtain ⟨_, hrun⟩ := Fw.returns_run hret
  exact ⟨_, ⟨by decide, by decide⟩, rfl, .flush .start trivial (exec_of_run hrun), hrunOf⟩

end Barelog
