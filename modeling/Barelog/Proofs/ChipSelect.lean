import Barelog.Lib.Triple
import Barelog.Spec.SdWire

/-! Chip select over a sequence of calls, whatever the card answers. An exit of a function that
does not clock a byte after it has released chip select leaves that byte to the next call, and
only `sd_init` starts with one. -/

namespace Barelog.Wire

/-! Traces. -/

/-- Between each release of chip select and the next assertion a byte is clocked with chip
select high. -/
def DummyBetween (tr : List WireEvent) : Prop :=
  ∀ pre mid post, tr = pre ++ .release :: (mid ++ .assert :: post) → .assert ∉ mid →
    .clock true ∈ mid

/-- Chip select has been released, and no byte clocked since. -/
def Owes (tr : List WireEvent) : Prop :=
  ∃ pre mid, tr = pre ++ .release :: mid ∧ .assert ∉ mid ∧ .clock true ∉ mid

def clocks (n : ℕ) (level : Bool) : List WireEvent := List.replicate n (.clock level)

variable {tr mid : List WireEvent} {e : WireEvent} {level : Bool} {n m : ℕ}

theorem concat_eq_release {pre : List WireEvent} (h : tr ++ [e] = pre ++ .release :: mid) :
    (mid = [] ∧ e = .release ∧ tr = pre) ∨ ∃ mid', mid = mid' ++ [e] ∧ tr = pre ++ .release :: mid' := by
  rcases List.eq_nil_or_concat' mid with rfl | ⟨mid', e', rfl⟩
  · obtain ⟨h1, h2⟩ := List.append_inj' h rfl
    exact .inl ⟨rfl, List.head_eq_of_cons_eq h2, h1⟩
  · have h' : tr ++ [e] = (pre ++ .release :: mid') ++ [e'] := by
      rw [h, List.append_assoc, List.cons_append]
    obtain ⟨h1, h2⟩ := List.append_inj' h' rfl
    obtain rfl := List.head_eq_of_cons_eq h2
    exact .inr ⟨mid', rfl, h1⟩

theorem owes_release (tr : List WireEvent) : Owes (tr ++ [.release]) :=
  ⟨tr, [], rfl, List.not_mem_nil, List.not_mem_nil⟩

theorem not_owes_dummy (tr : List WireEvent) : ¬ Owes (tr ++ [.clock true]) := by
  rintro ⟨pre, mid, h, -, hclock⟩
  rcases concat_eq_release h with ⟨-, he, -⟩ | ⟨mid', rfl, -⟩
  · cases he
  · exact hclock (List.mem_append_right _ (List.mem_singleton_self _))

theorem clocks_succ (n : ℕ) (level : Bool) : clocks (n + 1) level = clocks n level ++ [.clock level] :=
  List.replicate_succ'

theorem concat_eq_pair {pre post : List WireEvent}
    (h : tr ++ [e] = pre ++ .release :: (mid ++ .assert :: post)) :
    (e = .assert ∧ tr = pre ++ .release :: mid) ∨
      ∃ post', tr = pre ++ .release :: (mid ++ .assert :: post') := by
  rcases concat_eq_release h with ⟨hnil, -, -⟩ | ⟨mid', hmid, htr⟩
  · simp at hnil
  rcases List.eq_nil_or_concat' post with rfl | ⟨post', e', rfl⟩
  · obtain ⟨h1, h2⟩ := List.append_inj' hmid rfl
    exact .inl ⟨(List.head_eq_of_cons_eq h2).symm, by rw [htr, h1]⟩
  · have h' : (mid ++ .assert :: post') ++ [e'] = mid' ++ [e] := by
      rw [← hmid, List.append_assoc, List.cons_append]
    obtain ⟨h1, -⟩ := List.append_inj' h' rfl
    exact .inr ⟨post', by rw [htr, h1]⟩

theorem dummyBetween_nil : DummyBetween [] := by
  intro pre mid post h
  simp at h

theorem dummyBetween_assert :
    DummyBetween (tr ++ [.assert]) ↔ DummyBetween tr ∧ ¬ Owes tr := by
  constructor
  · refine fun h => ⟨fun pre mid post htr hno => h pre mid (post ++ [.assert]) ?_ hno, ?_⟩
    · rw [htr, List.append_assoc, List.cons_append, List.append_assoc, List.cons_append]
    · rintro ⟨pre, mid, htr, hno, hclock⟩
      refine hclock (h pre mid [] ?_ hno)
      rw [htr, List.append_assoc, List.cons_append]
  · rintro ⟨h, howes⟩ pre mid post htr hno
    rcases concat_eq_pair htr with ⟨-, htr'⟩ | ⟨post', htr'⟩
    · by_contra hclock
      exact howes ⟨pre, mid, htr', hno, hclock⟩
    · exact h pre mid post' htr' hno

theorem dummyBetween_other (he : e ≠ .assert) : DummyBetween (tr ++ [e]) ↔ DummyBetween tr := by
  constructor
  · intro h pre mid post htr hno
    refine h pre mid (post ++ [e]) ?_ hno
    rw [htr, List.append_assoc, List.cons_append, List.append_assoc, List.cons_append]
  · intro h pre mid post htr hno
    rcases concat_eq_pair htr with ⟨hbad, -⟩ | ⟨post', htr'⟩
    · exact absurd hbad he
    · exact h pre mid post' htr' hno

theorem dummyBetween_clocks : DummyBetween (tr ++ clocks n level) ↔ DummyBetween tr := by
  induction n with
  | zero => rw [clocks, List.replicate_zero, List.append_nil]
  | succ n ih =>
    have hclock : WireEvent.clock level ≠ .assert := nofun
    rw [clocks_succ, ← List.append_assoc, dummyBetween_other hclock, ih]

/-! The code against a card that sends a stream of bytes. -/

open Prog

/-- A card that sends `input`, from wherever it has got to. -/
def streamDevice (input : ℕ → Byte) : Device ℕ := fun _ _ pos => (input pos, pos + 1)

variable {input : ℕ → Byte} {s s' t : Bus ℕ} {α β : Type}

/-- `n` bytes have been clocked, and chip select is as it was. -/
structure Clocked (n : ℕ) (s s' : Bus ℕ) : Prop where
  csHigh : s'.csHigh = s.csHigh
  device : s'.device = s.device + n
  trace : s'.trace = s.trace ++ clocks n s.csHigh

theorem Clocked.refl (s : Bus ℕ) : Clocked 0 s s := by
  refine ⟨rfl, rfl, ?_⟩
  rw [clocks, List.replicate_zero, List.append_nil]

theorem Clocked.trans (h1 : Clocked n s t) (h2 : Clocked m t s') : Clocked (n + m) s s' := by
  refine ⟨h2.csHigh.trans h1.csHigh, by rw [h2.device, h1.device, Nat.add_assoc], ?_⟩
  rw [h2.trace, h1.trace, h1.csHigh, List.append_assoc, clocks, clocks, clocks,
    List.replicate_append_replicate]

abbrev Yields (input : ℕ → Byte) (p : Spi α) (s : Bus ℕ) (a : α) (n : ℕ) : Prop :=
  Gives (spiStep (streamDevice input)) (· = s) p a (Clocked n s)

theorem yields_of_run {p : Spi α} {a : α}
    (hrun : p.run (spiStep (streamDevice input)) s = (.ok a, s')) (h : Clocked n s s') :
    Yields input p s a n := by
  refine gives_iff.mpr fun t ht => ?_
  rw [ht]
  exact ⟨s', hrun, h⟩

theorem yields_pure (a : α) (s : Bus ℕ) : Yields input (pure a) s a 0 := yields_of_run rfl (.refl s)

theorem yields_transfer (b : Byte) (s : Bus ℕ) :
    Yields input (spiTransfer b) s (input s.device) 1 := yields_of_run rfl ⟨rfl, rfl, rfl⟩

theorem yields_clock (b : Byte) (s : Bus ℕ) : Yields input (clock b) s () 1 :=
  yields_of_run rfl ⟨rfl, rfl, rfl⟩

theorem Yields.next {p : Spi α} {f : α → Spi β} {a : α} {b : β} (hp : Yields input p s a n)
    (hf : ∀ t, Clocked n s t → Yields input (f a) t b m) : Yields input (p >>= f) s b (n + m) :=
  hp.bind (ensures_each fun t ht => (hf t ht).conseq (fun _ hu => hu)
    (fun _ _ hu => ⟨hu.1, ht.trans hu.2⟩) fun _ _ hbad => hbad)

theorem yields_forUp {lo k : ℕ} {body : ℕ → Spi Unit}
    (hbody : ∀ i t, Yields input (body i) t () 1) (s : Bus ℕ) :
    Yields input (forUp lo k body) s () k := by
  have hloop : Gives (spiStep (streamDevice input)) (Clocked (lo - lo) s) (forUp lo k body) ()
      (Clocked (lo + k - lo) s) := by
    refine gives_forUp (I := fun i => Clocked (i - lo) s) fun i hi _ => ensures_each fun t ht => ?_
    refine (hbody i t).conseq (fun _ hu => hu) (fun _ u hu => ⟨hu.1, ?_⟩) fun _ _ hbad => hbad
    rw [show i + 1 - lo = i - lo + 1 by omega]
    exact ht.trans hu.2
  rw [Nat.sub_self, Nat.add_sub_cancel_left] at hloop
  refine hloop.conseq (fun t ht => ?_) (fun _ _ hu => hu) fun _ _ hbad => hbad
  rw [ht]
  exact .refl s

def scanR1 (input : ℕ → Byte) : ℕ → ℕ → Option Byte × ℕ
  | 0, _ => (none, 0)
  | n + 1, pos =>
    if input pos ≠ 0xFF then (some (input pos), 1)
    else ((scanR1 input n (pos + 1)).1, 1 + (scanR1 input n (pos + 1)).2)

theorem yields_pollR1 (n : ℕ) (s : Bus ℕ) :
    Yields input (pollR1 n) s (scanR1 input n s.device).1 (scanR1 input n s.device).2 := by
  induction n generalizing s with
  | zero => exact yields_pure none s
  | succ n ih =>
    rw [pollR1, scanR1]
    by_cases hb : input s.device ≠ 0xFF
    · rw [if_pos hb]
      refine (yields_transfer _ s).next (m := 0) fun t _ => ?_
      rw [if_pos hb]
      exact yields_pure _ t
    · rw [if_neg hb]
      refine (yields_transfer _ s).next fun t ht => ?_
      rw [if_neg hb, ← ht.device]
      exact ih t

/-- The return code and R1 of a command sent when the card is at `pos`. -/
def scanCmd (input : ℕ → Byte) (pos : ℕ) : ℤ × Byte :=
  match (scanR1 input 8 (pos + 6)).1 with
  | some r1 => (0, r1)
  | none => (-1, 0xFF)

def cmdLength (input : ℕ → Byte) (pos : ℕ) : ℕ := 6 + (scanR1 input 8 (pos + 6)).2

theorem yields_sdCmd (cmd : Byte) (arg : ℕ) (crc : Byte) (s : Bus ℕ) :
    Yields input (sdCmd cmd arg crc) s (scanCmd input s.device) (cmdLength input s.device) := by
  rw [cmdLength, show 6 + (scanR1 input 8 (s.device + 6)).2 =
    1 + (1 + (1 + (1 + (1 + (1 + ((scanR1 input 8 (s.device + 6)).2 + 0)))))) by omega]
  refine (yields_clock _ s).next fun t1 h1 => (yields_clock _ t1).next fun t2 h2 =>
    (yields_clock _ t2).next fun t3 h3 => (yields_clock _ t3).next fun t4 h4 =>
      (yields_clock _ t4).next fun t5 h5 => (yields_clock _ t5).next fun t6 h6 => ?_
  have hpos : t6.device = s.device + 6 := by
    rw [h6.device, h5.device, h4.device, h3.device, h2.device, h1.device]
  rw [scanCmd, ← hpos]
  refine (yields_pollR1 8 t6).next fun t7 _ => ?_
  cases (scanR1 input 8 t6.device).1 with
  | none => exact yields_pure _ t7
  | some r1 => exact yields_pure _ t7

/-- The poll for the data token: the last byte received, and how many it takes. -/
def scanToken (input : ℕ → Byte) : ℕ → Byte → ℕ → Byte × ℕ
  | 0, tok, _ => (tok, 0)
  | n + 1, _, pos =>
    if input pos = 0xFE then (input pos, 1)
    else ((scanToken input n (input pos) (pos + 1)).1, 1 + (scanToken input n (input pos) (pos + 1)).2)

theorem yields_pollToken (n : ℕ) (tok : Byte) (s : Bus ℕ) :
    Yields input (pollToken n tok) s (scanToken input n tok s.device).1
      (scanToken input n tok s.device).2 := by
  induction n generalizing s tok with
  | zero => exact yields_pure tok s
  | succ n ih =>
    rw [pollToken, scanToken]
    by_cases hb : input s.device = 0xFE
    · rw [if_pos hb]
      refine (yields_transfer _ s).next (m := 0) fun t _ => ?_
      rw [if_pos hb]
      exact yields_pure _ t
    · rw [if_neg hb]
      refine (yields_transfer _ s).next fun t ht => ?_
      rw [if_neg hb, ← ht.device]
      exact ih _ t

theorem yields_sdWaitReady (input : ℕ → Byte) (n : ℕ) (s : Bus ℕ) :
    ∃ ret k, Yields input (sdWaitReady n) s ret k := by
  induction n generalizing s with
  | zero => exact ⟨_, _, yields_pure _ s⟩
  | succ n ih =>
    rw [sdWaitReady]
    by_cases hb : input s.device = 0xFF
    · refine ⟨0, 1 + 0, (yields_transfer _ s).next fun t _ => ?_⟩
      rw [if_pos hb]
      exact yields_pure _ t
    · obtain ⟨t, hrun, ht⟩ := gives_iff.mp (@yields_transfer input 0xFF s) s rfl
      obtain ⟨ret, k, hrest⟩ := ih t
      obtain ⟨s', hrun', hs'⟩ := gives_iff.mp hrest t rfl
      refine ⟨ret, 1 + k, yields_of_run ?_ (ht.trans hs')⟩
      rw [run_bind_ok hrun, if_neg hb]
      exact hrun'

theorem yields_sdLbaArg (input : ℕ → Byte) (lba : ℕ) (s : Bus ℕ) : ∃ arg, Yields input (sdLbaArg lba) s arg 0 :=
  ⟨_, yields_of_run rfl (.refl s)⟩

theorem yields_spiWriteBuf (buf len : ℕ) (s : Bus ℕ) :
    Yields input (spiWriteBuf buf len) s () len := by
  refine yields_forUp (fun i t => ?_) s
  exact yields_of_run rfl ⟨rfl, rfl, rfl⟩

theorem yields_spiWriteZeros (len : ℕ) (s : Bus ℕ) : Yields input (spiWriteZeros len) s () len :=
  yields_forUp (fun _ t => yields_clock _ t) s

theorem yields_spiReadBuf (buf len : ℕ) (s : Bus ℕ) :
    Yields input (spiReadBuf buf len) s () len := by
  refine yields_forUp (fun i t => ?_) s
  exact yields_of_run rfl ⟨rfl, rfl, rfl⟩

/-! How a call ends. -/

/-- Since `s` only bytes have been clocked until chip select was released; with `acc` one more byte
follows. -/
def Ended (s : Bus ℕ) (acc : Prop) (s' : Bus ℕ) : Prop :=
  ∃ n, (acc ∧ s'.trace = s.trace ++ clocks n s.csHigh ++ [.release] ++ [.clock true]) ∨
    (¬ acc ∧ s'.trace = s.trace ++ clocks n s.csHigh ++ [.release])

/-- However a run of `p` ends, only bytes are clocked until it releases chip select at its end. -/
abbrev Ends (input : ℕ → Byte) (p : Spi Unit) (s : Bus ℕ) (acc : Prop) : Prop :=
  Ensures (spiStep (streamDevice input)) (· = s) p (fun _ => Ended s acc) fun _ => Ended s acc

variable {acc : Prop}

theorem Clocked.ended (h : Clocked n s t) (hend : Ended t acc s') : Ended s acc s' := by
  obtain ⟨m, hend⟩ := hend
  have hclocks : t.trace ++ clocks m t.csHigh = s.trace ++ clocks (n + m) s.csHigh := by
    rw [h.trace, h.csHigh, List.append_assoc, clocks, clocks, clocks,
      List.replicate_append_replicate]
  rw [hclocks] at hend
  exact ⟨n + m, hend⟩

theorem Yields.ends {p : Spi α} {f : α → Spi Unit} {a : α} (hp : Yields input p s a n)
    (hf : ∀ t, Clocked n s t → Ends input (f a) t acc) : Ends input (p >>= f) s acc :=
  hp.bind (ensures_each fun t ht => (hf t ht).conseq (fun _ hu => hu)
    (fun _ _ hu => ht.ended hu) fun _ _ hu => ht.ended hu)

theorem ends_releaseWith (input : ℕ → Byte) (c : ℤ) (s : Bus ℕ) (hacc : ¬ acc) :
    Ensures (spiStep (streamDevice input)) (· = s) (releaseWith c) (fun _ _ => False)
      fun _ => Ended s acc := by
  refine ensures_bind (M := fun _ => Ended s acc) (ensures_perform fun t ht => ?_) fun _ =>
    ensures_fail fun _ ht => ht
  rw [ht]
  refine ⟨0, .inr ⟨hacc, ?_⟩⟩
  rw [clocks, List.replicate_zero, List.append_nil]
  rfl

theorem ends_doIf {c : Prop} [Decidable c] {e : ℤ} {f : Unit → Spi Unit} (hc : c → ¬ acc)
    (hf : ¬ c → Ends input (f ()) s acc) : Ends input (doIf c (releaseWith e) >>= f) s acc := by
  by_cases h : c
  · rw [doIf, if_pos h]
    exact ensures_bind (ends_releaseWith input e s (hc h)) fun _ => ensures_false
  · rw [doIf, if_neg h]
    exact hf h

theorem ends_dummy (f : Unit → Spi Unit) (hf : ∀ t, ((f ()).run (spiStep (streamDevice input)) t).2 = t)
    (s : Bus ℕ) : Ends input (spiCsRelease >>= fun _ => clock 0xFF >>= f) s True := by
  refine ensures_of_end fun t ht => ?_
  rw [ht]
  refine ⟨0, .inl ⟨trivial, ?_⟩⟩
  rw [clocks, List.replicate_zero, List.append_nil]
  exact congrArg Bus.trace (hf _)

/-- The card takes the command and the data block that a write call sends. -/
def BlockAccepted (input : ℕ → Byte) (pos len : ℕ) : Prop :=
  scanCmd input pos = (0, 0x00) ∧
    input (pos + cmdLength input pos + 2 + len + 2) &&& 0x1F = 0x05

/-- The bytes from `pos` on take a call to an exit that clocks the dummy byte. -/
def Answered (input : ℕ → Byte) (pos : ℕ) : SdCall → Prop
  | .init => False
  | .read _ _ => scanCmd input pos = (0, 0x00) ∧
      (scanToken input 200 0xFF (pos + cmdLength input pos)).1 = 0xFE
  | .write _ _ => BlockAccepted input pos 512
  | .writeZc _ _ lenA spanB lenB => BlockAccepted input pos (lenA + spanLength spanB lenB)
  | .writeZero _ => BlockAccepted input pos 512
  | .erase _ _ => True

theorem refused_iff (input : ℕ → Byte) (pos : ℕ) :
    ((scanCmd input pos).1 ≠ 0 ∨ (scanCmd input pos).2 ≠ 0x00) ↔ scanCmd input pos ≠ (0, 0x00) := by
  rw [ne_eq, ne_eq, ne_eq, Prod.ext_iff, not_and_or]

theorem ends_sdWriteFinish (s : Bus ℕ) :
    Ends input sdWriteFinish s (input (s.device + 2) &&& 0x1F = 0x05) := by
  refine (yields_clock _ s).ends fun t1 h1 => (yields_clock _ t1).ends fun t2 h2 => ?_
  refine (yields_transfer _ t2).ends fun t3 h3 => ?_
  have hpos : t2.device = s.device + 2 := by rw [h2.device, h1.device]
  rw [hpos]
  refine ends_doIf id fun hok => ?_
  obtain ⟨ret, k, hwait⟩ := yields_sdWaitReady input 50000 t3
  refine hwait.ends fun t4 _ => ?_
  rw [eq_true (not_not.mp hok)]
  refine ends_dummy _ (fun t => ?_) t4
  rw [doIf]
  split_ifs <;> rfl

/-- The part that the read and the write functions share: a command that is not answered with 0x00
ends them. -/
theorem ends_command {lba : ℕ} {cmd : Byte} {e : ℤ} {rest : Spi Unit} {s : Bus ℕ}
    (hacc : acc → scanCmd input s.device = (0, 0x00))
    (hrest : scanCmd input s.device = (0, 0x00) → ∀ t : Bus ℕ,
      t.device = s.device + cmdLength input s.device → Ends input rest t acc) :
    Ends input (do
      let arg ← sdLbaArg lba
      let (code, r1) ← sdCmd cmd arg 0x01
      doIf (code ≠ 0 ∨ r1 ≠ 0x00) (releaseWith e)
      rest) s acc := by
  obtain ⟨arg, harg⟩ := yields_sdLbaArg input lba s
  refine harg.ends fun t0 h0 => (yields_sdCmd cmd arg 0x01 t0).ends fun t1 h1 => ?_
  have hpos0 : t0.device = s.device := h0.device
  have hpos1 : t1.device = s.device + cmdLength input s.device := by rw [h1.device, hpos0]
  rw [hpos0]
  refine ends_doIf (fun hbad h => (refused_iff input s.device).mp hbad (hacc h)) fun hok => ?_
  exact hrest (not_not.mp (mt (refused_iff input s.device).mpr hok)) t1 hpos1

theorem ends_write {lba len : ℕ} {block : Spi Unit} (hblock : ∀ t, Yields input block t () len)
    (s : Bus ℕ) : Ends input (do
      let arg ← sdLbaArg lba
      let (code, r1) ← sdCmd 24 arg 0x01
      doIf (code ≠ 0 ∨ r1 ≠ 0x00) (releaseWith (-4))
      clock 0xFF
      clock 0xFE
      block
      sdWriteFinish) s (BlockAccepted input s.device len) := by
  refine ends_command (fun h => h.1) fun hcmd t1 h1 => ?_
  refine (yields_clock _ t1).ends fun t2 h2 => (yields_clock _ t2).ends fun t3 h3 => ?_
  refine (hblock t3).ends fun t4 h4 => ?_
  have hpos : t4.device + 2 = s.device + cmdLength input s.device + 2 + len + 2 := by
    rw [h4.device, h3.device, h2.device, h1]
  have hiff : (input (t4.device + 2) &&& 0x1F = 0x05) = BlockAccepted input s.device len := by
    rw [hpos, BlockAccepted, eq_iff_iff]
    exact (and_iff_right hcmd).symm
  rw [← hiff]
  exact ends_sdWriteFinish t4

theorem ends_read (lba buf : ℕ) (s : Bus ℕ) : Ends input (do
      let arg ← sdLbaArg lba
      let (code, r1) ← sdCmd 17 arg 0x01
      doIf (code ≠ 0 ∨ r1 ≠ 0x00) (releaseWith (-5))
      let tok ← pollToken 200 0xFF
      doIf (tok ≠ 0xFE) (releaseWith (-1))
      spiReadBuf buf 512
      clock 0xFF
      clock 0xFF
      spiCsRelease
      clock 0xFF) s (Answered input s.device (.read lba buf)) := by
  refine ends_command (fun h => h.1) fun hcmd t1 hpos => ?_
  refine (yields_pollToken 200 0xFF t1).ends fun t2 h2 => ?_
  rw [hpos]
  refine ends_doIf (fun hbad hacc => hbad hacc.2) fun htok => ?_
  refine (yields_spiReadBuf buf 512 t2).ends fun t3 _ => (yields_clock _ t3).ends fun t4 _ =>
    (yields_clock _ t4).ends fun t5 _ => ?_
  rw [show Answered input s.device (.read lba buf) = True from
    eq_true ⟨hcmd, not_not.mp htok⟩, ← bind_pure (clock 0xFF)]
  exact ends_dummy _ (fun _ => rfl) t5

theorem ends_erase (lbaStart lbaEnd : ℕ) (s : Bus ℕ) : Ends input (do
      let arg ← sdLbaArg lbaStart
      let _ ← sdCmd 32 arg 0x01
      clock 0xFF
      let arg ← sdLbaArg lbaEnd
      let _ ← sdCmd 33 arg 0x01
      clock 0xFF
      let _ ← sdCmd 38 0 0x01
      let _ ← sdWaitReady 50000
      spiCsRelease
      clock 0xFF) s True := by
  obtain ⟨arg, harg⟩ := yields_sdLbaArg input lbaStart s
  refine harg.ends fun t0 _ => (yields_sdCmd 32 arg 0x01 t0).ends fun t1 _ =>
    (yields_clock _ t1).ends fun t2 _ => ?_
  obtain ⟨arg', harg'⟩ := yields_sdLbaArg input lbaEnd t2
  refine harg'.ends fun t3 _ => (yields_sdCmd 33 arg' 0x01 t3).ends fun t4 _ =>
    (yields_clock _ t4).ends fun t5 _ => (yields_sdCmd 38 0 0x01 t5).ends fun t6 _ => ?_
  obtain ⟨ret, k, hwait⟩ := yields_sdWaitReady input 50000 t6
  refine hwait.ends fun t7 _ => ?_
  rw [← bind_pure (clock 0xFF)]
  exact ends_dummy _ (fun _ => rfl) t7

/-! `sd_init`. -/

/-- The operations of `sd_init` between its frame: bytes on the bus, and the addressing of the card. -/
def Probing : SpiOp → Prop
  | .transfer _ => True
  | .getSdhc => True
  | .setSdhc _ => True
  | _ => False

/-- A part of `sd_init`: it fails only by the release of chip select and a return of an error. -/
abbrev Probes (p : Spi α) : Prop := p.Exits Probing SpiOp.csRelease fun c => c ≠ 0

theorem probes_clock (b : Byte) : Probes (clock b) :=
  exits_bind (exits_perform trivial) fun _ => exits_pure ()

theorem probes_pollR1 (n : ℕ) : Probes (pollR1 n) := by
  induction n with
  | zero => exact exits_pure none
  | succ n ih =>
    exact exits_bind (exits_perform trivial) fun _ => exits_ite (exits_pure _) ih

theorem probes_sdCmd (cmd : Byte) (arg : ℕ) (crc : Byte) : Probes (sdCmd cmd arg crc) := by
  refine exits_bind (probes_clock _) fun _ => exits_bind (probes_clock _) fun _ =>
    exits_bind (probes_clock _) fun _ => exits_bind (probes_clock _) fun _ =>
      exits_bind (probes_clock _) fun _ => exits_bind (probes_clock _) fun _ =>
        exits_bind (probes_pollR1 8) fun resp => ?_
  cases resp with
  | none => exact exits_pure _
  | some r1 => exact exits_pure _

theorem probes_exit {c : Prop} [Decidable c] : Probes (doIf c (releaseWith (-2))) :=
  exits_doIf (.inr ⟨rfl, fun _ => ⟨-2, rfl, by decide⟩⟩)

theorem probes_goIdle (n : ℕ) (r1 : Byte) : Probes (goIdle n r1) := by
  induction n generalizing r1 with
  | zero => exact exits_pure r1
  | succ n ih =>
    exact exits_bind (probes_sdCmd _ _ _) fun _ => exits_ite (exits_pure _)
      (exits_bind (probes_clock _) fun _ => ih _)

theorem probes_sendOpCond (n : ℕ) (r1 : Byte) : Probes (sendOpCond n r1) := by
  induction n generalizing r1 with
  | zero => exact exits_pure r1
  | succ n ih =>
    have hacmd : Probes (sdAcmd 41 0x40000000) :=
      exits_bind (probes_sdCmd _ _ _) fun _ => exits_ite (exits_pure _)
        (exits_bind (probes_clock _) fun _ => probes_sdCmd _ _ _)
    exact exits_bind hacmd fun _ => exits_bind (probes_clock _) fun _ =>
      exits_ite (exits_pure _) (ih _)

theorem probes_initCommands : Probes initCommands := by
  have hbyte : Probes (spiTransfer 0xFF) := exits_perform trivial
  have hifCond : Probes sendIfCond := exits_bind (probes_sdCmd _ _ _) fun _ =>
    exits_ite (exits_bind (probes_clock _) fun _ => exits_bind (probes_clock _) fun _ =>
      exits_bind hbyte fun _ => exits_bind hbyte fun _ => probes_exit) (exits_pure _)
  have hocr : Probes readOcr := exits_bind (probes_sdCmd _ _ _) fun _ =>
    exits_bind probes_exit fun _ => exits_bind hbyte fun _ => exits_bind (probes_clock _) fun _ =>
      exits_bind (probes_clock _) fun _ => exits_bind (probes_clock _) fun _ => exits_perform trivial
  have hblocklen : Probes setBlocklen := exits_bind (exits_perform trivial) fun _ => exits_doIf
    (exits_bind (probes_sdCmd _ _ _) fun _ => exits_bind probes_exit fun _ => probes_clock _)
  refine exits_bind (probes_goIdle _ _) fun _ => exits_bind probes_exit fun _ =>
    exits_bind (probes_clock _) fun _ => exits_bind hifCond fun _ =>
      exits_bind (probes_clock _) fun _ => exits_bind (probes_sendOpCond _ _) fun _ => ?_
  refine exits_bind probes_exit fun _ => exits_bind hocr fun _ => exits_bind (probes_clock _) fun _ =>
    exits_bind hblocklen fun _ => ?_
  exact exits_bind (probes_sdCmd _ _ _) fun _ => probes_clock _

/-- Bytes are clocked until it returns, or until chip select is released and it fails. -/
theorem Probes.clocked {p : Spi α} (hp : Probes p) (input : ℕ → Byte) (s0 : Bus ℕ) :
    Ensures (spiStep (streamDevice input)) (fun s => ∃ n, Clocked n s0 s) p
      (fun _ s => ∃ n, Clocked n s0 s)
      fun _ s => ∃ n, s.trace = s0.trace ++ clocks n s0.csHigh ++ [.release] := by
  refine Exits.ensures hp (fun o s ho hs => ?_) fun e s _ hs => ?_
  · obtain ⟨n, hn⟩ := hs
    cases o with
    | transfer b => exact ⟨n + 1, hn.trans ⟨rfl, rfl, rfl⟩⟩
    | getSdhc => exact ⟨n, hn⟩
    | setSdhc b => exact ⟨n, hn.csHigh, hn.device, hn.trace⟩
    | _ => exact ho.elim
  · obtain ⟨n, hn⟩ := hs
    refine ⟨n, ?_⟩
    change s.trace ++ [.release] = _
    rw [hn.trace]

/-! The trace of a call. -/

/-- What a call adds to the trace, up to its last release. -/
def opening : SdCall → List WireEvent
  | .init => [.release] ++ clocks 10 true ++ [.assert]
  | _ => [.assert]

theorem call_run (dev : Device ℕ) (c : SdCall) (s : Bus ℕ) :
    (c.run dev s).2 = (c.code.run (spiStep dev) s).2 := by
  rw [SdCall.run]
  rcases c.code.run (spiStep dev) s with ⟨r, s'⟩
  cases r <;> rfl

theorem init_trace_of (input : ℕ → Byte) {p : Spi Unit} (hp : Probes p) (s : Bus ℕ) :
    ∃ n, (Prog.run (spiStep (streamDevice input)) (do
      spiOp .enterInit
      spiCsRelease
      forUp 0 10 fun _ => clock 0xFF
      spiCsAssert
      p
      spiCsRelease
      spiSetFast) s).2.trace = s.trace ++ opening .init ++ clocks n false ++ [.release] := by
  obtain ⟨s1, hs1⟩ : ∃ s1 : Bus ℕ, s1 = { s with
    inits := s.inits ++ [s.regs], csHigh := true, trace := s.trace ++ [.release] } := ⟨_, rfl⟩
  have hten : Yields input (forUp 0 10 fun _ => clock 0xFF) s1 () 10 :=
    yields_forUp (fun _ t => yields_clock _ t) s1
  obtain ⟨s2, hclocks, hs2⟩ := gives_iff.mp hten s1 rfl
  obtain ⟨s3, hs3⟩ : ∃ s3 : Bus ℕ, s3 = { s2 with csHigh := false, trace := s2.trace ++ [.assert] } :=
    ⟨_, rfl⟩
  have hassert : spiCsAssert.run (spiStep (streamDevice input)) s2 = (.ok (), s3) := by
    rw [hs3]
    rfl
  have hstart : (spiOp .enterInit >>= fun _ => spiCsRelease).run (spiStep (streamDevice input)) s =
      (.ok (), s1) := by
    rw [hs1]
    rfl
  have hopen : s3.trace = s.trace ++ opening .init := by
    rw [hs3]
    change s2.trace ++ [.assert] = _
    rw [hs2.trace, hs1, opening]
    simp only [List.append_assoc]
  have hlow : s3.csHigh = false := by rw [hs3]
  rw [← bind_assoc, run_bind_ok hstart, run_bind_ok hclocks, run_bind_ok hassert, ← hopen]
  rcases (hp.clocked input s3).ends ⟨0, .refl s3⟩ with ⟨a, t, hok, n, ht⟩ | ⟨e, t, herr, n, htrace⟩
  · rw [run_bind_ok hok]
    refine ⟨n, ?_⟩
    change t.trace ++ [.release] = _
    rw [ht.trace, hlow]
  · rw [run_bind_error herr]
    refine ⟨n, ?_⟩
    rw [← hlow]
    exact htrace

/-- What a call adds to the trace, at whatever exit. -/
theorem call_trace (input : ℕ → Byte) (c : SdCall) (s : Bus ℕ) :
    ∃ n, (Answered input s.device c ∧ (c.run (streamDevice input) s).2.trace =
        s.trace ++ opening c ++ clocks n false ++ [.release] ++ [.clock true]) ∨
      (¬ Answered input s.device c ∧ (c.run (streamDevice input) s).2.trace =
        s.trace ++ opening c ++ clocks n false ++ [.release]) := by
  rw [call_run]
  have hother : ∀ {p : Spi Unit}, Ends input p { s with
      csHigh := false, trace := s.trace ++ [.assert] } (Answered input s.device c) →
      c.code = (spiCsAssert >>= fun _ => p) → opening c = [.assert] →
      ∃ n, (Answered input s.device c ∧ (c.code.run (spiStep (streamDevice input)) s).2.trace =
          s.trace ++ opening c ++ clocks n false ++ [.release] ++ [.clock true]) ∨
        (¬ Answered input s.device c ∧ (c.code.run (spiStep (streamDevice input)) s).2.trace =
          s.trace ++ opening c ++ clocks n false ++ [.release]) := by
    intro p hp hcode hopen
    obtain ⟨n, hend⟩ := hp.end_state rfl
    have hassert : spiCsAssert.run (spiStep (streamDevice input)) s =
        (.ok (), { s with csHigh := false, trace := s.trace ++ [.assert] }) := rfl
    rw [hcode, run_bind_ok hassert, hopen]
    exact ⟨n, hend⟩
  cases c with
  | init =>
    obtain ⟨n, htrace⟩ := init_trace_of input probes_initCommands s
    exact ⟨n, .inr ⟨id, htrace⟩⟩
  | read lba buf => exact hother (ends_read lba buf _) rfl rfl
  | write lba buf => exact hother (ends_write (yields_spiWriteBuf buf 512) _) rfl rfl
  | writeZero lba => exact hother (ends_write (yields_spiWriteZeros 512) _) rfl rfl
  | erase a b => exact hother (ends_erase a b _) rfl rfl
  | writeZc lba spanA lenA spanB lenB =>
    refine hother (ends_write (fun t => ?_) _) rfl rfl
    refine (yields_spiWriteBuf spanA lenA t).next fun u _ => ?_
    cases spanB with
    | none => exact yields_pure () u
    | some b =>
      rw [spiWriteSpan, spanLength, doIf]
      split
      · exact yields_spiWriteBuf b lenB u
      · obtain rfl : lenB = 0 := by omega
        exact yields_pure () u

/-! Sequences of calls. -/

/-- Each call that does not start with the dummy byte follows one that ended with it. -/
def Spaced (input : ℕ → Byte) : List SdCall → Bus ℕ → Prop
  | [], _ => True
  | [_], _ => True
  | c :: d :: cs, s => (d = .init ∨ Answered input s.device c) ∧
      Spaced input (d :: cs) (c.run (streamDevice input) s).2

/-- A call keeps the trace right if it starts with the dummy byte or none is owed. -/
theorem call_dummy (input : ℕ → Byte) (c : SdCall) (s : Bus ℕ) :
    (DummyBetween (c.run (streamDevice input) s).2.trace ↔
      DummyBetween s.trace ∧ (c = .init ∨ ¬ Owes s.trace)) ∧
    (Owes (c.run (streamDevice input) s).2.trace ↔ ¬ Answered input s.device c) := by
  have hrelease : WireEvent.release ≠ .assert := nofun
  have hclock : WireEvent.clock true ≠ .assert := nofun
  have hopen : DummyBetween (s.trace ++ opening c) ↔
      DummyBetween s.trace ∧ (c = .init ∨ ¬ Owes s.trace) := by
    cases c with
    | init =>
      have hten : ¬ Owes (s.trace ++ [.release] ++ clocks 10 true) := by
        rw [show clocks 10 true = clocks 9 true ++ [.clock true] from clocks_succ 9 true,
          ← List.append_assoc]
        exact not_owes_dummy _
      rw [opening, ← List.append_assoc, ← List.append_assoc, dummyBetween_assert,
        dummyBetween_clocks, dummyBetween_other hrelease]
      exact ⟨fun h => ⟨h.1, .inl rfl⟩, fun h => ⟨h.1, hten⟩⟩
    | _ =>
      rw [opening, dummyBetween_assert]
      · exact ⟨fun h => ⟨h.1, .inr h.2⟩, fun h => ⟨h.1, h.2.resolve_left nofun⟩⟩
      · exact nofun
  obtain ⟨n, ⟨hacc, htrace⟩ | ⟨hacc, htrace⟩⟩ := call_trace input c s
  · rw [htrace, dummyBetween_other hclock, dummyBetween_other hrelease, dummyBetween_clocks, hopen]
    exact ⟨Iff.rfl, fun h => absurd h (not_owes_dummy _), fun h => absurd hacc h⟩
  · rw [htrace, dummyBetween_other hrelease, dummyBetween_clocks, hopen]
    exact ⟨Iff.rfl, fun _ => hacc, fun _ => owes_release _⟩

theorem calls_dummy (input : ℕ → Byte) (calls : List SdCall) (s : Bus ℕ) :
    DummyBetween (runCalls (streamDevice input) calls s).2.trace ↔
      DummyBetween s.trace ∧ (∀ c cs, calls = c :: cs → c = .init ∨ ¬ Owes s.trace) ∧
        Spaced input calls s := by
  induction calls generalizing s with
  | nil => exact ⟨fun h => ⟨h, nofun, trivial⟩, fun h => h.1⟩
  | cons c cs ih =>
    obtain ⟨hdummy, howes⟩ := call_dummy input c s
    change DummyBetween (runCalls (streamDevice input) cs (c.run (streamDevice input) s).2).2.trace ↔ _
    rw [ih, hdummy, howes]
    have hfirst : (∀ c' cs', c :: cs = c' :: cs' → c' = .init ∨ ¬ Owes s.trace) ↔
        (c = .init ∨ ¬ Owes s.trace) :=
      ⟨fun h => h c cs rfl, fun h c' cs' heq => by cases heq; exact h⟩
    rw [hfirst, and_assoc]
    refine and_congr_right fun _ => and_congr_right fun _ => ?_
    cases cs with
    | nil => exact ⟨fun _ => trivial, fun _ => ⟨nofun, trivial⟩⟩
    | cons d cs =>
      rw [Spaced]
      refine and_congr_left fun _ => ⟨fun h => ?_, fun h c' cs' heq => ?_⟩
      · exact (h d cs rfl).imp_right not_not.mp
      · cases heq
        exact h.imp_right not_not.mpr

/-- In a sequence of calls a byte is clocked between each release of chip select and the next
assertion exactly when each call other than `sd_init` follows one that is not `sd_init` and that
the card has answered to its end. -/
theorem dummy_between_iff (input : ℕ → Byte) (calls : List SdCall) (s : Bus ℕ)
    (hs : s.trace = []) : DummyBetween (runCalls (streamDevice input) calls s).2.trace ↔
      Spaced input calls s := by
  have hnone : ¬ Owes s.trace := by
    rw [hs]
    rintro ⟨pre, mid, h, -⟩
    simp at h
  rw [calls_dummy, hs]
  rw [hs] at hnone
  exact ⟨fun h => h.2.2, fun h => ⟨dummyBetween_nil, fun _ _ _ => .inr hnone, h⟩⟩

def Bus.start : Bus ℕ := ⟨.slow, true, false, fun _ => 0, 0, [], []⟩

/-- An erase, a read that times out and `sd_init`, with no card in the slot. -/
theorem dummy_between_no_card : DummyBetween (runCalls (streamDevice fun _ => 0xFF)
    [.erase 0 7, .read 0 0, .init] .start).2.trace :=
  (dummy_between_iff (fun _ => 0xFF) [.erase 0 7, .read 0 0, .init] .start rfl).mpr
    ⟨.inr trivial, .inl rfl, trivial⟩

def readyCard (pos : ℕ) : Byte :=
  if pos = 16 ∨ pos = 24 ∨ pos = 27 ∨ pos = 36 then 0x01
  else if pos = 28 then 0xAA
  else if pos = 44 ∨ pos = 52 ∨ pos = 64 then 0x00
  else if pos = 53 then 0x40
  else 0xFF

/-- After a successful `sd_init` the first read asserts chip select with no byte in between. -/
theorem init_owes_dummy : (SdCall.run (streamDevice readyCard) .init .start).1 = 0 ∧
    ¬ DummyBetween (runCalls (streamDevice readyCard) [.init, .read 0 0] .start).2.trace := by
  refine ⟨by decide +kernel, fun h => ?_⟩
  obtain ⟨hspaced, -⟩ := ((calls_dummy _ _ _).mp h).2.2
  exact hspaced.elim nofun id

end Barelog.Wire
