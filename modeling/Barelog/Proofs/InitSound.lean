import Barelog.Proofs.SdArray
import Barelog.Spec.CmdLog

/-! `sd_init` trusts the right answers: it succeeds only on a card that has gone through the whole
sequence, whatever the answers to the commands that were repeated. -/

namespace Barelog.Wire

open Prog

variable {κ α : Type} {dev : Device κ} {g : SpiRegs} {sd sd0 : Bool} {l : List CmdRecord}
  {E : ℤ → Bus κ × Analyser → Prop}

/-! The analyser beside the code. -/

/-- The analyser is in state `a`; the clock and the flag of the driver are `g` and `sd`. -/
def Sees (g : SpiRegs) (sd : Bool) (a : Analyser) (s : Bus κ × Analyser) : Prop :=
  s.2 = a ∧ s.1.regs = g ∧ s.1.sdhc = sd

/-- The analyser has the commands `l`, last one first, and is between two commands. -/
def Seen (g : SpiRegs) (sd : Bool) (l : List CmdRecord) (s : Bus κ × Analyser) : Prop :=
  Sees g sd ⟨l, .gap⟩ s

abbrev Hoare (dev : Device κ) (P : Bus κ × Analyser → Prop) (p : Spi α)
    (Q : α → Bus κ × Analyser → Prop) (E : ℤ → Bus κ × Analyser → Prop) : Prop :=
  Ensures (watch (spiStep dev) analyserStep) P p Q E

theorem hoare_transfer (a : Analyser) (b : Byte) :
    Hoare dev (Sees g sd a) (spiTransfer b) (fun x => Sees g sd (a.exchange b x)) E := by
  refine ensures_perform fun s hs => ?_
  obtain ⟨rfl, hg, hsd⟩ := hs
  exact ⟨rfl, hg, hsd⟩

theorem hoare_clock (a : Analyser) (b : Byte) :
    Hoare dev (Sees g sd a) (clock b) (fun _ s => ∃ x, Sees g sd (a.exchange b x) s) E :=
  ensures_bind (hoare_transfer a b) fun x => ensures_pure fun _ hs => ⟨x, hs⟩

theorem hoare_frame {a a' : Analyser} {b : Byte} (h : ∀ x, a.exchange b x = a') :
    Hoare dev (Sees g sd a) (clock b) (fun _ => Sees g sd a') E := by
  refine (hoare_clock a b).conseq (fun _ hs => hs) (fun _ s hs => ?_) fun _ _ hs => hs
  obtain ⟨x, hs⟩ := hs
  rwa [h x] at hs

theorem hoare_fill : Hoare dev (Seen g sd l) (clock 0xFF)
    (fun _ s => ∃ x, Seen g sd (hear x l) s) E := hoare_clock ⟨l, .gap⟩ 0xFF

theorem hoare_receive : Hoare dev (Seen g sd l) (spiTransfer 0xFF)
    (fun x => Seen g sd (hear x l)) E := hoare_transfer ⟨l, .gap⟩ 0xFF

/-! A command. -/

def answerOf : Option Byte → ℤ × Byte
  | some r1 => (0, r1)
  | none => (-1, 0xFF)

theorem answerOf_ok {o : Option Byte} {r1 : Byte} (hne : r1 ≠ 0xFF) (h : (answerOf o).2 = r1) :
    (answerOf o).1 = 0 ∧ o = some r1 := by
  cases o with
  | none => exact absurd h.symm hne
  | some x =>
    obtain rfl : x = r1 := h
    exact ⟨rfl, rfl⟩

theorem hoare_pollR1 {cmd : Byte} {arg : ℕ} (n : ℕ) :
    Hoare dev (Sees g sd ⟨l, .poll cmd arg (n + 1)⟩) (pollR1 (n + 1))
      (fun o => Seen g sd (⟨cmd, arg, o, []⟩ :: l)) E := by
  induction n with
  | zero =>
    refine ensures_bind (hoare_transfer _ _) fun x => ensures_ite (fun hx => ?_) fun hx => ?_
    · refine ensures_pure fun s hs => ?_
      rwa [Analyser.exchange, if_pos hx] at hs
    · refine ensures_pure fun s hs => ?_
      rwa [Analyser.exchange, if_neg hx, if_pos rfl] at hs
  | succ n ih =>
    refine ensures_bind (hoare_transfer _ _) fun x => ensures_ite (fun hx => ?_) fun hx => ?_
    · refine ensures_pure fun s hs => ?_
      rwa [Analyser.exchange, if_pos hx] at hs
    · refine ih.conseq (fun s hs => ?_) (fun _ _ hs => hs) fun _ _ hs => hs
      rwa [Analyser.exchange, if_neg hx, if_neg (by omega)] at hs

def IsCmd (cmd : Byte) : Prop := (0x40 ||| cmd) &&& 0xC0 = 0x40 ∧ (0x40 ||| cmd) &&& 0x3F = cmd

instance (cmd : Byte) : Decidable (IsCmd cmd) := instDecidableAnd

theorem hoare_sdCmd {cmd : Byte} {arg : ℕ} (hcmd : IsCmd cmd) (harg : arg < 2 ^ 32) (crc : Byte) :
    Hoare dev (Seen g sd l) (sdCmd cmd arg crc)
      (fun a s => ∃ o, Seen g sd (⟨cmd, arg, o, []⟩ :: l) s ∧ a = answerOf o) E := by
  have hfirst : ∀ x, Analyser.exchange ⟨l, .gap⟩ (0x40 ||| cmd) x = ⟨l, .frame [0x40 ||| cmd]⟩ := by
    intro x
    rw [Analyser.exchange, if_pos hcmd.1]
  have hnext : ∀ (bytes : List Byte) (b x : Byte), bytes.length < 5 →
      Analyser.exchange ⟨l, .frame bytes⟩ b x = ⟨l, .frame (bytes ++ [b])⟩ := by
    intro bytes b x hlen
    rw [Analyser.exchange, if_pos hlen]
  have hclose : ∀ (bytes : List Byte) (x : Byte), bytes.length = 5 →
      Analyser.exchange ⟨l, .frame bytes⟩ crc x =
        ⟨l, .poll (bytes.getD 0 0 &&& 0x3F) (frameArg bytes) 8⟩ := by
    intro bytes x hlen
    rw [Analyser.exchange, if_neg (by omega)]
  have hlast : ∀ x, Analyser.exchange ⟨l, .frame [0x40 ||| cmd, .ofNat (arg / 2 ^ 24),
      .ofNat (arg / 2 ^ 16), .ofNat (arg / 2 ^ 8), .ofNat arg]⟩ crc x = ⟨l, .poll cmd arg 8⟩ := by
    intro x
    rw [hclose _ x rfl, frameArg_eq harg, List.getD_cons_zero, hcmd.2]
  refine ensures_bind (hoare_frame hfirst) fun _ => ?_
  refine ensures_bind (hoare_frame fun x => hnext _ _ x (by simp)) fun _ => ?_
  refine ensures_bind (hoare_frame fun x => hnext _ _ x (by simp)) fun _ => ?_
  refine ensures_bind (hoare_frame fun x => hnext _ _ x (by simp)) fun _ => ?_
  refine ensures_bind (hoare_frame fun x => hnext _ _ x (by simp)) fun _ => ?_
  refine ensures_bind (hoare_frame hlast) fun _ => ensures_bind (hoare_pollR1 7) fun o => ?_
  cases o with
  | none => exact ensures_pure fun s hs => ⟨none, hs, rfl⟩
  | some r1 => exact ensures_pure fun s hs => ⟨some r1, hs, rfl⟩

theorem hoare_command {β : Type} {cmd : Byte} {arg : ℕ} {crc : Byte} {f : ℤ × Byte → Spi β}
    {Q : β → Bus κ × Analyser → Prop} (hcmd : IsCmd cmd) (harg : arg < 2 ^ 32)
    (hf : ∀ o, Hoare dev (Seen g sd (⟨cmd, arg, o, []⟩ :: l)) (f (answerOf o)) Q E) :
    Hoare dev (Seen g sd l) (sdCmd cmd arg crc >>= f) Q E := by
  refine ensures_bind (hoare_sdCmd hcmd harg crc) fun a => ensures_exists fun o => ensures_fact ?_
  rintro rfl
  exact hf o

theorem hoare_gap {β : Type} {f : Unit → Spi β} {Q : β → Bus κ × Analyser → Prop}
    (hf : ∀ x, Hoare dev (Seen g sd (hear x l)) (f ()) Q E) :
    Hoare dev (Seen g sd l) (clock 0xFF >>= f) Q E :=
  ensures_bind hoare_fill fun _ => ensures_exists hf

/-! The numbers of commands. -/

/-- The commands that `sd_init` may repeat have been sent often enough. -/
structure Bounded (l : List CmdRecord) : Prop where
  cmd0 : l.countP (fun c => c.cmd = 0) ≤ 10
  cmd41 : l.countP (fun c => c.cmd = 41) ≤ 1000

theorem Bounded.hear (h : Bounded l) (x : Byte) : Bounded (hear x l) := by
  cases l with
  | nil => exact h
  | cons c l =>
    obtain ⟨h0, h41⟩ := h
    rw [List.countP_cons] at h0 h41
    constructor
    · rw [Barelog.Wire.hear, List.countP_cons]
      exact h0
    · rw [Barelog.Wire.hear, List.countP_cons]
      exact h41

theorem Bounded.cons (h : Bounded l) {c : CmdRecord} (h0 : c.cmd ≠ 0) (h41 : c.cmd ≠ 41) :
    Bounded (c :: l) := by
  constructor
  · rw [List.countP_cons_of_neg (by simpa using h0)]
    exact h.cmd0
  · rw [List.countP_cons_of_neg (by simpa using h41)]
    exact h.cmd41

/-! The flag. -/

/-- CMD58: answered 0x00, with the flag in the first byte after that. -/
structure OcrOk (sd : Bool) (c : CmdRecord) : Prop where
  cmd : c.cmd = 58
  r1 : c.r1 = some 0x00
  ccs : ∃ ocr rest, c.tail = ocr :: rest ∧ sd = decide (ocr &&& 0x40 ≠ 0)

theorem OcrOk.hear {c : CmdRecord} (h : OcrOk sd c) (x : Byte) :
    OcrOk sd { c with tail := c.tail ++ [x] } := by
  obtain ⟨ocr, rest, htail, hsd⟩ := h.ccs
  exact ⟨h.cmd, h.r1, ocr, rest ++ [x], by rw [htail, List.cons_append], hsd⟩

/-- The log when the flag has come from `sd0` to `sd`: it is what the card has sent after CMD58, if
it has. -/
structure Fair (sd0 sd : Bool) (l : List CmdRecord) : Prop where
  bounded : Bounded l
  sent : ∀ c ∈ l, c.cmd = 58 → c.r1 = some 0x00 → OcrOk sd c
  kept : (∀ c ∈ l, c.cmd = 58 → c.r1 ≠ some 0x00) → sd = sd0

theorem fair_early (hl : Bounded l) (hnone : ∀ c ∈ l, c.cmd ≠ 58) : Fair sd sd l :=
  ⟨hl, fun c hc h => absurd h (hnone c hc), fun _ => rfl⟩

theorem Fair.hear (h : Fair sd0 sd l) (x : Byte) : Fair sd0 sd (hear x l) := by
  refine ⟨h.bounded.hear x, ?_, ?_⟩
  · cases l with
    | nil => exact h.sent
    | cons c l =>
      intro d hd hcmd hr1
      rcases List.mem_cons.mp hd with rfl | hd
      · exact (h.sent c List.mem_cons_self hcmd hr1).hear x
      · exact h.sent d (List.mem_cons_of_mem _ hd) hcmd hr1
  · cases l with
    | nil => exact h.kept
    | cons c l =>
      intro hnone
      refine h.kept fun d hd => ?_
      rcases List.mem_cons.mp hd with rfl | hd
      · exact hnone { d with tail := d.tail ++ [x] } List.mem_cons_self
      · exact hnone d (List.mem_cons_of_mem _ hd)

/-- Another command, or a CMD58 that was not answered 0x00. -/
theorem Fair.command (h : Fair sd0 sd l) {cmd : Byte} (h0 : cmd ≠ 0) (h41 : cmd ≠ 41) (arg : ℕ)
    {o : Option Byte} (ho : cmd = 58 → o ≠ some 0x00) : Fair sd0 sd (⟨cmd, arg, o, []⟩ :: l) := by
  refine ⟨h.bounded.cons h0 h41, fun c hc hcmd hr1 => ?_, fun hnone => ?_⟩
  · rcases List.mem_cons.mp hc with rfl | hc
    · exact absurd hr1 (ho hcmd)
    · exact h.sent c hc hcmd hr1
  · exact h.kept fun c hc => hnone c (List.mem_cons_of_mem _ hc)

theorem Fair.other (h : Fair sd0 sd l) {cmd : Byte} {arg : ℕ} {o : Option Byte} (h0 : cmd ≠ 0)
    (h41 : cmd ≠ 41) (h58 : cmd ≠ 58) : Fair sd0 sd (⟨cmd, arg, o, []⟩ :: l) :=
  h.command h0 h41 arg fun h => absurd h h58

theorem fair_read {c : CmdRecord} (hl : Bounded l) (hnone : ∀ c ∈ l, c.cmd ≠ 58) (hc : OcrOk sd c) :
    Fair sd0 sd (c :: l) := by
  refine ⟨hl.cons (by rw [hc.cmd]; decide) (by rw [hc.cmd]; decide), fun d hd hcmd _ => ?_,
    fun h => absurd hc.r1 (h c List.mem_cons_self hc.cmd)⟩
  rcases List.mem_cons.mp hd with rfl | hd
  · exact hc
  · exact absurd hcmd (hnone d hd)

/-- How `sd_init` fails: with `SD_ERR_INIT`, the clock as it was. -/
def InitFailed (g : SpiRegs) (sd0 : Bool) (e : ℤ) (s : Bus κ × Analyser) : Prop :=
  e = -2 ∧ s.1.regs = g ∧ Fair sd0 s.1.sdhc s.2.recent

theorem hoare_refuse {c : Prop} [Decidable c] (hl : c → Fair sd0 sd l) :
    Hoare dev (Seen g sd l) (doIf c (releaseWith (-2))) (fun _ s => Seen g sd l s ∧ ¬ c)
      (InitFailed g sd0) := by
  have hrelease : Hoare dev (Seen g sd l) spiCsRelease (fun _ => Seen g sd l) (InitFailed g sd0) :=
    ensures_perform fun s hs => hs
  refine ensures_doIf (fun hc => ?_) fun hc s hs => ⟨hs, hc⟩
  refine ensures_bind hrelease fun _ => ensures_fail fun s hs => ⟨rfl, hs.2.1, ?_⟩
  rw [hs.1, hs.2.2]
  exact hl hc

theorem hoare_passed {β : Type} {c : Prop} [Decidable c] {f : Unit → Spi β}
    {Q : β → Bus κ × Analyser → Prop} (hl : c → Fair sd0 sd l)
    (hf : ¬ c → Hoare dev (Seen g sd l) (f ()) Q (InitFailed g sd0)) :
    Hoare dev (Seen g sd l) (doIf c (releaseWith (-2)) >>= f) Q (InitFailed g sd0) :=
  ensures_bind (hoare_refuse hl) fun _ => ensures_fact hf

/-! The steps. -/

/-- The CMD0 loop: only CMD0, and if `r1` is 0x01 the last one was answered so. -/
structure Idled (n : ℕ) (r1 : Byte) (a : List CmdRecord) : Prop where
  count : a.length ≤ n
  all : ∀ c ∈ a, c.cmd = 0
  last : r1 = 0x01 → ∃ c a', a = c :: a' ∧ c.r1 = some 0x01

theorem hoare_goIdle (n : ℕ) {r1 : Byte} (hr1 : r1 ≠ 0x01) : Hoare dev (Seen g sd l) (goIdle n r1)
    (fun r s => ∃ a, Seen g sd (a ++ l) s ∧ Idled n r a) E := by
  induction n generalizing r1 l with
  | zero =>
    exact ensures_pure fun s hs => ⟨[], hs, by simp, by simp, fun h => absurd h hr1⟩
  | succ n ih =>
    refine hoare_command (by decide) (by decide) fun o => ensures_ite (fun hok => ?_) fun hbad => ?_
    · obtain ⟨-, ho⟩ := answerOf_ok (by decide) hok.2
      refine ensures_pure fun s hs => ⟨[⟨0, 0, o, []⟩], hs, ?_, ?_, fun _ => ⟨_, [], rfl, ho⟩⟩
      · rw [List.length_singleton]
        omega
      · intro c hc
        rw [List.mem_singleton.mp hc]
    · have hne : (answerOf o).2 ≠ 0x01 := fun h => hbad ⟨(answerOf_ok (by decide) h).1, h⟩
      refine hoare_gap fun x => ?_
      refine (ih (l := ⟨0, 0, o, [] ++ [x]⟩ :: l) hne).conseq (fun _ hs => hs) ?_ fun _ _ hs => hs
      rintro r s ⟨a, hs, ha⟩
      refine ⟨a ++ [⟨0, 0, o, [] ++ [x]⟩], by rwa [List.append_assoc], ?_, ?_, fun hr => ?_⟩
      · rw [List.length_append, List.length_singleton]
        exact Nat.add_le_add_right ha.count 1
      · intro c hc
        rcases List.mem_append.mp hc with hc | hc
        · exact ha.all c hc
        · rw [List.mem_singleton.mp hc]
      · obtain ⟨c, a', rfl, hc⟩ := ha.last hr
        exact ⟨c, a' ++ [⟨0, 0, o, [] ++ [x]⟩], rfl, hc⟩

/-- CMD8: if it was answered 0x01, the echo was right. -/
structure CondOk (c : CmdRecord) : Prop where
  cmd : c.cmd = 8
  echo : c.r1 = some 0x01 → c.tail.getD 3 0 = 0xAA ∧ c.tail.getD 2 0 &&& 0x0F = 0x01

theorem CondOk.hear {c : CmdRecord} (h : CondOk c) (hlen : c.r1 = some 0x01 → 4 ≤ c.tail.length)
    (x : Byte) : CondOk { c with tail := c.tail ++ [x] } := by
  refine ⟨h.cmd, fun h1 => ?_⟩
  have hlen := hlen h1
  rw [List.getD_append _ _ _ _ (by omega), List.getD_append _ _ _ _ (by omega)]
  exact h.echo h1

theorem hoare_sendIfCond (hl : Fair sd0 sd l) : Hoare dev (Seen g sd l) sendIfCond
    (fun _ s => ∃ c, Seen g sd (c :: l) s ∧ CondOk c ∧ (c.r1 = some 0x01 → 4 ≤ c.tail.length))
      (InitFailed g sd0) := by
  refine hoare_command (by decide) (by decide) fun o => ensures_ite (fun hok => ?_) fun hbad => ?_
  · refine hoare_gap fun x1 => hoare_gap fun x2 => ensures_bind hoare_receive fun x3 => ?_
    refine ensures_bind hoare_receive fun x4 => ?_
    have hb : Fair sd0 sd (hear x4 (hear x3 (hear x2 (hear x1 (⟨8, 0x000001AA, o, []⟩ :: l))))) :=
      ((((hl.other (by decide) (by decide) (by decide)).hear x1).hear x2).hear x3).hear x4
    refine (hoare_refuse fun _ => hb).conseq (fun _ hs => hs) ?_ fun _ _ hs => hs
    rintro _ s ⟨hs, hecho⟩
    refine ⟨⟨8, 0x000001AA, o, [x1, x2, x3, x4]⟩, hs, ⟨rfl, fun _ => ?_⟩, fun _ => by simp⟩
    have h := not_or.mp hecho
    exact ⟨not_not.mp h.1, not_not.mp h.2⟩
  · have hne : o ≠ some 0x01 := by
      rintro rfl
      exact hbad ⟨rfl, rfl⟩
    refine ensures_pure fun s hs => ⟨⟨8, 0x000001AA, o, []⟩, hs, ⟨rfl, fun h => absurd h hne⟩,
      fun h => absurd h hne⟩

/-- CMD41 right after CMD55, answered 0x00. -/
def OpAnswered (b : List CmdRecord) : Prop :=
  ∃ op app b', b = op :: app :: b' ∧ op.cmd = 41 ∧ op.r1 = some 0x00 ∧ app.cmd = 55

/-- The ACMD41 loop: only CMD55 and CMD41, and if `r1` is 0x00 the last CMD41 was answered so. -/
structure Opened (n : ℕ) (r1 : Byte) (b : List CmdRecord) : Prop where
  count : b.countP (fun c => c.cmd = 41) ≤ n
  all : ∀ c ∈ b, c.cmd = 55 ∨ c.cmd = 41
  last : r1 = 0x00 → OpAnswered b

theorem Opened.hear {n : ℕ} {r1 : Byte} {b : List CmdRecord} (h : Opened n r1 b) (x : Byte) :
    Opened n r1 (hear x b) := by
  cases b with
  | nil => exact h
  | cons c b =>
    refine ⟨?_, fun d hd => ?_, fun hr => ?_⟩
    · have hc := h.count
      rw [List.countP_cons] at hc
      rw [Barelog.Wire.hear, List.countP_cons]
      exact hc
    · rcases List.mem_cons.mp hd with rfl | hd
      · exact h.all c List.mem_cons_self
      · exact h.all d (List.mem_cons_of_mem _ hd)
    · obtain ⟨op, app, b', heq, hop, hr1, happ⟩ := h.last hr
      obtain ⟨rfl, rfl⟩ := List.cons.inj heq
      exact ⟨{ c with tail := c.tail ++ [x] }, app, b', rfl, hop, hr1, happ⟩

theorem hear_append {b : List CmdRecord} (hb : b ≠ []) (x : Byte) (l : List CmdRecord) :
    hear x (b ++ l) = hear x b ++ l := by
  cases b with
  | nil => exact absurd rfl hb
  | cons c b => rfl

theorem hoare_sdAcmd : Hoare dev (Seen g sd l) (sdAcmd 41 0x40000000)
    (fun a s => ∃ b, Seen g sd (b ++ l) s ∧ b ≠ [] ∧ Opened 1 a.2 b ∧ (a.2 = 0x00 → a.1 = 0)) E := by
  refine hoare_command (by decide) (by decide) fun o => ensures_ite (fun hbad => ?_) fun hok => ?_
  · have hne : (answerOf o).2 ≠ 0x00 := fun h => hbad (answerOf_ok (by decide) h).1
    refine ensures_pure fun s hs => ⟨[⟨55, 0, o, []⟩], hs, by simp, ⟨?_, ?_, ?_⟩, ?_⟩
    · simp
    · simp
    · exact fun h => absurd h hne
    · exact fun h => absurd h hne
  · refine hoare_gap fun x => ?_
    refine (hoare_sdCmd (by decide) (by decide) 0x01).conseq (fun _ hs => hs) ?_ fun _ _ hs => hs
    rintro _ s ⟨o', hs, rfl⟩
    refine ⟨[⟨41, 0x40000000, o', []⟩, ⟨55, 0, o, [] ++ [x]⟩], hs, by simp, ⟨?_, ?_, ?_⟩, ?_⟩
    · simp
    · simp
    · exact fun h => ⟨_, _, [], rfl, rfl, (answerOf_ok (by decide) h).2, rfl⟩
    · exact fun h => (answerOf_ok (by decide) h).1

theorem hoare_sendOpCond (n : ℕ) {r1 : Byte} (hr1 : r1 ≠ 0x00) :
    Hoare dev (Seen g sd l) (sendOpCond n r1)
      (fun r s => ∃ b, Seen g sd (b ++ l) s ∧ Opened n r b) E := by
  induction n generalizing r1 l with
  | zero =>
    exact ensures_pure fun s hs => ⟨[], hs, by simp, by simp, fun h => absurd h hr1⟩
  | succ n ih =>
    refine ensures_bind hoare_sdAcmd fun a => ensures_exists fun b => ensures_fact ?_
    rintro ⟨hne, hb, hcode⟩
    refine hoare_gap fun x => ?_
    rw [hear_append hne]
    have hb' := hb.hear x
    refine ensures_ite (fun hok => ?_) fun hbad => ?_
    · exact ensures_pure fun s hs => ⟨_, hs, hb'.count.trans (by omega), hb'.all, hb'.last⟩
    · have hne0 : a.2 ≠ 0x00 := fun h => hbad ⟨hcode h, h⟩
      refine (ih (l := hear x b ++ l) hne0).conseq (fun _ hs => hs) ?_ fun _ _ hs => hs
      rintro r s ⟨b', hs, hb''⟩
      refine ⟨b' ++ hear x b, by rwa [List.append_assoc], ?_, fun c hc => ?_, fun hr => ?_⟩
      · rw [List.countP_append]
        exact Nat.add_le_add hb''.count hb'.count
      · rcases List.mem_append.mp hc with hc | hc
        · exact hb''.all c hc
        · exact hb'.all c hc
      · obtain ⟨op, app, rest, rfl, hop, hr1, happ⟩ := hb''.last hr
        exact ⟨op, app, rest ++ hear x b, rfl, hop, hr1, happ⟩

theorem answered_zero {o : Option Byte} (h : ¬ ((answerOf o).1 ≠ 0 ∨ (answerOf o).2 ≠ 0x00)) :
    o = some 0x00 := (answerOf_ok (by decide) (not_not.mp (not_or.mp h).2)).2

theorem hoare_readOcr (hl : Fair sd0 sd l) : Hoare dev (Seen g sd l) readOcr
    (fun _ s => ∃ sd' c, Seen g sd' (c :: l) s ∧ OcrOk sd' c) (InitFailed g sd0) := by
  refine hoare_command (by decide) (by decide) fun o => ?_
  have hrefused : ((answerOf o).1 ≠ 0 ∨ (answerOf o).2 ≠ 0x00) →
      Fair sd0 sd (⟨58, 0, o, []⟩ :: l) := by
    refine fun hbad => hl.command (by decide) (by decide) _ fun _ => ?_
    rintro rfl
    exact hbad.elim (fun h => h rfl) fun h => h rfl
  refine hoare_passed hrefused fun hok => ?_
  refine ensures_bind hoare_receive fun ocr => hoare_gap fun x1 => hoare_gap fun x2 => ?_
  refine hoare_gap fun x3 => ensures_perform fun s hs => ?_
  refine ⟨decide (ocr &&& 0x40 ≠ 0), ⟨58, 0, o, [ocr, x1, x2, x3]⟩, ⟨hs.1, hs.2.1, rfl⟩, rfl,
    answered_zero hok, ocr, [x1, x2, x3], rfl, rfl⟩

structure LenOk (sd : Bool) (e : List CmdRecord) : Prop where
  all : ∀ c ∈ e, c.cmd = 16
  some : sd = false → ∃ c, e = [c] ∧ c.arg = 512 ∧ c.r1 = some 0x00

theorem hoare_setBlocklen (hl : Fair sd0 sd l) : Hoare dev (Seen g sd l) setBlocklen
    (fun _ s => ∃ e, Seen g sd (e ++ l) s ∧ LenOk sd e) (InitFailed g sd0) := by
  have hget : Hoare dev (Seen g sd l) (spiOp .getSdhc) (fun b s => Seen g sd l s ∧ b = sd)
      (InitFailed g sd0) := ensures_perform fun s hs => ⟨hs, hs.2.2⟩
  refine ensures_bind hget fun b => ensures_fact ?_
  rintro rfl
  refine ensures_ite (fun hb => ?_) fun hb => ?_
  · refine hoare_command (by decide) (by decide) fun o => ?_
    refine hoare_passed (fun _ => hl.other (by decide) (by decide) (by decide)) fun hok => ?_
    refine hoare_fill.conseq (fun _ hs => hs) ?_ fun _ _ hs => hs
    rintro _ s ⟨x, hs⟩
    refine ⟨[⟨16, 512, o, [] ++ [x]⟩], hs, by simp, fun _ => ⟨_, rfl, rfl, answered_zero hok⟩⟩
  · exact ensures_pure fun s hs => ⟨[], hs, by simp, fun h => absurd h hb⟩

/-! The whole sequence. -/

/-- The answers that `sd_init` needs, in the order of the commands: CMD0 answered 0x01; CMD8, whose
echo is right if it was answered 0x01; CMD41 right after CMD55 answered 0x00; CMD58 answered 0x00,
with the flag `sdhc` as bit 6 of the byte after; and CMD16 with 512 answered 0x00 if it is 0. Before
each of them come tries of the same step only. -/
def InitAnswered (l : List CmdRecord) (sdhc : Bool) : Prop :=
  ∃ idles idle cond ops app op ocr rest,
    l = idles ++ idle :: cond :: (ops ++ app :: op :: ocr :: rest) ∧
    (∀ c ∈ idles, c.cmd = 0) ∧ idle.cmd = 0 ∧ idle.r1 = some 0x01 ∧ CondOk cond ∧
    (∀ c ∈ ops, c.cmd = 55 ∨ c.cmd = 41) ∧ app.cmd = 55 ∧ op.cmd = 41 ∧ op.r1 = some 0x00 ∧
    OcrOk sdhc ocr ∧ (∀ c ∈ rest, c.cmd = 16 ∨ c.cmd = 59) ∧
    (sdhc = false → ∃ len rest', rest = len :: rest' ∧ len.cmd = 16 ∧ len.arg = 512 ∧
      len.r1 = some 0x00)

theorem initAnswered_of {a b e : List CmdRecord} {cond ocr last : CmdRecord} {x : Byte}
    (ha : Idled 10 0x01 a) (hcond : CondOk cond) (hb : Opened 1000 0x00 b) (hocr : OcrOk sd ocr)
    (he : LenOk sd e) (hlast : last.cmd = 59) :
    InitAnswered (last :: (e ++ ocr :: (b ++ cond :: hear x a))).reverse sd := by
  obtain ⟨idle, idles, rfl, hidle⟩ := ha.last rfl
  obtain ⟨op, app, ops, rfl, hop, hop1, happ⟩ := hb.last rfl
  refine ⟨idles.reverse, { idle with tail := idle.tail ++ [x] }, cond, ops.reverse, app, op, ocr,
    e.reverse ++ [last], ?_, ?_, ?_, hidle, hcond, ?_, happ, hop, hop1, hocr, ?_, ?_⟩
  · simp [hear]
  · exact fun c hc => ha.all c (List.mem_cons_of_mem _ (List.mem_reverse.mp hc))
  · exact ha.all idle List.mem_cons_self
  · exact fun c hc => hb.all c (List.mem_cons_of_mem _ (List.mem_cons_of_mem _ (List.mem_reverse.mp hc)))
  · intro c hc
    rcases List.mem_append.mp hc with hc | hc
    · exact .inl (he.all c (List.mem_reverse.mp hc))
    · exact .inr (by rw [List.mem_singleton.mp hc, hlast])
  · intro hsd
    obtain ⟨len, rfl, harg, hr1⟩ := he.some hsd
    exact ⟨len, [last], rfl, he.all len List.mem_cons_self, harg, hr1⟩

def InitDone (sd0 : Bool) (s : Bus κ × Analyser) : Prop :=
  Fair sd0 s.1.sdhc s.2.recent ∧ InitAnswered s.2.recent.reverse s.1.sdhc

theorem Idled.bounded {r1 : Byte} {a : List CmdRecord} (h : Idled 10 r1 a) : Bounded a := by
  refine ⟨List.countP_le_length.trans h.count, ?_⟩
  rw [List.countP_eq_zero.mpr]
  · exact Nat.zero_le _
  · intro c hc
    simp [h.all c hc]

theorem Opened.bounded {r1 : Byte} {b : List CmdRecord} (h : Opened 1000 r1 b) (hl : Bounded l)
    (hnone : l.countP (fun c => c.cmd = 41) = 0) : Bounded (b ++ l) := by
  constructor
  · rw [List.countP_append, List.countP_eq_zero.mpr, Nat.zero_add]
    · exact hl.cmd0
    · intro c hc
      rcases h.all c hc with h | h <;> simp [h]
  · rw [List.countP_append, hnone]
    exact h.count

theorem Fair.append_len {e : List CmdRecord} (he : LenOk sd e) (hl : Fair sd0 sd l) :
    Fair sd0 sd (e ++ l) := by
  have hzero : ∀ n : Byte, n ≠ 16 → e.countP (fun c => c.cmd = n) = 0 := by
    intro n hn
    rw [List.countP_eq_zero]
    intro c hc
    simp [he.all c hc, hn.symm]
  refine ⟨⟨?_, ?_⟩, fun c hc hcmd hr1 => ?_, fun hnone => ?_⟩
  · rw [List.countP_append, hzero 0 (by decide), Nat.zero_add]
    exact hl.bounded.cmd0
  · rw [List.countP_append, hzero 41 (by decide), Nat.zero_add]
    exact hl.bounded.cmd41
  · rcases List.mem_append.mp hc with hc | hc
    · rw [he.all c hc] at hcmd
      cases hcmd
    · exact hl.sent c hc hcmd hr1
  · exact hl.kept fun c hc => hnone c (List.mem_append_right _ hc)

theorem early_cmds {a : List CmdRecord} {c : CmdRecord} {x y : Byte} (ha : Idled 10 0x01 a)
    (hcond : CondOk c) : ∀ d ∈ hear y (c :: hear x a), d.cmd = 8 ∨ d.cmd = 0 := by
  obtain ⟨idle, idles, rfl, -⟩ := ha.last rfl
  intro d hd
  rcases List.mem_cons.mp hd with rfl | hd
  · exact .inl hcond.cmd
  rcases List.mem_cons.mp hd with rfl | hd
  · exact .inr (ha.all idle List.mem_cons_self)
  · exact .inr (ha.all d (List.mem_cons_of_mem _ hd))

theorem hoare_initCommands : Hoare dev (Seen g sd []) initCommands
    (fun _ s => InitDone sd s) (InitFailed g sd) := by
  refine ensures_bind (hoare_goIdle 10 (by decide)) fun r => ensures_exists fun a => ensures_fact ?_
  intro ha
  rw [List.append_nil]
  have hidle : Fair sd sd a := fair_early ha.bounded fun c hc => by rw [ha.all c hc]; decide
  refine hoare_passed (fun _ => hidle) fun hr => hoare_gap fun x => ?_
  obtain rfl : r = 0x01 := not_not.mp hr
  have hbase := hidle.hear x
  refine ensures_bind (hoare_sendIfCond hbase) fun _ => ensures_exists fun c => ensures_fact ?_
  rintro ⟨hcond, hlen⟩
  refine hoare_gap fun y => ?_
  have hcond' := hcond.hear hlen y
  have hearly := early_cmds (x := x) (y := y) ha hcond
  have hbase' : Bounded (hear y (c :: hear x a)) :=
    (hbase.bounded.cons (by rw [hcond.cmd]; decide) (by rw [hcond.cmd]; decide)).hear y
  have hnone : (hear y (c :: hear x a)).countP (fun c => c.cmd = 41) = 0 := by
    rw [List.countP_eq_zero]
    intro d hd
    rcases hearly d hd with h | h <;> simp [h]
  refine ensures_bind (hoare_sendOpCond 1000 (by decide)) fun r => ensures_exists fun b =>
    ensures_fact ?_
  intro hb
  have hops := hb.bounded hbase' hnone
  have hno58 : ∀ d ∈ b ++ hear y (c :: hear x a), d.cmd ≠ 58 := by
    intro d hd
    rcases List.mem_append.mp hd with hd | hd
    · rcases hb.all d hd with h | h <;> rw [h] <;> decide
    · rcases hearly d hd with h | h <;> rw [h] <;> decide
  have hfair : Fair sd sd (b ++ hear y (c :: hear x a)) := fair_early hops hno58
  refine hoare_passed (fun _ => hfair) fun hr => ?_
  obtain rfl : r = 0x00 := not_not.mp hr
  refine ensures_bind (hoare_readOcr hfair) fun _ => ensures_exists fun sd' => ensures_exists fun o =>
    ensures_fact ?_
  intro hocr
  refine hoare_gap fun z => ?_
  have hread : Fair sd sd' (hear z (o :: (b ++ hear y (c :: hear x a)))) :=
    (fair_read hops hno58 hocr).hear z
  refine ensures_bind (hoare_setBlocklen hread) fun _ => ensures_exists fun e => ensures_fact ?_
  intro he
  refine hoare_command (by decide) (by decide) fun o' => ?_
  refine hoare_fill.conseq (fun _ hs => hs) ?_ fun _ _ hs => hs
  rintro _ s ⟨w, hs, -, hsdhc⟩
  rw [InitDone, hs, hsdhc]
  refine ⟨((hread.append_len he).other (by decide) (by decide) (by decide)).hear w, ?_⟩
  exact initAnswered_of ha hcond' hb (hocr.hear z) he rfl

theorem hoare_sdInit (dev : Device κ) (g : SpiRegs) (sd : Bool) : Hoare dev (Seen g sd []) sdInit
    (fun _ s => s.1.regs = .fast ∧ InitDone sd s) (InitFailed g sd) := by
  have hquiet : ∀ (o : SpiOp), (∀ b, o ≠ .transfer b) → o ≠ .spiInit → o ≠ .spiSetFast →
      (∀ b, o ≠ .setSdhc b) → Hoare dev (Seen g sd []) (spiOp o) (fun _ => Seen g sd [])
        (InitFailed g sd) := by
    intro o h1 h2 h3 h4
    refine ensures_perform fun s hs => ?_
    cases o with
    | transfer b => exact absurd rfl (h1 b)
    | spiInit => exact absurd rfl h2
    | spiSetFast => exact absurd rfl h3
    | setSdhc b => exact absurd rfl (h4 b)
    | _ => exact hs
  have hfill : Hoare dev (Seen g sd []) (forUp 0 10 fun _ => clock 0xFF) (fun _ => Seen g sd [])
      (InitFailed g sd) := by
    refine ensures_forUp (I := fun _ => Seen g sd []) fun _ _ _ => ?_
    exact hoare_fill.conseq (fun _ hs => hs) (fun _ s ⟨_, hs⟩ => hs) fun _ _ hs => hs
  have hrelease : Hoare dev (InitDone sd) spiCsRelease (fun _ => InitDone sd) (InitFailed g sd) :=
    ensures_perform fun s hs => hs
  refine ensures_bind (hquiet .enterInit nofun nofun nofun nofun) fun _ => ?_
  refine ensures_bind (hquiet .csRelease nofun nofun nofun nofun) fun _ => ?_
  refine ensures_bind hfill fun _ => ?_
  refine ensures_bind (hquiet .csAssert nofun nofun nofun nofun) fun _ => ?_
  refine ensures_bind hoare_initCommands fun _ => ?_
  exact ensures_bind hrelease fun _ => ensures_perform fun s hs => ⟨rfl, hs⟩

theorem sdInit_logged (dev : Device κ) (s : Bus κ) :
    Fair s.sdhc (sdInit.run (spiStep dev) s).2.sdhc
        (commandLog (sdInit.transcript (spiStep dev) s)).reverse ∧
      ((sdInit.run (spiStep dev) s).1 = .ok () ∧ (sdInit.run (spiStep dev) s).2.regs = .fast ∧
          InitAnswered (commandLog (sdInit.transcript (spiStep dev) s))
            (sdInit.run (spiStep dev) s).2.sdhc ∨
        (sdInit.run (spiStep dev) s).1 = .error (-2) ∧
          (sdInit.run (spiStep dev) s).2.regs = s.regs) := by
  have hwatch := run_watch (spiStep dev) analyserStep sdInit s ⟨[], .gap⟩
  have hsound := hoare_sdInit dev s.regs s.sdhc
  rw [commandLog, List.reverse_reverse]
  rcases hr : (sdInit.run (spiStep dev) s).1 with e | a
  · rw [hr] at hwatch
    obtain ⟨rfl, hregs, hfair⟩ := hsound.error _ e _ ⟨rfl, rfl, rfl⟩ hwatch
    exact ⟨hfair, .inr ⟨rfl, hregs⟩⟩
  · rw [hr] at hwatch
    obtain ⟨hregs, hfair, hans⟩ := hsound.ok _ a _ ⟨rfl, rfl, rfl⟩ hwatch
    exact ⟨hfair, .inl ⟨rfl, hregs, hans⟩⟩

/-- `sd_init` sends at most 10 CMD0 and at most 1000 CMD41. It returns `SD_OK`, with the fast clock,
only if the answers were those it needs; else it returns `SD_ERR_INIT` and leaves the clock. -/
theorem sd_init_sound (dev : Device κ) (s : Bus κ) :
    let run := sdInit.run (spiStep dev) s
    let l := commandLog (sdInit.transcript (spiStep dev) s)
    l.countP (fun c => c.cmd = 0) ≤ 10 ∧ l.countP (fun c => c.cmd = 41) ≤ 1000 ∧
      (run.1 = .ok () ∧ run.2.regs = .fast ∧ InitAnswered l run.2.sdhc ∨
        run.1 = .error (-2) ∧ run.2.regs = s.regs) := by
  obtain ⟨hfair, hend⟩ := sdInit_logged dev s
  refine ⟨?_, ?_, hend⟩
  · rw [← List.countP_reverse]
    exact hfair.bounded.cmd0
  · rw [← List.countP_reverse]
    exact hfair.bounded.cmd41

end Barelog.Wire
