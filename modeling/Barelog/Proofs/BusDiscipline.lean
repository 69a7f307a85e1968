import Barelog.Proofs.ChipSelect
import Barelog.Spec.BusLog

/-! Chip select and the command frames over any sequence of calls, whatever the card answers. -/

namespace Barelog.Wire

open Prog

variable {κ α : Type} {dev : Device κ} {x y : BusPhase} {b : Byte}

/-! The analyser. -/

/-- The analyser as an observer of the code. -/
def phaseStep (o : SpiOp) (_ : o.Reply) (x : Option BusPhase) : Option BusPhase :=
  match o.event with
  | none => x
  | some e => x.bind fun x => x.next e

theorem observe_phase (t : List (Exchange spiSig)) (x : Option BusPhase) :
    observe (S := spiSig) phaseStep t x = (busLog t).foldl (fun x e => x.bind fun x => x.next e) x := by
  induction t generalizing x with
  | nil => rfl
  | cons z t ih =>
    rw [busLog, List.filterMap_cons]
    change observe (S := spiSig) phaseStep t (phaseStep z.1 z.2 x) = _
    rw [ih, phaseStep]
    cases z.1.event <;> rfl

def BusPhase.level : BusPhase → Bool
  | released => true
  | _ => false

theorem next_byte_level (h : x.next (.byte b) = some y) : y.level = x.level := by
  cases x with
  | released =>
    rw [BusPhase.next] at h
    split_ifs at h
    cases h
    rfl
  | selected =>
    rw [BusPhase.next] at h
    split_ifs at h <;> cases h <;> rfl
  | frame n => cases n <;> cases h <;> rfl
  | data =>
    cases h
    rfl

/-! The code against the analyser. -/

def AtPhase (x : BusPhase) (s : Bus κ × Option BusPhase) : Prop :=
  s.1.csHigh = x.level ∧ s.2 = some x

/-- From phase `x` the code returns in phase `y`, or fails with the card released. -/
abbrev Moves (dev : Device κ) (x : BusPhase) (p : Spi α) (y : BusPhase) : Prop :=
  Ensures (watch (spiStep dev) phaseStep) (AtPhase x) p (fun _ => AtPhase y)
    (fun _ => AtPhase .released)

theorem moves_pure (a : α) : Moves dev x (pure a) x := ensures_pure fun _ hs => hs

theorem Moves.bind {β : Type} {z : BusPhase} {p : Spi α} {f : α → Spi β} (hp : Moves dev x p y)
    (hf : ∀ a, Moves dev y (f a) z) : Moves dev x (p >>= f) z := ensures_bind hp hf

theorem moves_ite {c : Prop} [Decidable c] {p q : Spi α} (hp : c → Moves dev x p y)
    (hq : ¬ c → Moves dev x q y) : Moves dev x (if c then p else q) y := ensures_ite hp hq

theorem moves_transfer (h : x.next (.byte b) = some y) : Moves dev x (spiTransfer b) y := by
  refine ensures_perform fun s hs => ⟨hs.1.trans (next_byte_level h).symm, ?_⟩
  rw [watch, phaseStep, hs.2]
  exact h

theorem moves_clock (h : x.next (.byte b) = some y) : Moves dev x (clock b) y :=
  (moves_transfer h).bind fun _ => moves_pure ()

theorem moves_assert : Moves dev .released spiCsAssert .selected := by
  refine ensures_perform fun s hs => ⟨rfl, ?_⟩
  rw [watch, phaseStep, hs.2]
  rfl

theorem moves_release (h : x.next .release = some .released) : Moves dev x spiCsRelease .released := by
  refine ensures_perform fun s hs => ⟨rfl, ?_⟩
  rw [watch, phaseStep, hs.2]
  exact h

theorem moves_quiet (o : SpiOp) (ho : o.event = none) (hne : o ≠ .spiInit) :
    Moves dev x (spiOp o) x := by
  refine ensures_perform fun s hs => ?_
  cases o with
  | spiInit => exact absurd rfl hne
  | transfer b => cases ho
  | csAssert => cases ho
  | csRelease => cases ho
  | _ => exact hs

theorem moves_forUp {lo n : ℕ} {body : ℕ → Spi Unit} (hbody : ∀ i, Moves dev x (body i) x) :
    Moves dev x (forUp lo n body) x := ensures_forUp (I := fun _ => AtPhase x) fun i _ _ => hbody i

theorem moves_releaseWith (h : x.next .release = some .released) (c : ℤ) :
    Moves dev x (releaseWith c) y :=
  (moves_release h).bind fun _ => ensures_fail fun _ hs => hs

theorem moves_refuse {c : Prop} [Decidable c] (h : x.next .release = some .released) (e : ℤ) :
    Moves dev x (doIf c (releaseWith e)) x :=
  ensures_doIf (fun _ => moves_releaseWith h e) fun _ _ hs => hs

theorem moves_fill : Moves dev .selected (clock 0xFF) .selected := moves_clock rfl

theorem moves_pollR1 (n : ℕ) : Moves dev .selected (pollR1 n) .selected := by
  induction n with
  | zero => exact moves_pure none
  | succ n ih =>
    exact (moves_transfer rfl).bind fun _ => moves_ite (fun _ => moves_pure _) fun _ => ih

theorem moves_sdCmd {cmd : Byte} (hcmd : cmd < 0x40) (arg : ℕ) (crc : Byte) :
    Moves dev .selected (sdCmd cmd arg crc) .selected := by
  have hfirst : BusPhase.selected.next (.byte (0x40 ||| cmd)) = some (.frame 4) := by
    have hlow : (0x40 ||| cmd).toNat = 0x40 + cmd.toNat := by
      have hlt : cmd.toNat < 2 ^ 6 := UInt8.lt_iff_toNat_lt.mp hcmd
      rw [UInt8.toNat_or]
      exact (Nat.two_pow_add_eq_or_of_lt hlt 1).symm
    have hlt : cmd.toNat < 0x40 := UInt8.lt_iff_toNat_lt.mp hcmd
    have h1 : 0x40 ||| cmd ≠ 0xFF := by
      intro h
      have : (0x40 ||| cmd).toNat = 0xFF := congrArg UInt8.toNat h
      omega
    have h2 : 0x40 ||| cmd ≠ 0xFE := by
      intro h
      have : (0x40 ||| cmd).toNat = 0xFE := congrArg UInt8.toNat h
      omega
    have h3 : 0x40 ≤ 0x40 ||| cmd := by
      rw [UInt8.le_iff_toNat_le, hlow]
      exact Nat.le_add_right _ _
    rw [BusPhase.next, if_neg h1, if_neg h2, if_pos h3]
  refine (moves_clock hfirst).bind fun _ => (moves_clock rfl).bind fun _ => ?_
  refine (moves_clock rfl).bind fun _ => (moves_clock rfl).bind fun _ => ?_
  refine (moves_clock rfl).bind fun _ => (moves_clock rfl).bind fun _ => ?_
  refine (moves_pollR1 8).bind fun resp => ?_
  cases resp with
  | none => exact moves_pure _
  | some r1 => exact moves_pure _

theorem moves_sdAcmd {cmd : Byte} (hcmd : cmd < 0x40) (arg : ℕ) :
    Moves dev .selected (sdAcmd cmd arg) .selected :=
  (moves_sdCmd (by decide) _ _).bind fun _ => moves_ite (fun _ => moves_pure _) fun _ =>
    moves_fill.bind fun _ => moves_sdCmd hcmd _ _

theorem moves_sdWaitReady (h : x.next (.byte 0xFF) = some x) (n : ℕ) :
    Moves dev x (sdWaitReady n) x := by
  induction n with
  | zero => exact moves_pure _
  | succ n ih =>
    exact (moves_transfer h).bind fun _ => moves_ite (fun _ => moves_pure _) fun _ => ih

theorem moves_sdLbaArg (lba : ℕ) : Moves dev x (sdLbaArg lba) x :=
  (moves_quiet .getSdhc rfl nofun).bind fun _ => moves_pure _

theorem moves_spiWriteBuf (buf len : ℕ) : Moves dev .data (spiWriteBuf buf len) .data :=
  moves_forUp fun i => (moves_quiet (.memGet (buf + i)) rfl nofun).bind fun _ => moves_clock rfl

theorem moves_spiWriteZeros (len : ℕ) : Moves dev .data (spiWriteZeros len) .data :=
  moves_forUp fun _ => moves_clock rfl

theorem moves_spiWriteSpan (spanB : Option ℕ) (lenB : ℕ) :
    Moves dev .data (spiWriteSpan spanB lenB) .data := by
  cases spanB with
  | none => exact moves_pure ()
  | some b => exact moves_ite (fun _ => moves_spiWriteBuf b lenB) fun _ => moves_pure ()

/-! `sd_init`. -/

theorem moves_goIdle (n : ℕ) (r1 : Byte) : Moves dev .selected (goIdle n r1) .selected := by
  induction n generalizing r1 with
  | zero => exact moves_pure r1
  | succ n ih =>
    exact (moves_sdCmd (by decide) _ _).bind fun _ => moves_ite (fun _ => moves_pure _) fun _ =>
      moves_fill.bind fun _ => ih _

theorem moves_sendIfCond : Moves dev .selected sendIfCond .selected :=
  (moves_sdCmd (by decide) _ _).bind fun _ => moves_ite (fun _ => moves_fill.bind fun _ =>
    moves_fill.bind fun _ => (moves_transfer rfl).bind fun _ => (moves_transfer rfl).bind fun _ =>
      moves_refuse rfl _) fun _ => moves_pure ()

theorem moves_sendOpCond (n : ℕ) (r1 : Byte) : Moves dev .selected (sendOpCond n r1) .selected := by
  induction n generalizing r1 with
  | zero => exact moves_pure r1
  | succ n ih =>
    exact (moves_sdAcmd (by decide) _).bind fun _ => moves_fill.bind fun _ =>
      moves_ite (fun _ => moves_pure _) fun _ => ih _

theorem moves_readOcr : Moves dev .selected readOcr .selected :=
  (moves_sdCmd (by decide) _ _).bind fun _ => (moves_refuse rfl _).bind fun _ =>
    (moves_transfer rfl).bind fun _ => moves_fill.bind fun _ => moves_fill.bind fun _ =>
      moves_fill.bind fun _ => moves_quiet (.setSdhc _) rfl nofun

theorem moves_setBlocklen : Moves dev .selected setBlocklen .selected :=
  (moves_quiet .getSdhc rfl nofun).bind fun _ => moves_ite (fun _ => (moves_sdCmd (by decide) _ _).bind fun _ =>
    (moves_refuse rfl _).bind fun _ => moves_fill) fun _ => moves_pure ()

theorem moves_initCommands : Moves dev .selected initCommands .selected := by
  refine (moves_goIdle _ _).bind fun _ => (moves_refuse rfl _).bind fun _ => moves_fill.bind fun _ => ?_
  refine moves_sendIfCond.bind fun _ => moves_fill.bind fun _ => (moves_sendOpCond _ _).bind fun _ => ?_
  refine (moves_refuse rfl _).bind fun _ => moves_readOcr.bind fun _ => moves_fill.bind fun _ => ?_
  exact moves_setBlocklen.bind fun _ => (moves_sdCmd (by decide) _ _).bind fun _ => moves_fill

theorem moves_sdInit : Moves dev .released sdInit .released := by
  refine (moves_quiet .enterInit rfl nofun).bind fun _ => (moves_release rfl).bind fun _ => ?_
  refine (moves_forUp fun _ => moves_clock rfl).bind fun _ => moves_assert.bind fun _ => ?_
  exact moves_initCommands.bind fun _ => (moves_release rfl).bind fun _ => moves_quiet .spiSetFast rfl nofun

/-! The other calls. -/

theorem moves_dummy (h : x.next .release = some .released) :
    Moves dev x (spiCsRelease >>= fun _ => clock 0xFF) .released :=
  (moves_release h).bind fun _ => moves_clock rfl

theorem moves_pollToken (n : ℕ) (tok : Byte) : Moves dev .selected (pollToken n tok) .selected := by
  induction n generalizing tok with
  | zero => exact moves_pure tok
  | succ n ih =>
    exact (moves_transfer rfl).bind fun _ => moves_ite (fun _ => moves_pure _) fun _ => ih _

theorem moves_spiReadBuf (buf len : ℕ) : Moves dev .selected (spiReadBuf buf len) .selected :=
  moves_forUp fun _ => (moves_transfer rfl).bind fun _ => moves_quiet (.memSet _ _) rfl nofun

theorem moves_sdReadSector (lba buf : ℕ) : Moves dev .released (sdReadSector lba buf) .released := by
  refine moves_assert.bind fun _ => (moves_sdLbaArg lba).bind fun _ => ?_
  refine (moves_sdCmd (by decide) _ _).bind fun _ => (moves_refuse rfl _).bind fun _ => ?_
  refine (moves_pollToken _ _).bind fun _ => (moves_refuse rfl _).bind fun _ => ?_
  refine (moves_spiReadBuf buf 512).bind fun _ => ?_
  exact moves_fill.bind fun _ => moves_fill.bind fun _ => moves_dummy rfl

theorem moves_sdWriteFinish : Moves dev .data sdWriteFinish .released := by
  refine (moves_clock rfl).bind fun _ => (moves_clock rfl).bind fun _ => ?_
  refine (moves_transfer rfl).bind fun _ => (moves_refuse rfl _).bind fun _ => ?_
  refine (moves_sdWaitReady rfl _).bind fun _ => (moves_release rfl).bind fun _ => ?_
  refine (moves_clock rfl).bind fun _ => moves_ite (fun _ => ?_) fun _ => moves_pure ()
  exact ensures_fail fun _ hs => hs

theorem moves_sdWriteBlock {block : Spi Unit} (hblock : Moves dev .data block .data) (lba : ℕ) :
    Moves dev .released (sdWriteBlock lba block) .released := by
  refine moves_assert.bind fun _ => (moves_sdLbaArg lba).bind fun _ => ?_
  refine (moves_sdCmd (by decide) _ _).bind fun _ => (moves_refuse rfl _).bind fun _ => ?_
  refine moves_fill.bind fun _ => (moves_clock (y := .data) rfl).bind fun _ => ?_
  exact hblock.bind fun _ => moves_sdWriteFinish

theorem moves_sdErase (lbaStart lbaEnd : ℕ) :
    Moves dev .released (sdErase lbaStart lbaEnd) .released := by
  refine moves_assert.bind fun _ => (moves_sdLbaArg lbaStart).bind fun _ => ?_
  refine (moves_sdCmd (by decide) _ _).bind fun _ => moves_fill.bind fun _ => ?_
  refine (moves_sdLbaArg lbaEnd).bind fun _ => (moves_sdCmd (by decide) _ _).bind fun _ => ?_
  refine moves_fill.bind fun _ => (moves_sdCmd (by decide) _ _).bind fun _ => ?_
  exact (moves_sdWaitReady rfl _).bind fun _ => moves_dummy rfl

theorem moves_call (c : SdCall) : Moves dev .released c.code .released := by
  cases c with
  | init => exact moves_sdInit
  | read lba buf => exact moves_sdReadSector lba buf
  | write lba buf => exact moves_sdWriteBlock (moves_spiWriteBuf buf 512) lba
  | writeZc lba spanA lenA spanB lenB =>
    exact moves_sdWriteBlock ((moves_spiWriteBuf spanA lenA).bind fun _ =>
      moves_spiWriteSpan spanB lenB) lba
  | writeZero lba => exact moves_sdWriteBlock (moves_spiWriteZeros 512) lba
  | erase a b => exact moves_sdErase a b

/-! What the analyser tells about a log. -/

variable {log pre mid post : List BusEvent} {e : BusEvent}

def Asserted (log : List BusEvent) : Prop := ∃ pre mid, log = pre ++ .assert :: mid ∧ .release ∉ mid

/-- Chip select is never asserted twice without a release; a byte other than the fill byte 0xFF is
only sent while it is asserted; and what is sent between frames is fill, a data token or a command
frame, six bytes that start with 0x40 or higher and that no edge of chip select cuts. -/
structure Disciplined (log : List BusEvent) : Prop where
  once : ∀ pre mid post, log = pre ++ .assert :: (mid ++ .assert :: post) → .release ∈ mid
  bytes : ∀ pre b post, log = pre ++ .byte b :: post → b ≠ 0xFF → Asserted pre
  frames : ∀ pre b post, log = pre ++ .byte b :: post → phaseAfter pre = some .selected →
    b ≠ 0xFF → b ≠ 0xFE → 0x40 ≤ b ∧ ∃ b1 b2 b3 b4 b5 rest,
      post = .byte b1 :: .byte b2 :: .byte b3 :: .byte b4 :: .byte b5 :: rest

def follow (x : Option BusPhase) (log : List BusEvent) : Option BusPhase :=
  log.foldl (fun x e => x.bind fun x => x.next e) x

theorem follow_append (x : Option BusPhase) (log log' : List BusEvent) :
    follow x (log ++ log') = follow (follow x log) log' := List.foldl_append

theorem follow_none (log : List BusEvent) : follow none log = none := by
  induction log with
  | nil => rfl
  | cons e log ih => exact ih

theorem follow_cons (h : follow (some x) (e :: log) = some y) :
    ∃ z, x.next e = some z ∧ follow (some z) log = some y := by
  change follow (x.next e) log = some y at h
  cases hz : x.next e with
  | none =>
    rw [hz, follow_none] at h
    cases h
  | some z =>
    rw [hz] at h
    exact ⟨z, rfl, h⟩

theorem follow_prefix {z : Option BusPhase} (h : follow z (pre ++ post) = some y) :
    ∃ x, follow z pre = some x ∧ follow (some x) post = some y := by
  rw [follow_append] at h
  cases hx : follow z pre with
  | none =>
    rw [hx, follow_none] at h
    cases h
  | some x =>
    rw [hx] at h
    exact ⟨x, rfl, h⟩

theorem next_selected (h : x.next e = some y) (hy : y ≠ .released) :
    e = .assert ∨ e ≠ .release ∧ x ≠ .released := by
  cases e with
  | assert => exact .inl rfl
  | release =>
    cases x with
    | frame n => cases h
    | _ =>
      cases h
      exact absurd rfl hy
  | byte b =>
    refine .inr ⟨nofun, ?_⟩
    rintro rfl
    rw [BusPhase.next] at h
    split_ifs at h
    cases h
    exact hy rfl

theorem asserted_of_follow (h : follow (some .released) log = some x) (hx : x ≠ .released) :
    Asserted log := by
  induction log using List.reverseRecOn generalizing x with
  | nil =>
    cases h
    exact absurd rfl hx
  | append_singleton log e ih =>
    obtain ⟨y, hy, hlast⟩ := follow_prefix h
    obtain ⟨z, hnext, hz⟩ := follow_cons hlast
    cases hz
    rcases next_selected hnext hx with rfl | ⟨he, hne⟩
    · exact ⟨log, [], rfl, List.not_mem_nil⟩
    · obtain ⟨pre, mid, hlog, hmid⟩ := ih hy hne
      refine ⟨pre, mid ++ [e], by rw [hlog, List.append_assoc, List.cons_append], fun hmem => ?_⟩
      rcases List.mem_append.mp hmem with hmem | hmem
      · exact hmid hmem
      · exact he (List.mem_singleton.mp hmem).symm

theorem follow_selected (h : follow (some x) log = some y) (hx : x ≠ .released)
    (hmem : .release ∉ log) : y ≠ .released := by
  induction log generalizing x with
  | nil =>
    cases h
    exact hx
  | cons e log ih =>
    obtain ⟨z, hnext, hrest⟩ := follow_cons h
    refine ih hrest ?_ fun hin => hmem (List.mem_cons_of_mem _ hin)
    cases e with
    | assert =>
      rintro rfl
      cases x <;> cases hnext
    | release => exact absurd List.mem_cons_self hmem
    | byte b =>
      have hlevel := next_byte_level hnext
      rintro rfl
      cases x with
      | released => exact hx rfl
      | _ => cases hlevel

theorem follow_frame {n : ℕ} (h : follow (some (.frame n)) log = some .released) :
    ∃ b rest, log = .byte b :: rest ∧
      follow (some (if n = 0 then .selected else .frame (n - 1))) rest = some .released := by
  cases log with
  | nil => cases h
  | cons e rest =>
    obtain ⟨z, hnext, hrest⟩ := follow_cons h
    cases e with
    | assert => cases hnext
    | release => cases hnext
    | byte b =>
      refine ⟨b, rest, rfl, ?_⟩
      cases n with
      | zero =>
        cases hnext
        exact hrest
      | succ n =>
        cases hnext
        exact hrest

theorem disciplined_of_follow (h : follow (some .released) log = some .released) :
    Disciplined log := by
  refine ⟨fun pre mid post hlog => ?_, fun pre b post hlog hb => ?_,
    fun pre b post hlog hpre h1 h2 => ?_⟩
  · by_contra hmem
    rw [hlog] at h
    obtain ⟨x, -, h⟩ := follow_prefix h
    obtain ⟨y, hassert, h⟩ := follow_cons h
    obtain ⟨z, hmid, h⟩ := follow_prefix h
    obtain ⟨_, hagain, -⟩ := follow_cons h
    have hy : y ≠ .released := by
      rintro rfl
      cases x <;> cases hassert
    cases z with
    | released => exact follow_selected hmid hy hmem rfl
    | _ => cases hagain
  · rw [hlog] at h
    obtain ⟨x, hpre, h⟩ := follow_prefix h
    obtain ⟨y, hnext, -⟩ := follow_cons h
    refine asserted_of_follow hpre ?_
    rintro rfl
    rw [BusPhase.next, if_neg hb] at hnext
    cases hnext
  · rw [hlog] at h
    obtain ⟨x, hx, h⟩ := follow_prefix h
    obtain rfl : x = .selected := Option.some.inj (hx.symm.trans hpre)
    obtain ⟨y, hnext, h⟩ := follow_cons h
    rw [BusPhase.next, if_neg h1, if_neg h2] at hnext
    split_ifs at hnext with hstart
    cases hnext
    obtain ⟨b1, post1, rfl, h1⟩ := follow_frame h
    obtain ⟨b2, post2, rfl, h2⟩ := follow_frame h1
    obtain ⟨b3, post3, rfl, h3⟩ := follow_frame h2
    obtain ⟨b4, post4, rfl, h4⟩ := follow_frame h3
    obtain ⟨b5, rest, rfl, -⟩ := follow_frame h4
    exact ⟨hstart, b1, b2, b3, b4, b5, rest, rfl⟩

/-! Sequences of calls. -/

theorem call_follow (dev : Device κ) (c : SdCall) {s : Bus κ} (hs : s.csHigh = true) :
    (c.run dev s).2.csHigh = true ∧ follow (some .released) (c.log dev s) = some .released := by
  have hwatch := run_watch (spiStep dev) phaseStep c.code s (some .released)
  have hstart : AtPhase .released (s, some .released) := ⟨hs, rfl⟩
  have hend : AtPhase .released ((c.code.run (spiStep dev) s).2,
      observe phaseStep (c.code.transcript (spiStep dev) s) (some .released)) := by
    have hmoves : Moves dev .released c.code .released := moves_call c
    rcases hr : (c.code.run (spiStep dev) s).1 with e | a
    · rw [hr] at hwatch
      exact hmoves.error _ e _ hstart hwatch
    · rw [hr] at hwatch
      exact hmoves.ok _ a _ hstart hwatch
  rw [observe_phase] at hend
  refine ⟨?_, hend.2⟩
  have hrun : (c.run dev s).2 = (c.code.run (spiStep dev) s).2 := by
    rw [SdCall.run]
    rcases c.code.run (spiStep dev) s with ⟨r, s'⟩
    cases r <;> rfl
  rw [hrun]
  exact hend.1

theorem calls_follow (dev : Device κ) (calls : List SdCall) {s : Bus κ} (hs : s.csHigh = true) :
    (runCalls dev calls s).2.csHigh = true ∧
      follow (some .released) (callsLog dev calls s) = some .released := by
  induction calls generalizing s with
  | nil => exact ⟨hs, rfl⟩
  | cons c cs ih =>
    obtain ⟨hhigh, hlog⟩ := call_follow dev c hs
    obtain ⟨hend, hrest⟩ := ih hhigh
    refine ⟨hend, ?_⟩
    rw [callsLog, follow_append, hlog]
    exact hrest

/-- Every call returns with the card released, and over any sequence of calls the bus keeps its
discipline. -/
theorem calls_disciplined (dev : Device κ) (calls : List SdCall) {s : Bus κ}
    (hs : s.csHigh = true) : (runCalls dev calls s).2.csHigh = true ∧
      Disciplined (callsLog dev calls s) := by
  obtain ⟨hhigh, hlog⟩ := calls_follow dev calls hs
  exact ⟨hhigh, disciplined_of_follow hlog⟩

/-- No card in the slot. -/
theorem calls_disciplined_no_card : (runCalls (streamDevice fun _ => 0xFF)
    [.init, .read 0 0, .erase 0 7, .writeZero 3] .start).2.csHigh = true :=
  (calls_disciplined (streamDevice fun _ => 0xFF) [.init, .read 0 0, .erase 0 7, .writeZero 3]
    (s := .start) rfl).1

end Barelog.Wire
