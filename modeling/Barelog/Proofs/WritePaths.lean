import Barelog.Proofs.Sd
import Barelog.Spec.BusLog

/-! The three write functions of `sd.c` put the same on the bus for the same block, whatever the
card answers. -/

namespace Barelog.Wire

open Prog

variable {κ α β : Type} {dev : Device κ} {m m' : ℕ → Byte} {s t : Bus κ}

theorem busLog_append (l l' : List (Exchange spiSig)) : busLog (l ++ l') = busLog l ++ busLog l' :=
  List.filterMap_append

/-! Two runs the card cannot tell apart. -/

/-- The card and the driver are in the same state, with `m` and `m'` in memory. -/
structure Paired (m m' : ℕ → Byte) (s t : Bus κ) : Prop where
  device : s.device = t.device
  sdhc : s.sdhc = t.sdhc
  csHigh : s.csHigh = t.csHigh
  left : s.mem = m
  right : t.mem = m'

/-- From paired states `p` and `q` return the same, put the same on the bus and are paired again. -/
def Alike (dev : Device κ) (m m' : ℕ → Byte) (p q : Spi α) : Prop :=
  ∀ s t, Paired m m' s t → (p.run (spiStep dev) s).1 = (q.run (spiStep dev) t).1 ∧
    busLog (p.transcript (spiStep dev) s) = busLog (q.transcript (spiStep dev) t) ∧
    Paired m m' (p.run (spiStep dev) s).2 (q.run (spiStep dev) t).2

def SpiOp.NoMem : SpiOp → Prop
  | memGet _ => False
  | memSet _ _ => False
  | _ => True

abbrev OffMem (p : Spi α) : Prop := p.Only (fun _ _ => True) SpiOp.NoMem

theorem OffMem.alike {p : Spi α} (hp : OffMem p) : Alike dev m m' p p := by
  intro s t hst
  have hstep : ∀ (o : SpiOp) (s t : Bus κ), o.NoMem → Paired m m' s t →
      (spiStep dev o s).1 = (spiStep dev o t).1 ∧ Paired m m' (spiStep dev o s).2 (spiStep dev o t).2 := by
    intro o s t ho h
    obtain ⟨hdev, hsdhc, hhigh, hl, hr⟩ := h
    cases o with
    | memGet i => exact ho.elim
    | memSet i b => exact ho.elim
    | transfer b =>
      simp only [spiStep, hdev, hhigh]
      exact ⟨trivial, rfl, hsdhc, rfl, hl, hr⟩
    | csAssert => exact ⟨rfl, hdev, hsdhc, rfl, hl, hr⟩
    | csRelease => exact ⟨rfl, hdev, hsdhc, rfl, hl, hr⟩
    | spiInit => exact ⟨rfl, hdev, hsdhc, rfl, hl, hr⟩
    | setSdhc b => exact ⟨rfl, hdev, rfl, hhigh, hl, hr⟩
    | getSdhc => exact ⟨hsdhc, hdev, hsdhc, hhigh, hl, hr⟩
    | spiSetFast => exact ⟨rfl, hdev, hsdhc, hhigh, hl, hr⟩
    | enterInit => exact ⟨rfl, hdev, hsdhc, hhigh, hl, hr⟩
  obtain ⟨hr, htr, hend⟩ := hp.lockstep hstep hst
  exact ⟨hr, by rw [htr], hend⟩

theorem Alike.bind {p q : Spi α} {f g : α → Spi β} (hp : Alike dev m m' p q)
    (hf : ∀ a, Alike dev m m' (f a) (g a)) : Alike dev m m' (p >>= f) (q >>= g) := by
  intro s t hst
  obtain ⟨hr, hlog, hend⟩ := hp s t hst
  rcases hps : p.run (spiStep dev) s with ⟨r, s1⟩
  rcases hqt : q.run (spiStep dev) t with ⟨r', t1⟩
  rw [hps, hqt] at hr hend
  obtain rfl : r = r' := hr
  cases r with
  | ok a =>
    obtain ⟨hr', hlog', hend'⟩ := hf a s1 t1 hend
    rw [run_bind_ok hps, run_bind_ok hqt, transcript_bind_ok hps, transcript_bind_ok hqt,
      busLog_append, busLog_append, hlog, hlog']
    exact ⟨hr', rfl, hend'⟩
  | error e =>
    rw [run_bind_error hps, run_bind_error hqt, transcript_bind_error hps, transcript_bind_error hqt]
    exact ⟨rfl, hlog, hend⟩

/-! Sending a block. -/

def Bus.sent (dev : Device κ) (s : Bus κ) : List Byte → Bus κ
  | [] => s
  | b :: l => (spiStep dev (.transfer b) s).2.sent dev l

def Sends (dev : Device κ) (m : ℕ → Byte) (p : Spi Unit) (l : List Byte) : Prop :=
  ∀ s, s.mem = m → p.run (spiStep dev) s = (.ok (), s.sent dev l) ∧
    busLog (p.transcript (spiStep dev) s) = l.map .byte

theorem sent_mem (dev : Device κ) (s : Bus κ) (l : List Byte) : (s.sent dev l).mem = s.mem := by
  induction l generalizing s with
  | nil => rfl
  | cons b l ih => exact ih _

theorem sent_append (dev : Device κ) (s : Bus κ) (l l' : List Byte) :
    s.sent dev (l ++ l') = (s.sent dev l).sent dev l' := by
  induction l generalizing s with
  | nil => rfl
  | cons b l ih => exact ih _

theorem Paired.sent (h : Paired m m' s t) (l : List Byte) :
    Paired m m' (s.sent dev l) (t.sent dev l) := by
  induction l generalizing s t with
  | nil => exact h
  | cons b l ih =>
    refine ih ⟨?_, h.sdhc, h.csHigh, h.left, h.right⟩
    simp only [spiStep, h.device, h.csHigh]

theorem sends_nil : Sends dev m (pure ()) [] := fun _ _ => ⟨rfl, rfl⟩

theorem sends_clock (b : Byte) : Sends dev m (clock b) [b] := fun _ _ => ⟨rfl, rfl⟩

theorem Sends.bind {p : Spi Unit} {f : Unit → Spi Unit} {l l' : List Byte} (hp : Sends dev m p l)
    (hf : Sends dev m (f ()) l') : Sends dev m (p >>= f) (l ++ l') := by
  intro s hs
  obtain ⟨hrun, hlog⟩ := hp s hs
  obtain ⟨hrun', hlog'⟩ := hf (s.sent dev l) ((sent_mem dev s l).trans hs)
  rw [run_bind_ok hrun, transcript_bind_ok hrun, busLog_append, hlog, hrun', hlog', sent_append,
    List.map_append]
  exact ⟨rfl, rfl⟩

theorem sends_forUp {lo n : ℕ} {body : ℕ → Spi Unit} {f : ℕ → Byte}
    (hbody : ∀ i, Sends dev m (body i) [f i]) :
    Sends dev m (forUp lo n body) ((List.range' lo n).map f) := by
  induction n generalizing lo with
  | zero => exact sends_nil
  | succ n ih => exact (hbody lo).bind ih

theorem sends_spiWriteBuf (buf len : ℕ) :
    Sends dev m (spiWriteBuf buf len) ((List.range len).map fun i => m (buf + i)) := by
  have hbody : ∀ i, Sends dev m (do let b ← spiOp (.memGet (buf + i)); clock b) [m (buf + i)] := by
    intro i s hs
    subst hs
    exact ⟨rfl, rfl⟩
  rw [List.range_eq_range']
  exact sends_forUp hbody

theorem sends_spiWriteZeros (len : ℕ) :
    Sends dev m (spiWriteZeros len) ((List.range len).map fun _ => 0) := by
  rw [List.range_eq_range']
  exact sends_forUp fun _ => sends_clock 0

theorem sends_spans (spanA lenA : ℕ) (spanB : Option ℕ) (lenB : ℕ) :
    Sends dev m (do spiWriteBuf spanA lenA; spiWriteSpan spanB lenB)
      (spanBytes m spanA lenA spanB lenB) := by
  refine (sends_spiWriteBuf spanA lenA).bind ?_
  cases spanB with
  | none => exact sends_nil
  | some b =>
    rw [spiWriteSpan, doIf]
    split_ifs with hlen
    · exact sends_spiWriteBuf b lenB
    · obtain rfl : lenB = 0 := by omega
      exact sends_nil

theorem Sends.alike {p q : Spi Unit} {l : List Byte} (hp : Sends dev m p l) (hq : Sends dev m' q l) :
    Alike dev m m' p q := by
  intro s t hst
  obtain ⟨hrun, hlog⟩ := hp s hst.left
  obtain ⟨hrun', hlog'⟩ := hq t hst.right
  rw [hrun, hrun', hlog, hlog']
  exact ⟨rfl, rfl, hst.sent l⟩

/-! The code around the block. -/

theorem clock_offMem (b : Byte) : OffMem (clock b) := only_bind (only_perform trivial) fun _ => trivial

theorem pollR1_offMem (n : ℕ) : OffMem (pollR1 n) := by
  induction n with
  | zero => trivial
  | succ n ih => exact only_bind (only_perform trivial) fun _ => only_ite (fun _ => trivial) fun _ => ih

theorem sdCmd_offMem (cmd : Byte) (arg : ℕ) (crc : Byte) : OffMem (sdCmd cmd arg crc) := by
  refine only_bind (clock_offMem _) fun _ => only_bind (clock_offMem _) fun _ => ?_
  refine only_bind (clock_offMem _) fun _ => only_bind (clock_offMem _) fun _ => ?_
  refine only_bind (clock_offMem _) fun _ => only_bind (clock_offMem _) fun _ => ?_
  refine only_bind (pollR1_offMem 8) fun resp => ?_
  cases resp <;> trivial

theorem refuse_offMem {c : Prop} [Decidable c] (e : ℤ) : OffMem (doIf c (releaseWith e)) :=
  only_ite (fun _ => only_bind (only_perform trivial) fun _ => trivial) fun _ => trivial

theorem sdWaitReady_offMem (n : ℕ) : OffMem (sdWaitReady n) := by
  induction n with
  | zero => trivial
  | succ n ih => exact only_bind (only_perform trivial) fun _ => only_ite (fun _ => trivial) fun _ => ih

theorem sdWriteFinish_offMem : OffMem sdWriteFinish := by
  refine only_bind (clock_offMem _) fun _ => only_bind (clock_offMem _) fun _ => ?_
  refine only_bind (only_perform trivial) fun _ => only_bind (refuse_offMem _) fun _ => ?_
  refine only_bind (sdWaitReady_offMem _) fun _ => only_bind (only_perform trivial) fun _ => ?_
  exact only_bind (clock_offMem _) fun _ => only_ite (fun _ => trivial) fun _ => trivial

/-- What follows the assertion of chip select in a write. -/
theorem alike_write {p q : Spi Unit} (hblock : Alike dev m m' p q) (lba : ℕ) :
    Alike dev m m' (do
      let arg ← sdLbaArg lba
      let (code, r1) ← sdCmd 24 arg 0x01
      doIf (code ≠ 0 ∨ r1 ≠ 0x00) (releaseWith (-4))
      clock 0xFF
      clock 0xFE
      p
      sdWriteFinish) (do
      let arg ← sdLbaArg lba
      let (code, r1) ← sdCmd 24 arg 0x01
      doIf (code ≠ 0 ∨ r1 ≠ 0x00) (releaseWith (-4))
      clock 0xFF
      clock 0xFE
      q
      sdWriteFinish) := by
  have harg : OffMem (sdLbaArg lba) := only_bind (only_perform trivial) fun _ => trivial
  refine harg.alike.bind fun arg => (sdCmd_offMem 24 arg 0x01).alike.bind fun ans => ?_
  refine (refuse_offMem (-4)).alike.bind fun _ => (clock_offMem 0xFF).alike.bind fun _ => ?_
  refine (clock_offMem 0xFE).alike.bind fun _ => hblock.bind fun _ => ?_
  exact sdWriteFinish_offMem.alike

/-- The card cannot tell call `c` in `s` from call `d` in `t`: the same bytes and chip select edges
come over the bus, it ends in the same state, and the calls return the same code. -/
structure SameOnBus (dev : Device κ) (c : SdCall) (s : Bus κ) (d : SdCall) (t : Bus κ) : Prop where
  log : c.log dev s = d.log dev t
  code : (c.run dev s).1 = (d.run dev t).1
  device : (c.run dev s).2.device = (d.run dev t).2.device

theorem same_of_blocks {c d : SdCall} {p q : Spi Unit} {lba : ℕ} (hc : c.code = sdWriteBlock lba p)
    (hd : d.code = sdWriteBlock lba q) (hdev : s.device = t.device) (hsdhc : s.sdhc = t.sdhc)
    (hblock : Alike dev s.mem t.mem p q) : SameOnBus dev c s d t := by
  have hs : spiCsAssert.run (spiStep dev) s =
    (.ok (), { s with csHigh := false, trace := s.trace ++ [.assert] }) := rfl
  have ht : spiCsAssert.run (spiStep dev) t =
    (.ok (), { t with csHigh := false, trace := t.trace ++ [.assert] }) := rfl
  obtain ⟨hr, hlog, hend⟩ := alike_write hblock lba
    { s with csHigh := false, trace := s.trace ++ [.assert] }
    { t with csHigh := false, trace := t.trace ++ [.assert] } ⟨hdev, hsdhc, rfl, rfl, rfl⟩
  have hrun : (c.code.run (spiStep dev) s).1 = (d.code.run (spiStep dev) t).1 := by
    rw [hc, hd, sdWriteBlock, sdWriteBlock, run_bind_ok hs, run_bind_ok ht]
    exact hr
  have hdevice : (c.code.run (spiStep dev) s).2.device = (d.code.run (spiStep dev) t).2.device := by
    rw [hc, hd, sdWriteBlock, sdWriteBlock, run_bind_ok hs, run_bind_ok ht]
    exact hend.device
  refine ⟨?_, ?_, ?_⟩
  · rw [SdCall.log, SdCall.log, hc, hd, sdWriteBlock, sdWriteBlock, transcript_bind_ok hs,
      transcript_bind_ok ht, busLog_append, busLog_append]
    exact congrArg _ hlog
  · rw [SdCall.run, SdCall.run]
    rcases hs1 : c.code.run (spiStep dev) s with ⟨r, s1⟩
    rcases ht1 : d.code.run (spiStep dev) t with ⟨r', t1⟩
    rw [hs1, ht1] at hrun
    obtain rfl : r = r' := hrun
    cases r <;> rfl
  · rw [SdCall.run, SdCall.run]
    rcases hs1 : c.code.run (spiStep dev) s with ⟨r, s1⟩
    rcases ht1 : d.code.run (spiStep dev) t with ⟨r', t1⟩
    rw [hs1, ht1] at hrun hdevice
    obtain rfl : r = r' := hrun
    cases r <;> exact hdevice

/-- `sd_write_sector_zc` on spans of a block, and `sd_write_zero_sector` for the block of zeros, are
on the bus what `sd_write_sector` is. -/
theorem writes_same_on_bus (dev : Device κ) (lba buf : ℕ) (d : Sector)
    (hdev : s.device = t.device) (hsdhc : s.sdhc = t.sdhc)
    (hbuf : (List.range 512).map (fun i => t.mem (buf + i)) = List.ofFn d) :
    (∀ (spanA lenA : ℕ) (spanB : Option ℕ) (lenB : ℕ),
      spanBytes s.mem spanA lenA spanB lenB = List.ofFn d →
        SameOnBus dev (.writeZc lba spanA lenA spanB lenB) s (.write lba buf) t) ∧
      (d = (fun _ => 0) → SameOnBus dev (.writeZero lba) s (.write lba buf) t) := by
  have hwrite : Sends dev t.mem (spiWriteBuf buf 512) (List.ofFn d) :=
    hbuf ▸ sends_spiWriteBuf buf 512
  refine ⟨fun spanA lenA spanB lenB hspans => ?_, fun hzero => ?_⟩
  · have hzc : Sends dev s.mem _ _ := sends_spans spanA lenA spanB lenB
    rw [hspans] at hzc
    exact same_of_blocks rfl rfl hdev hsdhc (hzc.alike hwrite)
  · have hzeros : (List.range 512).map (fun _ => (0 : Byte)) = List.ofFn d := by
      rw [hzero, List.map_const', List.length_range, List.ofFn_const]
    have hsend : Sends dev s.mem _ _ := sends_spiWriteZeros 512
    rw [hzeros] at hsend
    exact same_of_blocks rfl rfl hdev hsdhc (hsend.alike hwrite)

def wrapped : Bus Unit := ⟨.fast, true, true, fun i => .ofNat ((i + 100) % 1024), (), [], []⟩

def straight : Bus Unit := ⟨.fast, true, true, fun i => .ofNat i, (), [], []⟩

/-- A card that answers every byte with 0x00. -/
theorem writes_same_on_bus_wrapped : SameOnBus (fun _ _ _ => (0, ())) (.writeZc 7 924 100 (some 0) 412)
    wrapped (.write 7 0) straight :=
  (writes_same_on_bus (s := wrapped) (t := straight) _ 7 0 (fun i => .ofNat i) rfl rfl
    (by decide +kernel)).1 924 100 (some 0) 412 (by decide +kernel)

end Barelog.Wire
