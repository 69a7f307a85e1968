import Barelog.Spec.Sd
import Mathlib.Data.List.GetD

/-! What the block commands do to the machine when no interrupt comes, with any card. -/

namespace Barelog

open Prog

variable {env : Env} {s0 s s' : Machine}

/-- The ring with the first `n` bytes of `d` stored from `buf` on. -/
def load (ring : ℕ → Byte) (buf : ℕ) (d : Sector) (n : ℕ) : ℕ → Byte :=
  fun i => if buf ≤ i ∧ i < buf + n then d.byte (i - buf) else ring i

def sectorAt (ring : ℕ → Byte) (buf : ℕ) : Sector := fun i => ring (buf + i)

theorem load_none (ring : ℕ → Byte) (buf : ℕ) (d : Sector) : load ring buf d 0 = ring := by
  funext i
  exact if_neg (by omega)

theorem load_succ (ring : ℕ → Byte) (buf : ℕ) (d : Sector) (n : ℕ) :
    Function.update (load ring buf d n) (buf + n) (d.byte n) = load ring buf d (n + 1) := by
  funext i
  unfold load
  by_cases hi : i = buf + n
  · rw [hi, Function.update_self, if_pos (by omega), Nat.add_sub_cancel_left]
  · rw [Function.update_of_ne hi]
    congr 1
    exact propext ⟨fun h => ⟨h.1, by omega⟩, fun h => ⟨h.1, by omega⟩⟩

theorem load_outside {ring : ℕ → Byte} {buf i n : ℕ} {d : Sector} (hi : buf + n ≤ i) :
    load ring buf d n i = ring i :=
  if_neg (by omega)

theorem load_inside {ring : ℕ → Byte} {i n : ℕ} {d : Sector} (hi : i < n) :
    load ring 0 d n i = d.byte i :=
  if_pos (by omega)

theorem spiReadBuf_run (env : Env) (lba buf len : ℕ) (s : Machine) :
    (spiReadBuf lba buf len).run (fwStep env) s =
      (.ok (), { s with ring := load s.ring buf (s.card lba) len }) := by
  have hstep : ∀ k, 0 ≤ k → k < 0 + len →
      Prog.run (fwStep env) (do let b ← spiRecv lba k; ringSet (buf + k) b)
          { s with ring := load s.ring buf (s.card lba) k } =
        (.ok (), { s with ring := load s.ring buf (s.card lba) (k + 1) }) := by
    intro k _ _
    simp [run_bind, load_succ]
  have hloop := forUp_run (fun k => { s with ring := load s.ring buf (s.card lba) k }) hstep
  simpa [spiReadBuf, load_none] using hloop

theorem spiWriteBuf_run (env : Env) (buf len : ℕ) (s : Machine) :
    (spiWriteBuf buf len).run (fwStep env) s = (.ok (), { s with
      block := s.block ++ (List.range len).map fun i => s.ring (buf + i) }) := by
  have hstep : ∀ k, 0 ≤ k → k < 0 + len →
      Prog.run (fwStep env) (do let b ← ringGet (buf + k); spiSend b)
          { s with block := s.block ++ (List.range k).map fun i => s.ring (buf + i) } =
        (.ok (), { s with
          block := s.block ++ (List.range (k + 1)).map fun i => s.ring (buf + i) }) := by
    intro k _ _
    simp [run_bind, List.range_succ]
  have hloop := forUp_run
    (fun k => { s with block := s.block ++ (List.range k).map fun i => s.ring (buf + i) }) hstep
  simpa [spiWriteBuf] using hloop

theorem spiWriteZeros_run (env : Env) (len : ℕ) (s : Machine) :
    (spiWriteZeros len).run (fwStep env) s = (.ok (), { s with
      block := s.block ++ List.replicate len 0 }) := by
  have hstep : ∀ k, 0 ≤ k → k < 0 + len →
      Prog.run (fwStep env) (spiSend 0x00) { s with block := s.block ++ List.replicate k 0 } =
        (.ok (), { s with block := s.block ++ List.replicate (k + 1) 0 }) := by
    intro k _ _
    simp [List.replicate_succ']
  have hloop := forUp_run (fun k => { s with block := s.block ++ List.replicate k 0 }) hstep
  simpa [spiWriteZeros] using hloop

def spanBytes (ring : ℕ → Byte) (spanA lenA : ℕ) (spanB : Option ℕ) (lenB : ℕ) : List Byte :=
  ((List.range lenA).map fun i => ring (spanA + i)) ++
    spanB.elim [] fun b => (List.range lenB).map fun i => ring (b + i)

theorem spiWriteSpan_run (env : Env) (spanB : Option ℕ) (lenB : ℕ) (s : Machine) :
    (spiWriteSpan spanB lenB).run (fwStep env) s = (.ok (), { s with
      block := s.block ++ spanB.elim [] fun b => (List.range lenB).map fun i => s.ring (b + i) }) := by
  cases spanB with
  | none => simp [spiWriteSpan]
  | some b =>
    by_cases hlen : lenB > 0
    · simpa [spiWriteSpan, doIf, hlen] using spiWriteBuf_run env b lenB s
    · obtain rfl : lenB = 0 := by omega
      simp [spiWriteSpan, doIf]

theorem sectorOf_ring (ring : ℕ → Byte) (buf : ℕ) :
    sectorOf ((List.range 512).map fun i => ring (buf + i)) = sectorAt ring buf := by
  funext i
  have hi : i.val < ((List.range 512).map fun i => ring (buf + i)).length := by
    rw [List.length_map, List.length_range]
    exact i.isLt
  rw [sectorOf, List.getD_eq_getElem _ _ hi, List.getElem_map, List.getElem_range, sectorAt]

theorem check_run (env : Env) (c : ℤ) (s : Machine) : (check c).run (fwStep env) s =
    (if c = 0 then .ok () else .error (.code c), s) := by
  unfold check
  split <;> rfl

theorem sdReadSector_run (env : Env) (lba buf : ℕ) (s : Machine) :
    (sdReadSector lba buf).run (fwStep env) s =
      if env.answer s.reqs = .good then
        (.ok (), { s.asked with ring := load s.ring buf (s.card lba) 512 })
      else (.error (.code (env.answer s.reqs).readCode), s.asked) := by
  unfold sdReadSector
  simp only [run_bind, readCmd_run, check_run]
  cases ha : env.answer s.reqs <;> simp [SdAnswer.readCode]
  exact spiReadBuf_run env lba buf 512 s.asked

theorem sdReadSector_cases {lba buf : ℕ} {r : Except Stop Unit}
    (hrun : (sdReadSector lba buf).run (fwStep env) s = (r, s')) :
    (r = .ok () ∧ s' = { s.asked with ring := load s.ring buf (s.card lba) 512 }) ∨
      ∃ c, r = .error (.code c) ∧ s' = s.asked := by
  rw [sdReadSector_run] at hrun
  split at hrun <;> cases hrun
  · exact .inl ⟨rfl, rfl⟩
  · exact .inr ⟨_, rfl, rfl⟩

theorem read_bind {lba : ℕ} {α : Type} {f : Unit → Fw α} {r : Except Stop α}
    (hrun : (sdReadSector lba 0 >>= f).run (fwStep env) s = (r, s')) :
    (f ()).run (fwStep env) { s.asked with ring := load s.ring 0 (s.card lba) 512 } = (r, s') ∨
      ∃ c, r = .error (.code c) ∧ s' = s.asked := by
  rcases bind_ended hrun with ⟨_, s1, h1, h2⟩ | ⟨e, h1, rfl⟩
  · rcases sdReadSector_cases h1 with ⟨_, rfl⟩ | ⟨_, hbad, _⟩
    · exact .inl h2
    · cases hbad
  · rcases sdReadSector_cases h1 with ⟨hbad, _⟩ | ⟨n, he, rfl⟩
    · cases hbad
    · cases he
      exact .inr ⟨n, rfl, rfl⟩

/-- The machine after a write request that landed as `e`, and after one that did not. -/
def Machine.wrote (s : Machine) (lba : ℕ) (d : Sector) (e : CardEvent) (n : ℕ) : Machine :=
  { s.land lba d e with block := [], reqs := n }

def Machine.unwritten (s : Machine) (n : ℕ) : Machine := { s with block := [], reqs := n }

/-- What a write function does that sends `d` to sector `lba`. -/
def Machine.send (s : Machine) (env : Env) (lba : ℕ) (d : Sector) (e : CardEvent) :
    Except Stop Unit × Machine :=
  if env.answer s.reqs = .refuse then (.error (.code (-4)), s.unwritten (s.reqs + 1))
  else
    (if env.answer (s.reqs + 1) = .good then .ok ()
      else .error (.code (env.answer (s.reqs + 1)).finishCode),
      if (env.answer (s.reqs + 1)).landed then s.wrote lba d e (s.reqs + 2)
      else s.unwritten (s.reqs + 2))

theorem finish_eq (t : Machine) (a : SdAnswer) (lba : ℕ) (e : CardEvent) :
    t.finish a lba e = (a.finishCode,
      if a.landed then t.wrote lba (sectorOf t.block) e (t.reqs + 1)
      else t.unwritten (t.reqs + 1)) := by
  unfold Machine.finish
  split <;> rfl

theorem finishCode_eq_zero (a : SdAnswer) : a.finishCode = 0 ↔ a = .good := by
  cases a <;> simp [SdAnswer.finishCode]

/-- The three write functions: the command, a data block made of the ring, the finish. -/
theorem send_run {lba : ℕ} {block : Fw Unit} {done : Fw ℤ} {b : (ℕ → Byte) → List Byte}
    {e : List Byte → CardEvent}
    (hblock : ∀ t, block.run (fwStep env) t = (.ok (), { t with block := t.block ++ b t.ring }))
    (hdone : ∀ t, done.run (fwStep env) t = (.ok (t.finish (env.answer t.reqs) lba (e t.block)).1,
      (t.finish (env.answer t.reqs) lba (e t.block)).2)) (s : Machine) :
    Prog.run (fwStep env) (do
      let ret ← writeCmd lba
      check ret
      block
      let ret ← done
      check ret) s = s.send env lba (sectorOf (b s.ring)) (e (b s.ring)) := by
  have hgo : Prog.run (fwStep env) (do block; let ret ← done; check ret)
      { s.asked with block := [] } =
      (if env.answer (s.reqs + 1) = .good then .ok ()
        else .error (.code (env.answer (s.reqs + 1)).finishCode),
        if (env.answer (s.reqs + 1)).landed then
          s.wrote lba (sectorOf (b s.ring)) (e (b s.ring)) (s.reqs + 2)
        else s.unwritten (s.reqs + 2)) := by
    simp only [run_bind, hblock, hdone, check_run, Machine.asked, List.nil_append,
      finish_eq, finishCode_eq_zero]
    rfl
  unfold Machine.send
  rw [run_bind_ok (writeCmd_run env s lba), run_bind, check_run]
  cases ha : env.answer s.reqs <;> simp [SdAnswer.cmdCode, Machine.unwritten, Machine.asked] <;>
    exact hgo

theorem sdWriteSector_run (env : Env) (lba buf : ℕ) (s : Machine) :
    (sdWriteSector lba buf).run (fwStep env) s =
      s.send env lba (sectorAt s.ring buf) (.write lba (sectorAt s.ring buf)) := by
  rw [← sectorOf_ring]
  exact send_run (b := fun ring => (List.range 512).map fun i => ring (buf + i))
    (e := fun b => .write lba (sectorOf b)) (spiWriteBuf_run env buf 512)
    (fun t => writeDone_run env t lba) s

theorem sectorOf_zeros : sectorOf (List.replicate 512 0) = fun _ => 0 := by
  funext i
  have hi : i.val < (List.replicate 512 (0 : Byte)).length := by
    rw [List.length_replicate]
    exact i.isLt
  rw [sectorOf, List.getD_eq_getElem _ _ hi, List.getElem_replicate]

theorem sdWriteZeroSector_run (env : Env) (lba : ℕ) (s : Machine) :
    (sdWriteZeroSector lba).run (fwStep env) s = s.send env lba (fun _ => 0) (.zero lba) := by
  rw [← sectorOf_zeros]
  exact send_run (b := fun _ => List.replicate 512 0) (e := fun _ => .zero lba)
    (spiWriteZeros_run env 512) (fun t => zeroDone_run env t lba) s

theorem sdWriteSectorZc_run (env : Env) (lba spanA lenA : ℕ) (spanB : Option ℕ) (lenB : ℕ)
    (s : Machine) : (sdWriteSectorZc lba spanA lenA spanB lenB).run (fwStep env) s =
      s.send env lba (sectorOf (spanBytes s.ring spanA lenA spanB lenB))
        (.write lba (sectorOf (spanBytes s.ring spanA lenA spanB lenB))) := by
  have hspans : ∀ t, Prog.run (fwStep env) (do spiWriteBuf spanA lenA; spiWriteSpan spanB lenB) t =
      (.ok (), { t with block := t.block ++ spanBytes t.ring spanA lenA spanB lenB }) := by
    intro t
    rw [run_bind_ok (spiWriteBuf_run env spanA lenA t)]
    refine (spiWriteSpan_run env spanB lenB _).trans ?_
    simp [spanBytes]
  have hrun := send_run (b := fun ring => spanBytes ring spanA lenA spanB lenB)
    (e := fun b => .write lba (sectorOf b)) hspans (fun t => writeDone_run env t lba) s
  simpa only [sdWriteSectorZc, bind_assoc] using hrun

inductive Sent (s : Machine) (lba : ℕ) (d : Sector) (e : CardEvent) :
    Except Stop Unit → Machine → Prop
  | ok (n : ℕ) : Sent s lba d e (.ok ()) (s.wrote lba d e n)
  | landed (c : ℤ) (n : ℕ) : Sent s lba d e (.error (.code c)) (s.wrote lba d e n)
  | lost (c : ℤ) (n : ℕ) : Sent s lba d e (.error (.code c)) (s.unwritten n)

theorem send_cases {lba : ℕ} {d : Sector} {e : CardEvent} {r : Except Stop Unit}
    (hrun : s.send env lba d e = (r, s')) : Sent s lba d e r s' := by
  unfold Machine.send at hrun
  cases hc : env.answer s.reqs with
  | refuse =>
    rw [hc, if_pos rfl] at hrun
    cases hrun
    exact .lost _ _
  | _ =>
    rw [hc, if_neg (by simp)] at hrun
    cases hf : env.answer (s.reqs + 1) with
    | good =>
      rw [hf] at hrun
      cases hrun
      exact .ok _
    | refuse =>
      rw [hf] at hrun
      cases hrun
      exact .lost _ _
    | stall landed =>
      rw [hf] at hrun
      cases landed <;> cases hrun
      · exact .lost _ _
      · exact .landed _ _
    | reject landed =>
      rw [hf] at hrun
      cases landed <;> cases hrun
      · exact .lost _ _
      · exact .landed _ _

theorem send_good (hgood : env.Good) (lba : ℕ) (d : Sector) (e : CardEvent) :
    s.send env lba d e = (.ok (), s.wrote lba d e (s.reqs + 2)) := by
  simp [Machine.send, hgood _, SdAnswer.landed]

/-! Events and the card. -/

def CardEvent.Touches : CardEvent → ℕ → Prop
  | .write x _, lba => lba = x
  | .zero x, lba => lba = x
  | .erase a b, lba => a ≤ lba ∧ lba ≤ b

/-- What has happened to the card since `s0` is in the events. -/
def Untouched (s0 s : Machine) : Prop :=
  ∃ evs, s.events = s0.events ++ evs ∧
    ∀ lba, (∀ e ∈ evs, ¬ e.Touches lba) → s.card lba = s0.card lba

theorem Untouched.refl (s : Machine) : Untouched s s :=
  ⟨[], (List.append_nil _).symm, fun _ _ => rfl⟩

theorem Untouched.trans (h : Untouched s0 s) (h' : Untouched s s') : Untouched s0 s' := by
  obtain ⟨evs, hevs, hcard⟩ := h
  obtain ⟨evs', hevs', hcard'⟩ := h'
  refine ⟨evs ++ evs', by rw [hevs', hevs, List.append_assoc], fun lba hlba => ?_⟩
  rw [hcard' lba fun e he => hlba e (List.mem_append_right _ he)]
  exact hcard lba fun e he => hlba e (List.mem_append_left _ he)

theorem untouched_finish (s : Machine) (a : SdAnswer) (x : ℕ) {e : CardEvent} (he : e.Touches x) :
    Untouched s (s.finish a x e).2 := by
  unfold Machine.finish
  split_ifs
  · refine ⟨[e], rfl, fun lba hlba => Function.update_of_ne ?_ _ _⟩
    rintro rfl
    exact hlba e (List.mem_singleton_self e) he
  · exact ⟨[], (List.append_nil _).symm, fun _ _ => rfl⟩

theorem fwStep_untouched (env : Env) (o : FwOp) (s : Machine) : Untouched s (fwStep env o s).2 := by
  cases o with
  | writeDone x => exact untouched_finish s _ x rfl
  | zeroDone x => exact untouched_finish s _ x rfl
  | erase a b =>
    refine ⟨[.erase a b], rfl, fun lba hlba => if_neg ?_⟩
    exact hlba _ (List.mem_singleton_self _)
  | _ => exact .refl s

theorem run_untouched (env : Env) {α : Type} (p : Fw α) (s : Machine) :
    Untouched s (p.run (fwStep env) s).2 := by
  induction p generalizing s with
  | ret a => exact .refl s
  | fail e => exact .refl s
  | act o k ih => exact (fwStep_untouched env o s).trans (ih _ _)

end Barelog
