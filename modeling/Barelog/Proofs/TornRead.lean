import Barelog.Proofs.Ring
import Barelog.Spec.TornRead

/-! A read of `ring_head` that the RX interrupt splits. It counts 256 bytes too many when the
interrupt carries from the low byte into the high byte. -/

namespace Barelog

variable {s : Machine}

/-! The interrupts. -/

/-- What an interrupt in a gap does to the indices. -/
theorem interrupted_indices (h : RingOk s) (o : Option Byte) :
    (interrupted o s).ringTail = s.ringTail ∧ (interrupted o s).rxEnabled = s.rxEnabled ∧
      (interrupted o s).ringHead =
        if o.isSome ∧ s.unread < 1023 then (s.ringHead + 1) % 1024 else s.ringHead := by
  cases o with
  | none => exact ⟨rfl, rfl, rfl⟩
  | some byte =>
    rw [interrupted]
    rcases rxIsr_cases h byte with ⟨hroom, he⟩ | ⟨hfull, he⟩
    · rw [he, if_pos ⟨rfl, hroom⟩]
      exact ⟨rfl, rfl, rfl⟩
    · rw [he, if_neg (by omega)]
      exact ⟨rfl, rfl, rfl⟩

theorem interrupted_ok (h : RingOk s) (o : Option Byte) : RingOk (interrupted o s) := by
  cases o with
  | none => exact h
  | some byte => exact rxIsr_ok h byte

def arrivals (o : Option Byte) : ℕ := o.toList.length

theorem arrivals_eq (o : Option Byte) : arrivals o = if o.isSome then 1 else 0 := by
  cases o <;> rfl

theorem interrupted_unread (h : RingOk s) (o : Option Byte) :
    (interrupted o s).unread = min (s.unread + arrivals o) 1023 := by
  cases o with
  | none =>
    rw [interrupted, show arrivals none = 0 from rfl, Nat.add_zero]
    exact (Nat.min_eq_left (Nat.le_of_lt_succ h.unread_lt)).symm
  | some byte =>
    rw [interrupted, show arrivals (some byte) = 1 from rfl]
    rcases rxIsr_cases h byte with ⟨hroom, -⟩ | ⟨hfull, he⟩
    · rw [rxIsr_unread h byte hroom, Nat.min_eq_left hroom]
    · rw [he, hfull]
      exact hfull

/-! The loads. -/

def LoadGaps.arrived (g : LoadGaps) : ℕ :=
  arrivals g.headBytes + arrivals g.indices + arrivals g.tailBytes

/-- The interrupt that runs between the two loads of `ring_head` carries into the high byte, and
there is room for 256 more bytes in the ring. -/
def Carries (g : LoadGaps) (s : Machine) : Prop :=
  g.headBytes.isSome ∧ s.ringHead % 256 = 255 ∧ s.unread ≤ 767

instance (g : LoadGaps) (s : Machine) : Decidable (Carries g s) := instDecidableAnd

/-- The two bytes of `ring_head`, loaded before and after the interrupt. -/
theorem tornHead_eq (h : RingOk s) (o : Option Byte) :
    (interrupted o s).ringHead / 256 * 256 + s.ringHead % 256 =
      if (o.isSome ∧ s.unread < 1023) ∧ s.ringHead % 256 = 255 then (s.ringHead + 256) % 1024
      else s.ringHead := by
  have hh := h.head
  rw [(interrupted_indices h o).2.2]
  by_cases hrx : o.isSome ∧ s.unread < 1023
  · rw [if_pos hrx]
    by_cases hlow : s.ringHead % 256 = 255
    · rw [if_pos ⟨hrx, hlow⟩]
      omega
    · rw [if_neg fun h => hlow h.2]
      omega
  · rw [if_neg hrx, if_neg fun h => hrx h.1]
    omega

theorem availableLoads_ok (h : RingOk s) (g : LoadGaps) : RingOk (availableLoads g s).2 :=
  interrupted_ok (interrupted_ok (interrupted_ok h _) _) _

theorem availableLoads_rx (h : RingOk s) (g : LoadGaps) :
    (availableLoads g s).2.rxEnabled = s.rxEnabled := by
  have h1 := interrupted_ok h g.headBytes
  have h2 := interrupted_ok h1 g.indices
  exact (interrupted_indices h2 _).2.1.trans
    ((interrupted_indices h1 _).2.1.trans (interrupted_indices h _).2.1)

theorem availableLoads_unread (h : RingOk s) (g : LoadGaps) :
    (availableLoads g s).2.unread = min (s.unread + g.arrived) 1023 := by
  have h1 := interrupted_ok h g.headBytes
  have h2 := interrupted_ok h1 g.indices
  have hlast := interrupted_unread h2 g.tailBytes
  rw [interrupted_unread h1, interrupted_unread h] at hlast
  change (interrupted g.tailBytes _).unread = _
  rw [hlast, LoadGaps.arrived]
  omega

theorem availableLoads_count (h : RingOk s) (g : LoadGaps) :
    (availableLoads g s).1 =
      if (g.headBytes.isSome ∧ s.unread < 1023) ∧ s.ringHead % 256 = 255 then
        (s.unread + 256) % 1024
      else s.unread := by
  have h1 := interrupted_ok h g.headBytes
  have h2 := interrupted_ok h1 g.indices
  have htail2 := (interrupted_indices h1 g.indices).1.trans (interrupted_indices h g.headBytes).1
  have htail3 := (interrupted_indices h2 g.tailBytes).1.trans htail2
  have hcount : (availableLoads g s).1 =
      ringCount ((interrupted g.headBytes s).ringHead / 256 * 256 + s.ringHead % 256)
        (s.ringTail / 256 * 256 + s.ringTail % 256) := by
    conv_rhs => rw [← htail2]
    conv_rhs => enter [2, 1, 1, 1]; rw [htail2, ← htail3]
    rfl
  have hunread := h.unread_eq
  have hh := h.head
  have ht := h.tail
  rw [Fifo.count] at hunread
  rw [hcount, tornHead_eq h, Nat.div_add_mod']
  split
  · rw [ringCount_eq (Nat.mod_lt _ (by decide)) ht, Fifo.count]
    omega
  · rw [ringCount_eq hh ht, Fifo.count, hunread]

theorem advanceTail_ok (h : RingOk s) (n : ℕ) : RingOk (s.advanceTail n) := by
  refine ⟨h.head, ?_⟩
  change ringMask _ < 1024
  rw [ringMask_eq]
  exact Nat.mod_lt _ (by decide)

theorem advanceTail_rx (s : Machine) (n : ℕ) : (s.advanceTail n).rxEnabled = s.rxEnabled := rfl

theorem RingReach.ok (hs : RingReach s) : RingOk s ∧ s.rxEnabled = true := by
  induction hs with
  | powerUp card eeprom => exact ⟨⟨show 0 < 1024 by decide, show 0 < 1024 by decide⟩, rfl⟩
  | rx hs hrx ih => exact ⟨hrx.ok ih.1, hrx.rest.2.2.2.2.2.2.2.trans ih.2⟩
  | work hs hhead htail hrx ih =>
    exact ⟨⟨hhead.trans_lt ih.1.head, htail.trans_lt ih.1.tail⟩, hrx.trans ih.2⟩
  | process g hs hn ih =>
    rw [advanceTail_rx, availableLoads_rx ih.1]
    exact ⟨advanceTail_ok (availableLoads_ok ih.1 g) 512, ih.2⟩
  | flush g hs ih =>
    rw [advanceTail_rx, availableLoads_rx ih.1]
    exact ⟨advanceTail_ok (availableLoads_ok ih.1 g) _, ih.2⟩

/-- The loads count at most the bytes that are in the ring after them, exactly if no interrupt
carries with room for 256 bytes more. With a carry `log_process` consumes 512 bytes that are not all
there exactly if the 256 bytes too many are what it lacks. -/
theorem torn_read_iff (hs : RingReach s) (g : LoadGaps) :
    ((availableLoads g s).1 ≤ (availableLoads g s).2.unread ↔ ¬ Carries g s) ∧
      ((512 ≤ (availableLoads g s).1 → 512 ≤ (availableLoads g s).2.unread) ↔
        ¬ (Carries g s ∧ 256 ≤ s.unread ∧ s.unread + g.arrived < 512)) := by
  have hok := hs.ok.1
  have hlt := hok.unread_lt
  have harr : g.arrived ≤ 3 := by
    rw [LoadGaps.arrived, arrivals_eq, arrivals_eq, arrivals_eq]
    split_ifs <;> omega
  have hle : s.unread ≤ min (s.unread + g.arrived) 1023 := by omega
  rw [availableLoads_count hok, availableLoads_unread hok]
  by_cases hcarry : (g.headBytes.isSome ∧ s.unread < 1023) ∧ s.ringHead % 256 = 255
  · obtain ⟨⟨hrx, hroom⟩, hlow⟩ := hcarry
    simp only [Carries, hrx, hroom, hlow, true_and, and_true, if_true]
    omega
  · have hnone : ¬ Carries g s := by
      rintro ⟨hrx, hlow, hroom⟩
      exact hcarry ⟨⟨hrx, by omega⟩, hlow⟩
    rw [if_neg hcarry]
    exact ⟨iff_of_true hle hnone, iff_of_true (fun h => h.trans hle) fun h => hnone h.1⟩

/-! A read that goes wrong. -/

/-- The ring after `n` more bytes, for which there is room. -/
theorem receive_bytes (hs : RingReach s) (n : ℕ) (hn : s.unread + n ≤ 1023) :
    ∃ s', RingReach s' ∧ s'.ringTail = s.ringTail ∧ s'.ringHead = (s.ringHead + n) % 1024 ∧
      s'.unread = s.unread + n := by
  induction n with
  | zero => exact ⟨s, hs, rfl, (Nat.mod_eq_of_lt hs.ok.1.head).symm, (Nat.add_zero _).symm⟩
  | succ n ih =>
    obtain ⟨s', hs', htail, hhead, hunread⟩ := ih (by omega)
    obtain ⟨hok, hrx⟩ := hs'.ok
    obtain ⟨htail', -, hhead'⟩ := interrupted_indices hok (some 0)
    have hunread' := interrupted_unread hok (some 0)
    refine ⟨interrupted (some 0) s', hs'.rx ⟨hrx, 0, rfl⟩, htail'.trans htail, ?_, ?_⟩
    · rw [hhead', if_pos ⟨rfl, by omega⟩, hhead]
      omega
    · rw [hunread', hunread, show arrivals (some 0) = 1 from rfl, Nat.add_assoc,
        Nat.min_eq_left hn]

/-- One byte is flushed, and 510 follow: the ring from 1 to 510. -/
theorem ring_before_carry (card : ℕ → Sector) (eeprom : ℕ → Byte) :
    ∃ s, RingReach s ∧ s.ringHead = 511 ∧ s.unread = 510 := by
  have hempty : (Machine.powerUp card eeprom).unread = 0 := by
    change ringCount 0 0 = 0
    decide
  obtain ⟨s1, hs1, htail1, hhead1, hunread1⟩ := receive_bytes (.powerUp card eeprom) 1 (by omega)
  rw [hempty] at hunread1
  have hflush := RingReach.flush ⟨none, none, none⟩ hs1
  have hcount : (availableLoads ⟨none, none, none⟩ s1).1 = 1 := by
    rw [availableLoads_count hs1.ok.1, if_neg (by simp), hunread1]
  rw [hcount] at hflush
  have htail : (s1.advanceTail 1).ringTail = 1 := by
    change ringMask ((s1.ringTail + 1) % 2 ^ 16) = 1
    rw [htail1]
    change ringMask ((0 + 1) % 2 ^ 16) = 1
    decide
  have hhead : (s1.advanceTail 1).ringHead = 1 := hhead1
  have hunread : (s1.advanceTail 1).unread = 0 := by
    rw [Machine.unread, htail, hhead]
    decide
  obtain ⟨s, hs, -, hhead2, hunread2⟩ := receive_bytes hflush 510 (by
    change (s1.advanceTail 1).unread + 510 ≤ 1023
    rw [hunread]
    decide)
  change s.ringHead = ((s1.advanceTail 1).ringHead + 510) % 1024 at hhead2
  change s.unread = (s1.advanceTail 1).unread + 510 at hunread2
  rw [hhead] at hhead2
  rw [hunread] at hunread2
  exact ⟨s, hs, hhead2, hunread2⟩

/-- The RX interrupt stores byte 512 between the loads: `log_process` sees 766 bytes where there
are 511, and consumes 512. -/
theorem torn_read_overcounts : ∃ s, RingReach s ∧
    (availableLoads ⟨some 0x41, none, none⟩ s).1 = 766 ∧
    (availableLoads ⟨some 0x41, none, none⟩ s).2.unread = 511 ∧
    ¬ (availableLoads ⟨some 0x41, none, none⟩ s).1 ≤
      (availableLoads ⟨some 0x41, none, none⟩ s).2.unread := by
  obtain ⟨s, hs, hhead, hunread⟩ := ring_before_carry (fun _ _ => 0) fun _ => 0xFF
  have hcount := availableLoads_count hs.ok.1 ⟨some 0x41, none, none⟩
  have hrest := availableLoads_unread hs.ok.1 ⟨some 0x41, none, none⟩
  rw [hhead, hunread, if_pos ⟨⟨rfl, by decide⟩, rfl⟩] at hcount
  rw [hunread] at hrest
  refine ⟨s, hs, hcount, hrest, ?_⟩
  rw [hcount, hrest]
  decide

/-- With 510 bytes from cell 1 on, the read is torn and passes the test for a sector. -/
theorem torn_read_before_carry : ∃ s, RingReach s ∧ s.unread = 510 ∧
    ¬ (availableLoads ⟨some 0x41, none, none⟩ s).1 ≤
      (availableLoads ⟨some 0x41, none, none⟩ s).2.unread ∧
    ¬ (512 ≤ (availableLoads ⟨some 0x41, none, none⟩ s).1 →
      512 ≤ (availableLoads ⟨some 0x41, none, none⟩ s).2.unread) := by
  obtain ⟨s, hs, hhead, hunread⟩ := ring_before_carry (fun _ _ => 0) fun _ => 0xFF
  obtain ⟨hcount, hsector⟩ := torn_read_iff hs ⟨some 0x41, none, none⟩
  have hcarries : Carries ⟨some 0x41, none, none⟩ s := by
    refine ⟨rfl, ?_, ?_⟩
    · rw [hhead]
    · rw [hunread]
      decide
  refine ⟨s, hs, hunread, fun hle => hcount.mp hle hcarries, fun himp => hsector.mp himp ⟨hcarries, ?_⟩⟩
  rw [hunread]
  decide

end Barelog
