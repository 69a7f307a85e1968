import Barelog.Lib.Fifo
import Barelog.Spec.Log

/-! The ring as a queue. The RX interrupt appends to it or, with 1023 bytes unread, drops
the byte; `uart_consume` removes from its front. -/

namespace Barelog

structure RingOk (s : Machine) : Prop where
  head : s.ringHead < 1024
  tail : s.ringTail < 1024

/-- The unread bytes, oldest first. -/
def Machine.queue (s : Machine) : List Byte := Fifo.contents 1024 s.ring s.ringTail s.unread

theorem ringCount_eq {head tail : ℕ} (hh : head < 1024) (ht : tail < 1024) :
    ringCount head tail = Fifo.count 1024 head tail := by
  rw [ringCount, ringMask_eq, Fifo.count]
  omega

theorem RingOk.unread_eq {s : Machine} (h : RingOk s) :
    s.unread = Fifo.count 1024 s.ringHead s.ringTail := ringCount_eq h.head h.tail

theorem RingOk.unread_lt {s : Machine} (h : RingOk s) : s.unread < 1024 := by
  rw [h.unread_eq]
  exact Fifo.count_lt (by decide)

theorem RingOk.head_eq {s : Machine} (h : RingOk s) :
    (s.ringTail + s.unread) % 1024 = s.ringHead := by
  rw [h.unread_eq]
  exact Fifo.tail_add_count h.head h.tail

theorem RingOk.nextHead_eq {s : Machine} (h : RingOk s) : nextHead s = (s.ringHead + 1) % 1024 := by
  have := h.head
  rw [nextHead, ringMask_eq]
  omega

@[simp] theorem queue_length (s : Machine) : s.queue.length = s.unread := by
  simp [Machine.queue]

theorem queue_eq_of_ring {s s' : Machine} (hring : s'.ring = s.ring)
    (hhead : s'.ringHead = s.ringHead) (htail : s'.ringTail = s.ringTail) :
    s'.queue = s.queue := by
  rw [Machine.queue, Machine.queue, Machine.unread, Machine.unread, hring, hhead, htail]

theorem rxIsr_cases {s : Machine} (h : RingOk s) (byte : Byte) :
    (s.unread < 1023 ∧ rxIsr byte s = { s with
        ring := Function.update s.ring s.ringHead byte
        ringHead := (s.ringHead + 1) % 1024
        accepted := s.accepted ++ [byte] }) ∨
      (s.unread = 1023 ∧ rxIsr byte s = { s with dropped := s.dropped ++ [1023] }) := by
  have hlt := h.unread_lt
  have hfull := Fifo.next_eq_tail_iff h.head h.tail
  rw [← h.unread_eq, ← h.nextHead_eq] at hfull
  by_cases hn : nextHead s = s.ringTail
  · have hu : s.unread = 1023 := by have := hfull.mp hn; omega
    right
    rw [rxIsr, if_neg (not_not.mpr hn), hu]
    exact ⟨rfl, rfl⟩
  · left
    rw [rxIsr, if_pos hn, h.nextHead_eq]
    exact ⟨by have := mt hfull.mpr hn; omega, rfl⟩

section Rx

variable {s s' : Machine}

theorem rxIsr_ok (h : RingOk s) (byte : Byte) : RingOk (rxIsr byte s) := by
  rcases rxIsr_cases h byte with ⟨_, he⟩ | ⟨_, he⟩
  · rw [he]
    exact ⟨Nat.mod_lt _ (by decide), h.tail⟩
  · rw [he]
    exact ⟨h.head, h.tail⟩

theorem RxStep.ok (hrx : RxStep s s') (h : RingOk s) : RingOk s' := by
  obtain ⟨_, byte, rfl⟩ := hrx
  exact rxIsr_ok h byte

theorem rxIsr_unread (h : RingOk s) (byte : Byte) (hroom : s.unread < 1023) :
    (rxIsr byte s).unread = s.unread + 1 := by
  have hne : (s.ringHead + 1) % 1024 ≠ s.ringTail := by
    rw [ne_eq, Fifo.next_eq_tail_iff h.head h.tail, ← h.unread_eq]
    omega
  rcases rxIsr_cases h byte with ⟨_, he⟩ | ⟨hfull, _⟩
  · rw [(rxIsr_ok h byte).unread_eq, h.unread_eq, he]
    exact Fifo.count_push h.head h.tail hne
  · omega

theorem rxIsr_queue (h : RingOk s) (byte : Byte) (hroom : s.unread < 1023) :
    (rxIsr byte s).queue = s.queue ++ [byte] ∧
      (rxIsr byte s).accepted = s.accepted ++ [byte] ∧ (rxIsr byte s).dropped = s.dropped := by
  rcases rxIsr_cases h byte with ⟨-, he⟩ | ⟨hfull, -⟩
  · refine ⟨?_, by rw [he], by rw [he]⟩
    rw [Machine.queue, rxIsr_unread h byte hroom, he, Machine.queue]
    conv_lhs => rw [← h.head_eq]
    exact Fifo.contents_push _ _ (by omega)
  · omega

/-- What the RX interrupt does to the queue and to the history of the bytes received. -/
theorem RxStep.queue (hrx : RxStep s s') (h : RingOk s) :
    (∃ byte, s.unread < 1023 ∧ s'.queue = s.queue ++ [byte] ∧
        s'.accepted = s.accepted ++ [byte] ∧ s'.dropped = s.dropped) ∨
      (s'.queue = s.queue ∧ s'.accepted = s.accepted ∧ s'.dropped = s.dropped ++ [1023]) := by
  obtain ⟨_, byte, rfl⟩ := hrx
  rcases rxIsr_cases h byte with ⟨hroom, _⟩ | ⟨_, he⟩
  · exact .inl ⟨byte, hroom, rxIsr_queue h byte hroom⟩
  · exact .inr ⟨by rw [he]; exact queue_eq_of_ring rfl rfl rfl, by rw [he], by rw [he]⟩

theorem RxStep.unread_le (hrx : RxStep s s') (h : RingOk s) : s.unread ≤ s'.unread := by
  have hq := hrx.queue h
  rw [← queue_length s, ← queue_length s']
  rcases hq with ⟨byte, _, hq, _⟩ | ⟨hq, _⟩
  · rw [hq]; simp
  · rw [hq]

theorem RxStep.queue_take (hrx : RxStep s s') (h : RingOk s) {k : ℕ} (hk : k ≤ s.unread) :
    s'.queue.take k = s.queue.take k := by
  rcases hrx.queue h with ⟨byte, _, hq, _⟩ | ⟨hq, _⟩
  · rw [hq, List.take_append_of_le_length (by simpa using hk)]
  · rw [hq]

theorem RxStep.rest (hrx : RxStep s s') : s'.ringTail = s.ringTail ∧ s'.ram = s.ram ∧
    s'.card = s.card ∧ s'.eeprom = s.eeprom ∧ s'.block = s.block ∧ s'.reqs = s.reqs ∧
    s'.events = s.events ∧ s'.rxEnabled = s.rxEnabled := by
  obtain ⟨_, byte, rfl⟩ := hrx
  rw [rxIsr]
  split <;> exact ⟨rfl, rfl, rfl, rfl, rfl, rfl, rfl, rfl⟩

end Rx

theorem queue_consume {s : Machine} (h : RingOk s) {n : ℕ} (hn : n ≤ s.unread) :
    RingOk { s with ringTail := ringMask ((s.ringTail + n) % 2 ^ 16) } ∧
      Machine.queue { s with ringTail := ringMask ((s.ringTail + n) % 2 ^ 16) } =
        s.queue.drop n := by
  have ht := h.tail
  have hlt := h.unread_lt
  have hmask : ringMask ((s.ringTail + n) % 2 ^ 16) = (s.ringTail + n) % 1024 := by
    rw [ringMask_eq]
    omega
  have hok : RingOk { s with ringTail := (s.ringTail + n) % 1024 } :=
    ⟨h.head, Nat.mod_lt _ (by decide)⟩
  rw [hmask]
  refine ⟨hok, ?_⟩
  rw [Machine.queue, hok.unread_eq, Machine.queue, Fifo.contents_drop, h.unread_eq,
    Fifo.count_advance h.head h.tail (by rw [← h.unread_eq]; exact hn)]

theorem queue_getElem {s : Machine} {j : ℕ} (hj : j < s.queue.length) :
    s.queue[j] = s.ring ((s.ringTail + j) % 1024) := Fifo.contents_getElem _ hj

end Barelog
