import Barelog.Proofs.FatEntry

/-! Power losses. What is on the card when the power goes is what the code leaves on a card that
from then on refuses every request. -/

namespace Barelog

open Prog

variable {env : Env} {s t : Machine} {α : Type} {p q : Fw α} {n : ℕ}

/-- The state of the card at some point of a call. -/
def CrashCard (env : Env) (p : Fw α) (s : Machine) (card : ℕ → Sector) : Prop :=
  ∃ q t, Steps (fwStep env) (fun _ _ _ => False) p s q t ∧ t.card = card

/-- The sectors written so far: erases do not count. -/
def Machine.sectorWrites (s : Machine) : ℕ := s.events.countP fun
  | .erase _ _ => false
  | _ => true

/-- The state of the card at some point of a call that has by then written `k` sectors. -/
def CrashAfter (env : Env) (p : Fw α) (s : Machine) (k : ℕ) (card : ℕ → Sector) : Prop :=
  ∃ q t, Steps (fwStep env) (fun _ _ _ => False) p s q t ∧ t.card = card ∧
    t.sectorWrites = s.sectorWrites + k

/-- The card takes no request from number `n` on. -/
def Env.cut (env : Env) (n : ℕ) : Env where
  answer k := if k < n then env.answer k else .refuse
  afterErase k lba d := if k < n then env.afterErase k lba d else d

theorem fwStep_reqs (env : Env) (o : FwOp) (s : Machine) : s.reqs ≤ (fwStep env o s).2.reqs := by
  cases o with
  | readCmd lba => exact Nat.le_succ _
  | writeCmd lba => exact Nat.le_succ _
  | writeDone lba => exact Nat.le_succ _
  | zeroDone lba => exact Nat.le_succ _
  | erase a b => exact Nat.le_succ _
  | _ => exact le_rfl

theorem cut_answer {k : ℕ} (hk : k + 1 ≤ n) : (env.cut n).answer k = env.answer k := if_pos hk

theorem cut_refuses {k : ℕ} (hk : n ≤ k) : (env.cut n).answer k = .refuse := if_neg (by omega)

theorem fwStep_cut {o : FwOp} (h : (fwStep env o s).2.reqs ≤ n) :
    fwStep (env.cut n) o s = fwStep env o s := by
  cases o with
  | readCmd lba => rw [fwStep, fwStep, cut_answer h]
  | writeCmd lba => rw [fwStep, fwStep, cut_answer h]
  | writeDone lba => rw [fwStep, fwStep, cut_answer h]
  | zeroDone lba => rw [fwStep, fwStep, cut_answer h]
  | erase a b =>
    have herase : (env.cut n).afterErase s.reqs = env.afterErase s.reqs := by
      funext lba d
      exact if_pos h
    rw [fwStep, fwStep, Machine.eraseRange, Machine.eraseRange, herase]
  | _ => rfl

/-- After it the card stays as it is, and no sector is written. -/
theorem fwStep_frozen (env : Env) (o : FwOp) (h : n ≤ s.reqs) :
    (fwStep (env.cut n) o s).2.card = s.card ∧
      (fwStep (env.cut n) o s).2.sectorWrites = s.sectorWrites := by
  cases o with
  | writeDone lba => rw [fwStep, cut_refuses h]; exact ⟨rfl, rfl⟩
  | zeroDone lba => rw [fwStep, cut_refuses h]; exact ⟨rfl, rfl⟩
  | erase a b =>
    have herase : (env.cut n).afterErase s.reqs = fun _ d => d := by
      funext lba d
      exact if_neg (by omega)
    rw [fwStep, Machine.eraseRange, herase]
    exact ⟨funext fun lba => ite_self _, List.countP_append⟩
  | _ => exact ⟨rfl, rfl⟩

theorem run_frozen (env : Env) (p : Fw α) (h : n ≤ s.reqs) :
    (p.run (fwStep (env.cut n)) s).2.card = s.card ∧
      (p.run (fwStep (env.cut n)) s).2.sectorWrites = s.sectorWrites := by
  induction p generalizing s with
  | ret a => exact ⟨rfl, rfl⟩
  | fail e => exact ⟨rfl, rfl⟩
  | act o k ih =>
    obtain ⟨hcard, hwrites⟩ := fwStep_frozen env o h
    obtain ⟨hcard', hwrites'⟩ := ih (fwStep (env.cut n) o s).1 (h.trans (fwStep_reqs _ o s))
    exact ⟨hcard'.trans hcard, hwrites'.trans hwrites⟩

theorem steps_cut (h : Steps (fwStep env) (fun _ _ _ => False) p s q t) (hn : t.reqs ≤ n) :
    p.run (fwStep (env.cut n)) s = q.run (fwStep (env.cut n)) t := by
  induction h with
  | start => rfl
  | @act o k t hs ih =>
    rw [ih ((fwStep_reqs env o t).trans hn)]
    change (k (fwStep (env.cut n) o t).1).run _ (fwStep (env.cut n) o t).2 = _
    rw [fwStep_cut hn]
  | env _ hR => exact hR.elim

/-- What is on the card at some point of a call is on it at the end of a call. -/
theorem CrashCard.run {card : ℕ → Sector} (h : CrashCard env p s card) :
    ∃ env' r s', p.run (fwStep env') s = (r, s') ∧ s'.card = card := by
  obtain ⟨q, t, hsteps, rfl⟩ := h
  refine ⟨env.cut t.reqs, _, _, rfl, ?_⟩
  rw [steps_cut hsteps le_rfl]
  exact (run_frozen env q le_rfl).1

/-- What a call leaves on the card is the last of these states, also when it fails. -/
theorem crashAfter_end {k : ℕ}
    (h : (p.run (fwStep env) s).2.sectorWrites = s.sectorWrites + k) :
    CrashAfter env p s k (p.run (fwStep env) s).2.card := by
  obtain ⟨q, hq⟩ := steps_end (fun _ _ _ => False) p s
  exact ⟨q, _, hq, rfl, h⟩

theorem CrashAfter.run {card : ℕ → Sector} {k : ℕ} (h : CrashAfter env p s k card) :
    ∃ env' r s', p.run (fwStep env') s = (r, s') ∧ s'.card = card ∧
      s'.sectorWrites = s.sectorWrites + k := by
  obtain ⟨q, t, hsteps, rfl, hwrites⟩ := h
  obtain ⟨hcard, hsame⟩ := run_frozen env q (le_refl t.reqs)
  refine ⟨env.cut t.reqs, _, _, rfl, ?_⟩
  rw [steps_cut hsteps le_rfl]
  exact ⟨hcard, hsame.trans hwrites⟩

theorem sectorWrites_le {evs : List CardEvent} (h : t.events = s.events ++ evs) :
    s.sectorWrites ≤ t.sectorWrites := by
  rw [Machine.sectorWrites, Machine.sectorWrites, h, List.countP_append]
  exact Nat.le_add_right _ _

theorem fwStep_sectorWrites (env : Env) (o : FwOp) (s : Machine) :
    s.sectorWrites ≤ (fwStep env o s).2.sectorWrites := by
  have hfinish : ∀ a lba e, s.sectorWrites ≤ (s.finish a lba e).2.sectorWrites := by
    intro a lba e
    rw [Machine.finish]
    split
    · exact sectorWrites_le rfl
    · exact le_rfl
  cases o with
  | writeDone lba => exact hfinish _ _ _
  | zeroDone lba => exact hfinish _ _ _
  | erase a b => exact sectorWrites_le rfl
  | _ => exact le_rfl

theorem run_sectorWrites (env : Env) (p : Fw α) (s : Machine) :
    s.sectorWrites ≤ (p.run (fwStep env) s).2.sectorWrites := by
  induction p generalizing s with
  | ret a => exact le_rfl
  | fail e => exact le_rfl
  | act o k ih => exact (fwStep_sectorWrites env o s).trans (ih _ _)

theorem PutFat.sectorWrites {c val m : ℕ} (h : PutFat s c val m t) :
    t.sectorWrites = s.sectorWrites + m := by
  obtain ⟨evs, hevs, hlen, hscratch⟩ := h.reach
  have hevents : t.events = s.events ++ evs := hscratch.events
  rw [Machine.sectorWrites, hevents, List.countP_append, ← Machine.sectorWrites, ← hlen,
    Nat.add_left_cancel_iff, List.countP_eq_length]
  intro e he
  obtain ⟨_, _, _, rfl⟩ := hevs e he
  rfl

end Barelog
