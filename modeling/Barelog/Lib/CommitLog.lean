import Barelog.Lib.Trace
import Mathlib.Data.List.Infix

/-! A log that only grows: records are appended to it and committed from time to time, and a reader
sees the records up to the last commit. An append takes effect exactly if it is acknowledged, a
commit may take effect also if it is not. What a reader once sees it will always see, followed by
more. -/

namespace CommitLog

open Labelled

variable {α : Type}

structure Log (α : Type) where
  records : List α
  /-- the number of records at the last commit, `none` before the first one -/
  committed : Option ℕ

/-- What is asked of a log, and whether it was acknowledged. -/
inductive Call (α : Type)
  | append (a : α) (ack : Bool)
  | commit (ack : Bool)

inductive Step : Log α → Call α → Log α → Prop
  | append (l : Log α) (a : α) : Step l (.append a true) ⟨l.records ++ [a], l.committed⟩
  | lost (l : Log α) (a : α) : Step l (.append a false) l
  | commit (l : Log α) (ack : Bool) : Step l (.commit ack) ⟨l.records, some l.records.length⟩
  | ignored (l : Log α) : Step l (.commit false) l

def Log.empty : Log α := ⟨[], none⟩

def Log.view (l : Log α) : Option (List α) := l.committed.map l.records.take

def appended : List (Call α) → List α
  | [] => []
  | .append a true :: cs => a :: appended cs
  | _ :: cs => appended cs

abbrev Run : Log α → List (Call α) → Log α → Prop := Trace (visible Step)

variable {l l' : Log α} {c : Call α} {cs ds : List (Call α)} {r : List α}

theorem appended_append (cs ds : List (Call α)) :
    appended (cs ++ ds) = appended cs ++ appended ds := by
  induction cs with
  | nil => rfl
  | cons c cs ih =>
    cases c with
    | commit ack => exact ih
    | append a ack =>
      cases ack with
      | false => exact ih
      | true => exact congrArg (a :: ·) ih

theorem Step.records (h : Step l c l') : l'.records = l.records ++ appended [c] := by
  cases h with
  | append a => rfl
  | lost a => exact (List.append_nil _).symm
  | commit ack => exact (List.append_nil _).symm
  | ignored => exact (List.append_nil _).symm

theorem Run.records (h : Run l cs l') : l'.records = l.records ++ appended cs := by
  induction h with
  | start => exact (List.append_nil _).symm
  | silent _ h1 _ =>
    obtain ⟨_, hbad, _⟩ := h1
    cases hbad
  | seen _ h1 ih =>
    obtain ⟨_, hc, hstep⟩ := h1
    cases hc
    rw [hstep.records, ih, appended_append, List.append_assoc]

/-- A commit counts records that are there. -/
def Log.Ok (l : Log α) : Prop := ∀ k, l.committed = some k → k ≤ l.records.length

theorem ok_empty : (Log.empty : Log α).Ok := fun _ h => by cases h

theorem Step.ok (h : Step l c l') (hl : l.Ok) : l'.Ok := by
  intro k hk
  cases h with
  | append a =>
    have := hl k hk
    simp only [List.length_append]
    omega
  | lost a => exact hl k hk
  | commit ack =>
    cases hk
    exact le_rfl
  | ignored => exact hl k hk

theorem Step.view_prefix (h : Step l c l') (hl : l.Ok) (hr : l.view = some r) :
    ∃ r', l'.view = some r' ∧ r <+: r' := by
  obtain ⟨k, hk, rfl⟩ := Option.map_eq_some_iff.mp hr
  cases h with
  | append a =>
    refine ⟨(l.records ++ [a]).take k, by rw [Log.view, hk]; rfl, ?_⟩
    rw [List.take_append_of_le_length (hl k hk)]
  | lost a => exact ⟨_, hr, List.prefix_refl _⟩
  | commit ack =>
    refine ⟨l.records, ?_, List.take_prefix _ _⟩
    rw [Log.view, Option.map_some, List.take_length]
  | ignored => exact ⟨_, hr, List.prefix_refl _⟩

/-- What a reader has seen stays at the front of what it sees. -/
theorem Run.view_prefix (h : Run l cs l') (hl : l.Ok) (hr : l.view = some r) :
    l'.Ok ∧ ∃ r', l'.view = some r' ∧ r <+: r' := by
  induction h with
  | start => exact ⟨hl, r, hr, List.prefix_refl _⟩
  | silent _ h1 _ =>
    obtain ⟨_, hbad, _⟩ := h1
    cases hbad
  | seen _ h1 ih =>
    obtain ⟨_, hc, hstep⟩ := h1
    obtain ⟨hok, r1, hr1, hpre1⟩ := ih
    obtain ⟨r2, hr2, hpre2⟩ := hstep.view_prefix hok hr1
    exact ⟨hstep.ok hok, r2, hr2, hpre1.trans hpre2⟩

theorem Run.ok (h : Run l cs l') (hl : l.Ok) : l'.Ok := by
  refine h.invariant (I := Log.Ok) (fun s c s' hs hstep => ?_) hl
  obtain ⟨_, rfl, hstep⟩ := hstep
  exact hstep.ok hs

theorem Step.view_commit (h : Step l (.commit true) l') :
    l'.view = some l.records ∧ l'.records = l.records := by
  cases h with
  | commit ack =>
    refine ⟨?_, rfl⟩
    rw [Log.view, Option.map_some, List.take_length]

theorem Run.view_commit (h : Run l (cs ++ [.commit true]) l') : l'.view = some l'.records := by
  generalize hds : cs ++ [Call.commit true] = ds at h
  cases h with
  | start => simp at hds
  | silent _ h1 =>
    obtain ⟨_, hbad, _⟩ := h1
    cases hbad
  | seen _ h1 =>
    obtain ⟨_, hc, hstep⟩ := h1
    obtain ⟨-, hlast⟩ := List.append_inj' hds rfl
    rw [← Option.some.inj hc, ← List.singleton_inj.mp hlast] at hstep
    obtain ⟨hview, hrecords⟩ := hstep.view_commit
    rw [hview, hrecords]

end CommitLog
