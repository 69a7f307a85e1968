import Barelog.Lib.Watch
import Barelog.Proofs.PutU32

/-! `repl_read_line` as a function of the bytes that are typed: the bytes it keeps, where it stores
them and what it prints. The terminating NUL of a line of 511 bytes is stored behind the buffer. -/

namespace Barelog

open Prog
open Wire (Device)

variable {κ : Type} {env : Env} {dev : Device κ} {s s' : Console κ} {fuel k n : ℕ}
  {l t rest : List Byte} {c e : Byte}

def IsEol (c : Byte) : Prop := c = 0x0D ∨ c = 0x0A

def IsErase (c : Byte) : Prop := c = 0x7F ∨ c = 0x08

instance : DecidablePred IsEol := fun c => inferInstanceAs (Decidable (c = 0x0D ∨ c = 0x0A))

instance : DecidablePred IsErase := fun c => inferInstanceAs (Decidable (c = 0x7F ∨ c = 0x08))

def editStep (l : List Byte) (c : Byte) : List Byte :=
  if IsErase c then l.dropLast else if l.length < 511 then l ++ [c] else l

def editLine (typed : List Byte) : List Byte := typed.foldl editStep []

def echoOf (l : List Byte) (c : Byte) : List Byte :=
  if IsErase c then if l = [] then [] else [0x08, 0x20, 0x08]
  else if l.length < 511 then [c] else []

def echoLine : List Byte → List Byte → List Byte
  | _, [] => [0x0D, 0x0A]
  | l, c :: t => echoOf l c ++ echoLine (editStep l c) t

def afterLine : List Byte → List Byte
  | [] => []
  | c :: t => if IsEol c then t else afterLine t

def afterLines (k : ℕ) (input : List Byte) : List Byte := afterLine^[k] input

/-- The bytes start a line: what is typed before the first CR or LF, that byte, and the rest. -/
structure StartsLine (input typed : List Byte) (e : Byte) (rest : List Byte) : Prop where
  eq : input = typed ++ e :: rest
  inside : ∀ c ∈ typed, ¬ IsEol c
  ends : IsEol e

def lineStores (t : List (Exchange conSig)) : List ℕ :=
  t.filterMap fun x => match x with
    | ⟨.lineSet i _, _⟩ => some i
    | _ => none

def HoldsLine (ring : ℕ → Byte) (l : List Byte) : Prop :=
  ∀ i, i < l.length → ring (lineBuf + i) = l.getD i 0

/-- The console after some typing: another line, less input, more output. -/
def Console.advance (s : Console κ) (ring : ℕ → Byte) (input out : List Byte) : Console κ :=
  { board := s.board.withRing ring, input := input, events := s.events ++ out.map .out }

theorem Console.advance_advance (s : Console κ) (ring ring' : ℕ → Byte)
    (input input' out out' : List Byte) :
    (s.advance ring input out).advance ring' input' out' = s.advance ring' input' (out ++ out') := by
  simp only [Console.advance, Board.withRing, Board.withMachine, List.map_append, List.append_assoc]

/-! One byte. -/

theorem editStep_length (hl : l.length ≤ 511) : (editStep l c).length ≤ 511 := by
  unfold editStep
  split_ifs with h1 h2
  · rw [List.length_dropLast]
    omega
  · rw [List.length_append, List.length_singleton]
    omega
  · exact hl

theorem HoldsLine.dropLast {ring : ℕ → Byte} (h : HoldsLine ring l) : HoldsLine ring l.dropLast := by
  intro i hi
  rw [List.length_dropLast] at hi
  rw [h i (by omega), List.getD_eq_getElem?_getD, List.getD_eq_getElem?_getD, List.getElem?_dropLast,
    if_pos hi]

theorem HoldsLine.append {ring : ℕ → Byte} (h : HoldsLine ring l) (c : Byte) :
    HoldsLine (Function.update ring (lineBuf + l.length) c) (l ++ [c]) := by
  intro i hi
  rw [List.length_append, List.length_singleton] at hi
  rcases Nat.lt_or_ge i l.length with hlt | hge
  · rw [Function.update_of_ne (by omega), h i hlt, List.getD_eq_getElem?_getD,
      List.getD_eq_getElem?_getD, List.getElem?_append_left hlt]
  · obtain rfl : i = l.length := by omega
    rw [Function.update_self, List.getD_eq_getElem?_getD, List.getElem?_concat_length,
      Option.getD_some]

theorem lineStores_append (t t' : List (Exchange conSig)) :
    lineStores (t ++ t') = lineStores t ++ lineStores t' := List.filterMap_append

/-- `repl_getc` after the byte from the UART. -/
def gotByte : Option Byte → Con Byte
  | some c => pure c
  | none => .fail .hang

theorem replGetc_run (env : Env) (dev : Device κ) (h : s.input = c :: rest) :
    replGetc.run (conStep env dev) s = (.ok c, { s with input := rest }) := by
  change (gotByte s.input.head?).run (conStep env dev) { s with input := s.input.tail } = _
  rw [h]
  rfl

theorem replGetc_stores : lineStores (replGetc.transcript (conStep env dev) s) = [] := by
  have hget : replGetc.transcript (conStep env dev) s = ⟨.getc, s.input.head?⟩ ::
      (gotByte s.input.head?).transcript (conStep env dev) { s with input := s.input.tail } := rfl
  rw [hget]
  cases s.input.head? <;> rfl

theorem advance_input (s : Console κ) (rest : List Byte) :
    { s with input := rest } = s.advance s.board.machine.ring rest [] := by
  rw [Console.advance, List.map_nil, List.append_nil]
  rfl

theorem advance_printed (s : Console κ) (ring : ℕ → Byte) (rest out out' : List Byte) :
    (s.advance ring rest out).printed out' = s.advance ring rest (out ++ out') := by
  simp only [Console.advance, Console.printed, List.map_append, List.append_assoc]

def storeOf (l : List Byte) (c : Byte) : List ℕ :=
  if IsErase c then [] else if l.length < 511 then [lineBuf + l.length] else []

theorem replReadLine_succ (fuel len : ℕ) : replReadLine (fuel + 1) len = (do
    let c ← replGetc
    if IsEol c then do
      lineSet (lineBuf + len) 0
      replCrlf
    else if IsErase c then
      if len > 0 then do
        replPutc 0x08
        replPutc 0x20
        replPutc 0x08
        replReadLine fuel (len - 1)
      else replReadLine fuel len
    else if len < 511 then do
      lineSet (lineBuf + len) c
      replPutc c
      replReadLine fuel (len + 1)
    else replReadLine fuel len) := rfl

/-- A turn of the loop with a byte that does not end the line. -/
theorem readLine_step (env : Env) (dev : Device κ) (fuel : ℕ) (hc : ¬ IsEol c)
    (hin : s.input = c :: rest) (hold : HoldsLine s.board.machine.ring l) :
    ∃ ring, (replReadLine (fuel + 1) l.length).run (conStep env dev) s =
        (replReadLine fuel (editStep l c).length).run (conStep env dev)
          (s.advance ring rest (echoOf l c)) ∧
      lineStores ((replReadLine (fuel + 1) l.length).transcript (conStep env dev) s) =
        storeOf l c ++ lineStores ((replReadLine fuel (editStep l c).length).transcript
          (conStep env dev) (s.advance ring rest (echoOf l c))) ∧
      HoldsLine ring (editStep l c) ∧ ∀ i, i < 512 → ring i = s.board.machine.ring i := by
  have hget := replGetc_run env dev hin
  rw [advance_input] at hget
  rw [replReadLine_succ, run_bind_ok hget, transcript_bind_ok hget, lineStores_append, replGetc_stores,
    List.nil_append, if_neg hc, storeOf, echoOf, editStep]
  by_cases he : IsErase c
  · rw [if_pos he, if_pos he, if_pos he, if_pos he]
    by_cases hnil : l = []
    · subst hnil
      have hzero : ¬ ([] : List Byte).length > 0 := Nat.lt_irrefl 0
      rw [if_neg hzero, if_pos rfl]
      exact ⟨_, rfl, rfl, hold, fun _ _ => rfl⟩
    · have hpos := List.length_pos_iff.mpr hnil
      rw [if_pos hpos, if_neg hnil, List.length_dropLast]
      have hput : ∀ b out, (replPutc b).run (conStep env dev)
          (s.advance s.board.machine.ring rest out) =
            (.ok (), s.advance s.board.machine.ring rest (out ++ [b])) := fun b out => by
        rw [replPutc_run, advance_printed]
      refine ⟨s.board.machine.ring, ?_, ?_, hold.dropLast, fun _ _ => rfl⟩
      · rw [run_bind_ok (hput _ _), run_bind_ok (hput _ _), run_bind_ok (hput _ _)]
        rfl
      · rw [transcript_bind_ok (hput _ _), transcript_bind_ok (hput _ _),
          transcript_bind_ok (hput _ _)]
        rfl
  · rw [if_neg he, if_neg he, if_neg he, if_neg he]
    by_cases hlt : l.length < 511
    · rw [if_pos hlt, if_pos hlt, if_pos hlt, if_pos hlt, List.length_append,
        List.length_singleton]
      have hset : (lineSet (lineBuf + l.length) c).run (conStep env dev)
          (s.advance s.board.machine.ring rest []) = (.ok (), s.advance
            (Function.update s.board.machine.ring (lineBuf + l.length) c) rest []) := rfl
      have hput : (replPutc c).run (conStep env dev) (s.advance
          (Function.update s.board.machine.ring (lineBuf + l.length) c) rest []) = (.ok (), s.advance
            (Function.update s.board.machine.ring (lineBuf + l.length) c) rest [c]) := by
        rw [replPutc_run, advance_printed, List.nil_append]
      refine ⟨Function.update s.board.machine.ring (lineBuf + l.length) c, ?_, ?_, hold.append c, ?_⟩
      · rw [run_bind_ok hset, run_bind_ok hput]
      · rw [transcript_bind_ok hset, transcript_bind_ok hput, lineStores_append, lineStores_append]
        rfl
      · exact fun i hi => Function.update_of_ne (by unfold lineBuf; omega) _ _
    · rw [if_neg hlt, if_neg hlt, if_neg hlt, if_neg hlt]
      exact ⟨_, rfl, rfl, hold, fun _ _ => rfl⟩

/-! One line. -/

/-- The byte that ends the line: the NUL goes behind the bytes kept. -/
theorem readLine_end (env : Env) (dev : Device κ) (fuel : ℕ) (he : IsEol e)
    (hin : s.input = e :: rest) (len : ℕ) :
    (replReadLine (fuel + 1) len).run (conStep env dev) s = (.ok (), s.advance
        (Function.update s.board.machine.ring (lineBuf + len) 0) rest [0x0D, 0x0A]) ∧
      lineStores ((replReadLine (fuel + 1) len).transcript (conStep env dev) s) = [lineBuf + len] := by
  have hget := replGetc_run env dev hin
  rw [advance_input] at hget
  have hset : (lineSet (lineBuf + len) 0).run (conStep env dev)
      (s.advance s.board.machine.ring rest []) = (.ok (), s.advance
        (Function.update s.board.machine.ring (lineBuf + len) 0) rest []) := rfl
  rw [replReadLine_succ, run_bind_ok hget, transcript_bind_ok hget, lineStores_append,
    replGetc_stores, List.nil_append, if_pos he, run_bind_ok hset, transcript_bind_ok hset,
    replCrlf_run, advance_printed, List.nil_append]
  exact ⟨rfl, rfl⟩

def storesOf : List Byte → List Byte → List ℕ
  | _, [] => []
  | l, c :: t => storeOf l c ++ storesOf (editStep l c) t

theorem storesOf_range (hl : l.length ≤ 511) :
    ∀ i ∈ storesOf l t, 512 ≤ i ∧ i ≤ 1022 := by
  induction t generalizing l with
  | nil => exact fun i hi => absurd hi List.not_mem_nil
  | cons c t ih =>
    intro i hi
    rcases List.mem_append.mp hi with hi | hi
    · unfold storeOf lineBuf at hi
      split_ifs at hi with h1 h2
      · cases hi
      · obtain rfl := List.mem_singleton.mp hi
        omega
      · cases hi
    · exact ih (editStep_length hl) i hi

theorem StartsLine.tail {input : List Byte} (h : StartsLine input (c :: t) e rest) :
    input = c :: (t ++ e :: rest) ∧ ¬ IsEol c ∧ StartsLine (t ++ e :: rest) t e rest :=
  ⟨h.eq, h.inside c List.mem_cons_self,
    ⟨rfl, fun x hx => h.inside x (List.mem_cons_of_mem _ hx), h.ends⟩⟩

theorem StartsLine.afterLine {input : List Byte} (h : StartsLine input t e rest) :
    afterLine input = rest := by
  induction t generalizing input with
  | nil =>
    rw [h.eq]
    exact if_pos h.ends
  | cons c t ih =>
    obtain ⟨heq, hc, htail⟩ := h.tail
    rw [heq, Barelog.afterLine, if_neg hc]
    exact ih htail

theorem startsLine_or (input : List Byte) :
    (∃ t e rest, StartsLine input t e rest) ∨ ∀ c ∈ input, ¬ IsEol c := by
  induction input with
  | nil => exact .inr fun c hc => absurd hc List.not_mem_nil
  | cons c input ih =>
    by_cases hc : IsEol c
    · exact .inl ⟨[], c, input, rfl, fun c hc => absurd hc List.not_mem_nil, hc⟩
    · rcases ih with ⟨t, e, rest, h⟩ | hnone
      · refine .inl ⟨c :: t, e, rest, congrArg (List.cons c) h.eq, fun x hx => ?_, h.ends⟩
        rcases List.mem_cons.mp hx with rfl | hx
        · exact hc
        · exact h.inside x hx
      · refine .inr fun x hx => ?_
        rcases List.mem_cons.mp hx with rfl | hx
        · exact hc
        · exact hnone x hx

/-- `repl_read_line` on a line: the buffer holds the edited line and a NUL. -/
theorem readLine_run (env : Env) (dev : Device κ) (h : StartsLine s.input t e rest)
    (hfuel : t.length < fuel) (hold : HoldsLine s.board.machine.ring l) :
    ∃ ring, (replReadLine fuel l.length).run (conStep env dev) s =
        (.ok (), s.advance ring rest (echoLine l t)) ∧
      lineStores ((replReadLine fuel l.length).transcript (conStep env dev) s) =
        storesOf l t ++ [lineBuf + (t.foldl editStep l).length] ∧
      HoldsLine ring (t.foldl editStep l) ∧
      ring (lineBuf + (t.foldl editStep l).length) = 0 ∧
      ∀ i, i < 512 → ring i = s.board.machine.ring i := by
  induction t generalizing fuel l s with
  | nil =>
    obtain ⟨fuel, rfl⟩ := Nat.exists_eq_succ_of_ne_zero (Nat.ne_of_gt hfuel)
    obtain ⟨hrun, hstores⟩ := readLine_end env dev fuel h.ends h.eq l.length
    refine ⟨_, hrun, hstores, fun i hi => ?_, Function.update_self .., fun i hi => ?_⟩
    · exact (Function.update_of_ne (by rw [List.foldl_nil] at hi; omega) _ _).trans (hold i hi)
    · exact Function.update_of_ne (by unfold lineBuf; omega) _ _
  | cons c t ih =>
    obtain ⟨fuel, rfl⟩ := Nat.exists_eq_succ_of_ne_zero (Nat.ne_of_gt (Nat.zero_lt_of_lt hfuel))
    obtain ⟨heq, hc, htail⟩ := h.tail
    obtain ⟨ring1, hstep, hstore1, hold1, hlow1⟩ := readLine_step env dev fuel hc heq hold
    obtain ⟨ring2, hrun, hstore2, hold2, hend, hlow2⟩ :=
      ih (s := s.advance ring1 (t ++ e :: rest) (echoOf l c)) htail
        (Nat.lt_of_succ_lt_succ hfuel) hold1
    refine ⟨ring2, ?_, ?_, hold2, hend, fun i hi => (hlow2 i hi).trans (hlow1 i hi)⟩
    · rw [hstep, hrun, Console.advance_advance]
      rfl
    · rw [hstore1, hstore2, ← List.append_assoc]
      rfl

theorem readLine_waits (env : Env) (dev : Device κ) (h : ∀ c ∈ s.input, ¬ IsEol c)
    (hfuel : s.input.length < fuel) (hold : HoldsLine s.board.machine.ring l) :
    ((replReadLine fuel l.length).run (conStep env dev) s).1 = .error .hang ∧
      lineStores ((replReadLine fuel l.length).transcript (conStep env dev) s) =
        storesOf l s.input := by
  generalize hin : s.input = input at h hfuel ⊢
  induction input generalizing fuel l s with
  | nil =>
    obtain ⟨fuel, rfl⟩ := Nat.exists_eq_succ_of_ne_zero (Nat.ne_of_gt hfuel)
    have hget : ∃ u, replGetc.run (conStep env dev) s = (.error .hang, u) := by
      refine ⟨{ s with input := [] }, ?_⟩
      change (gotByte s.input.head?).run (conStep env dev) { s with input := s.input.tail } = _
      rw [hin]
      rfl
    obtain ⟨u, hget⟩ := hget
    rw [replReadLine_succ, run_bind_error hget, transcript_bind_error hget]
    exact ⟨rfl, replGetc_stores⟩
  | cons c input ih =>
    obtain ⟨fuel, rfl⟩ := Nat.exists_eq_succ_of_ne_zero (Nat.ne_of_gt (Nat.zero_lt_of_lt hfuel))
    obtain ⟨ring, hstep, hstore, hold1, -⟩ :=
      readLine_step env dev fuel (h c List.mem_cons_self) hin hold
    obtain ⟨hrun, hrest⟩ := ih (s := s.advance ring input (echoOf l c)) hold1 rfl
      (fun x hx => h x (List.mem_cons_of_mem _ hx)) (Nat.lt_of_succ_lt_succ hfuel)
    rw [hstep, hstore, hrest]
    exact ⟨hrun, rfl⟩

end Barelog
