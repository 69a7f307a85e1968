import Barelog.Lib.Trace
import Barelog.Proofs.HandlerBoard

/-! A session at the command line. Whatever is typed, the board goes through the commands of the typed
lines, in the order of the lines: each is called once, none is left out, and between them only the
line buffer changes. The loop ends early only where a command does not come back, or where what is
typed has no end of line. -/

namespace Barelog

open Prog Labelled
open Wire (Device)

variable {κ : Type} {env : Env} {dev : Device κ} {s s' u : Console κ} {b b' b'' : Board κ}
  {fuel n len : ℕ} {l t rest : List Byte} {e : Byte} {r : Except Stop Unit}
  {cs ds all : List Command}

/-- The command that is called for what is typed before an end of line. -/
def commandOf (typed : List Byte) : Option Command := commandNames.lookup (beforeNul (editLine typed))

/-- The commands of the first `n` lines; a line that has no end calls none. -/
def typedCommands : ℕ → List Byte → List Command
  | 0, _ => []
  | n + 1, input =>
    if ∃ c ∈ input, IsEol c then
      (commandOf (input.takeWhile fun c => ¬ IsEol c)).toList ++ typedCommands n (afterLine input)
    else []

def handlerCalls (events : List ConEvent) : List Command :=
  events.filterMap fun ev => match ev with
    | .called c => some c
    | .out _ => none

/-- What the command loop does to the board: the line reader stores in the upper half of the ring, and
a command runs. `reset` does not come back. -/
inductive LineStep (env : Env) (dev : Device κ) (fuel : ℕ) : Board κ → Option Command → Board κ → Prop
  | typed {b : Board κ} (ring : ℕ → Byte) (hlow : ∀ i, i < 512 → ring i = b.machine.ring i) :
      LineStep env dev fuel b none (b.withRing ring)
  | command {b b' : Board κ} (c : Command) (hc : c ≠ .reset)
      (hrun : (c.code fuel).run (sysStep env dev) b = (.ok (), b')) :
      LineStep env dev fuel b (some c) b'

/-- What follows the reading of a line: nothing, or a command, which may not come back. -/
inductive TurnEnds (env : Env) (dev : Device κ) (fuel : ℕ) (b : Board κ) :
    Option Command → Except Stop Unit → Board κ → Prop
  | nothing : TurnEnds env dev fuel b none (.ok ()) b
  | returned {b' : Board κ} {c : Command} (h : LineStep env dev fuel b (some c) b') :
      TurnEnds env dev fuel b (some c) (.ok ()) b'
  | stuck {b' : Board κ} {c : Command} {r : Except Stop Unit} (e : Stop)
      (hrun : (c.code fuel).run (sysStep env dev) b = (r, b')) :
      TurnEnds env dev fuel b (some c) (.error e) b'

/-- A run of the loop with the commands `all` typed: all are done, and the loop may then wait for the
end of a line, or the last one called does not come back. -/
inductive LoopEnds (env : Env) (dev : Device κ) (fuel : ℕ) (b : Board κ) (all : List Command) :
    List Command → Except Stop Unit → Board κ → Prop
  | done {b' : Board κ} (h : Trace (LineStep env dev fuel) b all b') :
      LoopEnds env dev fuel b all all (.ok ()) b'
  | waits {b' : Board κ} (h : Trace (LineStep env dev fuel) b all b') :
      LoopEnds env dev fuel b all all (.error .hang) b'
  | stuck {cs : List Command} {b' b'' : Board κ} {c : Command} {r : Except Stop Unit} (e : Stop)
      (h : Trace (LineStep env dev fuel) b cs b') (hpre : cs ++ [c] <+: all)
      (hrun : (c.code fuel).run (sysStep env dev) b' = (r, b'')) :
      LoopEnds env dev fuel b all (cs ++ [c]) (.error e) b''

/-! The handlers called. -/

theorem handlerCalls_append (evs evs' : List ConEvent) :
    handlerCalls (evs ++ evs') = handlerCalls evs ++ handlerCalls evs' :=
  List.filterMap_append

theorem handlerCalls_none {evs : List ConEvent} (h : ∀ c, .called c ∉ evs) :
    handlerCalls evs = [] := by
  refine List.filterMap_eq_nil_iff.mpr fun ev hev => ?_
  cases ev with
  | called c => exact absurd hev (h c)
  | out c => rfl

theorem handlerCalls_printed (s : Console κ) (out : List Byte) :
    handlerCalls (s.printed out).events = handlerCalls s.events := by
  change handlerCalls (s.events ++ out.map .out) = _
  rw [handlerCalls_append, handlerCalls_none fun c => called_not_printed c out, List.append_nil]

/-! The line reader. -/

def Types : ConOp → Prop
  | .getc => True
  | .putc _ => True
  | .lineSet i _ => 512 ≤ i
  | _ => False

theorem replGetc_types : replGetc.Only (fun _ _ => True) Types := by
  refine only_bind (only_perform trivial) fun c => ?_
  cases c with
  | none => trivial
  | some c => trivial

theorem readLine_types (fuel len : ℕ) :
    (replReadLine fuel len).Only (fun _ _ => True) Types := by
  induction fuel generalizing len with
  | zero => trivial
  | succ fuel ih =>
    have hset : ∀ i c, (lineSet (lineBuf + i) c).Only (fun _ _ => True) Types := fun i c =>
      only_perform (Nat.le_add_right 512 i)
    have hput : ∀ c, (replPutc c).Only (fun _ _ => True) Types := fun c => only_perform trivial
    rw [replReadLine_succ]
    refine only_bind replGetc_types fun c => only_ite (fun _ => ?_) fun _ => only_ite (fun _ => ?_)
      fun _ => only_ite (fun _ => ?_) fun _ => ih _
    · exact only_bind (hset _ _) fun _ => only_bind (hput _) fun _ => hput _
    · refine only_ite (fun _ => ?_) fun _ => ih _
      exact only_bind (hput _) fun _ => only_bind (hput _) fun _ => only_bind (hput _) fun _ => ih _
    · exact only_bind (hset _ _) fun _ => only_bind (hput _) fun _ => ih _

/-- The reader calls no handler and stores in the line, however it ends. -/
theorem readLine_board (hrun : (replReadLine fuel len).run (conStep env dev) s = (r, s')) :
    handlerCalls s'.events = handlerCalls s.events ∧ OnlyLine s s' := by
  have hstep : ∀ (o : ConOp) (v : Console κ), Types o →
      handlerCalls v.events = handlerCalls s.events ∧ OnlyLine s v → True ∧
      handlerCalls (conStep env dev o v).2.events = handlerCalls s.events ∧
      OnlyLine s (conStep env dev o v).2 := by
    intro o v ho hv
    cases o with
    | getc => exact ⟨trivial, hv⟩
    | putc c => exact ⟨trivial, (handlerCalls_printed v [c]).trans hv.1, hv.2⟩
    | lineSet i c =>
      obtain ⟨ring, hboard, hlow⟩ := hv.2
      refine ⟨trivial, hv.1, Function.update ring i c, ?_, fun j hj => ?_⟩
      · change v.board.withRing (Function.update v.board.machine.ring i c) = _
        rw [hboard]
        rfl
      · have hi : 512 ≤ i := ho
        rw [Function.update_of_ne (by omega)]
        exact hlow j hj
    | _ => exact ho.elim
  have hinv := Only.invariant (I := fun v : Console κ =>
    handlerCalls v.events = handlerCalls s.events ∧ OnlyLine s v) (readLine_types fuel len) hstep
    ⟨rfl, s.board.machine.ring, rfl, fun _ _ => rfl⟩
  rwa [hrun] at hinv

theorem OnlyLine.step (h : OnlyLine s s') : LineStep env dev fuel s.board none s'.board := by
  obtain ⟨ring, hboard, hlow⟩ := h
  rw [hboard]
  exact .typed ring hlow

/-! A handler that is called. -/

theorem reset_board (hrun : (Command.reset.handler fuel).run (conStep env dev) s = (r, s')) :
    (∃ e, r = .error e) ∧ s'.board = s.board := by
  have hfail : (Command.reset.handler fuel).run (conStep env dev) s =
      (.error .hang, s.printed (text "reset\r\n")) :=
    (run_bind_ok (replPuts_run env dev _ s)).trans rfl
  rw [hfail] at hrun
  obtain ⟨rfl, rfl⟩ := Prod.mk.inj hrun
  exact ⟨⟨_, rfl⟩, rfl⟩

/-- The handler does to the board what its command does. -/
theorem handler_ends {c : Command} (hrun : (c.handler fuel).run (conStep env dev) s = (r, s')) :
    TurnEnds env dev fuel s.board (some c) r s'.board := by
  by_cases hc : c = .reset
  · subst hc
    obtain ⟨⟨e, rfl⟩, hboard⟩ := reset_board hrun
    exact .stuck (r := .ok ()) e (by rw [hboard]; rfl)
  · obtain ⟨r', hcode, hok⟩ := handler_board hc hrun
    cases r with
    | ok a =>
      rw [hok rfl] at hcode
      exact .returned (.command c hc hcode)
    | error e => exact .stuck e hcode

theorem afterRead_ends (h : HoldsString s.board.machine.ring lineBuf l)
    (hrun : (afterRead fuel).run (conStep env dev) s = (r, s')) :
    handlerCalls s'.events =
        handlerCalls s.events ++ (commandNames.lookup (beforeNul l)).toList ∧
      TurnEnds env dev fuel s.board (commandNames.lookup (beforeNul l)) r s'.board := by
  rcases hlook : commandNames.lookup (beforeNul l) with _ | c
  · have hquiet : ∀ out, handlerCalls (s.printed out).events =
        handlerCalls s.events ++ (none : Option Command).toList := fun out => by
      rw [handlerCalls_printed, Option.toList_none, List.append_nil]
    rcases afterRead_cases h hrun with ⟨-, rfl, rfl⟩ | ⟨-, -, rfl, rfl⟩ | ⟨c, _, hsome, -⟩
    · exact ⟨hquiet _, .nothing⟩
    · exact ⟨hquiet _, .nothing⟩
    · rw [hlook] at hsome
      cases hsome
  · have hget : (lineGet lineBuf).run (conStep env dev) s = (.ok (l.getD 0 0), s) := by
      rw [← h 0 (Nat.zero_le _)]
      rfl
    have hne : beforeNul l ≠ [] := by
      intro hnil
      rw [hnil, lookup_nil] at hlook
      cases hlook
    have hmark : (callMark c).run (conStep env dev) s =
        (.ok (), { s with events := s.events ++ [.called c] }) := rfl
    have hdispatch : (replDispatch fuel).run (conStep env dev) s = (c.handler fuel).run
        (conStep env dev) { s with events := s.events ++ [.called c] } := by
      rw [replDispatch, dispatchOn_run env dev fuel commandNames_noNul h, hlook]
      exact run_bind_ok hmark
    have hcalls : ∀ {r' : Except Stop Unit} {v : Console κ}, (replDispatch fuel).run (conStep env dev)
        s = (r', v) → handlerCalls v.events = handlerCalls s.events ++ [c] ∧
          TurnEnds env dev fuel s.board (some c) r' v.board := by
      intro r' v hv
      rw [hdispatch] at hv
      obtain ⟨new, hev, hnone⟩ := (handler_quiet fuel c).events hv
      refine ⟨?_, handler_ends (s := { s with events := s.events ++ [.called c] }) hv⟩
      rw [hev, handlerCalls_append, handlerCalls_append, handlerCalls_none hnone, List.append_nil]
      rfl
    rw [afterRead, run_bind_ok hget, if_neg fun hzero => hne (beforeNul_eq_nil.mpr hzero)] at hrun
    rcases bind_ended hrun with ⟨_, v, hv, hprompt⟩ | ⟨e, hv, rfl⟩
    · obtain ⟨hev, hends⟩ := hcalls hv
      rw [replPutc_run] at hprompt
      obtain ⟨rfl, rfl⟩ := Prod.mk.inj hprompt
      exact ⟨(handlerCalls_printed v _).trans hev, hends⟩
    · exact hcalls hv

/-! Turns. -/

theorem turn_ends (hline : StartsLine s.input t e rest) (hlen : t.length < fuel)
    (hrun : (replTurn fuel).run (conStep env dev) s = (r, s')) :
    handlerCalls s'.events = handlerCalls s.events ++ (commandOf t).toList ∧
      ∃ b, LineStep env dev fuel s.board none b ∧
        TurnEnds env dev fuel b (commandOf t) r s'.board := by
  obtain ⟨ring, hread, -, hold, hend, -⟩ :=
    readLine_run env dev hline hlen (holdsLine_nil s.board.machine.ring)
  have hstring : HoldsString ring lineBuf (editLine t) := by
    intro i hi
    rcases Nat.lt_or_eq_of_le hi with hlt | rfl
    · exact hold i hlt
    · rw [List.getD_eq_getElem?_getD, List.getElem?_eq_none le_rfl]
      exact hend
  rw [List.length_nil] at hread
  rw [replTurn_eq, run_bind_ok hread] at hrun
  obtain ⟨hcalls, honly⟩ := readLine_board hread
  obtain ⟨hev, hends⟩ := afterRead_ends (s := s.advance ring rest (echoLine [] t)) hstring hrun
  rw [hcalls] at hev
  exact ⟨hev, _, honly.step, hends⟩

theorem turn_waits (hnone : ∀ c ∈ s.input, ¬ IsEol c) (hfuel : s.input.length < fuel)
    (hrun : (replTurn fuel).run (conStep env dev) s = (r, s')) :
    r = .error .hang ∧ handlerCalls s'.events = handlerCalls s.events ∧
      LineStep env dev fuel s.board none s'.board := by
  have hwait := (readLine_waits env dev hnone hfuel (holdsLine_nil s.board.machine.ring)).1
  rw [List.length_nil] at hwait
  rw [replTurn_eq, run_bind_error (run_of_fst hwait)] at hrun
  obtain ⟨rfl, rfl⟩ := Prod.mk.inj hrun
  obtain ⟨hcalls, honly⟩ := readLine_board (run_of_fst hwait)
  exact ⟨rfl, hcalls, honly.step⟩

theorem StartsLine.takeWhile {input : List Byte} (h : StartsLine input t e rest) :
    input.takeWhile (fun c => ¬ IsEol c) = t := by
  rw [h.eq, List.takeWhile_append_of_pos fun c hc => decide_eq_true (h.inside c hc),
    List.takeWhile_cons_of_neg (by simpa using h.ends), List.append_nil]

theorem StartsLine.typedCommands {input : List Byte} (h : StartsLine input t e rest) (n : ℕ) :
    typedCommands (n + 1) input = (commandOf t).toList ++ typedCommands n (Barelog.afterLine input) := by
  have heol : ∃ c ∈ input, IsEol c := ⟨e, by rw [h.eq]; simp, h.ends⟩
  rw [Barelog.typedCommands, if_pos heol, h.takeWhile]

theorem LoopEnds.after (h : LoopEnds env dev fuel b' all cs r b'')
    (hbefore : Trace (LineStep env dev fuel) b ds b') :
    LoopEnds env dev fuel b (ds ++ all) (ds ++ cs) r b'' := by
  cases h with
  | done h => exact .done (hbefore.append h)
  | waits h => exact .waits (hbefore.append h)
  | stuck e h hpre hrun =>
    rw [← List.append_assoc]
    refine .stuck e (hbefore.append h) ?_ hrun
    rw [List.append_assoc]
    exact (List.prefix_append_right_inj ds).mpr hpre

/-- The command loop, over whatever is typed: the handlers called are those of the typed lines, in
order, and they do to the board what their commands do. -/
theorem session_runs_commands (hfuel : s.input.length < fuel)
    (hrun : (replLoop fuel n).run (conStep env dev) s = (r, u)) :
    ∃ cs, handlerCalls u.events = handlerCalls s.events ++ cs ∧
      LoopEnds env dev fuel s.board (typedCommands n s.input) cs r u.board := by
  induction n generalizing s with
  | zero =>
    obtain ⟨rfl, rfl⟩ := Prod.mk.inj hrun
    exact ⟨[], (List.append_nil _).symm, .done .start⟩
  | succ n ih =>
    rcases startsLine_or s.input with ⟨t, e, rest, hline⟩ | hnone
    · have hlen : t.length < fuel := by
        have := congrArg List.length hline.eq
        rw [List.length_append] at this
        omega
      rw [hline.typedCommands]
      rcases bind_ended hrun with ⟨_, v, hturn, hrest⟩ | ⟨stop, hturn, rfl⟩
      · obtain ⟨hev, b, hread, hends⟩ := turn_ends hline hlen hturn
        obtain ⟨cs, hev', hloop⟩ := ih (turn_shorter hfuel hturn) hrest
        rw [turn_input hfuel hturn] at hloop
        refine ⟨(commandOf t).toList ++ cs, ?_, hloop.after ?_⟩
        · rw [hev', hev, List.append_assoc]
        · have hbefore : Trace (LineStep env dev fuel) s.board [] b := Trace.start.silent hread
          generalize commandOf t = c at hends
          cases hends with
          | nothing => exact hbefore
          | returned h => exact hbefore.seen h
      · obtain ⟨hev, b, hread, hends⟩ := turn_ends hline hlen hturn
        have hbefore : Trace (LineStep env dev fuel) s.board [] b := Trace.start.silent hread
        refine ⟨(commandOf t).toList, hev, ?_⟩
        generalize commandOf t = c at hends
        cases hends with
        | stuck _ hcode => exact .stuck stop hbefore (List.prefix_append _ _) hcode
    · have hnoeol : ¬ ∃ c ∈ s.input, IsEol c := fun ⟨c, hc, heol⟩ => hnone c hc heol
      rw [typedCommands, if_neg hnoeol]
      rcases bind_ended hrun with ⟨_, v, hturn, -⟩ | ⟨stop, hturn, rfl⟩
      · obtain ⟨hbad, -⟩ := turn_waits hnone hfuel hturn
        cases hbad
      · obtain ⟨heq, hev, hread⟩ := turn_waits hnone hfuel hturn
        obtain rfl := Except.error.inj heq
        exact ⟨[], by rw [hev, List.append_nil], .waits (Trace.start.silent hread)⟩

/-- `disk`, and a line that has no end. -/
theorem session_runs_commands_disk : ∃ r u cs,
    (replLoop 16 2).run (conStep Env.ideal silent) (typing (text "disk\rtrim full")) = (r, u) ∧
      handlerCalls u.events = cs ∧
      LoopEnds Env.ideal silent 16 (typing (text "disk\rtrim full")).board [.disk] cs r u.board := by
  obtain ⟨r, u, hrun⟩ : ∃ r u, (replLoop 16 2).run (conStep Env.ideal silent)
    (typing (text "disk\rtrim full")) = (r, u) := ⟨_, _, rfl⟩
  have htyped : typedCommands 2 (typing (text "disk\rtrim full")).input = [.disk] := by
    decide +kernel
  obtain ⟨cs, hev, hends⟩ := session_runs_commands (by decide +kernel) hrun
  rw [htyped] at hends
  exact ⟨r, u, cs, hrun, hev, hends⟩

end Barelog
