import Barelog.Proofs.LineStores

/-! What a typed line does. The line is kept with its length but compared as a string that ends with
NUL, so it is the part of the line before a NUL that decides which handler is called. -/

namespace Barelog

open Prog
open Wire (Device)

variable {κ : Type} {env : Env} {dev : Device κ} {s s' u : Console κ} {fuel k n : ℕ}
  {l t rest name : List Byte} {c e : Byte} {names : List (List Byte × Command)}

def beforeNul (l : List Byte) : List Byte := l.takeWhile (· ≠ 0)

/-- A line with no NUL in it, or one whose part before the NUL is neither empty nor the name of a
command. -/
def Plain (l : List Byte) : Prop :=
  0 ∉ l ∨ beforeNul l ≠ [] ∧ commandNames.lookup (beforeNul l) = none

def OnlyLine (s s' : Console κ) : Prop :=
  ∃ ring, s'.board = s.board.withRing ring ∧ ∀ i, i < 512 → ring i = s.board.machine.ring i

/-- What a turn that has read a line, printed the echo `echo` and kept the bytes `l` is to do: exactly
the handler of the command with that name is called; an empty line is answered with the prompt, and
any other line that is not a name with the error mark and the prompt. -/
def Answers (l echo : List Byte) (s : Console κ) (r : Except Stop Unit) (s' : Console κ) : Prop :=
  ∃ new, s'.events = s.events ++ echo.map .out ++ new ∧
    (∀ c, .called c ∈ new ↔ commandNames.lookup l = some c) ∧
    (l = [] → r = .ok () ∧ new = [.out 0x3E] ∧ OnlyLine s s') ∧
    (l ≠ [] → commandNames.lookup l = none →
      r = .ok () ∧ new = (text "!\r\n>").map .out ∧ OnlyLine s s')

/-! The comparison. -/

def HoldsString (ring : ℕ → Byte) (a : ℕ) (l : List Byte) : Prop :=
  ∀ i, i ≤ l.length → ring (a + i) = l.getD i 0

theorem HoldsString.tail {ring : ℕ → Byte} {a : ℕ} (h : HoldsString ring a (c :: l)) :
    HoldsString ring (a + 1) l := by
  intro i hi
  have := h (i + 1) (Nat.succ_le_succ hi)
  rwa [List.getD_cons_succ, ← Nat.add_assoc, Nat.add_right_comm] at this

/-- `line_eq` compares the name with what is before the first NUL. -/
theorem lineEq_run (env : Env) (dev : Device κ) (hname : 0 ∉ name) {a : ℕ}
    (h : HoldsString s.board.machine.ring a l) :
    (lineEq name a).run (conStep env dev) s = (.ok (beforeNul l = name), s) := by
  have hget : (lineGet a).run (conStep env dev) s = (.ok (l.getD 0 0), s) := by
    rw [← h 0 (Nat.zero_le _)]
    rfl
  induction name generalizing a l with
  | nil =>
    rw [lineEq, run_bind_ok hget]
    cases l with
    | nil => rfl
    | cons c l =>
      by_cases hc : c = 0 <;> simp [beforeNul, hc]
  | cons b name ih =>
    have hb : b ≠ 0 := fun hb => hname (hb ▸ List.mem_cons_self)
    rw [lineEq, run_bind_ok hget]
    cases l with
    | nil => simp [beforeNul, hb.symm]
    | cons c l =>
      by_cases hc : c = b
      · subst hc
        have hnext := ih (fun hmem => hname (List.mem_cons_of_mem _ hmem)) h.tail (by
          rw [← h.tail 0 (Nat.zero_le _)]
          rfl)
        simp [beforeNul, hb, hnext] at hnext ⊢
      · have hsame : beforeNul (c :: l) ≠ b :: name := by
          rw [beforeNul, List.takeWhile_cons]
          split_ifs <;> simp [hc]
        simp [hc, hsame]

theorem commandNames_noNul : ∀ x ∈ commandNames, (0 : Byte) ∉ x.1 := by decide

theorem mem_of_lookup {c : Command} (h : names.lookup l = some c) : (l, c) ∈ names := by
  induction names with
  | nil => cases h
  | cons x names ih =>
    rw [List.lookup_cons] at h
    split at h
    · rename_i heq
      obtain rfl := Option.some.inj h
      rw [eq_of_beq heq]
      exact List.mem_cons_self
    · exact List.mem_cons_of_mem _ (ih h)

theorem lookup_nil : commandNames.lookup [] = none := by decide

theorem lookup_nul (h : 0 ∈ l) : commandNames.lookup l = none := by
  refine Option.eq_none_iff_forall_ne_some.mpr fun c hc => ?_
  exact commandNames_noNul _ (mem_of_lookup hc) h

theorem dispatchOn_run (env : Env) (dev : Device κ) (fuel : ℕ) (hnames : ∀ x ∈ names, (0 : Byte) ∉ x.1)
    (h : HoldsString s.board.machine.ring lineBuf l) :
    (dispatchOn fuel names).run (conStep env dev) s = match names.lookup (beforeNul l) with
      | some c => (callMark c >>= fun _ => c.handler fuel).run (conStep env dev) s
      | none => (Command.unknown.handler fuel).run (conStep env dev) s := by
  induction names with
  | nil => rfl
  | cons x names ih =>
    obtain ⟨name, c⟩ := x
    have hname := hnames _ List.mem_cons_self
    rw [dispatchOn, run_bind_ok (lineEq_run env dev hname h), List.lookup_cons]
    by_cases heq : beforeNul l = name
    · simp [heq]
    · have hbeq : (beforeNul l == name) = false := beq_eq_false_iff_ne.mpr heq
      have hrest := ih fun x hx => hnames x (List.mem_cons_of_mem _ hx)
      rw [hbeq]
      simp [heq, hrest]

/-! The turn. -/

theorem IsQuiet.events {α : Type} {p : Con α} (hp : IsQuiet p) {r : Except Stop α}
    (hrun : p.run (conStep env dev) s = (r, s')) :
    ∃ new, s'.events = s.events ++ new ∧ ∀ c, .called c ∉ new := by
  have hstep : ∀ (o : ConOp) (v : Console κ), Quiet o →
      (∃ new, v.events = s.events ++ new ∧ ∀ c, .called c ∉ new) →
      True ∧ ∃ new, (conStep env dev o v).2.events = s.events ++ new ∧ ∀ c, .called c ∉ new := by
    intro o v ho hv
    cases o with
    | sys o => exact ⟨trivial, hv⟩
    | putc b =>
      obtain ⟨new, hev, hnone⟩ := hv
      refine ⟨trivial, new ++ [.out b], ?_, fun c hc => ?_⟩
      · change v.events ++ [.out b] = _
        rw [hev, List.append_assoc]
      · rcases List.mem_append.mp hc with hc | hc
        · exact hnone c hc
        · cases List.mem_singleton.mp hc
    | _ => exact ho.elim
  have hinv := Only.invariant (I := fun v : Console κ => ∃ new, v.events = s.events ++ new ∧
    ∀ c, .called c ∉ new) hp hstep ⟨[], (List.append_nil _).symm, fun _ => List.not_mem_nil⟩
  rwa [hrun] at hinv

theorem beforeNul_eq_nil : beforeNul l = [] ↔ l.getD 0 0 = 0 := by
  cases l with
  | nil => exact ⟨fun _ => rfl, fun _ => rfl⟩
  | cons c l => by_cases hc : c = 0 <;> simp [beforeNul, hc]

/-- The three things that a turn can do with the line in the buffer. -/
theorem afterRead_cases (h : HoldsString s.board.machine.ring lineBuf l) {r : Except Stop Unit}
    (hrun : (afterRead fuel).run (conStep env dev) s = (r, s')) :
    (beforeNul l = [] ∧ r = .ok () ∧ s' = s.printed [0x3E]) ∨
    (beforeNul l ≠ [] ∧ commandNames.lookup (beforeNul l) = none ∧ r = .ok () ∧
      s' = s.printed (text "!\r\n>")) ∨
    ∃ c new, commandNames.lookup (beforeNul l) = some c ∧
      s'.events = s.events ++ .called c :: new ∧ ∀ c', .called c' ∉ new := by
  have hget : (lineGet lineBuf).run (conStep env dev) s = (.ok (l.getD 0 0), s) := by
    rw [← h 0 (Nat.zero_le _)]
    rfl
  rw [afterRead, run_bind_ok hget] at hrun
  by_cases hnil : beforeNul l = []
  · rw [if_pos (beforeNul_eq_nil.mp hnil), replPutc_run] at hrun
    obtain ⟨rfl, rfl⟩ := Prod.mk.inj hrun
    exact .inl ⟨hnil, rfl, rfl⟩
  · rw [if_neg fun hzero => hnil (beforeNul_eq_nil.mpr hzero), run_bind, replDispatch,
      dispatchOn_run env dev fuel commandNames_noNul h] at hrun
    rcases hlook : commandNames.lookup (beforeNul l) with _ | c
    · have hmark : (Command.unknown.handler fuel).run (conStep env dev) s =
          (.ok (), s.printed (text "!\r\n")) := replPuts_run env dev _ s
      simp only [hlook, hmark, replPutc_run, Console.printed_printed] at hrun
      obtain ⟨rfl, rfl⟩ := Prod.mk.inj hrun
      exact .inr (.inl ⟨hnil, rfl, rfl, rfl⟩)
    · refine .inr (.inr ⟨c, ?_⟩)
      have hmark : (callMark c).run (conStep env dev) s =
          (.ok (), { s with events := s.events ++ [.called c] }) := rfl
      simp only [hlook, run_bind_ok hmark] at hrun
      have hquiet : IsQuiet (c.handler fuel >>= fun _ => replPutc 0x3E) :=
        only_bind (handler_quiet fuel c) fun _ => only_perform trivial
      rw [← run_bind] at hrun
      obtain ⟨new, hev, hnone⟩ := hquiet.events hrun
      refine ⟨new, rfl, ?_, hnone⟩
      rw [hev, List.append_assoc]
      rfl

theorem beforeNul_self (h : 0 ∉ l) : beforeNul l = l := by
  induction l with
  | nil => rfl
  | cons c l ih =>
    have hc : c ≠ 0 := fun hzero => h (hzero ▸ List.mem_cons_self)
    rw [beforeNul, List.takeWhile_cons, if_pos (decide_eq_true hc)]
    exact congrArg (List.cons c) (ih fun hmem => h (List.mem_cons_of_mem _ hmem))

theorem called_not_printed (c : Command) (out : List Byte) : ConEvent.called c ∉ out.map .out := by
  intro h
  obtain ⟨_, _, heq⟩ := List.mem_map.mp h
  cases heq

/-! Which lines each of the three is right for. -/

theorem answers_prompt {echo : List Byte} (hev : s'.events = s.events ++ echo.map .out ++ [.out 0x3E])
    (honly : OnlyLine s s') : Answers l echo s (.ok ()) s' ↔ l = [] := by
  constructor
  · rintro ⟨new, hnew, hcall, -, herr⟩
    have hsame : [.out 0x3E] = new := List.append_cancel_left (hev.symm.trans hnew)
    by_contra hne
    have hnone : commandNames.lookup l = none := by
      rw [Option.eq_none_iff_forall_ne_some]
      intro c hc
      have hmem := (hcall c).mpr hc
      rw [← hsame] at hmem
      exact called_not_printed c [0x3E] hmem
    rw [(herr hne hnone).2.1] at hsame
    exact absurd hsame (by decide)
  · rintro rfl
    refine ⟨_, hev, fun c => ?_, fun _ => ⟨rfl, rfl, honly⟩, fun h => absurd rfl h⟩
    rw [lookup_nil]
    exact ⟨fun h => absurd h (called_not_printed c [0x3E]), nofun⟩

theorem answers_error {echo : List Byte}
    (hev : s'.events = s.events ++ echo.map .out ++ (text "!\r\n>").map .out)
    (honly : OnlyLine s s') :
    Answers l echo s (.ok ()) s' ↔ l ≠ [] ∧ commandNames.lookup l = none := by
  constructor
  · rintro ⟨new, hnew, hcall, hprompt, -⟩
    have hsame : (text "!\r\n>").map .out = new := List.append_cancel_left (hev.symm.trans hnew)
    refine ⟨fun hnil => ?_, Option.eq_none_iff_forall_ne_some.mpr fun c hc => ?_⟩
    · rw [(hprompt hnil).2.1] at hsame
      exact absurd hsame (by decide)
    · have hmem := (hcall c).mpr hc
      rw [← hsame] at hmem
      exact called_not_printed c _ hmem
  · rintro ⟨hne, hnone⟩
    refine ⟨_, hev, fun c => ?_, fun h => absurd h hne, fun _ _ => ⟨rfl, rfl, honly⟩⟩
    rw [hnone]
    exact ⟨fun h => absurd h (called_not_printed c _), nofun⟩

theorem answers_called {echo : List Byte} {c : Command} {new : List ConEvent} {r : Except Stop Unit}
    (hev : s'.events = s.events ++ echo.map .out ++ .called c :: new)
    (hnone : ∀ c', .called c' ∉ new) :
    Answers l echo s r s' ↔ commandNames.lookup l = some c := by
  constructor
  · rintro ⟨new', hnew, hcall, -⟩
    have hsame : .called c :: new = new' := List.append_cancel_left (hev.symm.trans hnew)
    exact (hcall c).mp (hsame ▸ List.mem_cons_self)
  · intro hlook
    refine ⟨_, hev, fun c' => ?_, fun h => ?_, fun _ h => ?_⟩
    · rw [hlook, Option.some.injEq, List.mem_cons, ConEvent.called.injEq, or_iff_left (hnone c')]
      exact eq_comm
    · rw [h, lookup_nil] at hlook
      cases hlook
    · rw [hlook] at h
      cases h

/-- A turn does what it is to do with a line exactly if a NUL in the line cannot hide the rest. -/
theorem answers_iff {ring : ℕ → Byte} {echo : List Byte} {r : Except Stop Unit}
    (hlow : ∀ i, i < 512 → ring i = s.board.machine.ring i) (hline : HoldsString ring lineBuf l)
    (hrun : (afterRead fuel).run (conStep env dev) (s.advance ring rest echo) = (r, s')) :
    Answers l echo s r s' ↔ Plain l := by
  have honly : ∀ out, OnlyLine s ((s.advance ring rest echo).printed out) := fun out =>
    ⟨ring, rfl, hlow⟩
  have hself : ¬ 0 ∈ l → beforeNul l = l := beforeNul_self
  rcases afterRead_cases (s := s.advance ring rest echo) hline hrun with
    ⟨hnil, rfl, rfl⟩ | ⟨hsome, hlook, rfl, rfl⟩ | ⟨c, new, hlook, hev, hnone⟩
  · rw [answers_prompt rfl (honly _)]
    refine ⟨fun h => .inl (h ▸ List.not_mem_nil), ?_⟩
    rintro (hnul | ⟨hne, -⟩)
    · rwa [hself hnul] at hnil
    · exact absurd hnil hne
  · rw [answers_error rfl (honly _)]
    have hne : l ≠ [] := by
      rintro rfl
      exact hsome rfl
    refine iff_of_true ⟨hne, ?_⟩ (.inr ⟨hsome, hlook⟩)
    by_cases hnul : 0 ∈ l
    · exact lookup_nul hnul
    · rwa [hself hnul] at hlook
  · rw [answers_called hev hnone]
    constructor
    · intro hname
      refine .inl fun hnul => ?_
      rw [lookup_nul hnul] at hname
      cases hname
    · rintro (hnul | ⟨-, hnot⟩)
      · rwa [hself hnul] at hlook
      · rw [hlook] at hnot
        cases hnot

/-- In the command loop, over whatever is typed: each line that is read calls the handler of the
command with that name, or gets the prompt or the error mark, exactly if it has no NUL in it or what
precedes its first NUL is neither empty nor a name. -/
theorem command_line_iff (env : Env) (dev : Device κ) {fuel : ℕ} {s : Console κ}
    (hfuel : s.input.length < fuel) (k : ℕ) {u u' : Console κ}
    (hreach : (replLoop fuel k).run (conStep env dev) s = (.ok (), u)) {t rest : List Byte} {e : Byte}
    (hline : StartsLine (afterLines k s.input) t e rest) {r : Except Stop Unit}
    (hturn : (replTurn fuel).run (conStep env dev) u = (r, u')) :
    Answers (editLine t) (echoLine [] t) u r u' ↔ Plain (editLine t) := by
  have hinput := loop_input hfuel hreach
  have hlen : t.length < fuel := by
    have h1 := congrArg List.length hline.eq
    have h2 := length_afterLines k s.input
    rw [List.length_append] at h1
    omega
  rw [← hinput] at hline
  obtain ⟨ring, hread, -, hold, hend, hlow⟩ :=
    readLine_run env dev hline hlen (holdsLine_nil u.board.machine.ring)
  have hstring : HoldsString ring lineBuf (editLine t) := by
    intro i hi
    rcases Nat.lt_or_eq_of_le hi with hlt | rfl
    · exact hold i hlt
    · rw [List.getD_eq_getElem?_getD, List.getElem?_eq_none le_rfl]
      exact hend
  rw [replTurn_eq, ← List.length_nil, run_bind_ok hread] at hturn
  exact answers_iff hlow hstring hturn

/-- `disk` and CR. -/
theorem command_line_disk : ∃ r u', (replTurn 6).run (conStep Env.ideal silent)
    (typing (text "disk\r")) = (r, u') ∧
    Answers (editLine (text "disk")) (echoLine [] (text "disk")) (typing (text "disk\r")) r u' := by
  obtain ⟨r, u', hturn⟩ : ∃ r u', (replTurn 6).run (conStep Env.ideal silent)
    (typing (text "disk\r")) = (r, u') := ⟨_, _, rfl⟩
  have hline : StartsLine (afterLines 0 (typing (text "disk\r")).input) (text "disk") 0x0D [] :=
    ⟨rfl, by decide +kernel, by decide +kernel⟩
  have hplain : Plain (editLine (text "disk")) := .inl (by decide +kernel)
  exact ⟨r, u', hturn, (command_line_iff Env.ideal silent (by decide) 0 rfl hline hturn).mpr hplain⟩

/-- `trim fuller`, a NUL and CR: the line is not the name, and the handler is called. -/
theorem command_line_nul :
    commandNames.lookup (editLine (text "trim fuller" ++ [0])) = none ∧
    ConEvent.called .trimFuller ∈ ((replTurn 14).run (conStep Env.ideal silent)
      (typing (text "trim fuller" ++ [0, 0x0D]))).2.events ∧
    ¬ Answers (editLine (text "trim fuller" ++ [0])) (echoLine [] (text "trim fuller" ++ [0]))
      (typing (text "trim fuller" ++ [0, 0x0D]))
      ((replTurn 14).run (conStep Env.ideal silent) (typing (text "trim fuller" ++ [0, 0x0D]))).1
      ((replTurn 14).run (conStep Env.ideal silent) (typing (text "trim fuller" ++ [0, 0x0D]))).2 := by
  have hnone : commandNames.lookup (editLine (text "trim fuller" ++ [0])) = none := by decide +kernel
  have hcalled : ConEvent.called .trimFuller ∈ ((replTurn 14).run (conStep Env.ideal silent)
      (typing (text "trim fuller" ++ [0, 0x0D]))).2.events := by decide +kernel
  refine ⟨hnone, hcalled, fun ⟨new, hev, hcall, _⟩ => ?_⟩
  rw [hev, List.append_assoc] at hcalled
  rcases List.mem_append.mp hcalled with h | h
  · cases h
  · rcases List.mem_append.mp h with h | h
    · exact called_not_printed _ _ h
    · rw [hcall, hnone] at h
      cases h

end Barelog
