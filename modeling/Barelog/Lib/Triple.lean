import Barelog.Lib.Prog

/-! Pre- and postconditions of runs, with a postcondition for each way to end. A run always ends, so
these are triples of total correctness. -/

namespace Prog

variable {S : Sig} {ε α β σ : Type}

/-- From a state in `P` the program returns in `Q` or fails in `E`. -/
structure Ensures (h : Handler S σ) (P : σ → Prop) (p : Prog S ε α) (Q : α → σ → Prop)
    (E : ε → σ → Prop) : Prop where
  ok : ∀ s a s', P s → p.run h s = (.ok a, s') → Q a s'
  error : ∀ s e s', P s → p.run h s = (.error e, s') → E e s'

variable {h : Handler S σ} {P : σ → Prop} {E : ε → σ → Prop}

theorem ensures_pure {Q : α → σ → Prop} {a : α} (hP : ∀ s, P s → Q a s) :
    Ensures h P (pure a : Prog S ε α) Q E := by
  refine ⟨fun s b s' hs hrun => ?_, fun s e s' _ hrun => by cases hrun⟩
  cases hrun
  exact hP s hs

theorem ensures_fail {Q : α → σ → Prop} {e : ε} (hP : ∀ s, P s → E e s) :
    Ensures h P (fail e : Prog S ε α) Q E := by
  refine ⟨fun s b s' _ hrun => ?_, fun s e' s' hs hrun => ?_⟩
  · cases hrun
  · cases hrun
    exact hP s hs

theorem ensures_perform {o : S.Op} {Q : S.Reply o → σ → Prop}
    (hP : ∀ s, P s → Q (h o s).1 (h o s).2) : Ensures h P (perform o : Prog S ε _) Q E := by
  refine ⟨fun s b s' hs hrun => ?_, fun s e s' _ hrun => by cases hrun⟩
  cases hrun
  exact hP s hs

theorem ensures_bind {p : Prog S ε α} {f : α → Prog S ε β} {M : α → σ → Prop} {Q : β → σ → Prop}
    (hp : Ensures h P p M E) (hf : ∀ a, Ensures h (M a) (f a) Q E) : Ensures h P (p >>= f) Q E := by
  constructor
  · intro s b s' hs hrun
    obtain ⟨a, s1, h1, h2⟩ := bind_returned hrun
    exact (hf a).ok s1 b s' (hp.ok s a s1 hs h1) h2
  · intro s e s' hs hrun
    rcases bind_ended hrun with ⟨a, s1, h1, h2⟩ | ⟨e', h1, he⟩
    · exact (hf a).error s1 e s' (hp.ok s a s1 hs h1) h2
    · cases he
      exact hp.error s e s' hs h1

theorem ensures_ite {c : Prop} [Decidable c] {p q : Prog S ε α} {Q : α → σ → Prop}
    (hp : c → Ensures h P p Q E) (hq : ¬ c → Ensures h P q Q E) :
    Ensures h P (if c then p else q) Q E := by
  split
  · exact hp ‹_›
  · exact hq ‹_›

theorem Ensures.conseq {p : Prog S ε α} {P' : σ → Prop} {Q Q' : α → σ → Prop} {E' : ε → σ → Prop}
    (hp : Ensures h P p Q E) (hP : ∀ s, P' s → P s) (hQ : ∀ a s, Q a s → Q' a s)
    (hE : ∀ e s, E e s → E' e s) : Ensures h P' p Q' E' :=
  ⟨fun s a s' hs hrun => hQ a s' (hp.ok s a s' (hP s hs) hrun),
    fun s e s' hs hrun => hE e s' (hp.error s e s' (hP s hs) hrun)⟩

theorem ensures_exists {ι : Type} {p : Prog S ε α} {P : ι → σ → Prop} {Q : α → σ → Prop}
    (hp : ∀ i, Ensures h (P i) p Q E) : Ensures h (fun s => ∃ i, P i s) p Q E :=
  ⟨fun s a s' ⟨i, hs⟩ hrun => (hp i).ok s a s' hs hrun,
    fun s e s' ⟨i, hs⟩ hrun => (hp i).error s e s' hs hrun⟩

/-- A fact that does not depend on the state may be taken out of a precondition. -/
theorem ensures_fact {c : Prop} {p : Prog S ε α} {Q : α → σ → Prop} (hp : c → Ensures h P p Q E) :
    Ensures h (fun s => P s ∧ c) p Q E :=
  ⟨fun s a s' ⟨hs, hc⟩ hrun => (hp hc).ok s a s' hs hrun,
    fun s e s' ⟨hs, hc⟩ hrun => (hp hc).error s e s' hs hrun⟩

theorem ensures_forUp {lo n : ℕ} {body : ℕ → Prog S ε Unit} {I : ℕ → σ → Prop}
    (hbody : ∀ i, lo ≤ i → i < lo + n → Ensures h (I i) (body i) (fun _ => I (i + 1)) E) :
    Ensures h (I lo) (forUp lo n body) (fun _ => I (lo + n)) E := by
  induction n generalizing lo with
  | zero => exact ensures_pure fun _ hs => hs
  | succ n ih =>
    have hrest := @ih (lo + 1) fun i h1 h2 => hbody i (by omega) (by omega)
    rw [show lo + 1 + n = lo + (n + 1) by omega] at hrest
    exact ensures_bind (hbody lo le_rfl (by omega)) fun _ => hrest

theorem ensures_each {p : Prog S ε α} {Q : α → σ → Prop}
    (hp : ∀ s, P s → Ensures h (· = s) p Q E) : Ensures h P p Q E :=
  ⟨fun s a s' hs hrun => (hp s hs).ok s a s' rfl hrun,
    fun s e s' hs hrun => (hp s hs).error s e s' rfl hrun⟩

theorem ensures_doIf {c : Prop} [Decidable c] {p : Prog S ε Unit} {Q : σ → Prop}
    (hp : c → Ensures h P p (fun _ => Q) E) (hq : ¬ c → ∀ s, P s → Q s) :
    Ensures h P (doIf c p) (fun _ => Q) E :=
  ensures_ite hp fun hc => ensures_pure (hq hc)

theorem Ensures.ends {p : Prog S ε α} {Q : α → σ → Prop} (hp : Ensures h P p Q E) {s : σ}
    (hs : P s) : (∃ a s', p.run h s = (.ok a, s') ∧ Q a s') ∨
      ∃ e s', p.run h s = (.error e, s') ∧ E e s' := by
  rcases hrun : p.run h s with ⟨_ | a, s'⟩
  · exact .inr ⟨_, s', rfl, hp.error s _ s' hs hrun⟩
  · exact .inl ⟨a, s', rfl, hp.ok s a s' hs hrun⟩

theorem Ensures.end_state {p : Prog S ε α} {R : σ → Prop}
    (hp : Ensures h P p (fun _ => R) fun _ => R) {s : σ} (hs : P s) : R (p.run h s).2 := by
  rcases hp.ends hs with ⟨_, s', hrun, hR⟩ | ⟨_, s', hrun, hR⟩
  · rw [hrun]
    exact hR
  · rw [hrun]
    exact hR

theorem ensures_of_end {p : Prog S ε α} {R : σ → Prop} (hp : ∀ s, P s → R (p.run h s).2) :
    Ensures h P p (fun _ => R) fun _ => R :=
  ⟨fun s a s' hs hrun => by have hR := hp s hs; rwa [hrun] at hR,
    fun s e s' hs hrun => by have hR := hp s hs; rwa [hrun] at hR⟩

theorem ensures_false {p : Prog S ε α} {Q : α → σ → Prop} : Ensures h (fun _ => False) p Q E :=
  ⟨fun _ _ _ hs => hs.elim, fun _ _ _ hs => hs.elim⟩

/-- A program that requests operations in `A` until it requests `x` and fails: what the operations
in `A` keep holds when it returns. -/
theorem Exits.ensures {A : S.Op → Prop} {x : S.Op} {F : ε → Prop} {I : σ → Prop} {p : Prog S ε α}
    (hp : p.Exits A x F) (hI : ∀ o s, A o → I s → I (h o s).2)
    (hx : ∀ e s, F e → I s → E e (h x s).2) : Ensures h I p (fun _ => I) E := by
  induction p with
  | ret a => exact ensures_pure fun _ hs => hs
  | fail e => exact hp.elim
  | act o k ih =>
    rcases hp with ⟨ho, hk⟩ | ⟨rfl, hk⟩
    · exact ⟨fun s a s' hs hrun => (ih _ (hk _)).ok _ a s' (hI o s ho hs) hrun,
        fun s e s' hs hrun => (ih _ (hk _)).error _ e s' (hI o s ho hs) hrun⟩
    · constructor
      · intro s a s' hs hrun
        obtain ⟨e, he, -⟩ := hk (h o s).1
        rw [run, he] at hrun
        cases hrun
      · intro s e s' hs hrun
        obtain ⟨e', he, hF⟩ := hk (h o s).1
        rw [run, he] at hrun
        cases hrun
        exact hx e s hF hs

/-! Programs of which the result is known. -/

/-- From a state in `P` the program returns `a` in a state in `Q`. -/
abbrev Gives (h : Handler S σ) (P : σ → Prop) (p : Prog S ε α) (a : α) (Q : σ → Prop) : Prop :=
  Ensures h P p (fun b s => b = a ∧ Q s) fun _ _ => False

section Gives

variable {p : Prog S ε α} {f : α → Prog S ε β} {a : α} {b : β} {M R : σ → Prop}

theorem gives_iff : Gives h P p a R ↔ ∀ s, P s → ∃ s', p.run h s = (.ok a, s') ∧ R s' := by
  constructor
  · intro hp s hs
    rcases hp.ends hs with ⟨b, s', hrun, rfl, hR⟩ | ⟨e, s', -, hbad⟩
    · exact ⟨s', hrun, hR⟩
    · exact hbad.elim
  · intro hp
    refine ⟨fun s b s' hs hrun => ?_, fun s e s' hs hrun => ?_⟩
    · obtain ⟨t, ht, hR⟩ := hp s hs
      cases ht.symm.trans hrun
      exact ⟨rfl, hR⟩
    · obtain ⟨t, ht, -⟩ := hp s hs
      cases ht.symm.trans hrun

theorem gives_pure (hP : ∀ s, P s → R s) : Gives h P (pure a : Prog S ε α) a R :=
  ensures_pure fun s hs => ⟨rfl, hP s hs⟩

/-- What follows a result that is known, however it ends. -/
theorem Gives.bind {Q : β → σ → Prop} (hp : Gives h P p a M) (hf : Ensures h M (f a) Q E) :
    Ensures h P (p >>= f) Q E := by
  refine ensures_bind (hp.conseq (fun _ hs => hs) (fun b s hs => hs) fun _ _ hbad => hbad.elim)
    fun b => ?_
  refine ⟨fun s c s' hs hrun => ?_, fun s e s' hs hrun => ?_⟩
  · obtain ⟨rfl, hM⟩ := hs
    exact hf.ok s c s' hM hrun
  · obtain ⟨rfl, hM⟩ := hs
    exact hf.error s e s' hM hrun

theorem gives_perform {o : S.Op} {r : S.Reply o} (hP : ∀ s, P s → (h o s).1 = r ∧ R (h o s).2) :
    Gives h P (perform o : Prog S ε _) r R := ensures_perform hP

theorem gives_doIf {c : Prop} [Decidable c] {p : Prog S ε Unit} (hc : ¬ c) :
    Gives h P (doIf c p) () P := by
  rw [doIf, if_neg hc]
  exact gives_pure fun _ hs => hs

theorem gives_forUp {lo n : ℕ} {body : ℕ → Prog S ε Unit} {I : ℕ → σ → Prop}
    (hbody : ∀ i, lo ≤ i → i < lo + n → Gives h (I i) (body i) () (I (i + 1))) :
    Gives h (I lo) (forUp lo n body) () (I (lo + n)) := by
  have hloop : Ensures h (I lo) (forUp lo n body) (fun _ => I (lo + n)) fun _ _ => False :=
    ensures_forUp fun i h1 h2 => (hbody i h1 h2).conseq (fun _ hs => hs) (fun _ _ hs => hs.2)
      fun _ _ hbad => hbad
  exact hloop.conseq (fun _ hs => hs) (fun _ _ hs => ⟨rfl, hs⟩) fun _ _ hbad => hbad

end Gives

end Prog
