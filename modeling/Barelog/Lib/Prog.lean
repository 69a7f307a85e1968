import Mathlib.Tactic

/-! Programs over a signature of operations. A program is a tree: it requests an
operation, receives the reply and goes on, until it returns or fails. A handler
gives the operations their effect on a state. What a program may request is read
off the tree, and gives its frame conditions. -/

/-- The operations a program may request, each with the type of its reply. -/
structure Sig where
  Op : Type
  Reply : Op → Type

inductive Prog (S : Sig) (ε α : Type) : Type where
  | ret (a : α)
  | fail (e : ε)
  | act (o : S.Op) (k : S.Reply o → Prog S ε α)

/-- What each operation replies and does to the state. -/
abbrev Handler (S : Sig) (σ : Type) := (o : S.Op) → σ → S.Reply o × σ

namespace Prog

variable {S : Sig} {ε ε' α β γ σ : Type}

/-- Sequencing on both ways a program may end. -/
def elim (p : Prog S ε α) (f : α → Prog S ε' β) (g : ε → Prog S ε' β) : Prog S ε' β :=
  match p with
  | .ret a => f a
  | .fail e => g e
  | .act o k => .act o fun r => (k r).elim f g

instance : Monad (Prog S ε) where
  pure := .ret
  bind p f := p.elim f .fail

def perform (o : S.Op) : Prog S ε (S.Reply o) := .act o .ret

def handle (p : Prog S ε α) (g : ε → Prog S ε' α) : Prog S ε' α := p.elim .ret g

/-- `for (i = lo; i < lo + n; i++) body(i)`. -/
def forUp (lo n : ℕ) (body : ℕ → Prog S ε Unit) : Prog S ε Unit :=
  match n with
  | 0 => pure ()
  | n + 1 => do body lo; forUp (lo + 1) n body

/-- `if (c) p;` -/
def doIf (c : Prop) [Decidable c] (p : Prog S ε Unit) : Prog S ε Unit := if c then p else pure ()

theorem pure_def (a : α) : (pure a : Prog S ε α) = .ret a := rfl

theorem elim_elim {ε'' : Type} (p : Prog S ε α) (f : α → Prog S ε' β) (g : ε → Prog S ε' β)
    (f' : β → Prog S ε'' γ) (g' : ε' → Prog S ε'' γ) :
    (p.elim f g).elim f' g' = p.elim (fun a => (f a).elim f' g') (fun e => (g e).elim f' g') := by
  induction p with
  | ret a => rfl
  | fail e => rfl
  | act o k ih => simp only [elim, ih]

theorem elim_ret_fail (p : Prog S ε α) : p.elim .ret .fail = p := by
  induction p with
  | ret a => rfl
  | fail e => rfl
  | act o k ih => simp only [elim, ih]

instance : LawfulMonad (Prog S ε) :=
  LawfulMonad.mk' _ (fun p => elim_ret_fail p) (fun _ _ => rfl)
    (fun p f g => elim_elim p f .fail g .fail)

theorem forUp_succ (lo n : ℕ) (body : ℕ → Prog S ε Unit) :
    forUp lo (n + 1) body = (body lo >>= fun _ => forUp (lo + 1) n body) := rfl

theorem forUp_split (lo a b : ℕ) (body : ℕ → Prog S ε Unit) :
    forUp lo (a + 1 + b) body =
      (forUp lo a body >>= fun _ => body (lo + a) >>= fun _ => forUp (lo + a + 1) b body) := by
  induction a generalizing lo with
  | zero =>
    rw [show 0 + 1 + b = b + 1 by omega, forUp_succ]
    rfl
  | succ a ih =>
    rw [show a + 1 + 1 + b = a + 1 + b + 1 by omega, forUp_succ, ih, forUp_succ, bind_assoc,
      show lo + 1 + a = lo + (a + 1) by omega]

/-! Running a program from start to end, with nothing in between. -/

section Run

def run (h : Handler S σ) : Prog S ε α → σ → Except ε α × σ
  | .ret a, s => (.ok a, s)
  | .fail e, s => (.error e, s)
  | .act o k, s => (k (h o s).1).run h (h o s).2

variable (h : Handler S σ)

@[simp] theorem run_pure (a : α) (s : σ) : (pure a : Prog S ε α).run h s = (.ok a, s) := rfl

@[simp] theorem run_ret (a : α) (s : σ) : (ret a : Prog S ε α).run h s = (.ok a, s) := rfl

@[simp] theorem run_fail (e : ε) (s : σ) : (fail e : Prog S ε α).run h s = (.error e, s) := rfl

@[simp] theorem run_perform (o : S.Op) (s : σ) :
    (perform o : Prog S ε _).run h s = (.ok (h o s).1, (h o s).2) := rfl

theorem run_elim (p : Prog S ε α) (f : α → Prog S ε' β) (g : ε → Prog S ε' β) (s : σ) :
    (p.elim f g).run h s = match p.run h s with
      | (.ok a, s') => (f a).run h s'
      | (.error e, s') => (g e).run h s' := by
  induction p generalizing s with
  | ret a => rfl
  | fail e => rfl
  | act o k ih => exact ih _ _

theorem run_bind (p : Prog S ε α) (f : α → Prog S ε β) (s : σ) :
    (p >>= f).run h s = match p.run h s with
      | (.ok a, s') => (f a).run h s'
      | (.error e, s') => (.error e, s') :=
  run_elim h p f .fail s

variable {h}

theorem run_bind_ok {p : Prog S ε α} {f : α → Prog S ε β} {s s' : σ} {a : α}
    (hp : p.run h s = (.ok a, s')) : (p >>= f).run h s = (f a).run h s' := by
  rw [run_bind, hp]

theorem run_bind_error {p : Prog S ε α} {f : α → Prog S ε β} {s s' : σ} {e : ε}
    (hp : p.run h s = (.error e, s')) : (p >>= f).run h s = (.error e, s') := by
  rw [run_bind, hp]

theorem run_of_fst {p : Prog S ε α} {s : σ} {r : Except ε α} (hr : (p.run h s).1 = r) :
    p.run h s = (r, (p.run h s).2) := Prod.ext hr rfl

/-- A sequence that returned went through a return of its first part. -/
theorem bind_returned {p : Prog S ε α} {f : α → Prog S ε β} {s s' : σ} {b : β}
    (hr : (p >>= f).run h s = (.ok b, s')) :
    ∃ a s1, p.run h s = (.ok a, s1) ∧ (f a).run h s1 = (.ok b, s') := by
  rw [run_bind] at hr
  rcases hp : p.run h s with ⟨r, s1⟩
  cases r with
  | ok a => exact ⟨a, s1, rfl, by simpa [hp] using hr⟩
  | error e => simp [hp] at hr

theorem bind_ended {p : Prog S ε α} {f : α → Prog S ε β} {s s' : σ} {r : Except ε β}
    (hr : (p >>= f).run h s = (r, s')) :
    (∃ a s1, p.run h s = (.ok a, s1) ∧ (f a).run h s1 = (r, s')) ∨
      (∃ e, p.run h s = (.error e, s') ∧ r = .error e) := by
  rw [run_bind] at hr
  rcases hp : p.run h s with ⟨r1, s1⟩
  cases r1 with
  | ok a => exact .inl ⟨a, s1, rfl, by simpa [hp] using hr⟩
  | error e =>
    simp only [hp, Prod.mk.injEq] at hr
    exact .inr ⟨e, by rw [hr.2], hr.1.symm⟩

theorem handle_run (p : Prog S ε α) (g : ε → Prog S ε' α) (s : σ) :
    (p.handle g).run h s = match p.run h s with
      | (.ok a, s') => (.ok a, s')
      | (.error e, s') => (g e).run h s' :=
  run_elim h p .ret g s

@[simp] theorem forUp_zero (lo : ℕ) (body : ℕ → Prog S ε Unit) : forUp lo 0 body = pure () := rfl

/-- A loop whose body always returns: the state after it is given by any family of states
that starts right and that the body steps through. -/
theorem forUp_run {lo n : ℕ} {body : ℕ → Prog S ε Unit} (at_ : ℕ → σ)
    (hstep : ∀ i, lo ≤ i → i < lo + n → (body i).run h (at_ i) = (.ok (), at_ (i + 1))) :
    (forUp lo n body).run h (at_ lo) = (.ok (), at_ (lo + n)) := by
  induction n generalizing lo with
  | zero => rfl
  | succ n ih =>
    rw [forUp_succ, run_bind_ok (hstep lo le_rfl (by omega)),
      ih (fun i h1 h2 => hstep i (by omega) (by omega))]
    congr 2
    omega

/-- A loop ends with all its turns done, or with the failure of one turn. -/
theorem forUp_ended {lo n : ℕ} {body : ℕ → Prog S ε Unit} {I : ℕ → σ → Prop} {F : ε → σ → Prop}
    (hstep : ∀ i s r s', lo ≤ i → i < lo + n → I i s → (body i).run h s = (r, s') →
      (r = .ok () ∧ I (i + 1) s') ∨ ∃ e, r = .error e ∧ F e s')
    {s s' : σ} {r : Except ε Unit} (hI : I lo s) (hr : (forUp lo n body).run h s = (r, s')) :
    (r = .ok () ∧ I (lo + n) s') ∨ ∃ e, r = .error e ∧ F e s' := by
  induction n generalizing lo s with
  | zero =>
    cases hr
    exact .inl ⟨rfl, hI⟩
  | succ n ih =>
    rw [forUp_succ] at hr
    rcases bind_ended hr with ⟨_, s1, h1, h2⟩ | ⟨e, h1, rfl⟩
    · rcases hstep lo s _ s1 le_rfl (by omega) hI h1 with ⟨_, hI1⟩ | ⟨_, hbad, _⟩
      · have := ih (fun i t r t' a b => hstep i t r t' (by omega) (by omega)) hI1 h2
        rwa [show lo + (n + 1) = lo + 1 + n by omega]
      · cases hbad
    · rcases hstep lo s _ s' le_rfl (by omega) hI h1 with ⟨hbad, _⟩ | ⟨e', he, hF⟩
      · cases hbad
      · cases he
        exact .inr ⟨e, rfl, hF⟩

def Avoids (h : Handler S σ) (E : ε → Prop) (p : Prog S ε α) : Prop :=
  ∀ s e s', p.run h s = (.error e, s') → ¬ E e

theorem avoids_pure {E : ε → Prop} (a : α) : Avoids h E (pure a : Prog S ε α) := by
  intro s e s' hr
  cases hr

theorem avoids_fail {E : ε → Prop} {e : ε} (he : ¬ E e) :
    Avoids h E (fail e : Prog S ε α) := by
  intro s e' s' hr
  cases hr
  exact he

theorem avoids_perform {E : ε → Prop} (o : S.Op) : Avoids h E (perform o : Prog S ε _) := by
  intro s e s' hr
  cases hr

/-- The second part only has to do so for what the first may return. -/
theorem avoids_seq {E : ε → Prop} {p : Prog S ε α} {f : α → Prog S ε β} (hp : Avoids h E p)
    (hf : ∀ a s s', p.run h s = (.ok a, s') → Avoids h E (f a)) : Avoids h E (p >>= f) := by
  intro s e s' hr
  rcases bind_ended hr with ⟨a, s1, h1, h2⟩ | ⟨e', h1, he⟩
  · exact hf a s s1 h1 s1 e s' h2
  · cases he
    exact hp s e s' h1

theorem avoids_bind {E : ε → Prop} {p : Prog S ε α} {f : α → Prog S ε β} (hp : Avoids h E p)
    (hf : ∀ a, Avoids h E (f a)) : Avoids h E (p >>= f) :=
  avoids_seq hp fun a _ _ _ => hf a

theorem avoids_ite {E : ε → Prop} {c : Prop} [Decidable c] {p q : Prog S ε α}
    (hp : c → Avoids h E p) (hq : ¬ c → Avoids h E q) : Avoids h E (if c then p else q) := by
  split
  · exact hp ‹_›
  · exact hq ‹_›

theorem avoids_forUp {E : ε → Prop} {lo n : ℕ} {body : ℕ → Prog S ε Unit}
    (hb : ∀ i, Avoids h E (body i)) : Avoids h E (forUp lo n body) := by
  induction n generalizing lo with
  | zero => exact avoids_pure ()
  | succ n ih => exact avoids_bind (hb lo) fun _ => ih

end Run

/-! What a program may request, when the replies it gets satisfy `G`. -/

section Footprint

variable {G : (o : S.Op) → S.Reply o → Prop} {A B : S.Op → Prop}

/-- Every operation the program may request satisfies `A`. -/
def Only (G : (o : S.Op) → S.Reply o → Prop) (A : S.Op → Prop) : Prog S ε α → Prop
  | .ret _ => True
  | .fail _ => True
  | .act o k => A o ∧ ∀ r, G o r → (k r).Only G A

/-- The program may request an operation satisfying `A`. -/
def May (G : (o : S.Op) → S.Reply o → Prop) (A : S.Op → Prop) : Prog S ε α → Prop
  | .ret _ => False
  | .fail _ => False
  | .act o k => A o ∨ ∃ r, G o r ∧ (k r).May G A

def Returns (G : (o : S.Op) → S.Reply o → Prop) (a : α) : Prog S ε α → Prop
  | .ret b => b = a
  | .fail _ => False
  | .act o k => ∃ r, G o r ∧ (k r).Returns G a

@[simp] theorem only_ret (a : α) : (ret a : Prog S ε α).Only G A := trivial

@[simp] theorem only_pure (a : α) : (pure a : Prog S ε α).Only G A := trivial

@[simp] theorem only_fail (e : ε) : (fail e : Prog S ε α).Only G A := trivial

theorem only_perform {o : S.Op} (ho : A o) : (perform o : Prog S ε _).Only G A :=
  ⟨ho, fun _ _ => trivial⟩

theorem only_elim {p : Prog S ε α} {f : α → Prog S ε' β} {g : ε → Prog S ε' β}
    (hp : p.Only G A) (hf : ∀ a, (f a).Only G A) (hg : ∀ e, (g e).Only G A) :
    (p.elim f g).Only G A := by
  induction p with
  | ret a => exact hf a
  | fail e => exact hg e
  | act o k ih => exact ⟨hp.1, fun r hr => ih r (hp.2 r hr)⟩

theorem only_bind {p : Prog S ε α} {f : α → Prog S ε β} (hp : p.Only G A)
    (hf : ∀ a, (f a).Only G A) : (p >>= f).Only G A :=
  only_elim hp hf fun _ => trivial

theorem only_handle {p : Prog S ε α} {g : ε → Prog S ε' α} (hp : p.Only G A)
    (hg : ∀ e, (g e).Only G A) : (p.handle g).Only G A :=
  only_elim hp (fun _ => trivial) hg

theorem only_forUp {lo n : ℕ} {body : ℕ → Prog S ε Unit}
    (hb : ∀ i, lo ≤ i → i < lo + n → (body i).Only G A) : (forUp lo n body).Only G A := by
  induction n generalizing lo with
  | zero => trivial
  | succ n ih =>
    exact only_bind (hb lo le_rfl (by omega)) fun _ => ih fun i h1 h2 => hb i (by omega) (by omega)

theorem only_ite {c : Prop} [Decidable c] {p q : Prog S ε α} (hp : c → p.Only G A)
    (hq : ¬ c → q.Only G A) : (if c then p else q).Only G A := by
  split
  · exact hp ‹_›
  · exact hq ‹_›

theorem Only.mono {G' : (o : S.Op) → S.Reply o → Prop} {p : Prog S ε α} (hp : p.Only G A)
    (hG : ∀ o r, G' o r → G o r) (hAB : ∀ o, A o → B o) : p.Only G' B := by
  induction p with
  | ret a => trivial
  | fail e => trivial
  | act o k ih => exact ⟨hAB o hp.1, fun r hr => ih r (hp.2 r (hG o r hr))⟩

/-- An invariant that gives replies in `G`, and that the operations a program may request
keep, is an invariant of the program. -/
theorem Only.invariant {h : Handler S σ} {I : σ → Prop} {p : Prog S ε α} (hp : p.Only G A)
    (hI : ∀ o s, A o → I s → G o (h o s).1 ∧ I (h o s).2) {s : σ} (hs : I s) :
    I (p.run h s).2 := by
  induction p generalizing s with
  | ret a => exact hs
  | fail e => exact hs
  | act o k ih =>
    obtain ⟨hG, hs'⟩ := hI o s hp.1 hs
    exact ih _ (hp.2 _ hG) hs'

/-- A map of states that commutes with every operation a program may request commutes with the
program. -/
theorem Only.run_map {h : Handler S σ} {f : σ → σ} {I : σ → Prop} {p : Prog S ε α}
    (hp : p.Only G A) (hI : ∀ o s, A o → I s → G o (h o s).1 ∧ I (h o s).2)
    (hf : ∀ o s, A o → h o (f s) = ((h o s).1, f (h o s).2)) {s : σ} (hs : I s) :
    p.run h (f s) = ((p.run h s).1, f (p.run h s).2) := by
  induction p generalizing s with
  | ret a => rfl
  | fail e => rfl
  | act o k ih =>
    obtain ⟨hG, hs'⟩ := hI o s hp.1 hs
    rw [run, run, hf o s hp.1]
    exact ih _ (hp.2 _ hG) hs'

theorem not_may_of_only {p : Prog S ε α} (hp : p.Only G B) (hAB : ∀ o, B o → ¬ A o) :
    ¬ p.May G A := by
  induction p with
  | ret a => exact id
  | fail e => exact id
  | act o k ih =>
    rintro (ho | ⟨r, hr, hk⟩)
    · exact hAB o hp.1 ho
    · exact ih r (hp.2 r hr) hk

/-- The replies that count only matter for the operations the program may request. -/
theorem May.of_replies {G' : (o : S.Op) → S.Reply o → Prop} {p : Prog S ε α} (hm : p.May G A)
    (hp : p.Only G fun o => ∀ r, G o r → G' o r) : p.May G' A := by
  induction p with
  | ret a => exact hm
  | fail e => exact hm
  | act o k ih =>
    rcases hm with ho | ⟨r, hr, hk⟩
    · exact .inl ho
    · exact .inr ⟨r, hp.1 r hr, ih r hk (hp.2 r hr)⟩

/-- The program only fails with an error in `E`. -/
def Fails (E : ε → Prop) : Prog S ε α → Prop
  | .ret _ => True
  | .fail e => E e
  | .act _ k => ∀ r, (k r).Fails E

theorem fails_bind {E : ε → Prop} {p : Prog S ε α} {f : α → Prog S ε β} (hp : p.Fails E)
    (hf : ∀ a, (f a).Fails E) : (p >>= f).Fails E := by
  induction p with
  | ret a => exact hf a
  | fail e => exact hp
  | act o k ih => exact fun r => ih r (hp r)

theorem fails_handle {E : ε → Prop} {E' : ε' → Prop} {p : Prog S ε α} {g : ε → Prog S ε' α}
    (hp : p.Fails E) (hg : ∀ e, E e → (g e).Fails E') : (p.handle g).Fails E' := by
  induction p with
  | ret a => trivial
  | fail e => exact hg e hp
  | act o k ih => exact fun r => ih r (hp r)

theorem fails_ite {E : ε → Prop} {c : Prop} [Decidable c] {p q : Prog S ε α} (hp : c → p.Fails E)
    (hq : ¬ c → q.Fails E) : (if c then p else q).Fails E := by
  split
  · exact hp ‹_›
  · exact hq ‹_›

theorem fails_forUp {E : ε → Prop} {lo n : ℕ} {body : ℕ → Prog S ε Unit}
    (hb : ∀ i, (body i).Fails E) : (forUp lo n body).Fails E := by
  induction n generalizing lo with
  | zero => trivial
  | succ n ih => exact fails_bind (hb lo) fun _ => ih

/-- The program requests operations in `A`, until it returns or requests `x` and then fails with an
error in `E`. -/
def Exits (A : S.Op → Prop) (x : S.Op) (E : ε → Prop) : Prog S ε α → Prop
  | .ret _ => True
  | .fail _ => False
  | .act o k => (A o ∧ ∀ r, (k r).Exits A x E) ∨ o = x ∧ ∀ r, ∃ e, k r = .fail e ∧ E e

section Exits

variable {x : S.Op} {E : ε → Prop}

theorem exits_pure (a : α) : (pure a : Prog S ε α).Exits A x E := trivial

theorem exits_perform {o : S.Op} (ho : A o) : (perform o : Prog S ε _).Exits A x E :=
  .inl ⟨ho, fun _ => trivial⟩

theorem exits_bind {p : Prog S ε α} {f : α → Prog S ε β} (hp : p.Exits A x E)
    (hf : ∀ a, (f a).Exits A x E) : (p >>= f).Exits A x E := by
  induction p with
  | ret a => exact hf a
  | fail e => exact hp.elim
  | act o k ih =>
    rcases hp with ⟨ho, hk⟩ | ⟨ho, hk⟩
    · exact .inl ⟨ho, fun r => ih r (hk r)⟩
    · refine .inr ⟨ho, fun r => ?_⟩
      obtain ⟨e, he, hE⟩ := hk r
      exact ⟨e, congrArg (·.elim f .fail) he, hE⟩

theorem exits_ite {c : Prop} [Decidable c] {p q : Prog S ε α} (hp : p.Exits A x E)
    (hq : q.Exits A x E) : (if c then p else q).Exits A x E := by
  split
  · exact hp
  · exact hq

theorem exits_doIf {c : Prop} [Decidable c] {p : Prog S ε Unit} (hp : p.Exits A x E) :
    (doIf c p).Exits A x E := exits_ite hp (exits_pure ())

theorem exits_forUp {lo n : ℕ} {body : ℕ → Prog S ε Unit} (hb : ∀ i, (body i).Exits A x E) :
    (forUp lo n body).Exits A x E := by
  induction n generalizing lo with
  | zero => exact exits_pure ()
  | succ n ih => exact exits_bind (hb lo) fun _ => ih

theorem Exits.mono {p : Prog S ε α} (hp : p.Exits A x E) (hAB : ∀ o, A o → B o) :
    p.Exits B x E := by
  induction p with
  | ret a => exact hp
  | fail e => exact hp
  | act o k ih =>
    rcases hp with ⟨ho, hk⟩ | hx
    · exact .inl ⟨hAB o ho, fun r => ih r (hk r)⟩
    · exact .inr hx

theorem Exits.only {p : Prog S ε α} (hp : p.Exits A x E) (hx : A x) :
    p.Only (fun _ _ => True) A := by
  induction p with
  | ret a => trivial
  | fail e => trivial
  | act o k ih =>
    rcases hp with ⟨ho, hk⟩ | ⟨rfl, hk⟩
    · exact ⟨ho, fun r _ => ih r (hk r)⟩
    · refine ⟨hx, fun r _ => ?_⟩
      obtain ⟨e, he, -⟩ := hk r
      rw [he]
      trivial

theorem Exits.fails {p : Prog S ε α} (hp : p.Exits A x E) : p.Fails E := by
  induction p with
  | ret a => trivial
  | fail e => exact hp.elim
  | act o k ih =>
    rcases hp with ⟨-, hk⟩ | ⟨-, hk⟩
    · exact fun r => ih r (hk r)
    · intro r
      obtain ⟨e, he, hE⟩ := hk r
      rw [he]
      exact hE

end Exits

theorem Returns.may_bind {p : Prog S ε α} {f : α → Prog S ε β} {a : α} (hp : p.Returns G a)
    (hf : (f a).May G A) : (p >>= f).May G A := by
  induction p with
  | ret b => exact (show b = a from hp) ▸ hf
  | fail e => exact hp.elim
  | act o k ih => exact .inr (hp.imp fun r hr => ⟨hr.1, ih r hr.2⟩)

end Footprint

end Prog
