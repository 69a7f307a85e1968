import Barelog.Lib.Prog
import Mathlib.Logic.Relation

/-! Programs with an environment that acts between their operations, as an interrupt
handler does between the steps of a main loop. What the environment may do can depend
on what is left of the program. With an environment that does not look at the program,
assertions that it keeps give rules for pre- and postconditions. -/

namespace Prog

open Relation

variable {S : Sig} {ε ε' α β σ : Type}

/-- A run of a program with steps of the environment `R` anywhere in between. -/
inductive Exec (h : Handler S σ) (R : Prog S ε α → σ → σ → Prop) :
    Prog S ε α → σ → Except ε α → σ → Prop
  | ret (a : α) (s : σ) : Exec h R (.ret a) s (.ok a) s
  | fail (e : ε) (s : σ) : Exec h R (.fail e) s (.error e) s
  | act {o : S.Op} {k : S.Reply o → Prog S ε α} {s s' : σ} {r : Except ε α}
      (hk : Exec h R (k (h o s).1) (h o s).2 r s') : Exec h R (.act o k) s r s'
  | env {p : Prog S ε α} {s s1 s' : σ} {r : Except ε α}
      (hR : R p s s1) (hp : Exec h R p s1 r s') : Exec h R p s r s'

variable {h : Handler S σ}

/-- With no step of the environment, an execution is a run. -/
theorem exec_run (R : Prog S ε α → σ → σ → Prop) (p : Prog S ε α) (s : σ) :
    Exec h R p s (p.run h s).1 (p.run h s).2 := by
  induction p generalizing s with
  | ret a => exact .ret a s
  | fail e => exact .fail e s
  | act o k ih => exact .act (ih _ _)

theorem exec_of_run {R : Prog S ε α → σ → σ → Prop} {p : Prog S ε α} {s s' : σ} {r : Except ε α}
    (hr : p.run h s = (r, s')) : Exec h R p s r s' := by
  have hp := exec_run (h := h) R p s
  rwa [hr] at hp

theorem Exec.mono {R R' : Prog S ε α → σ → σ → Prop} {p : Prog S ε α} {s s' : σ}
    {r : Except ε α} (hp : Exec h R p s r s') (hR : ∀ q t t', R q t t' → R' q t t') :
    Exec h R' p s r s' := by
  induction hp with
  | ret a s => exact .ret a s
  | fail e s => exact .fail e s
  | act _ ih => exact .act ih
  | env h1 _ ih => exact .env (hR _ _ _ h1) ih

theorem Exec.ret_inv {R : Prog S ε α → σ → σ → Prop} {a : α} {s s' : σ} {r : Except ε α}
    (hp : Exec h R (.ret a) s r s') : r = .ok a ∧ ReflTransGen (R (.ret a)) s s' := by
  generalize hq : (Prog.ret a : Prog S ε α) = q at hp
  induction hp with
  | ret b s => cases hq; exact ⟨rfl, .refl⟩
  | fail e s => cases hq
  | act _ _ => cases hq
  | env h1 _ ih =>
    subst hq
    exact ⟨(ih rfl).1, .head h1 (ih rfl).2⟩

theorem Exec.act_inv {R : Prog S ε α → σ → σ → Prop} {o : S.Op} {k : S.Reply o → Prog S ε α}
    {s s' : σ} {r : Except ε α} (hp : Exec h R (.act o k) s r s') :
    ∃ s1, ReflTransGen (R (.act o k)) s s1 ∧ Exec h R (k (h o s1).1) (h o s1).2 r s' := by
  generalize hq : Prog.act o k = q at hp
  induction hp with
  | ret b s => cases hq
  | fail e s => cases hq
  | act hk _ => cases hq; exact ⟨_, .refl, hk⟩
  | env h1 _ ih =>
    subst hq
    obtain ⟨s1, hs, hk⟩ := ih rfl
    exact ⟨s1, .head h1 hs, hk⟩

/-- What executes when the first part of a sequence is already at its end is the second. -/
theorem Exec.elim_ended {R : Prog S ε' β → σ → σ → Prop} {p : Prog S ε α}
    {f : α → Prog S ε' β} {g : ε → Prog S ε' β} {s s' : σ} {r : Except ε' β}
    (hend : ∀ o k, p ≠ .act o k) (hp : Exec h R (p.elim f g) s r s') :
    (∃ a s1, Exec h (fun q => R (q.elim f g)) p s (.ok a) s1 ∧ Exec h R (f a) s1 r s') ∨
      (∃ e s1, Exec h (fun q => R (q.elim f g)) p s (.error e) s1 ∧ Exec h R (g e) s1 r s') := by
  cases p with
  | ret a => exact .inl ⟨a, s, .ret a s, hp⟩
  | fail e => exact .inr ⟨e, s, .fail e s, hp⟩
  | act o k => exact absurd rfl (hend o k)

/-- A sequence executes its first part, with the rest of the sequence in view of the
environment, and then its second part. -/
theorem Exec.elim_inv {R : Prog S ε' β → σ → σ → Prop} {p : Prog S ε α}
    {f : α → Prog S ε' β} {g : ε → Prog S ε' β} {s s' : σ} {r : Except ε' β}
    (hp : Exec h R (p.elim f g) s r s') :
    (∃ a s1, Exec h (fun q => R (q.elim f g)) p s (.ok a) s1 ∧ Exec h R (f a) s1 r s') ∨
      (∃ e s1, Exec h (fun q => R (q.elim f g)) p s (.error e) s1 ∧ Exec h R (g e) s1 r s') := by
  generalize hq : p.elim f g = q at hp
  induction hp generalizing p with
  | ret b s => exact elim_ended (by rintro o k rfl; cases hq) (hq ▸ .ret b s)
  | fail b s => exact elim_ended (by rintro o k rfl; cases hq) (hq ▸ .fail b s)
  | act hk ih =>
    cases p with
    | ret a => exact elim_ended (fun _ _ => nofun) (hq ▸ .act hk)
    | fail e => exact elim_ended (fun _ _ => nofun) (hq ▸ .act hk)
    | act o k =>
      cases hq
      exact (ih rfl).imp (fun ⟨a, s1, h1, h2⟩ => ⟨a, s1, .act h1, h2⟩)
        (fun ⟨e, s1, h1, h2⟩ => ⟨e, s1, .act h1, h2⟩)
  | env h1 _ ih =>
    subst hq
    exact (ih rfl).imp (fun ⟨a, s1, h2, h3⟩ => ⟨a, s1, .env h1 h2, h3⟩)
      (fun ⟨e, s1, h2, h3⟩ => ⟨e, s1, .env h1 h2, h3⟩)

theorem Exec.fail_inv {R : Prog S ε α → σ → σ → Prop} {e : ε} {s s' : σ} {r : Except ε α}
    (hp : Exec h R (.fail e) s r s') : r = .error e ∧ ReflTransGen (R (.fail e)) s s' := by
  generalize hq : (Prog.fail e : Prog S ε α) = q at hp
  induction hp with
  | ret b s => cases hq
  | fail e s => cases hq; exact ⟨rfl, .refl⟩
  | act _ _ => cases hq
  | env h1 _ ih =>
    subst hq
    exact ⟨(ih rfl).1, .head h1 (ih rfl).2⟩

theorem Exec.bind {R : Prog S ε β → σ → σ → Prop} {p : Prog S ε α} {f : α → Prog S ε β}
    {s s1 s' : σ} {a : α} {r : Except ε β}
    (hp : Exec h (fun q => R (q >>= f)) p s (.ok a) s1) (hf : Exec h R (f a) s1 r s') :
    Exec h R (p >>= f) s r s' := by
  generalize hr : (Except.ok a : Except ε α) = ra at hp
  induction hp with
  | ret b s =>
    cases hr
    exact hf
  | fail e s => cases hr
  | act _ ih => exact .act (ih hf hr)
  | env h1 _ ih => exact .env h1 (ih hf hr)

theorem Exec.bind_returned {R : Prog S ε β → σ → σ → Prop} {p : Prog S ε α}
    {f : α → Prog S ε β} {s s' : σ} {b : β} (hp : Exec h R (p >>= f) s (.ok b) s') :
    ∃ a s1, Exec h (fun q => R (q >>= f)) p s (.ok a) s1 ∧ Exec h R (f a) s1 (.ok b) s' := by
  rcases hp.elim_inv with h1 | ⟨e, s1, _, h2⟩
  · exact h1
  · cases h2.fail_inv.1

/-- The two ways a sequence may end, with an environment that does not look at the program. -/
theorem Exec.bind_cases {R : σ → σ → Prop} {p : Prog S ε α} {f : α → Prog S ε β} {s s' : σ}
    {r : Except ε β} (hp : Exec h (fun _ => R) (p >>= f) s r s') :
    (∃ a s1, Exec h (fun _ => R) p s (.ok a) s1 ∧ Exec h (fun _ => R) (f a) s1 r s') ∨
      ∃ e s1, Exec h (fun _ => R) p s (.error e) s1 ∧ ReflTransGen R s1 s' ∧ r = .error e := by
  rcases hp.elim_inv with h1 | ⟨e, s1, h1, h2⟩
  · exact .inl h1
  · obtain ⟨hr, hstar⟩ := h2.fail_inv
    exact .inr ⟨e, s1, h1, hstar, hr⟩

/-- An invariant that gives replies in `G`, and that the environment and the operations of the
program keep. -/
theorem Exec.invariant {G : (o : S.Op) → S.Reply o → Prop} {A : S.Op → Prop} {I : σ → Prop}
    {R : Prog S ε α → σ → σ → Prop} {p : Prog S ε α} {s s' : σ} {r : Except ε α}
    (hp : Exec h R p s r s') (honly : p.Only G A)
    (hA : ∀ o s, A o → I s → G o (h o s).1 ∧ I (h o s).2)
    (hR : ∀ q s s', R q s s' → I s → I s') (hs : I s) : I s' := by
  induction hp with
  | ret a s => exact hs
  | fail e s => exact hs
  | act _ ih =>
    obtain ⟨hG, hI⟩ := hA _ _ honly.1 hs
    exact ih (honly.2 _ hG) hI
  | env h1 _ ih => exact ih honly (hR _ _ _ h1 hs)

theorem Exec.returns {G : (o : S.Op) → S.Reply o → Prop} {A : S.Op → Prop} {I : σ → Prop}
    {R : Prog S ε α → σ → σ → Prop} {p : Prog S ε α} {s s' : σ} {a : α}
    (hp : Exec h R p s (.ok a) s') (honly : p.Only G A)
    (hA : ∀ o s, A o → I s → G o (h o s).1 ∧ I (h o s).2)
    (hR : ∀ q s s', R q s s' → I s → I s') (hs : I s) : p.Returns G a := by
  generalize hr : (Except.ok a : Except ε α) = r at hp
  induction hp with
  | ret b s =>
    cases hr
    rfl
  | fail e s => cases hr
  | act _ ih =>
    obtain ⟨hG, hI⟩ := hA _ _ honly.1 hs
    exact ⟨_, hG, ih (honly.2 _ hG) hI hr⟩
  | env h1 _ ih => exact ih honly (hR _ _ _ h1 hs) hr

theorem Exec.fails {E : ε → Prop} {R : Prog S ε α → σ → σ → Prop} {p : Prog S ε α} {s s' : σ}
    {e : ε} (hp : Exec h R p s (.error e) s') (hE : p.Fails E) : E e := by
  generalize hr : (Except.error e : Except ε α) = r at hp
  induction hp with
  | ret a s => cases hr
  | fail e' s =>
    cases hr
    exact hE
  | act _ ih => exact ih (hE _) hr
  | env _ _ ih => exact ih hE hr

/-- Where the environment is at rest for good, an execution is a run. -/
theorem Exec.run_of_rest {I : σ → Prop} {R : Prog S ε α → σ → σ → Prop} {p : Prog S ε α} {s s' : σ}
    {r : Except ε α} (hp : Exec h R p s r s') (hI : ∀ o s, I s → I (h o s).2)
    (hR : ∀ q s s', I s → ¬ R q s s') (hs : I s) : p.run h s = (r, s') := by
  induction hp with
  | ret a s => rfl
  | fail e s => rfl
  | act _ ih => exact ih (hI _ _ hs)
  | env h1 _ _ => exact absurd h1 (hR _ _ _ hs)

/-- The configurations that a program gets to: what is left of it, and the state. -/
inductive Steps (h : Handler S σ) (R : Prog S ε α → σ → σ → Prop) (p : Prog S ε α) (s : σ) :
    Prog S ε α → σ → Prop
  | start : Steps h R p s p s
  | act {o : S.Op} {k : S.Reply o → Prog S ε α} {t : σ} (hs : Steps h R p s (.act o k) t) :
      Steps h R p s (k (h o t).1) (h o t).2
  | env {q : Prog S ε α} {t t' : σ} (hs : Steps h R p s q t) (hR : R q t t') : Steps h R p s q t'

theorem Steps.trans {R : Prog S ε α → σ → σ → Prop} {p q q' : Prog S ε α} {s t t' : σ}
    (hp : Steps h R p s q t) (hq : Steps h R q t q' t') : Steps h R p s q' t' := by
  induction hq with
  | start => exact hp
  | act _ ih => exact .act ih
  | env _ hR ih => exact .env ih hR

/-- An invariant that gives replies in `G`, and that the environment and the operations of the
program keep, holds in every configuration, and so does the footprint. -/
theorem Steps.invariant {G : (o : S.Op) → S.Reply o → Prop} {A : S.Op → Prop} {I : σ → Prop}
    {R : Prog S ε α → σ → σ → Prop} {p q : Prog S ε α} {s t : σ} (hp : Steps h R p s q t)
    (honly : p.Only G A) (hA : ∀ o s, A o → I s → G o (h o s).1 ∧ I (h o s).2)
    (hR : ∀ q s s', R q s s' → I s → I s') (hs : I s) : q.Only G A ∧ I t := by
  induction hp with
  | start => exact ⟨honly, hs⟩
  | act _ ih =>
    obtain ⟨hq, ht⟩ := ih
    obtain ⟨hG, hI⟩ := hA _ _ hq.1 ht
    exact ⟨hq.2 _ hG, hI⟩
  | env _ h1 ih => exact ⟨ih.1, hR _ _ _ h1 ih.2⟩

/-- A sequence gets to what its first part gets to, followed by the rest. -/
theorem Steps.elim {R : Prog S ε' β → σ → σ → Prop} {p q : Prog S ε α} {f : α → Prog S ε' β}
    {g : ε → Prog S ε' β} {s t : σ} (hp : Steps h (fun q => R (q.elim f g)) p s q t) :
    Steps h R (p.elim f g) s (q.elim f g) t := by
  induction hp with
  | start => exact .start
  | act _ ih => exact .act ih
  | env _ h1 ih => exact .env ih h1

theorem steps_run (R : Prog S ε α → σ → σ → Prop) {p : Prog S ε α} {s s' : σ} {a : α}
    (hr : p.run h s = (.ok a, s')) : Steps h R p s (.ret a) s' := by
  induction p generalizing s with
  | ret b =>
    cases hr
    exact .start
  | fail e => cases hr
  | act o k ih => exact Steps.trans (.act .start) (ih _ hr)

/-- A run ends in a state that the program gets to, also when it fails. -/
theorem steps_end (R : Prog S ε α → σ → σ → Prop) (p : Prog S ε α) (s : σ) :
    ∃ q, Steps h R p s q (p.run h s).2 := by
  induction p generalizing s with
  | ret b => exact ⟨_, .start⟩
  | fail e => exact ⟨_, .start⟩
  | act o k ih =>
    obtain ⟨q, hq⟩ := ih (h o s).1 (h o s).2
    exact ⟨q, Steps.trans (.act .start) hq⟩

/-! Assertions kept by an environment that does not look at the program. -/

def Stable (R : σ → σ → Prop) (P : σ → Prop) : Prop := ∀ s s', R s s' → P s → P s'

theorem Stable.star {R : σ → σ → Prop} {P : σ → Prop} (hP : Stable R P) :
    Stable (ReflTransGen R) P := by
  intro s s' hs hp
  induction hs with
  | refl => exact hp
  | tail _ h1 ih => exact hP _ _ h1 ih

/-- From `P`, with interference `R`, the program can only return into `Q` and can only fail
with an error in `E`. -/
def Triple (h : Handler S σ) (R : σ → σ → Prop) (P : σ → Prop) (p : Prog S ε α)
    (Q : α → σ → Prop) (E : ε → Prop) : Prop :=
  ∀ s r s', P s → Exec h (fun _ => R) p s r s' →
    match r with
    | .ok a => Q a s'
    | .error e => E e

section Triple

variable {R : σ → σ → Prop} {P P' : σ → Prop} {E : ε → Prop}

theorem triple_pure {Q : α → σ → Prop} {a : α} (hQ : Stable R (Q a)) (hP : ∀ s, P s → Q a s) :
    Triple h R P (pure a : Prog S ε α) Q E := by
  intro s r s' hs hp
  obtain ⟨rfl, hstar⟩ := hp.ret_inv
  exact hQ.star _ _ hstar (hP s hs)

theorem triple_fail {Q : α → σ → Prop} {e : ε} (he : E e) :
    Triple h R P (fail e : Prog S ε α) Q E := by
  intro s r s' _ hp
  obtain ⟨rfl, _⟩ := hp.fail_inv
  exact he

theorem triple_perform {o : S.Op} {Q : S.Reply o → σ → Prop} (hP : Stable R P)
    (hQ : ∀ a, Stable R (Q a)) (hstep : ∀ s, P s → Q (h o s).1 (h o s).2) :
    Triple h R P (perform o : Prog S ε _) Q E := by
  intro s r s' hs hp
  obtain ⟨s1, hstar, h1⟩ := hp.act_inv
  obtain ⟨rfl, hstar'⟩ := h1.ret_inv
  exact (hQ _).star _ _ hstar' (hstep s1 (hP.star _ _ hstar hs))

theorem triple_bind {p : Prog S ε α} {f : α → Prog S ε β} {M : α → σ → Prop}
    {Q : β → σ → Prop} (hp : Triple h R P p M E) (hf : ∀ a, Triple h R (M a) (f a) Q E) :
    Triple h R P (p >>= f) Q E := by
  intro s r s' hs hpf
  rcases Exec.elim_inv hpf with ⟨a, s1, h1, h2⟩ | ⟨e, s1, h1, h2⟩
  · exact hf a s1 r s' (hp s _ s1 hs h1) h2
  · obtain ⟨rfl, _⟩ := h2.fail_inv
    exact hp s _ s1 hs h1

/-- A handler runs from a state of which nothing is known. -/
theorem triple_handle {p : Prog S ε α} {g : ε → Prog S ε' α} {Q : α → σ → Prop}
    {E' : ε' → Prop} (hQ : ∀ a, Stable R (Q a)) (hp : Triple h R P p Q E)
    (hg : ∀ e, E e → Triple h R (fun _ => True) (g e) Q E') :
    Triple h R P (p.handle g) Q E' := by
  intro s r s' hs hpg
  rcases Exec.elim_inv hpg with ⟨a, s1, h1, h2⟩ | ⟨e, s1, h1, h2⟩
  · obtain ⟨rfl, hstar⟩ := h2.ret_inv
    exact (hQ a).star _ _ hstar (hp s _ s1 hs h1)
  · exact hg e (hp s _ s1 hs h1) s1 r s' trivial h2

theorem triple_conseq {p : Prog S ε α} {Q Q' : α → σ → Prop} (hp : Triple h R P p Q E)
    (hP : ∀ s, P' s → P s) (hQ : ∀ a s, Q a s → Q' a s) : Triple h R P' p Q' E := by
  intro s r s' hs he
  have hr := hp s r s' (hP s hs) he
  cases r with
  | ok a => exact hQ a s' hr
  | error e => exact hr

theorem triple_ite {c : Prop} [Decidable c] {p q : Prog S ε α} {Q : α → σ → Prop}
    (hp : c → Triple h R P p Q E) (hq : ¬ c → Triple h R P q Q E) :
    Triple h R P (if c then p else q) Q E := by
  split
  · exact hp ‹_›
  · exact hq ‹_›

theorem triple_forUp {lo n : ℕ} {body : ℕ → Prog S ε Unit} {I : ℕ → σ → Prop}
    (hI : ∀ i, Stable R (I i))
    (hbody : ∀ i, lo ≤ i → i < lo + n → Triple h R (I i) (body i) (fun _ => I (i + 1)) E) :
    Triple h R (I lo) (forUp lo n body) (fun _ => I (lo + n)) E := by
  induction n generalizing lo with
  | zero => exact triple_pure (hI lo) fun _ => id
  | succ n ih =>
    rw [forUp_succ, show lo + (n + 1) = lo + 1 + n by omega]
    exact triple_bind (hbody lo le_rfl (by omega))
      fun _ => ih fun i h1 h2 => hbody i (by omega) (by omega)

/-- A fact of the precondition that does not mention the state is a hypothesis. -/
theorem triple_of_fact {p : Prog S ε α} {c : Prop} {Q : α → σ → Prop}
    (hp : c → Triple h R P p Q E) : Triple h R (fun s => c ∧ P s) p Q E :=
  fun s r s' hs he => hp hs.1 s r s' hs.2 he

end Triple

/-- `Turns body n s s'`: a loop `while (body())` that is at its test in `s` is at its test
again in `s'`, `n` turns later. -/
inductive Turns (h : Handler S σ) (R : σ → σ → Prop) (body : Prog S ε Bool) : ℕ → σ → σ → Prop
  | here {s s' : σ} (hR : ReflTransGen R s s') : Turns h R body 0 s s'
  | turn {n : ℕ} {s s1 s' : σ} (hs : Turns h R body n s s1)
      (hb : Exec h (fun _ => R) body s1 (.ok true) s') : Turns h R body (n + 1) s s'

/-- An assertion counted by the turns, kept by the environment and stepped by the body, holds
whenever the loop is at its test. -/
theorem Turns.invariant {R : σ → σ → Prop} {body : Prog S ε Bool} {I : ℕ → σ → Prop} {N : ℕ}
    {E : ε → Prop} (hI : Stable R (I 0))
    (hbody : ∀ n, n < N → Triple h R (I n) body (fun b s => b = true → I (n + 1) s) E)
    {n : ℕ} {s s' : σ} (hn : n ≤ N) (hs : I 0 s) (ht : Turns h R body n s s') : I n s' := by
  induction ht with
  | here hR => exact hI.star _ _ hR hs
  | turn _ hb ih => exact hbody _ (by omega) _ _ _ (ih (by omega) hs) hb rfl

end Prog
