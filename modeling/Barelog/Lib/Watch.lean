import Barelog.Lib.Prog

/-! Watching a run. The transcript of a run is what the program requested and what it got; an
observer is a state of its own that follows the transcript and that the run knows nothing of. -/

namespace Prog

variable {S : Sig} {ε α β σ τ μ : Type}

abbrev Exchange (S : Sig) := (o : S.Op) × S.Reply o

def transcript (h : Handler S σ) : Prog S ε α → σ → List (Exchange S)
  | .ret _, _ => []
  | .fail _, _ => []
  | .act o k, s => ⟨o, (h o s).1⟩ :: (k (h o s).1).transcript h (h o s).2

section Transcript

variable {h : Handler S σ} {s s' : σ}

theorem transcript_bind (p : Prog S ε α) (f : α → Prog S ε β) (s : σ) :
    (p >>= f).transcript h s = p.transcript h s ++ match p.run h s with
      | (.ok a, s') => (f a).transcript h s'
      | (.error _, _) => [] := by
  induction p generalizing s with
  | ret a => rfl
  | fail e => rfl
  | act o k ih => exact congrArg (List.cons _) (ih _ _)

theorem transcript_bind_ok {p : Prog S ε α} {f : α → Prog S ε β} {a : α}
    (hp : p.run h s = (.ok a, s')) :
    (p >>= f).transcript h s = p.transcript h s ++ (f a).transcript h s' := by
  rw [transcript_bind, hp]

theorem transcript_bind_error {p : Prog S ε α} {f : α → Prog S ε β} {e : ε}
    (hp : p.run h s = (.error e, s')) : (p >>= f).transcript h s = p.transcript h s := by
  rw [transcript_bind, hp]
  exact List.append_nil _

/-- Every request of the run satisfies `A`. -/
def Requests (h : Handler S σ) (A : S.Op → Prop) (p : Prog S ε α) (s : σ) : Prop :=
  ∀ x ∈ p.transcript h s, A x.1

/-- A run requests nothing but what the program may request, when an invariant gives the replies. -/
theorem Only.requests {G : (o : S.Op) → S.Reply o → Prop} {A : S.Op → Prop} {I : σ → Prop}
    {p : Prog S ε α} (hp : p.Only G A)
    (hI : ∀ o s, A o → I s → G o (h o s).1 ∧ I (h o s).2) (hs : I s) :
    Requests h A p s := by
  induction p generalizing s with
  | ret a => exact fun x hx => absurd hx List.not_mem_nil
  | fail e => exact fun x hx => absurd hx List.not_mem_nil
  | act o k ih =>
    obtain ⟨hG, hs'⟩ := hI o s hp.1 hs
    intro x hx
    rcases List.mem_cons.mp hx with rfl | hx
    · exact hp.1
    · exact ih _ (hp.2 _ hG) hs' x hx

theorem requests_bind {A : S.Op → Prop} {p : Prog S ε α} {f : α → Prog S ε β}
    (hp : Requests h A p s)
    (hf : ∀ a s', p.run h s = (.ok a, s') → Requests h A (f a) s') : Requests h A (p >>= f) s := by
  intro x hx
  rw [transcript_bind] at hx
  rcases List.mem_append.mp hx with hx | hx
  · exact hp x hx
  · rcases hr : p.run h s with ⟨r, s'⟩
    rw [hr] at hx
    cases r with
    | ok a => exact hf a s' hr x hx
    | error e => cases hx

theorem requests_handle {ε' : Type} {A : S.Op → Prop} {p : Prog S ε α} {g : ε → Prog S ε' α}
    (hp : Requests h A p s) (hg : ∀ e s', Requests h A (g e) s') :
    Requests h A (p.handle g) s := by
  induction p generalizing s with
  | ret a => exact fun x hx => absurd hx List.not_mem_nil
  | fail e => exact hg e s
  | act o k ih =>
    intro x hx
    rcases List.mem_cons.mp hx with rfl | hx
    · exact hp _ List.mem_cons_self
    · exact ih _ (fun y hy => hp y (List.mem_cons_of_mem _ hy)) x hx

end Transcript

/-- Two handlers in lockstep: from related states the operations a program may request give equal
replies and related states, so the program cannot tell which of the two it runs on. -/
theorem Only.lockstep {h : Handler S σ} {g : Handler S τ} {A : S.Op → Prop} {R : σ → τ → Prop}
    {p : Prog S ε α} (hp : p.Only (fun _ _ => True) A)
    (hR : ∀ o s t, A o → R s t → (h o s).1 = (g o t).1 ∧ R (h o s).2 (g o t).2) {s : σ} {t : τ}
    (hst : R s t) : (p.run h s).1 = (p.run g t).1 ∧ p.transcript h s = p.transcript g t ∧
      R (p.run h s).2 (p.run g t).2 := by
  induction p generalizing s t with
  | ret a => exact ⟨rfl, rfl, hst⟩
  | fail e => exact ⟨rfl, rfl, hst⟩
  | act o k ih =>
    obtain ⟨hreply, hnext⟩ := hR o s t hp.1 hst
    obtain ⟨hr, htr, hend⟩ := ih (g o t).1 (hp.2 _ trivial) hnext
    simp only [run, transcript, hreply]
    exact ⟨hr, by rw [htr], hend⟩

/-! Observers. -/

def watch (h : Handler S σ) (step : (o : S.Op) → S.Reply o → μ → μ) : Handler S (σ × μ) :=
  fun o s => ((h o s.1).1, (h o s.1).2, step o (h o s.1).1 s.2)

def observe (step : (o : S.Op) → S.Reply o → μ → μ) (l : List (Exchange S)) (m : μ) : μ :=
  l.foldl (fun m x => step x.1 x.2 m) m

/-- An observer sees the transcript, and the run is what it would be without it. -/
theorem run_watch (h : Handler S σ) (step : (o : S.Op) → S.Reply o → μ → μ) (p : Prog S ε α)
    (s : σ) (m : μ) : p.run (watch h step) (s, m) =
      ((p.run h s).1, (p.run h s).2, observe step (p.transcript h s) m) := by
  induction p generalizing s m with
  | ret a => rfl
  | fail e => rfl
  | act o k ih => exact ih _ _ _

end Prog
