import Mathlib.Tactic

/-!
# Programs over a signature of operations

A program is a tree of operation calls: it returns a value, stops with a reason, or performs one
operation and goes on with the answer.  The same tree is read three ways:

* `run` executes it against a handler that answers every operation from a state;
* `wp` is its weakest precondition against a *relation* that says which answers an operation may
  give, so that an environment with several possible answers is covered by one statement;
* `Ends` are the runs that such a relation admits, and `wp_iff_ends` says that `wp` is about them.

`Ends.simulate` lets a proof about a simple state speak about a program that runs on an
implementation of that state.
-/

/-- A program over the operations `Op`, whose answers have the types `Ans`, that may stop with `ε`. -/
inductive Prog (Op : Type) (Ans : Op → Type) (ε α : Type) : Type
  | ret (a : α)
  | stop (e : ε)
  | call (o : Op) (k : Ans o → Prog Op Ans ε α)

namespace Prog

variable {Op : Type} {Ans : Op → Type} {ε α β γ σ τ : Type}

/-- Sequencing: a stopped program ignores what follows it. -/
def bind : Prog Op Ans ε α → (α → Prog Op Ans ε β) → Prog Op Ans ε β
  | .ret a, f => f a
  | .stop e, _ => .stop e
  | .call o k, f => .call o fun x => (k x).bind f

instance : Monad (Prog Op Ans ε) where
  pure := .ret
  bind := .bind

/-- The program that performs one operation and returns its answer. -/
def perform (o : Op) : Prog Op Ans ε (Ans o) := .call o .ret

@[simp] theorem pure_eq_ret (a : α) : (pure a : Prog Op Ans ε α) = .ret a := rfl

@[simp] theorem ret_bind (a : α) (f : α → Prog Op Ans ε β) : (Prog.ret a >>= f) = f a := rfl

@[simp] theorem stop_bind (e : ε) (f : α → Prog Op Ans ε β) :
    ((Prog.stop e : Prog Op Ans ε α) >>= f) = .stop e := rfl

theorem call_bind (o : Op) (k : Ans o → Prog Op Ans ε α) (f : α → Prog Op Ans ε β) :
    (Prog.call o k >>= f) = .call o fun x => k x >>= f := rfl

theorem bind_ret (p : Prog Op Ans ε α) : (p >>= Prog.ret) = p := by
  induction p with
  | ret a => rfl
  | stop e => rfl
  | call o k ih => rw [call_bind]; exact congrArg _ (funext ih)

theorem bind_bind (p : Prog Op Ans ε α) (f : α → Prog Op Ans ε β) (g : β → Prog Op Ans ε γ) :
    (p >>= f >>= g) = (p >>= fun a => f a >>= g) := by
  induction p with
  | ret a => rfl
  | stop e => rfl
  | call o k ih => rw [call_bind, call_bind, call_bind]; exact congrArg _ (funext ih)

/-! ### Execution against a handler -/

/-- A handler answers every operation and moves the state. -/
abbrev Handler (Op : Type) (Ans : Op → Type) (σ : Type) := (o : Op) → σ → Ans o × σ

/-- The result of a program and the state it ends in. -/
def run (H : Handler Op Ans σ) : Prog Op Ans ε α → σ → Except ε α × σ
  | .ret a, s => (.ok a, s)
  | .stop e, s => (.error e, s)
  | .call o k, s => run H (k (H o s).1) (H o s).2

theorem run_bind (H : Handler Op Ans σ) (p : Prog Op Ans ε α) (f : α → Prog Op Ans ε β) (s : σ) :
    run H (p >>= f) s = match run H p s with
      | (.ok a, s') => run H (f a) s'
      | (.error e, s') => (.error e, s') := by
  induction p generalizing s with
  | ret a => rfl
  | stop e => rfl
  | call o k ih => exact ih _ _

/-! ### Weakest preconditions against a relation of admitted answers -/

/-- Which answers, and which next states, an operation may give. -/
abbrev Effect (Op : Type) (Ans : Op → Type) (σ : Type) := (o : Op) → σ → Ans o → σ → Prop

/-- Every run that `R` admits returns in `Q` or stops in `E`. -/
def wp (R : Effect Op Ans σ) :
    Prog Op Ans ε α → (α → σ → Prop) → (ε → σ → Prop) → σ → Prop
  | .ret a, Q, _, s => Q a s
  | .stop e, _, E, s => E e s
  | .call o k, Q, E, s => ∀ x s', R o s x s' → wp R (k x) Q E s'

section Rules

variable {R : Effect Op Ans σ} {Q Q' : α → σ → Prop} {E E' : ε → σ → Prop} {s : σ}

@[simp] theorem wp_ret (a : α) : wp R (.ret a : Prog Op Ans ε α) Q E s ↔ Q a s := Iff.rfl

@[simp] theorem wp_stop (e : ε) : wp R (.stop e : Prog Op Ans ε α) Q E s ↔ E e s := Iff.rfl

theorem wp_perform {o : Op} {Q : Ans o → σ → Prop} :
    wp R (perform o : Prog Op Ans ε (Ans o)) Q E s ↔ ∀ x s', R o s x s' → Q x s' := Iff.rfl

/-- The rule of sequencing. -/
@[simp] theorem wp_bind (p : Prog Op Ans ε β) (f : β → Prog Op Ans ε α) :
    wp R (p >>= f) Q E s ↔ wp R p (fun b s' => wp R (f b) Q E s') E s := by
  induction p generalizing s with
  | ret a => rfl
  | stop e => rfl
  | call o k ih =>
    constructor
    · intro h x s' hx
      exact ih x |>.mp (h x s' hx)
    · intro h x s' hx
      exact ih x |>.mpr (h x s' hx)

/-- The rule of consequence. -/
theorem wp_mono {p : Prog Op Ans ε α} (h : wp R p Q E s) (hQ : ∀ a s', Q a s' → Q' a s')
    (hE : ∀ e s', E e s' → E' e s') : wp R p Q' E' s := by
  induction p generalizing s with
  | ret a => exact hQ a s h
  | stop e => exact hE e s h
  | call o k ih => exact fun x s' hx => ih x (h x s' hx)

theorem wp_mono_ret {p : Prog Op Ans ε α} (h : wp R p Q E s) (hQ : ∀ a s', Q a s' → Q' a s') :
    wp R p Q' E s := wp_mono h hQ fun _ _ h => h

/-- The rule of sequence. -/
theorem wp_seq {p : Prog Op Ans ε β} {f : β → Prog Op Ans ε α} {I : β → σ → Prop} (h : wp R p I E s)
    (hf : ∀ b s', I b s' → wp R (f b) Q E s') : wp R (p >>= f) Q E s :=
  (wp_bind p f).mpr (wp_mono_ret h hf)

theorem wp_and {p : Prog Op Ans ε α} (h : wp R p Q E s) (h' : wp R p Q' E' s) :
    wp R p (fun a t => Q a t ∧ Q' a t) (fun e t => E e t ∧ E' e t) s := by
  induction p generalizing s with
  | ret a => exact ⟨h, h'⟩
  | stop e => exact ⟨h, h'⟩
  | call o k ih => exact fun x s' hx => ih x (h x s' hx) (h' x s' hx)

/-- Fewer admitted answers, more postconditions. -/
theorem wp_effect_mono {R' : Effect Op Ans σ} (hR : ∀ o s x s', R' o s x s' → R o s x s')
    {p : Prog Op Ans ε α} (h : wp R p Q E s) : wp R' p Q E s := by
  induction p generalizing s with
  | ret a => exact h
  | stop e => exact h
  | call o k ih => exact fun x s' hx => ih x (h x s' (hR o s x s' hx))

end Rules

/-- What a result and its final state satisfy: `Q` after a return, `E` after a stop. -/
def Sat (Q : α → σ → Prop) (E : ε → σ → Prop) : Except ε α → σ → Prop
  | .ok a, s => Q a s
  | .error e, s => E e s

@[simp] theorem sat_ok (Q : α → σ → Prop) (E : ε → σ → Prop) (a : α) (s : σ) :
    Sat Q E (.ok a) s ↔ Q a s := Iff.rfl

@[simp] theorem sat_error (Q : α → σ → Prop) (E : ε → σ → Prop) (e : ε) (s : σ) :
    Sat Q E (.error e) s ↔ E e s := Iff.rfl

/-- `Ends R p s r s'`: a run of `p` from `s` that `R` admits ends with `r` in `s'`. -/
def Ends (R : Effect Op Ans σ) : Prog Op Ans ε α → σ → Except ε α → σ → Prop
  | .ret a, s, r, s' => r = .ok a ∧ s' = s
  | .stop e, s, r, s' => r = .error e ∧ s' = s
  | .call o k, s, r, s' => ∃ x t, R o s x t ∧ Ends R (k x) t r s'

/-- A run of a sequence, from runs of its parts. -/
theorem Ends.bind {R : Effect Op Ans σ} {p : Prog Op Ans ε α} {f : α → Prog Op Ans ε β} {a : α}
    {r : Except ε β} {s t s' : σ} (h : Ends R p s (.ok a) t) (h' : Ends R (f a) t r s') :
    Ends R (p >>= f) s r s' := by
  induction p generalizing s with
  | ret b =>
    obtain ⟨hb, rfl⟩ := h
    cases hb
    exact h'
  | stop e => cases h.1
  | call o k ih =>
    obtain ⟨x, u, hx, hu⟩ := h
    exact ⟨x, u, hx, ih x hu⟩

/-- The runs of a sequence: the first part stops, or returns and the second part runs. -/
theorem Ends.of_bind {R : Effect Op Ans σ} {p : Prog Op Ans ε α} {f : α → Prog Op Ans ε β}
    {r : Except ε β} {s s' : σ} (h : Ends R (p >>= f) s r s') :
    (∃ a t, Ends R p s (.ok a) t ∧ Ends R (f a) t r s') ∨ ∃ e, r = .error e ∧ Ends R p s (.error e) s' := by
  induction p generalizing s with
  | ret a => exact .inl ⟨a, s, ⟨rfl, rfl⟩, h⟩
  | stop e =>
    obtain ⟨hr, hs⟩ := h
    exact .inr ⟨e, hr, rfl, hs⟩
  | call o k ih =>
    obtain ⟨x, t, hx, ht⟩ := h
    rcases ih x ht with ⟨a, u, hp, hf⟩ | ⟨e, hr, hp⟩
    · exact .inl ⟨a, u, ⟨x, t, hx, hp⟩, hf⟩
    · exact .inr ⟨e, hr, x, t, hx, hp⟩

/-- A run against a handler that gives admitted answers is one of the runs. -/
theorem ends_run {R : Effect Op Ans σ} {H : Handler Op Ans σ} (hH : ∀ o s, R o s (H o s).1 (H o s).2)
    (p : Prog Op Ans ε α) (s : σ) : Ends R p s (run H p s).1 (run H p s).2 := by
  induction p generalizing s with
  | ret a => exact ⟨rfl, rfl⟩
  | stop e => exact ⟨rfl, rfl⟩
  | call o k ih => exact ⟨_, _, hH o s, ih _ _⟩

/-- **Soundness and completeness of `wp`.**  It speaks about the admitted runs and nothing else. -/
theorem wp_iff_ends {R : Effect Op Ans σ} {p : Prog Op Ans ε α} {Q : α → σ → Prop}
    {E : ε → σ → Prop} {s : σ} :
    wp R p Q E s ↔ ∀ r s', Ends R p s r s' → Sat Q E r s' := by
  induction p generalizing s with
  | ret a =>
    constructor
    · rintro h r s' ⟨rfl, rfl⟩
      exact h
    · intro h
      exact h (.ok a) s ⟨rfl, rfl⟩
  | stop e =>
    constructor
    · rintro h r s' ⟨rfl, rfl⟩
      exact h
    · intro h
      exact h (.error e) s ⟨rfl, rfl⟩
  | call o k ih =>
    constructor
    · rintro h r s' ⟨x, t, hx, ht⟩
      exact (ih x).mp (h x t hx) r s' ht
    · intro h x t hx
      exact (ih x).mpr fun r s' ht => h r s' ⟨x, t, hx, ht⟩

/-- **Simulation.**  If every answer that `R'` admits in a state is one that `R` admits in any state
related to it, and the next states are related again, then every run under `R'` is one under `R`. -/
theorem Ends.simulate {R : Effect Op Ans σ} {R' : Effect Op Ans τ} {sim : σ → τ → Prop}
    (hsim : ∀ o s t x t', sim s t → R' o t x t' → ∃ s', R o s x s' ∧ sim s' t')
    {p : Prog Op Ans ε α} {r : Except ε α} {s : σ} {t t' : τ} (hst : sim s t)
    (h : Ends R' p t r t') : ∃ s', Ends R p s r s' ∧ sim s' t' := by
  induction p generalizing s t with
  | ret a =>
    obtain ⟨rfl, rfl⟩ := h
    exact ⟨s, ⟨rfl, rfl⟩, hst⟩
  | stop e =>
    obtain ⟨rfl, rfl⟩ := h
    exact ⟨s, ⟨rfl, rfl⟩, hst⟩
  | call o k ih =>
    obtain ⟨x, t₁, hx, ht⟩ := h
    obtain ⟨s₁, hR, hs₁⟩ := hsim o s t x t₁ hst hx
    obtain ⟨s', hs', hst'⟩ := ih x hs₁ ht
    exact ⟨s', ⟨x, s₁, hR, hs'⟩, hst'⟩

/-! ### Where a program can stop -/

/-- Every stop in the program satisfies `P`. -/
def StopsIn (P : ε → Prop) : Prog Op Ans ε α → Prop
  | .ret _ => True
  | .stop e => P e
  | .call _ k => ∀ x, StopsIn P (k x)

theorem StopsIn.bind {P : ε → Prop} {p : Prog Op Ans ε α} {f : α → Prog Op Ans ε β}
    (hp : StopsIn P p) (hf : ∀ a, StopsIn P (f a)) : StopsIn P (p >>= f) := by
  induction p with
  | ret a => exact hf a
  | stop e => exact hp
  | call o k ih => exact fun x => ih x (hp x)

theorem stopsIn_perform {P : ε → Prop} (o : Op) : StopsIn P (perform o : Prog Op Ans ε (Ans o)) :=
  fun _ => trivial

theorem StopsIn.ends {R : Effect Op Ans σ} {P : ε → Prop} {p : Prog Op Ans ε α} {e : ε} {s s' : σ}
    (hp : StopsIn P p) (h : Ends R p s (.error e) s') : P e := by
  induction p generalizing s with
  | ret a => cases h.1
  | stop e' =>
    obtain ⟨he, _⟩ := h
    cases he
    exact hp
  | call o k ih =>
    obtain ⟨x, t, _, ht⟩ := h
    exact ih x (hp x) ht

/-! ### Bounded loops with an early exit -/

/-- `n` passes of a loop body from index `i` on: `inl` goes on with a new accumulator, `inr` leaves
the loop at once. -/
def forUpTo (body : ℕ → β → Prog Op Ans ε (β ⊕ γ)) : ℕ → ℕ → β → Prog Op Ans ε (β ⊕ γ)
  | 0, _, b => .ret (.inl b)
  | n + 1, i, b => body i b >>= fun
      | .inl b' => forUpTo body n (i + 1) b'
      | .inr c => .ret (.inr c)

/-- **The invariant rule for bounded loops.** -/
theorem wp_forUpTo {R : Effect Op Ans σ} {body : ℕ → β → Prog Op Ans ε (β ⊕ γ)}
    {Q : β ⊕ γ → σ → Prop} {E : ε → σ → Prop} (I : ℕ → β → σ → Prop) {m : ℕ}
    (hbody : ∀ j b s, j < m → I j b s →
      wp R (body j b) (fun r s' => match r with
        | .inl b' => I (j + 1) b' s'
        | .inr c => Q (.inr c) s') E s)
    (hexit : ∀ b s, I m b s → Q (.inl b) s) :
    ∀ n i b s, i + n = m → I i b s → wp R (forUpTo body n i b) Q E s := by
  intro n
  induction n with
  | zero =>
    intro i b s him hI
    obtain rfl : i = m := by omega
    exact hexit b s hI
  | succ n ih =>
    intro i b s him hI
    rw [forUpTo]
    refine wp_seq (hbody i b s (by omega) hI) ?_
    rintro (b' | c) s' h
    · exact ih (i + 1) b' s' (by omega) h
    · exact h

end Prog
