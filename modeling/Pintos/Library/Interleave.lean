import Pintos.Library.Prog

/-!
# Programs that share a state

Threads run programs over the same operations and share a state `σ`; `R i` says what an operation of
thread `i` may answer and do.  A thread looks at the shared state through its own view `τ`.

* `Safe G L p Q E t` is the weakest precondition of `p` over the view: every operation that `p` performs
  is one that `G` admits, and if the answers are those of `L`, it returns in `Q` or stops in `E`.
* `Views G L R view` says that an admitted operation of a thread acts on its own view as `L` says, and
  leaves the view of every other thread as it is.

Then a step of one thread keeps the safety of all of them (`Views.continues`, `Views.others`): each program may
be verified alone.
-/

namespace Prog

variable {Op : Type} {Ans : Op → Type} {ε α β σ τ ι : Type}

/-- Every operation of `p` is admitted by `G`, and every run under `L` returns in `Q` or stops in `E`. -/
def Safe (G : Op → τ → Prop) (L : Effect Op Ans τ) :
    Prog Op Ans ε α → (α → τ → Prop) → (ε → τ → Prop) → τ → Prop
  | .ret a, Q, _, t => Q a t
  | .stop e, _, E, t => E e t
  | .call o k, Q, E, t => G o t ∧ ∀ x t', L o t x t' → Safe G L (k x) Q E t'

section Rules

variable {G : Op → τ → Prop} {L : Effect Op Ans τ} {Q Q' : α → τ → Prop} {E E' : ε → τ → Prop} {t : τ}

@[simp] theorem safe_ret (a : α) : Safe G L (.ret a : Prog Op Ans ε α) Q E t ↔ Q a t := Iff.rfl

@[simp] theorem safe_stop (e : ε) : Safe G L (.stop e : Prog Op Ans ε α) Q E t ↔ E e t := Iff.rfl

theorem safe_call {o : Op} {k : Ans o → Prog Op Ans ε α} :
    Safe G L (.call o k) Q E t ↔ G o t ∧ ∀ x t', L o t x t' → Safe G L (k x) Q E t' := Iff.rfl

theorem safe_perform {o : Op} {Q : Ans o → τ → Prop} :
    Safe G L (perform o : Prog Op Ans ε (Ans o)) Q E t ↔ G o t ∧ ∀ x t', L o t x t' → Q x t' := Iff.rfl

/-- The rule of sequencing. -/
@[simp] theorem safe_bind (p : Prog Op Ans ε β) (f : β → Prog Op Ans ε α) :
    Safe G L (p >>= f) Q E t ↔ Safe G L p (fun b t' => Safe G L (f b) Q E t') E t := by
  induction p generalizing t with
  | ret b => rfl
  | stop e => rfl
  | call o k ih => exact and_congr_right fun _ => forall_congr' fun x => forall_congr' fun t' =>
      imp_congr_right fun _ => ih x

/-- The rule of consequence. -/
theorem Safe.mono {p : Prog Op Ans ε α} (h : Safe G L p Q E t) (hQ : ∀ a t', Q a t' → Q' a t')
    (hE : ∀ e t', E e t' → E' e t') : Safe G L p Q' E' t := by
  induction p generalizing t with
  | ret a => exact hQ a t h
  | stop e => exact hE e t h
  | call o k ih => exact ⟨h.1, fun x t' hx => ih x (h.2 x t' hx)⟩

theorem Safe.mono_ret {p : Prog Op Ans ε α} (h : Safe G L p Q E t) (hQ : ∀ a t', Q a t' → Q' a t') :
    Safe G L p Q' E t := h.mono hQ fun _ _ he => he

end Rules

/-- What admitted operations of a thread do to its own view and to the views of the others. -/
structure Views (G : Op → τ → Prop) (L : Effect Op Ans τ) (R : ι → Effect Op Ans σ)
    (view : ι → σ → τ) : Prop where
  own : ∀ {i o s x s'}, G o (view i s) → R i o s x s' → L o (view i s) x (view i s')
  frame : ∀ {i j o s x s'}, G o (view i s) → R i o s x s' → j ≠ i → view j s' = view j s

namespace Views

variable {G : Op → τ → Prop} {L : Effect Op Ans τ} {R : ι → Effect Op Ans σ} {view : ι → σ → τ}
  {Q : α → τ → Prop} {E : ε → τ → Prop} {s s' : σ} {i j : ι} {o : Op} {x : Ans o}
  {k : Ans o → Prog Op Ans ε α}

/-- The thread that takes the step is safe after it. -/
theorem continues (hv : Views G L R view) (h : Safe G L (.call o k) Q E (view i s))
    (hs : R i o s x s') : Safe G L (k x) Q E (view i s') :=
  h.2 x _ (hv.own h.1 hs)

/-- Every other thread is. -/
theorem others {p : Prog Op Ans ε β} {Q' : β → τ → Prop} {E' : ε → τ → Prop} (hv : Views G L R view)
    (h : Safe G L (.call o k) Q E (view i s)) (hs : R i o s x s') (hj : j ≠ i)
    (hp : Safe G L p Q' E' (view j s)) : Safe G L p Q' E' (view j s') := by
  rw [hv.frame h.1 hs hj]
  exact hp

end Views

end Prog
