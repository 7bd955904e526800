import Mathlib.Dynamics.PeriodicPts.Defs
import Mathlib.GroupTheory.Perm.Basic
import Mathlib.Tactic

/-!
# RC4 over a commutative group

A register is a permutation of the group and two places in it.  A step can be undone (`advance_injective`), so that over a
finite group each register comes back (`exists_period`).  Registers with the second place one behind the first and one stored
there are never reached from others (`finney_advance`).
-/

namespace Rc4

@[ext] structure Register (A : Type*) where
  s : Equiv.Perm A
  i : A
  j : A

instance {A : Type*} [Finite A] : Finite (Register A) :=
  Finite.of_injective (fun x : Register A => (x.s, x.i, x.j)) fun x y h => by
    simp only [Prod.mk.injEq] at h
    exact Register.ext h.1 h.2.1 h.2.2

variable {A : Type*} [AddCommGroup A] [DecidableEq A]

/-! ## Steps -/

/-- Places are counted by `u`. -/
def advance (u : A) (x : Register A) : Register A where
  s := x.s * Equiv.swap (x.i + u) (x.j + x.s (x.i + u))
  i := x.i + u
  j := x.j + x.s (x.i + u)

def output (x : Register A) : A := x.s (x.s x.i + x.s x.j)

variable {u : A} {x y : Register A} {m n : ℕ}

theorem advance_s_i : (advance u x).s (advance u x).i = x.s (advance u x).j := by simp [advance]

theorem advance_s_j : (advance u x).s (advance u x).j = x.s (x.i + u) := by simp [advance]

/-- The step before. -/
def retreat (u : A) (x : Register A) : Register A where
  s := x.s * Equiv.swap x.i x.j
  i := x.i - u
  j := x.j - x.s x.j

theorem retreat_advance : retreat u (advance u x) = x := by
  have hj : (advance u x).j - (advance u x).s (advance u x).j = x.j := by
    rw [advance_s_j]
    exact add_sub_cancel_right x.j (x.s (x.i + u))
  refine Register.ext ?_ (add_sub_cancel_right x.i u) hj
  show x.s * Equiv.swap (x.i + u) (x.j + x.s (x.i + u)) * Equiv.swap (x.i + u) (x.j + x.s (x.i + u)) = x.s
  rw [mul_assoc, Equiv.swap_mul_self, mul_one]

theorem advance_injective : Function.Injective (advance u) := Function.LeftInverse.injective fun _ => retreat_advance

theorem exists_period [Finite A] (x : Register A) : ∃ p, 0 < p ∧ (advance u)^[p] x = x := by
  obtain ⟨p, hp, hperiod⟩ := Function.mem_periodicPts.mp (advance_injective.mem_periodicPts x)
  exact ⟨p, hp, hperiod⟩

/-- The second place is one behind the first, and one is stored there. -/
def Finney (u : A) (x : Register A) : Prop := x.j = x.i + u ∧ x.s x.j = u

theorem finney_advance : Finney u (advance u x) ↔ Finney u x := by
  unfold Finney
  rw [advance_s_j]
  show x.j + x.s (x.i + u) = x.i + u + u ∧ x.s (x.i + u) = u ↔ _
  constructor
  · rintro ⟨hj, hs⟩
    rw [hs] at hj
    have hj' : x.j = x.i + u := add_right_cancel hj
    exact ⟨hj', by rw [hj', hs]⟩
  · rintro ⟨hj, hs⟩
    rw [hj] at hs
    exact ⟨by rw [hs, hj], hs⟩

theorem finney_iterate : Finney u ((advance u)^[n] x) ↔ Finney u x := by
  induction n generalizing x with
  | zero => rfl
  | succ n ih => rw [Function.iterate_succ_apply, ih, finney_advance]

/-! ## The output -/

/-- The `n`-th element that comes out. -/
def stream (u : A) (x : Register A) (n : ℕ) : A := output ((advance u)^[n + 1] x)

theorem stream_advance : stream u (advance u x) n = stream u x (n + 1) := rfl

theorem stream_iterate : stream u ((advance u)^[m] x) n = stream u x (m + n) := by
  unfold stream
  rw [← Function.iterate_add_apply]
  congr 2
  omega

/-! ## The key -/

/-- Place `p.1` takes part, with the piece `p.2` of the key. -/
def stir (x : Equiv.Perm A × A) (p : A × A) : Equiv.Perm A × A :=
  (x.1 * Equiv.swap p.1 (x.2 + (x.1 p.1 + p.2)), x.2 + (x.1 p.1 + p.2))

/-- The register to begin with. -/
def start (ps : List (A × A)) : Register A where
  s := (ps.foldl stir (1, 0)).1
  i := 0
  j := 0

theorem start_not_finney (hu : u ≠ 0) (ps : List (A × A)) : ¬Finney u (start ps) := by
  rintro ⟨hj, _⟩
  apply hu
  simpa [start] using hj.symm

end Rc4
