import Mathlib.Tactic

/-!
# Runs of a labelled step relation

`Trace step s ls s'` says that the steps labelled `ls`, taken in this order, lead from `s` to `s'`.
What every step preserves, every run preserves (`Trace.invariant`); a property of two states that holds
between neighbours and composes holds between the ends of a run (`Trace.relates`).
-/

/-- A run from `s` to `s'` with the labels `ls`. -/
inductive Trace {S L : Type} (step : S → L → S → Prop) : S → List L → S → Prop
  | nil (s : S) : Trace step s [] s
  | cons {s s₁ s' : S} {l : L} {ls : List L} (head : step s l s₁) (tail : Trace step s₁ ls s') :
      Trace step s (l :: ls) s'

namespace Trace

variable {S L : Type} {step step' : S → L → S → Prop} {s s₁ s' : S} {l : L} {ls ls' : List L}

theorem single (h : step s l s') : Trace step s [l] s' := .cons h (.nil s')

theorem append (h : Trace step s ls s₁) (h' : Trace step s₁ ls' s') : Trace step s (ls ++ ls') s' := by
  induction h with
  | nil s => exact h'
  | cons head _ ih => exact .cons head (ih h')

theorem mono (hstep : ∀ s l s', step s l s' → step' s l s') (h : Trace step s ls s') :
    Trace step' s ls s' := by
  induction h with
  | nil s => exact .nil s
  | cons head _ ih => exact .cons (hstep _ _ _ head) ih

/-- A run all of whose labels satisfy a predicate. -/
theorem restrict {A : L → Prop} (h : Trace step s ls s') (hA : ∀ l ∈ ls, A l) :
    Trace (fun s l s' => step s l s' ∧ A l) s ls s' := by
  induction h with
  | nil s => exact .nil s
  | cons head _ ih =>
    exact .cons ⟨head, hA _ List.mem_cons_self⟩ (ih fun l hl => hA l (List.mem_cons_of_mem _ hl))

/-- **What every step preserves, every run preserves.** -/
theorem invariant {I : S → Prop} (hstep : ∀ s l s', I s → step s l s' → I s')
    (h : Trace step s ls s') (hI : I s) : I s' := by
  induction h with
  | nil s => exact hI
  | cons head _ ih => exact ih (hstep _ _ _ hI head)

/-- A transitive relation that every step from a state with the invariant establishes. -/
theorem relates {I : S → Prop} {R : S → S → Prop} (hrefl : ∀ s, I s → R s s)
    (htrans : ∀ s t u, R s t → R t u → R s u) (hstep : ∀ s l s', I s → step s l s' → I s' ∧ R s s')
    (h : Trace step s ls s') (hI : I s) : R s s' := by
  induction h with
  | nil s => exact hrefl s hI
  | cons head _ ih =>
    obtain ⟨hI', hR⟩ := hstep _ _ _ hI head
    exact htrans _ _ _ hR (ih hI')

/-- Where every step is a step of another relation between the images, so is every run. -/
theorem simulates {S' L' : Type} (step' : S' → L' → S' → Prop) {I : S → Prop} {f : S → S'} {g : L → L'}
    (hstep : ∀ s l s', I s → step s l s' → I s' ∧ step' (f s) (g l) (f s')) (h : Trace step s ls s')
    (hI : I s) : I s' ∧ Trace step' (f s) (ls.map g) (f s') := by
  induction h with
  | nil s => exact ⟨hI, .nil _⟩
  | cons head _ ih =>
    obtain ⟨hI', hs⟩ := hstep _ _ _ hI head
    obtain ⟨hend, ht⟩ := ih hI'
    exact ⟨hend, .cons hs ht⟩

/-! ### Runs to a state with a property -/

/-- Some run from `s` leads to a state with `P`. -/
def Reaches (step : S → L → S → Prop) (s : S) (P : S → Prop) : Prop :=
  ∃ ls s', Trace step s ls s' ∧ P s'

variable {P Q : S → Prop}

theorem Reaches.here (h : P s) : Reaches step s P := ⟨[], s, .nil s, h⟩

theorem Reaches.after (h : step s l s₁) (ht : Reaches step s₁ P) : Reaches step s P := by
  obtain ⟨ls, s', ht, hP⟩ := ht
  exact ⟨l :: ls, s', .cons h ht, hP⟩

/-- Going on from where a run has led. -/
theorem Reaches.bind (h : Reaches step s P) (hQ : ∀ s, P s → Reaches step s Q) : Reaches step s Q := by
  obtain ⟨ls, s₁, ht, hP⟩ := h
  obtain ⟨ls', s', ht', hQ⟩ := hQ s₁ hP
  exact ⟨ls ++ ls', s', ht.append ht', hQ⟩

theorem Reaches.mono (hstep : ∀ s l s', step s l s' → step' s l s') (h : Reaches step s P) :
    Reaches step' s P := by
  obtain ⟨ls, s', ht, hP⟩ := h
  exact ⟨ls, s', ht.mono hstep, hP⟩

end Trace
