import Pintos.Library.Prog

/-!
# Programs that draw from a pool

What a program does on its way, and not only where it ends: `Always` says that a rule holds of every operation
that a run performs.

`Draws` is the specification of a program that draws units from a pool, each in its turn.  The units are given as a
list; an element says whether a turn that finds the pool empty breaks the rule.  The program keeps the rule unless the
first such turn is of that kind, and it gets through if the pool has a unit for each turn.
-/

namespace Prog

variable {Op : Type} {Ans : Op → Type} {ε α β γ σ : Type}

/-- Every operation that a run performs satisfies `G` in the state it is performed in. -/
def Always (R : Effect Op Ans σ) (G : Op → σ → Prop) : Prog Op Ans ε α → σ → Prop
  | .ret _, _ => True
  | .stop _, _ => True
  | .call o k, s => G o s ∧ ∀ x t, R o s x t → Always R G (k x) t

/-- Every operation has an answer in every state. -/
def Effect.Total (R : Effect Op Ans σ) : Prop := ∀ o s, ∃ x t, R o s x t

variable {R : Effect Op Ans σ} {G : Op → σ → Prop}

theorem Effect.Total.exists_ends (hR : R.Total) (p : Prog Op Ans ε α) (s : σ) : ∃ r t, Ends R p s r t := by
  induction p generalizing s with
  | ret a => exact ⟨_, s, rfl, rfl⟩
  | stop e => exact ⟨_, s, rfl, rfl⟩
  | call o k ih =>
    obtain ⟨x, t, hx⟩ := hR o s
    obtain ⟨r, u, hu⟩ := ih x t
    exact ⟨r, u, x, t, hx, hu⟩

/-- A program that cannot stop has a run that returns in its postcondition. -/
theorem Effect.Total.exists_ret (hR : R.Total) {p : Prog Op Ans ε α} {s : σ} {Q : α → σ → Prop}
    (h : wp R p Q (fun _ _ => False) s) : ∃ a t, Ends R p s (.ok a) t ∧ Q a t := by
  obtain ⟨r, t, hrun⟩ := hR.exists_ends p s
  have hsat := wp_iff_ends.mp h r t hrun
  cases r with
  | ok a => exact ⟨a, t, hrun, hsat⟩
  | error e => exact absurd hsat id

@[simp] theorem always_ret (a : α) (s : σ) : Always R G (.ret a : Prog Op Ans ε α) s ↔ True := Iff.rfl

@[simp] theorem always_stop (e : ε) (s : σ) : Always R G (.stop e : Prog Op Ans ε α) s ↔ True := Iff.rfl

theorem always_perform (o : Op) (s : σ) : Always R G (perform o : Prog Op Ans ε (Ans o)) s ↔ G o s := by
  constructor
  · intro h
    exact h.1
  · intro h
    exact ⟨h, fun _ _ _ => trivial⟩

/-- The rule of sequencing. -/
theorem always_bind (p : Prog Op Ans ε β) (f : β → Prog Op Ans ε α) (s : σ) :
    Always R G (p >>= f) s ↔ Always R G p s ∧ wp R p (fun b t => Always R G (f b) t) (fun _ _ => True) s := by
  induction p generalizing s with
  | ret b => exact (true_and _).to_iff.symm
  | stop e => exact (true_and _).to_iff.symm
  | call o k ih =>
    constructor
    · intro h
      have hk := fun x t hx => (ih x t).mp (h.2 x t hx)
      exact ⟨⟨h.1, fun x t hx => (hk x t hx).1⟩, fun x t hx => (hk x t hx).2⟩
    · intro h
      exact ⟨h.1.1, fun x t hx => (ih x t).mpr ⟨h.1.2 x t hx, h.2 x t hx⟩⟩

/-- The rule of sequence. -/
theorem Always.seq {p : Prog Op Ans ε β} {f : β → Prog Op Ans ε α} {s : σ} {I : β → σ → Prop}
    (hp : Always R G p s) (hI : wp R p I (fun _ _ => True) s) (hf : ∀ b t, I b t → Always R G (f b) t) :
    Always R G (p >>= f) s :=
  (always_bind p f s).mpr ⟨hp, wp_mono_ret hI hf⟩

theorem Always.mono {G' : Op → σ → Prop} (hG : ∀ o s, G o s → G' o s) {p : Prog Op Ans ε α} {s : σ}
    (h : Always R G p s) : Always R G' p s := by
  induction p generalizing s with
  | ret a => trivial
  | stop e => trivial
  | call o k ih => exact ⟨hG o s h.1, fun x t hx => ih x (h.2 x t hx)⟩

theorem wp_trivial (p : Prog Op Ans ε α) (s : σ) : wp R p (fun _ _ => True) (fun _ _ => True) s :=
  wp_iff_ends.mpr fun r _ _ => by cases r <;> trivial

theorem Always.then {p : Prog Op Ans ε β} {f : β → Prog Op Ans ε α} {s : σ} (hp : Always R G p s)
    (hf : ∀ b t, Always R G (f b) t) : Always R G (p >>= f) s :=
  hp.seq (wp_trivial p s) fun b t _ => hf b t

/-! ### Drawing from a pool -/

/-- From `s`, the program draws the units `m` from the pool, in this order.  If the pool has a unit for each, the
program returns in `Q` or stops in `E`; otherwise it returns in `F`, which knows the mark of the first unit that the pool
does not have.  It keeps the rule `G` unless that unit is marked. -/
structure Draws (R : Effect Op Ans σ) (G : Op → σ → Prop) (avail : σ → ℕ) (p : Prog Op Ans ε α) (s : σ)
    (m : List Bool) (Q : α → σ → Prop) (F : Bool → α → σ → Prop) (E : ε → σ → Prop) : Prop where
  always : Always R G p s ↔ m[avail s]? ≠ some true
  enough : m.length ≤ avail s → wp R p (fun a t => avail t + m.length = avail s ∧ Q a t) E s
  short : ∀ h : avail s < m.length, wp R p (F m[avail s]) (fun _ _ => False) s

namespace Draws

variable {avail : σ → ℕ} {p : Prog Op Ans ε α} {s : σ} {m m₁ m₂ : List Bool} {Q Q' : α → σ → Prop}
  {F F' : Bool → α → σ → Prop} {E : ε → σ → Prop}

/-- A program that draws nothing. -/
theorem of_nil (hG : Always R G p s) (hp : wp R p (fun a t => avail t = avail s ∧ Q a t) E s) :
    Draws R G avail p s [] Q F E where
  always := by
    constructor
    · intro _
      simp
    · intro _
      exact hG
  enough _ := wp_mono_ret hp fun _ _ h => ⟨by simpa using h.1, h.2⟩
  short h := absurd h (Nat.not_lt_zero _)

theorem ret {a : α} (h : Q a s) : Draws R G avail (.ret a : Prog Op Ans ε α) s [] Q F E := of_nil trivial ⟨rfl, h⟩

/-- One unit, whose turn keeps the rule in any case. -/
theorem one (hG : Always R G p s)
    (henough : 0 < avail s → wp R p (fun a t => avail t + 1 = avail s ∧ Q a t) E s)
    (hshort : avail s = 0 → wp R p (F false) (fun _ _ => False) s) : Draws R G avail p s [false] Q F E where
  always := by
    constructor
    · intro _ heq
      cases List.mem_singleton.mp (List.mem_of_getElem? heq)
    · intro _
      exact hG
  enough h := henough h
  short h := by
    rw [List.mem_singleton.mp (List.getElem_mem h)]
    exact hshort (by simpa using h)

theorem mono (h : Draws R G avail p s m Q F E) (hQ : ∀ a t, Q a t → Q' a t) (hF : ∀ b a t, F b a t → F' b a t) :
    Draws R G avail p s m Q' F' E where
  always := h.always
  enough hm := wp_mono_ret (h.enough hm) fun a t ht => ⟨ht.1, hQ a t ht.2⟩
  short hm := wp_mono_ret (h.short hm) (hF _)

/-- What every run satisfies may be added to both outcomes. -/
theorem and_wp (h : Draws R G avail p s m Q F E) {S : α → σ → Prop} (hS : wp R p S (fun _ _ => True) s) :
    Draws R G avail p s m (fun a t => Q a t ∧ S a t) (fun b a t => F b a t ∧ S a t) E where
  always := h.always
  enough hm := by
    apply wp_mono (wp_and (h.enough hm) hS)
    · intro a t ht
      exact ⟨ht.1.1, ht.1.2, ht.2⟩
    · intro e t ht
      exact ht.1
  short hm := by
    apply wp_mono (wp_and (h.short hm) hS)
    · intro a t ht
      exact ht
    · intro e t ht
      exact ht.1

/-- **The rule of sequence.**  The second part draws after the first; if the pool runs out during the first, the second
has to keep the rule without drawing. -/
theorem bind (hR : R.Total) {p : Prog Op Ans ε β} {f : β → Prog Op Ans ε α} {Q₁ : β → σ → Prop}
    {F₁ : Bool → β → σ → Prop} (hp : Draws R G avail p s m₁ Q₁ F₁ (fun _ _ => False))
    (hf : ∀ b t, avail t + m₁.length = avail s → Q₁ b t → Draws R G avail (f b) t m₂ Q F E)
    (hF : ∀ x b t, F₁ x b t → Always R G (f b) t ∧ wp R (f b) (F x) (fun _ _ => False) t) :
    Draws R G avail (p >>= f) s (m₁ ++ m₂) Q F E := by
  by_cases hle : m₁.length ≤ avail s
  · have hp₁ := hp.enough hle
    have hidx : (m₁ ++ m₂)[avail s]? = m₂[avail s - m₁.length]? := List.getElem?_append_right hle
    have havail : ∀ t, avail t + m₁.length = avail s → avail t = avail s - m₁.length := fun t ht => by omega
    refine ⟨?_, fun hm => ?_, fun hm => ?_⟩
    · rw [hidx, always_bind]
      constructor
      · intro h
        obtain ⟨b, t, hrun, ht, hb⟩ := hR.exists_ret hp₁
        have hkeep := (hf b t ht hb).always.mp (wp_iff_ends.mp h.2 _ _ hrun)
        rwa [havail t ht] at hkeep
      · intro h
        refine ⟨hp.always.mpr ?_, wp_mono hp₁ (fun b t ht => ?_) fun _ _ _ => trivial⟩
        · rw [List.getElem?_eq_none hle]
          simp
        · rw [(hf b t ht.1 ht.2).always, havail t ht.1]
          exact h
    · rw [List.length_append] at hm ⊢
      refine wp_seq (wp_mono hp₁ (fun _ _ => id) fun _ _ => False.elim) fun b t ht => ?_
      have hrest := (hf b t ht.1 ht.2).enough (by have := ht.1; omega)
      exact wp_mono_ret hrest fun a u hu => ⟨by have := ht.1; have := hu.1; omega, hu.2⟩
    · rw [List.getElem_append_right hle]
      rw [List.length_append] at hm
      refine wp_seq hp₁ fun b t ht => ?_
      have hrest := (hf b t ht.1 ht.2).short (by have := ht.1; omega)
      simp only [havail t ht.1] at hrest
      exact hrest
  · have hlt : avail s < m₁.length := by omega
    have hp₁ := hp.short hlt
    refine ⟨?_, fun hm => ?_, fun _ => ?_⟩
    · rw [List.getElem?_append_left hlt, always_bind, hp.always]
      constructor
      · intro h
        exact h.1
      · intro h
        exact ⟨h, wp_mono hp₁ (fun b t hb => (hF _ b t hb).1) fun _ _ _ => trivial⟩
    · rw [List.length_append] at hm
      omega
    · rw [List.getElem_append_left hlt]
      exact wp_seq hp₁ fun b t hb => (hF _ b t hb).2

/-- While the pool suffices the marks do not matter. -/
theorem relabel {m' : List Bool} (h : Draws R G avail p s m Q F E) (hlen : m'.length = m.length)
    (hle : m.length ≤ avail s) : Draws R G avail p s m' Q F' E where
  always := by
    rw [h.always, List.getElem?_eq_none hle, List.getElem?_eq_none (hlen.trans_le hle)]
  enough _ := by
    rw [hlen]
    exact h.enough hle
  short hm := by omega

/-- A last part that draws nothing. -/
theorem finish (hR : R.Total) {p : Prog Op Ans ε β} {f : β → Prog Op Ans ε α} {Q₁ : β → σ → Prop}
    {F₁ : Bool → β → σ → Prop} (hp : Draws R G avail p s m Q₁ F₁ (fun _ _ => False))
    (hf : ∀ b t, Q₁ b t → Always R G (f b) t ∧ wp R (f b) (fun a u => avail u = avail t ∧ Q a u) E t)
    (hF : ∀ x b t, F₁ x b t → Always R G (f b) t ∧ wp R (f b) (F x) (fun _ _ => False) t) :
    Draws R G avail (p >>= f) s m Q F E := by
  rw [← List.append_nil m]
  apply bind hR hp _ hF
  intro b t _ hb
  obtain ⟨hG, hw⟩ := hf b t hb
  exact of_nil hG hw

/-- A first part that draws nothing. -/
theorem seq (hR : R.Total) {p : Prog Op Ans ε β} {f : β → Prog Op Ans ε α} {I : β → σ → Prop}
    (hG : Always R G p s) (hp : wp R p (fun b t => avail t = avail s ∧ I b t) (fun _ _ => False) s)
    (hf : ∀ b t, avail t = avail s → I b t → Draws R G avail (f b) t m Q F E) :
    Draws R G avail (p >>= f) s m Q F E := by
  rw [← List.nil_append m]
  have hfirst : Draws R G avail p s [] I (fun _ _ _ => False) (fun _ _ => False) := of_nil hG hp
  apply bind hR hfirst
  · intro b t ht hb
    exact hf b t (by simpa using ht) hb
  · intro x b t hb
    exact hb.elim

/-- **The rule for bounded loops.**  Pass `i` draws the units `m i`; a pass that finds the pool empty leaves the loop. -/
theorem forUpTo (hR : R.Total) {body : ℕ → β → Prog Op Ans ε (β ⊕ γ)} (m : ℕ → List Bool) (I : ℕ → β → σ → Prop)
    (L : Bool → γ → σ → Prop) {last : ℕ}
    (hbody : ∀ i b s, i < last → I i b s →
      Draws R G avail (body i b) s (m i) (fun r t => ∃ b', r = .inl b' ∧ I (i + 1) b' t)
        (fun x r t => ∃ c, r = .inr c ∧ L x c t) (fun _ _ => False)) :
    ∀ n i b s, i + n = last → I i b s →
      Draws R G avail (Prog.forUpTo body n i b) s ((List.range' i n).flatMap m)
        (fun r t => ∃ b', r = .inl b' ∧ I last b' t) (fun x r t => ∃ c, r = .inr c ∧ L x c t) (fun _ _ => False) := by
  intro n
  induction n with
  | zero =>
    intro i b s hlast hI
    obtain rfl : i = last := by omega
    exact ret ⟨b, rfl, hI⟩
  | succ n ih =>
    intro i b s hlast hI
    rw [Prog.forUpTo, List.range'_succ, List.flatMap_cons]
    apply bind hR (hbody i b s (by omega) hI)
    · rintro r t _ ⟨b', rfl, hb'⟩
      exact ih (i + 1) b' t (by omega) hb'
    · rintro x r t ⟨c, rfl, hc⟩
      exact ⟨trivial, c, rfl, hc⟩

end Draws

end Prog
