import Mathlib.Tactic

/-!
# The runs of a list

A run is a longest non-empty stretch of a list with a property.  `runs` lists them by their places, as a scanner comes
upon them: in order (`runs_ordered`) and without leaving one out (`mem_runs`).
-/

namespace TokenRuns

variable {α : Type} {p : α → Bool} {L l : List α} {c : α} {a b i k : ℕ}

/-- No run goes on across a place. -/
def Closed (p : α → Bool) (L : List α) (i : ℕ) : Prop := ∀ c, 0 < i → L[i - 1]? = some c → p c = false

/-- The places from `a` on and below `b` are a run. -/
structure IsRun (p : α → Bool) (L : List α) (a b : ℕ) : Prop where
  nonempty : a < b
  inside : ∀ k, a ≤ k → k < b → ∃ c, L[k]? = some c ∧ p c = true
  before : Closed p L a
  after : ∀ c, L[b]? = some c → p c = false

/-- All runs, in order. -/
structure MaximalRuns (p : α → Bool) (L : List α) (rs : List (ℕ × ℕ)) : Prop where
  mem : ∀ a b, (a, b) ∈ rs ↔ IsRun p L a b
  ordered : rs.Pairwise fun r r' => r.2 < r'.1

/-- The runs of what is left of a list; a run that has begun before is named by its start. -/
def runsFrom (p : α → Bool) : Option ℕ → ℕ → List α → List (ℕ × ℕ)
  | none, _, [] => []
  | some i, k, [] => [(i, k)]
  | none, k, c :: l => if p c then runsFrom p (some k) (k + 1) l else runsFrom p none (k + 1) l
  | some i, k, c :: l => if p c then runsFrom p (some i) (k + 1) l else (i, k) :: runsFrom p none (k + 1) l

def runs (p : α → Bool) (l : List α) : List (ℕ × ℕ) := runsFrom p none 0 l

/-- What has been read of a run that has begun. -/
structure Opened (p : α → Bool) (L : List α) (i k : ℕ) : Prop where
  nonempty : i < k
  inside : ∀ m, i ≤ m → m < k → ∃ c, L[m]? = some c ∧ p c = true
  before : Closed p L i

/-! ## The places -/

theorem getElem?_of_drop (h : L.drop k = c :: l) : L[k]? = some c := by
  have hhead : (L.drop k)[0]? = some c := by rw [h]; rfl
  rwa [List.getElem?_drop, Nat.add_zero] at hhead

theorem drop_succ (h : L.drop k = c :: l) : L.drop (k + 1) = l := by
  rw [← List.drop_drop, h]
  rfl

theorem IsRun.end_le_of (h : IsRun p L a b) (hc : L[k]? = some c) (hp : p c = false) (hk : a ≤ k) : b ≤ k := by
  by_contra hlt
  obtain ⟨c', hc', hp'⟩ := h.inside k hk (Nat.not_le.mp hlt)
  rw [hc, Option.some_inj] at hc'
  rw [hc', hp'] at hp
  exact Bool.noConfusion hp

theorem IsRun.end_le (h : IsRun p L a b) : b ≤ L.length := by
  have hab := h.nonempty
  obtain ⟨c, hc, _⟩ := h.inside (b - 1) (by omega) (by omega)
  obtain ⟨hlt, _⟩ := List.getElem?_eq_some_iff.mp hc
  omega

/-- No run ends inside of a run. -/
theorem IsRun.end_ne {a' b' : ℕ} (h : IsRun p L a b) (h' : IsRun p L a' b') (hk : a ≤ k) (hkb : k < b) : b' ≠ k := by
  rintro rfl
  obtain ⟨c, hc, hp⟩ := h.inside b' hk hkb
  rw [h'.after c hc] at hp
  exact Bool.noConfusion hp

theorem Opened.start (hc : L[k]? = some c) (hp : p c = true) (hclosed : Closed p L k) : Opened p L k (k + 1) where
  nonempty := Nat.lt_succ_self k
  inside m hm hlt := by
    obtain rfl : m = k := by omega
    exact ⟨c, hc, hp⟩
  before := hclosed

theorem Opened.step (h : Opened p L i k) (hc : L[k]? = some c) (hp : p c = true) : Opened p L i (k + 1) where
  nonempty := Nat.lt_succ_of_lt h.nonempty
  inside m hm hlt := by
    rcases Nat.lt_succ_iff_lt_or_eq.mp hlt with hmk | rfl
    · exact h.inside m hm hmk
    · exact ⟨c, hc, hp⟩
  before := h.before

theorem Opened.isRun (h : Opened p L i k) (hafter : ∀ c, L[k]? = some c → p c = false) : IsRun p L i k where
  nonempty := h.nonempty
  inside := h.inside
  before := h.before
  after := hafter

/-- Where a run ends, the runs from its start on are this one and those behind. -/
theorem Opened.ends (h : Opened p L i k) (hafter : ∀ c, L[k]? = some c → p c = false) :
    IsRun p L a b ∧ i ≤ a ↔ (a, b) = (i, k) ∨ IsRun p L a b ∧ k + 1 ≤ a := by
  constructor
  · rintro ⟨hrun, hia⟩
    by_cases hlt : k + 1 ≤ a
    · exact Or.inr ⟨hrun, hlt⟩
    · left
      have ha : a = i := by
        by_contra hne
        obtain ⟨c, hc, hp⟩ := h.inside (a - 1) (by omega) (by omega)
        rw [hrun.before c (by omega) hc] at hp
        exact Bool.noConfusion hp
      have hb : b = k := by
        rcases Nat.lt_trichotomy b k with hbk | hbk | hbk
        · obtain ⟨c, hc, hp⟩ := h.inside b (by have := hrun.nonempty; omega) hbk
          rw [hrun.after c hc] at hp
          exact Bool.noConfusion hp
        · exact hbk
        · have hik := h.nonempty
          obtain ⟨c, hc, hp⟩ := hrun.inside k (by omega) hbk
          rw [hafter c hc] at hp
          exact Bool.noConfusion hp
      rw [ha, hb]
  · rintro (heq | ⟨hrun, hka⟩)
    · cases heq
      exact ⟨h.isRun hafter, le_rfl⟩
    · have hik := h.nonempty
      exact ⟨hrun, by omega⟩

/-! ## The scanner -/

/-- What the scanner knows: no run is cut in front of it, or one has begun. -/
def Scanned (p : α → Bool) (L : List α) (k : ℕ) : Option ℕ → Prop
  | none => Closed p L k
  | some i => Opened p L i k

theorem mem_runsFrom {s : Option ℕ} (hl : L.drop k = l) (h : Scanned p L k s) :
    (a, b) ∈ runsFrom p s k l ↔ IsRun p L a b ∧ s.getD k ≤ a := by
  induction l generalizing s k with
  | nil =>
    have hlen : L.length ≤ k := List.drop_eq_nil_iff.mp hl
    have hend : ∀ c, L[k]? = some c → p c = false := by
      intro c hc
      rw [List.getElem?_eq_none hlen] at hc
      cases hc
    have hbehind : ∀ m, IsRun p L a b → k ≤ m → m ≤ a → False := by
      intro m hrun hkm hma
      obtain ⟨c, hc, _⟩ := hrun.inside a le_rfl hrun.nonempty
      rw [List.getElem?_eq_none (by omega)] at hc
      cases hc
    cases s with
    | none =>
      constructor
      · intro hmem
        exact absurd hmem List.not_mem_nil
      · rintro ⟨hrun, hka⟩
        exact (hbehind k hrun le_rfl hka).elim
    | some i =>
      rw [runsFrom, List.mem_singleton, Option.getD_some, Opened.ends h hend]
      constructor
      · intro heq
        exact Or.inl heq
      · rintro (heq | ⟨hrun, hka⟩)
        · exact heq
        · exact (hbehind (k + 1) hrun (Nat.le_succ k) hka).elim
  | cons c l ih =>
    have hc := getElem?_of_drop hl
    have hl' := drop_succ hl
    cases hp : p c with
    | true =>
      cases s with
      | none => rw [runsFrom, if_pos hp, ih (s := some k) hl' (Opened.start hc hp h)]; rfl
      | some i => rw [runsFrom, if_pos hp, ih (s := some i) hl' (Opened.step h hc hp)]; rfl
    | false =>
      have hclosed : Closed p L (k + 1) := by
        intro c' _ hc'
        rw [Nat.add_sub_cancel, hc, Option.some_inj] at hc'
        rw [← hc', hp]
      have hend : ∀ c', L[k]? = some c' → p c' = false := by
        intro c' hc'
        rw [hc, Option.some_inj] at hc'
        rw [← hc', hp]
      have hnot : ¬p c = true := by rw [hp]; exact Bool.false_ne_true
      cases s with
      | none =>
        rw [runsFrom, if_neg hnot, ih (s := none) hl' hclosed, Option.getD_none, Option.getD_none]
        constructor
        · rintro ⟨hrun, hka⟩
          exact ⟨hrun, by omega⟩
        · rintro ⟨hrun, hka⟩
          refine ⟨hrun, ?_⟩
          by_contra hlt
          have hle := hrun.end_le_of hc hp (by omega)
          have hab := hrun.nonempty
          omega
      | some i =>
        rw [runsFrom, if_neg hnot, List.mem_cons, ih (s := none) hl' hclosed, Option.getD_some, Opened.ends h hend]
        rfl

theorem mem_runs : (a, b) ∈ runs p L ↔ IsRun p L a b := by
  have hclosed : Scanned p L 0 none := fun c hpos _ => absurd hpos (Nat.lt_irrefl 0)
  have hmem := mem_runsFrom (a := a) (b := b) (List.drop_zero (l := L)) hclosed
  constructor
  · intro h
    exact (hmem.mp h).1
  · intro h
    exact hmem.mpr ⟨h, Nat.zero_le a⟩

/-- A run that has begun is a run. -/
theorem runsFrom_some_ne_nil (p : α → Bool) (i k : ℕ) (l : List α) : runsFrom p (some i) k l ≠ [] := by
  induction l generalizing k with
  | nil => exact List.cons_ne_nil _ _
  | cons c l ih =>
    rw [runsFrom]
    split
    · exact ih (k + 1)
    · exact List.cons_ne_nil _ _

theorem le_of_mem_runsFrom {s : Option ℕ} {r : ℕ × ℕ} (hs : s.getD k ≤ k) (h : r ∈ runsFrom p s k l) :
    s.getD k ≤ r.1 := by
  induction l generalizing s k with
  | nil =>
    cases s with
    | none => exact absurd h List.not_mem_nil
    | some i => rw [List.mem_singleton.mp h]; rfl
  | cons c l ih =>
    cases s with
    | none =>
      rw [runsFrom] at h
      split at h
      · exact ih (s := some k) (Nat.le_succ k) h
      · exact le_trans (Nat.le_succ k) (ih (s := none) le_rfl h)
    | some i =>
      have hik : i ≤ k := hs
      rw [runsFrom] at h
      split at h
      · exact ih (s := some i) (k := k + 1) (Nat.le_succ_of_le hik) h
      · rcases List.mem_cons.mp h with rfl | hmem
        · exact le_rfl
        · have hlt : k + 1 ≤ r.1 := ih (s := none) le_rfl hmem
          show i ≤ r.1
          omega

theorem runsFrom_ordered (s : Option ℕ) (k : ℕ) (l : List α) :
    (runsFrom p s k l).Pairwise fun r r' => r.2 < r'.1 := by
  induction l generalizing s k with
  | nil =>
    cases s with
    | none => exact List.Pairwise.nil
    | some i => exact List.pairwise_singleton _ _
  | cons c l ih =>
    cases s with
    | none =>
      rw [runsFrom]
      split
      · exact ih _ _
      · exact ih _ _
    | some i =>
      rw [runsFrom]
      split
      · exact ih _ _
      · apply List.Pairwise.cons
        · intro r hr
          exact le_of_mem_runsFrom (s := none) le_rfl hr
        · exact ih _ _

theorem runs_ordered (p : α → Bool) (l : List α) : (runs p l).Pairwise fun r r' => r.2 < r'.1 :=
  runsFrom_ordered none 0 l

theorem maximalRuns_runs (p : α → Bool) (L : List α) : MaximalRuns p L (runs p L) where
  mem _ _ := mem_runs
  ordered := runs_ordered p L

end TokenRuns
