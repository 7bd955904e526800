import Mathlib.Data.List.Sort
import Mathlib.Order.Defs.Unbundled

/-!
# Sorting by merging runs

A run is a piece of a list in which no element is less than the one before it.  A pass over a list merges its
longest runs by twos (`Pass`).  It has less descents then, so that a number of passes sorts it; and elements of which
neither is less stay in their order (`Pass.stable`, `Sorts.eq_insertionSort`).
-/

namespace Pintos.Runs

variable {α : Type} (less : α → α → Bool)

/-- `b` may stand behind `a`. -/
def InOrder (a b : α) : Prop := less b a = false

/-- `InOrder` as `List.merge` takes it. -/
def notAfter (a b : α) : Bool := !less b a

/-- If neither is less, the one of the lower rank comes first. -/
def Ranked (rank : α → ℕ) (a b : α) : Prop := less a b = false → less b a = false → rank a < rank b

/-- The list goes down from the end of `xs` to the start of `ys`. -/
def Falls (xs ys : List α) : Prop := ∀ x ∈ xs.getLast?, ∀ y ∈ ys.head?, less y x = true

/-- How often an element is less than the one before it. -/
def descents : List α → ℕ
  | a :: b :: l => (if less b a = true then 1 else 0) + descents (b :: l)
  | _ => 0

/-- A pass that has put out `n` runs.  Every run that it finds is as long as it can be. -/
inductive Pass : ℕ → List α → List α → Prop
  | nil : Pass 0 [] []
  | one {xs : List α} (hne : xs ≠ []) (hxs : xs.IsChain (InOrder less)) : Pass 1 xs xs
  | two {n : ℕ} {xs ys r r' : List α} (hxne : xs ≠ []) (hyne : ys ≠ []) (hxs : xs.IsChain (InOrder less))
      (hys : ys.IsChain (InOrder less)) (hxy : Falls less xs ys) (hyr : Falls less ys r) (rest : Pass n r r') :
      Pass (n + 1) (xs ++ (ys ++ r)) (xs.merge ys (notAfter less) ++ r')

variable {less} {xs ys r l l' : List α} {n : ℕ} {rank : α → ℕ}

theorem notAfter_iff {a b : α} : notAfter less a b = true ↔ InOrder less a b := by
  simp [notAfter, InOrder]

/-- A list starts with a run as long as it can be. -/
theorem exists_run (less : α → α → Bool) (t : α) (ts : List α) :
    ∃ xs r, ts = xs ++ r ∧ (t :: xs).IsChain (InOrder less) ∧ Falls less (t :: xs) r := by
  induction ts generalizing t with
  | nil => exact ⟨[], [], rfl, .singleton t, by simp [Falls]⟩
  | cons u us ih =>
    by_cases hless : less u t = true
    · refine ⟨[], u :: us, rfl, .singleton t, ?_⟩
      simpa [Falls] using hless
    · obtain ⟨xs, r, rfl, hrun, hfalls⟩ := ih u
      refine ⟨u :: xs, r, rfl, .cons_cons (Bool.eq_false_iff.mpr hless) hrun, ?_⟩
      intro x hx
      apply hfalls x
      rwa [List.getLast?_cons_cons] at hx

/-! ## Descents -/

theorem descents_eq_zero : descents less l = 0 ↔ l.IsChain (InOrder less) := by
  induction l with
  | nil => simp [descents]
  | cons a l ih =>
    cases l with
    | nil => simp [descents]
    | cons b l =>
      rw [descents, List.isChain_cons_cons, Nat.add_eq_zero_iff, ih]
      apply and_congr_left'
      simp [InOrder]

theorem descents_le_length (l : List α) : descents less l ≤ l.length := by
  induction l with
  | nil => exact le_rfl
  | cons a l ih =>
    cases l with
    | nil => exact Nat.zero_le _
    | cons b l =>
      rw [descents, List.length_cons]
      split <;> omega

theorem descents_append_le (xs ys : List α) : descents less (xs ++ ys) ≤ descents less xs + 1 + descents less ys := by
  induction xs with
  | nil => simp
  | cons a xs ih =>
    cases xs with
    | nil =>
      cases ys with
      | nil => simp [descents]
      | cons b ys =>
        rw [List.singleton_append, descents]
        split <;> simp [descents]
    | cons b xs =>
      rw [List.cons_append, List.cons_append, descents, descents, ← List.cons_append]
      omega

theorem descents_append (hxs : xs ≠ []) (hys : ys ≠ []) (hfalls : Falls less xs ys) :
    descents less (xs ++ ys) = descents less xs + 1 + descents less ys := by
  induction xs with
  | nil => exact absurd rfl hxs
  | cons a xs ih =>
    cases xs with
    | nil =>
      obtain ⟨b, ys, rfl⟩ := List.exists_cons_of_ne_nil hys
      have hless : less b a = true := hfalls a rfl b rfl
      rw [List.singleton_append, descents, if_pos hless]
      rfl
    | cons b xs =>
      have ih := ih (List.cons_ne_nil _ _) fun x hx => hfalls x (by rwa [List.getLast?_cons_cons])
      rw [List.cons_append, List.cons_append, descents, descents, ← List.cons_append, ih]
      omega

/-! ## A pass -/

theorem Pass.perm (h : Pass less n l l') : l'.Perm l := by
  induction h with
  | nil => exact .nil
  | one => exact .refl _
  | @two n xs ys r r' _ _ _ _ _ _ _ ih =>
    rw [← List.append_assoc]
    exact (List.merge_perm_append (notAfter less)).append ih

theorem Pass.eq_nil (h : Pass less 0 l l') : l = [] ∧ l' = [] := by
  cases h with
  | nil => exact ⟨rfl, rfl⟩

theorem Pass.eq_zero (h : Pass less n l l') (hl : l = []) : n = 0 := by
  cases h with
  | nil => rfl
  | one hne => exact absurd hl hne
  | two hxne => exact absurd (List.append_eq_nil_iff.mp hl).1 hxne

/-- There are two runs at least for every one that is put out, except for the last one. -/
theorem Pass.two_mul_le (h : Pass less n l l') : 2 * n ≤ descents less l + 2 := by
  induction h with
  | nil => exact Nat.zero_le _
  | one => exact Nat.le_add_left 2 _
  | @two n xs ys r r' hxne hyne hxs hys hxy hyr rest ih =>
    have hfalls : Falls less xs (ys ++ r) := by
      intro x hx y hy
      rw [List.head?_append_of_ne_nil _ hyne] at hy
      exact hxy x hx y hy
    rw [descents_append hxne (List.append_ne_nil_of_left_ne_nil hyne r) hfalls]
    by_cases hr : r = []
    · have hzero := rest.eq_zero hr
      omega
    · rw [descents_append hyne hr hyr]
      omega

section

variable [IsStrictWeakOrder α fun a b => less a b = true]

theorem InOrder.trans {a b c : α} (hab : InOrder less a b) (hbc : InOrder less b c) : InOrder less a c := by
  unfold InOrder at *
  by_contra hca
  have hca : less c a = true := Bool.eq_true_of_not_eq_false hca
  -- what is not less than `b` is not less than what is less than `b`
  have hasymm : ∀ x y, less x y = true → ¬less y x = true := fun x y =>
    Std.Asymm.asymm (r := fun a b => less a b = true) x y
  have htrans : ∀ x y z, less x y = true → less y z = true → less x z = true := fun x y z =>
    IsTrans.trans (r := fun a b => less a b = true) x y z
  have hincomp : ∀ x y z, ¬less x y = true ∧ ¬less y x = true → ¬less y z = true ∧ ¬less z y = true →
      ¬less x z = true ∧ ¬less z x = true :=
    IsStrictWeakOrder.incomp_trans
  have hba : ¬less b a = true := Bool.eq_false_iff.mp hab
  have hcb : ¬less c b = true := Bool.eq_false_iff.mp hbc
  by_cases hab' : less a b = true
  · exact hcb (htrans c a b hca hab')
  · by_cases hbc' : less b c = true
    · exact hba (htrans b c a hbc' hca)
    · have hno := hincomp a b c ⟨hab', hba⟩ ⟨hbc', hcb⟩
      exact hno.2 hca

theorem inOrder_total (a b : α) : InOrder less a b ∨ InOrder less b a := by
  unfold InOrder
  by_cases hba : less b a = true
  · exact .inr (Bool.eq_false_iff.mpr (Std.Asymm.asymm (r := fun a b => less a b = true) b a hba))
  · exact .inl (Bool.eq_false_iff.mpr hba)

theorem run_pairwise (h : l.IsChain (InOrder less)) : l.Pairwise (InOrder less) := by
  have : IsTrans α (InOrder less) := ⟨fun _ _ _ => InOrder.trans⟩
  exact h.pairwise

/-- Two runs are merged to one. -/
theorem merge_run (hxs : xs.IsChain (InOrder less)) (hys : ys.IsChain (InOrder less)) :
    (xs.merge ys (notAfter less)).IsChain (InOrder less) := by
  have hpairwise : (xs.merge ys (notAfter less)).Pairwise fun a b => notAfter less a b = true := by
    apply List.pairwise_merge
    · intro a b c hab hbc
      exact notAfter_iff.mpr ((notAfter_iff.mp hab).trans (notAfter_iff.mp hbc))
    · intro a b
      rw [Bool.or_eq_true, notAfter_iff, notAfter_iff]
      exact inOrder_total a b
    · exact (run_pairwise hxs).imp notAfter_iff.mpr
    · exact (run_pairwise hys).imp notAfter_iff.mpr
  exact (hpairwise.imp notAfter_iff.mp).isChain

/-- The order of elements of which neither is less. -/
theorem merge_ranked (hxs : xs.Pairwise (InOrder less)) (hys : ys.Pairwise (InOrder less))
    (h : (xs ++ ys).Pairwise (Ranked less rank)) : (xs.merge ys (notAfter less)).Pairwise (Ranked less rank) := by
  induction xs generalizing ys with
  | nil => simpa using h
  | cons x xs ihx =>
    induction ys with
    | nil => simpa using h
    | cons y ys ihy =>
      obtain ⟨hx, hxs'⟩ := List.pairwise_cons.mp hxs
      obtain ⟨hy, hys'⟩ := List.pairwise_cons.mp hys
      obtain ⟨hrx, hry, hcross⟩ := List.pairwise_append.mp h
      rw [List.cons_merge_cons]
      split
      · apply List.Pairwise.cons
        · intro z hz
          rcases List.mem_merge.mp hz with hz | hz
          · exact List.rel_of_pairwise_cons hrx hz
          · exact hcross x List.mem_cons_self z hz
        · apply ihx hxs' hys
          rw [List.cons_append] at h
          exact h.of_cons
      · rename_i hno
        have hyx : less y x = true := by
          by_contra hyx
          exact hno (notAfter_iff.mpr (Bool.eq_false_iff.mpr hyx))
        apply List.Pairwise.cons
        · intro z hz hyz hzy
          rcases List.mem_merge.mp hz with hz | hz
          · -- `y` is less than everything that is left of `xs`
            have hxz : InOrder less x z := by
              rcases List.mem_cons.mp hz with rfl | hz
              · exact Bool.eq_false_iff.mpr (Std.Irrefl.irrefl (r := fun a b => less a b = true) z)
              · exact hx z hz
            have hxy : InOrder less x y := hxz.trans hyz
            rw [InOrder, hyx] at hxy
            cases hxy
          · exact List.rel_of_pairwise_cons hry hz hyz hzy
        · apply ihy hys'
          apply List.pairwise_append.mpr
          exact ⟨hrx, hry.of_cons, fun a ha b hb => hcross a ha b (List.mem_cons_of_mem _ hb)⟩

/-- **A pass keeps the order of elements of which neither is less.** -/
theorem Pass.stable (h : Pass less n l l') (hl : l.Pairwise (Ranked less rank)) : l'.Pairwise (Ranked less rank) := by
  induction h with
  | nil => exact hl
  | one => exact hl
  | @two n xs ys r r' _ _ hxs hys _ _ rest ih =>
    rw [← List.append_assoc] at hl
    obtain ⟨hxy, hr, hcross⟩ := List.pairwise_append.mp hl
    apply List.pairwise_append.mpr
    refine ⟨merge_ranked (run_pairwise hxs) (run_pairwise hys) hxy, ih hr, fun a ha b hb => ?_⟩
    exact hcross a ((List.merge_perm_append (notAfter less)).mem_iff.mp ha) b (rest.perm.mem_iff.mp hb)

/-- The runs that are put out may stand together in longer ones. -/
theorem Pass.descents_le (h : Pass less n l l') : descents less l' ≤ n - 1 := by
  induction h with
  | nil => exact Nat.zero_le _
  | one _ hxs => exact (descents_eq_zero.mpr hxs).le
  | @two n xs ys r r' _ _ hxs hys _ _ rest ih =>
    have hmerge := descents_eq_zero.mpr (merge_run hxs hys)
    cases n with
    | zero =>
      obtain ⟨-, rfl⟩ := rest.eq_nil
      rw [List.append_nil, hmerge]
    | succ n =>
      have hle : descents less (xs.merge ys (notAfter less) ++ r') ≤ _ := descents_append_le _ _
      omega

/-- **A pass that puts out more than one run leaves less descents.** -/
theorem Pass.descents_lt (h : Pass less n l l') (hn : 1 < n) : descents less l' < descents less l := by
  have hle := h.descents_le
  have hmul := h.two_mul_le
  omega

/-- One that puts out one run leaves the list in order. -/
theorem Pass.run (h : Pass less n l l') (hn : ¬1 < n) : l'.IsChain (InOrder less) := by
  apply descents_eq_zero.mp
  have hle := h.descents_le
  omega

end

/-! ## The result -/

/-- `l'` is `l` in order, with the elements of which neither is less in the order that they had. -/
structure Sorts (less : α → α → Bool) (l l' : List α) : Prop where
  perm : l'.Perm l
  run : l'.IsChain (InOrder less)
  stable : ∀ rank, l.Pairwise (Ranked less rank) → l'.Pairwise (Ranked less rank)

/-- The rank of an element may be its place in the list. -/
theorem ranked_idxOf [DecidableEq α] (hl : l.Nodup) : l.Pairwise (Ranked less (l.idxOf ·)) := by
  apply List.pairwise_iff_getElem.mpr
  intro i j hi hj hij _ _
  show l.idxOf l[i] < l.idxOf l[j]
  rw [hl.idxOf_getElem, hl.idxOf_getElem]
  exact hij

section

variable [IsStrictWeakOrder α fun a b => less a b = true]

theorem Pass.sorts (h : Pass less n l l') (hn : ¬1 < n) : Sorts less l l' := ⟨h.perm, h.run hn, fun _ => h.stable⟩

/-- Another pass before. -/
theorem Sorts.after {l₁ : List α} (h : Sorts less l₁ l') (hpass : Pass less n l l₁) : Sorts less l l' :=
  ⟨h.perm.trans hpass.perm, h.run, fun rank hl => h.stable rank (hpass.stable hl)⟩

instance inOrderTotal : Std.Total fun a b => less b a = false := ⟨fun a b => inOrder_total a b⟩

instance inOrderTrans : IsTrans α fun a b => less b a = false := ⟨fun _ _ _ => InOrder.trans⟩

omit [IsStrictWeakOrder α fun a b => less a b = true] in
theorem orderedInsert_ranked {a : α} (ha : ∀ b ∈ l, Ranked less rank a b) (hl : l.Pairwise (Ranked less rank)) :
    (l.orderedInsert (fun a b => less b a = false) a).Pairwise (Ranked less rank) := by
  induction l with
  | nil => exact List.pairwise_singleton _ _
  | cons b l ih =>
    obtain ⟨hb, hl'⟩ := List.pairwise_cons.mp hl
    rw [List.orderedInsert]
    split
    · exact List.pairwise_cons.mpr ⟨ha, hl⟩
    · rename_i hno
      apply List.pairwise_cons.mpr
      refine ⟨fun c hc => ?_, ih (fun c hc => ha c (List.mem_cons_of_mem _ hc)) hl'⟩
      rcases (List.mem_orderedInsert _).mp hc with rfl | hc
      · exact fun hbc _ => absurd hbc hno
      · exact hb c hc

/-- Insertion sort is one that does so. -/
theorem sorts_insertionSort (l : List α) : Sorts less l (l.insertionSort fun a b => less b a = false) := by
  refine ⟨List.perm_insertionSort _ l, ?_, fun rank hl => ?_⟩
  · exact (List.pairwise_insertionSort (fun a b => less b a = false) l).isChain
  · induction l with
    | nil => exact List.Pairwise.nil
    | cons a l ih =>
      obtain ⟨ha, hl⟩ := List.pairwise_cons.mp hl
      rw [List.insertionSort_cons]
      apply orderedInsert_ranked _ (ih hl)
      intro b hb
      exact ha b ((List.perm_insertionSort _ l).mem_iff.mp hb)

/-- **There is one result only.** -/
theorem Sorts.unique {l₁ l₂ : List α} (h₁ : Sorts less l l₁) (h₂ : Sorts less l l₂) (hl : l.Nodup) : l₁ = l₂ := by
  classical
  have hrank : l.Pairwise (Ranked less (l.idxOf ·)) := ranked_idxOf hl
  have hanti : ∀ a b, a ∈ l₁ → b ∈ l₂ → (InOrder less a b ∧ Ranked less (l.idxOf ·) a b) →
      (InOrder less b a ∧ Ranked less (l.idxOf ·) b a) → a = b := by
    intro a b _ _ hab hba
    have hlt := hab.2 hba.1 hab.1
    have hgt := hba.2 hab.1 hba.1
    omega
  exact (h₁.perm.trans h₂.perm.symm).eq_of_pairwise hanti ((run_pairwise h₁.run).and (h₁.stable _ hrank))
    ((run_pairwise h₂.run).and (h₂.stable _ hrank))

/-- **It is the one of insertion sort.** -/
theorem Sorts.eq_insertionSort (h : Sorts less l l') (hl : l.Nodup) :
    l' = l.insertionSort fun a b => less b a = false :=
  h.unique (sorts_insertionSort l) hl

/-- The first element of the result: everything is behind it, and strictly so what has been before it. -/
theorem Sorts.head {t : α} {ts : List α} (h : Sorts less l (t :: ts)) (hl : l.Nodup) :
    ∃ xs r, l = xs ++ t :: r ∧ (∀ u ∈ xs, less t u = true) ∧ (∀ u ∈ r, less u t = false) ∧ ts.Perm (xs ++ r) := by
  classical
  obtain ⟨xs, r, rfl⟩ := List.append_of_mem (h.perm.mem_iff.mp List.mem_cons_self)
  have hts : ts.Perm (xs ++ r) := (h.perm.trans List.perm_middle).cons_inv
  have hfirst : ∀ u ∈ ts, less u t = false := fun u hu => List.rel_of_pairwise_cons (run_pairwise h.run) hu
  refine ⟨xs, r, rfl, fun u hu => ?_, fun u hu => ?_, hts⟩
  · by_contra htu
    -- neither is less, so that the rank decides, which is the place in the list
    have hranked := h.stable ((xs ++ t :: r).idxOf ·) (ranked_idxOf hl)
    have hut : u ∈ ts := hts.mem_iff.mpr (List.mem_append_left r hu)
    have hlt : (xs ++ t :: r).idxOf t < (xs ++ t :: r).idxOf u :=
      List.rel_of_pairwise_cons hranked hut (Bool.eq_false_iff.mpr htu) (hfirst u hut)
    have htxs : t ∉ xs := fun ht => (List.nodup_append.mp hl).2.2 t ht t List.mem_cons_self rfl
    have hle : (xs ++ t :: r).idxOf u < xs.length := by
      rw [List.idxOf_append_of_mem hu]
      exact List.idxOf_lt_length_of_mem hu
    have heq : (xs ++ t :: r).idxOf t = xs.length := by
      rw [List.idxOf_append_of_notMem htxs, List.idxOf_cons_self, Nat.add_zero]
    omega
  · exact hfirst u (hts.mem_iff.mpr (List.mem_append_right xs hu))

omit [IsStrictWeakOrder α fun a b => less a b = true] in
/-- A list that is in order already stays as it is. -/
theorem Sorts.of_run (h : l.IsChain (InOrder less)) : Sorts less l l := ⟨.refl l, h, fun _ => id⟩

omit [IsStrictWeakOrder α fun a b => less a b = true] in
/-- Of two elements one is before the other. -/
theorem sublist_or_sublist {a b : α} (ha : a ∈ l) (hb : b ∈ l) (hne : a ≠ b) : [a, b].Sublist l ∨ [b, a].Sublist l := by
  obtain ⟨xs, r, rfl⟩ := List.append_of_mem ha
  rcases List.mem_append.mp hb with hb | hb
  · right
    exact (List.singleton_sublist.mpr hb).append (List.singleton_sublist.mpr List.mem_cons_self)
  · left
    have hbr : b ∈ r := (List.mem_cons.mp hb).resolve_left (Ne.symm hne)
    exact ((List.singleton_sublist.mpr hbr).cons_cons a).trans (List.sublist_append_right xs (a :: r))

omit [IsStrictWeakOrder α fun a b => less a b = true] in
theorem idxOf_lt_of_sublist [DecidableEq α] {a b : α} (hl : l.Nodup) (hab : [a, b].Sublist l) :
    l.idxOf a < l.idxOf b := by
  have hranked : l.Pairwise (Ranked (fun _ _ => false) (l.idxOf ·)) := ranked_idxOf hl
  exact List.pairwise_iff_forall_sublist.mp hranked hab rfl rfl

omit [IsStrictWeakOrder α fun a b => less a b = true] in
theorem not_sublist {a b : α} (hl : l.Nodup) (hab : [a, b].Sublist l) : ¬[b, a].Sublist l := by
  classical
  intro hba
  exact lt_asymm (idxOf_lt_of_sublist hl hab) (idxOf_lt_of_sublist hl hba)

/-- Sorting turns two elements round if the second one is less than the first, and only then. -/
theorem Sorts.sublist {a b : α} (h : Sorts less l l') (hl : l.Nodup) (hab : [a, b].Sublist l) :
    if less b a = true then [b, a].Sublist l' else [a, b].Sublist l' := by
  classical
  have hne : a ≠ b := fun heq => by
    rw [heq] at hab
    exact lt_irrefl _ (idxOf_lt_of_sublist hl hab)
  have ha : a ∈ l' := h.perm.mem_iff.mpr (hab.subset List.mem_cons_self)
  have hb : b ∈ l' := h.perm.mem_iff.mpr (hab.subset (List.mem_cons_of_mem _ List.mem_cons_self))
  have horder : ∀ {x y : α}, [x, y].Sublist l' → InOrder less x y :=
    List.pairwise_iff_forall_sublist.mp (run_pairwise h.run)
  have hranked : ∀ {x y : α}, [x, y].Sublist l' → Ranked less (l.idxOf ·) x y :=
    List.pairwise_iff_forall_sublist.mp (h.stable (l.idxOf ·) (ranked_idxOf hl))
  rcases sublist_or_sublist ha hb hne with hab' | hba'
  · have hba : less b a = false := horder hab'
    rw [if_neg (Bool.eq_false_iff.mp hba)]
    exact hab'
  · split
    · exact hba'
    · rename_i hba
      -- neither is less, so that the rank decides, which is the place in the list
      have hlt : l.idxOf b < l.idxOf a := hranked hba' (Bool.eq_false_iff.mpr hba) (horder hba')
      exact absurd hlt (lt_asymm (idxOf_lt_of_sublist hl hab))

/-- **What holds between the elements of the sorted list**, said of the list as it was. -/
theorem Sorts.pairwise_iff {R : α → α → Prop} (h : Sorts less l l') (hl : l.Nodup) :
    l'.Pairwise R ↔ l.Pairwise fun a b => if less b a = true then R b a else R a b := by
  rw [List.pairwise_iff_forall_sublist, List.pairwise_iff_forall_sublist]
  constructor
  · intro hR a b hab
    have hsorted := h.sublist hl hab
    split at hsorted
    · rename_i hba
      rw [if_pos hba]
      exact hR hsorted
    · rename_i hba
      rw [if_neg hba]
      exact hR hsorted
  · intro hR a b hab'
    have hl' : l'.Nodup := h.perm.nodup_iff.mpr hl
    have hne : a ≠ b := fun heq => by
      rw [heq] at hab'
      exact not_sublist hl' hab' hab'
    have ha : a ∈ l := h.perm.mem_iff.mp (hab'.subset List.mem_cons_self)
    have hb : b ∈ l := h.perm.mem_iff.mp (hab'.subset (List.mem_cons_of_mem _ List.mem_cons_self))
    rcases sublist_or_sublist ha hb hne with hab | hba
    · have hsorted := h.sublist hl hab
      have hrel := hR hab
      split at hsorted
      · exact absurd hsorted (not_sublist hl' hab')
      · rename_i hno
        rwa [if_neg hno] at hrel
    · have hsorted := h.sublist hl hba
      have hrel := hR hba
      split at hsorted
      · rename_i hless
        rwa [if_pos hless] at hrel
      · exact absurd hsorted (not_sublist hl' hab')

end

end Pintos.Runs
