import Pintos.Lib.ListSurgery
import Pintos.Library.MergeRuns

/-!
# Sorting linked lists

`list_sort` and `list_insert_ordered` of `lib/kernel/list.c` on the links.  `list_sort` is a natural merge sort: a pass
over the list merges its runs by twos, and the elements of the second one are spliced in front of those of the first
one that they are less than.
-/

namespace Pintos.Lib

variable {Q T : Type} [DecidableEq Q] [DecidableEq T]

namespace Links

/-! ## The code -/

omit [DecidableEq Q] [DecidableEq T] in
/-- `less (a, b, aux)`, which looks at what `a` and `b` are members of. -/
def lessElem (less : T → T → Bool) : ListElem Q T → ListElem Q T → Option Bool
  | .item a, .item b => some (less a b)
  | _, _ => none

/-- The loop of `is_sorted`. -/
def isSortedLoop (b : ListElem Q T) (less : T → T → Bool) : ℕ → ListElem Q T → Links Q T → Option Bool
  | 0, _, _ => none
  | fuel + 1, a, m => do
    let a ← m.listNext a
    if a = b then return true
    else
      let p ← m.listPrev a
      if ← lessElem less a p then return false else isSortedLoop b less fuel a m

/-- `is_sorted` -/
def isSorted (fuel : ℕ) (m : Links Q T) (a b : ListElem Q T) (less : T → T → Bool) : Option Bool :=
  if a = b then some true else isSortedLoop b less fuel a m

/-- The loop of `find_end_of_run`. -/
def findEndLoop (b : ListElem Q T) (less : T → T → Bool) : ℕ → ListElem Q T → Links Q T → Option (ListElem Q T)
  | 0, _, _ => none
  | fuel + 1, a, m => do
    let a ← m.listNext a
    if a = b then return a
    else
      let p ← m.listPrev a
      if ← lessElem less a p then return a else findEndLoop b less fuel a m

/-- `find_end_of_run` -/
def findEndOfRun (fuel : ℕ) (m : Links Q T) (a b : ListElem Q T) (less : T → T → Bool) : Option (ListElem Q T) :=
  if a = b then none else findEndLoop b less fuel a m

/-- The loop of `inplace_merge`. -/
def mergeLoop (b1 : ListElem Q T) (less : T → T → Bool) :
    ℕ → ListElem Q T → ListElem Q T → Links Q T → Option (Links Q T)
  | 0, _, _, _ => none
  | fuel + 1, a0, a1b0, m =>
    if a0 = a1b0 ∨ a1b0 = b1 then some m
    else do
      if ← lessElem less a1b0 a0 then
        let a1b0 ← m.listNext a1b0
        let first ← m.listPrev a1b0
        let m ← m.listSplice a0 first a1b0
        mergeLoop b1 less fuel a0 a1b0 m
      else
        let a0 ← m.listNext a0
        mergeLoop b1 less fuel a0 a1b0 m

/-- `inplace_merge` -/
def inplaceMerge (fuel : ℕ) (m : Links Q T) (a0 a1b0 b1 : ListElem Q T) (less : T → T → Bool) :
    Option (Links Q T) := do
  let sorted ← m.isSorted fuel a0 a1b0 less
  let sorted' ← m.isSorted fuel a1b0 b1 less
  if sorted && sorted' then mergeLoop b1 less fuel a0 a1b0 m else none

/-- The inner loop of `list_sort`, from `a0` on: `output_run_cnt` at its end, and the links. -/
def sortPass (q : Q) (less : T → T → Bool) (fuel : ℕ) : ℕ → ListElem Q T → ℕ → Links Q T → Option (ℕ × Links Q T)
  | 0, _, _, _ => none
  | n + 1, a0, outputRunCnt, m =>
    if a0 = .tail q then some (outputRunCnt, m)
    else do
      let a1b0 ← m.findEndOfRun fuel a0 (.tail q) less
      if a1b0 = .tail q then return (outputRunCnt + 1, m)
      else
        let b1 ← m.findEndOfRun fuel a1b0 (.tail q) less
        let m ← m.inplaceMerge fuel a0 a1b0 b1 less
        sortPass q less fuel n b1 (outputRunCnt + 1) m

/-- The outer loop of `list_sort`. -/
def sortLoop (q : Q) (less : T → T → Bool) (fuel : ℕ) : ℕ → Links Q T → Option (Links Q T)
  | 0, _ => none
  | n + 1, m => do
    let begin ← m.next (.head q)
    let (outputRunCnt, m) ← sortPass q less fuel fuel begin 0 m
    if outputRunCnt > 1 then sortLoop q less fuel n m else return m

/-- `list_sort` -/
def listSort (fuel : ℕ) (m : Links Q T) (q : Q) (less : T → T → Bool) : Option (Links Q T) := do
  let m ← sortLoop q less fuel fuel m
  let begin ← m.next (.head q)
  if ← m.isSorted fuel begin (.tail q) less then return m else none

/-- The loop of `list_insert_ordered`, from `e` on. -/
def insertOrderedLoop (q : Q) (elem : T) (less : T → T → Bool) :
    ℕ → ListElem Q T → Links Q T → Option (Links Q T)
  | 0, _, _ => none
  | fuel + 1, e, m =>
    if e = .tail q then m.listInsert e (.item elem)
    else do
      if ← lessElem less (.item elem) e then m.listInsert e (.item elem)
      else
        let e ← m.listNext e
        insertOrderedLoop q elem less fuel e m

/-- `list_insert_ordered` -/
def listInsertOrdered (fuel : ℕ) (m : Links Q T) (q : Q) (elem : T) (less : T → T → Bool) :
    Option (Links Q T) := do
  let begin ← m.next (.head q)
  insertOrderedLoop q elem less fuel begin m

/-! ## Runs -/

open Runs

variable {m : Links Q T} {lists : Set Q} {f : Q → List T} {q : Q} {t : T} {l r xs ys : List T}
  {less : T → T → Bool} {fuel : ℕ}

omit [DecidableEq Q] [DecidableEq T] in
/-- The neighbours of an item, at both of which a loop over a run looks. -/
theorem Holds.step (h : m.Holds lists f) (hq : q ∈ lists) {u : T} (hf : f q = l ++ t :: u :: r) :
    m.listNext (.item t) = some (.item u) ∧ m.listPrev (.item u) = some (.item t) := by
  refine ⟨h.listNext hq hf, ?_⟩
  rw [List.append_cons] at hf
  apply h.listPrev (r := u :: r) hq hf
  exact List.getLast?_concat

/-- The loop of `is_sorted` over a run. -/
theorem Holds.isSortedLoop (h : m.Holds lists f) (hd : DisjointLists f) (hq : q ∈ lists)
    (hf : f q = l ++ t :: (xs ++ r)) (hrun : (t :: xs).IsChain (InOrder less)) (hfuel : xs.length < fuel) :
    Links.isSortedLoop (firstOf q r) less fuel (.item t) m = some true := by
  induction xs generalizing l t fuel with
  | nil =>
    obtain ⟨fuel, rfl⟩ := Nat.exists_eq_succ_of_ne_zero (Nat.ne_zero_of_lt hfuel)
    unfold Links.isSortedLoop
    rw [h.listNext hq hf]
    exact if_pos rfl
  | cons u xs ih =>
    obtain ⟨fuel, rfl⟩ := Nat.exists_eq_succ_of_ne_zero (Nat.ne_zero_of_lt hfuel)
    obtain ⟨hnext, hprev⟩ := h.step hq hf
    obtain ⟨hless, hrun⟩ := List.isChain_cons_cons.mp hrun
    have hless : less u t = false := hless
    have hnodup := hd.nodup q
    rw [List.append_cons] at hf
    rw [hf] at hnodup
    have hsuffix : (u :: xs ++ r).Nodup := (List.nodup_append.mp hnodup).2.1
    have hne : (.item u : ListElem Q T) ≠ firstOf q r := firstOf_ne hsuffix (List.cons_ne_nil _ _)
    unfold Links.isSortedLoop
    rw [hnext]
    simp only [Option.bind_eq_bind, Option.bind_some, if_neg hne, hprev, lessElem, hless, Bool.false_eq_true, if_false]
    exact ih hf hrun (Nat.lt_of_succ_lt_succ hfuel)

/-- `is_sorted` of a run. -/
theorem Holds.isSorted (h : m.Holds lists f) (hd : DisjointLists f) (hq : q ∈ lists) (hf : f q = l ++ (xs ++ r))
    (hrun : xs.IsChain (InOrder less)) (hfuel : xs.length < fuel) :
    m.isSorted fuel (firstOf q (xs ++ r)) (firstOf q r) less = some true := by
  unfold Links.isSorted
  cases xs with
  | nil => exact if_pos rfl
  | cons t xs =>
    have hnodup := hd.nodup q
    rw [hf] at hnodup
    rw [if_neg (firstOf_ne (List.nodup_append.mp hnodup).2.1 (List.cons_ne_nil _ _))]
    exact h.isSortedLoop hd hq hf hrun (Nat.lt_of_succ_lt hfuel)

omit [DecidableEq Q] [DecidableEq T] in
theorem firstOf_eq_tail : firstOf q r = .tail q ↔ r = [] := by
  cases r with
  | nil => simp [firstOf]
  | cons t r => simp [firstOf]

/-- The loop of `find_end_of_run`. -/
theorem Holds.findEndLoop (h : m.Holds lists f) (hq : q ∈ lists) (hf : f q = l ++ t :: (xs ++ r))
    (hrun : (t :: xs).IsChain (InOrder less)) (hfalls : Falls less (t :: xs) r) (hfuel : xs.length < fuel) :
    Links.findEndLoop (.tail q) less fuel (.item t) m = some (firstOf q r) := by
  induction xs generalizing l t fuel with
  | nil =>
    obtain ⟨fuel, rfl⟩ := Nat.exists_eq_succ_of_ne_zero (Nat.ne_zero_of_lt hfuel)
    unfold Links.findEndLoop
    cases r with
    | nil =>
      rw [h.listNext hq hf]
      exact if_pos rfl
    | cons u r =>
      obtain ⟨hnext, hprev⟩ := h.step hq hf
      have hless : less u t = true := hfalls t rfl u rfl
      rw [hnext]
      simp only [Option.bind_eq_bind, Option.bind_some, reduceCtorEq, if_false, hprev, lessElem, hless, if_true]
      rfl
  | cons u xs ih =>
    obtain ⟨fuel, rfl⟩ := Nat.exists_eq_succ_of_ne_zero (Nat.ne_zero_of_lt hfuel)
    obtain ⟨hnext, hprev⟩ := h.step hq hf
    obtain ⟨hless, hrun⟩ := List.isChain_cons_cons.mp hrun
    have hless : less u t = false := hless
    rw [List.append_cons] at hf
    unfold Links.findEndLoop
    rw [hnext]
    simp only [Option.bind_eq_bind, Option.bind_some, reduceCtorEq, if_false, hprev, lessElem, hless,
      Bool.false_eq_true]
    apply ih hf hrun _ (Nat.lt_of_succ_lt_succ hfuel)
    intro x hx
    exact hfalls x (by rwa [List.getLast?_cons_cons])

/-- `find_end_of_run` finds the end of a run that is as long as it can be. -/
theorem Holds.findEndOfRun (h : m.Holds lists f) (hq : q ∈ lists) (hf : f q = l ++ t :: (xs ++ r))
    (hrun : (t :: xs).IsChain (InOrder less)) (hfalls : Falls less (t :: xs) r) (hfuel : xs.length < fuel) :
    m.findEndOfRun fuel (.item t) (.tail q) less = some (firstOf q r) := by
  unfold Links.findEndOfRun
  rw [if_neg (by simp)]
  exact h.findEndLoop hq hf hrun hfalls hfuel

/-! ## Merging -/

/-- The loop of `inplace_merge`: the front one of the two runs loses its first element, or the first element of the
one behind it comes before it. -/
theorem Holds.mergeLoop (less : T → T → Bool) (h : m.Holds lists f) (hd : DisjointLists f) (hq : q ∈ lists)
    (hf : f q = l ++ (xs ++ (ys ++ r))) :
    ∃ m', (∀ fuel, xs.length + ys.length < fuel → Links.mergeLoop (firstOf q r) less fuel
        (firstOf q (xs ++ (ys ++ r))) (firstOf q (ys ++ r)) m = some m') ∧
      m'.Holds lists (Function.update f q (l ++ (xs.merge ys (notAfter less) ++ r))) ∧
      DisjointLists (Function.update f q (l ++ (xs.merge ys (notAfter less) ++ r))) := by
  induction xs generalizing l m f ys with
  | nil =>
    rw [List.nil_append] at hf
    rw [List.nil_merge, update_of_eq hf]
    refine ⟨m, ?_, h, hd⟩
    intro fuel hfuel
    obtain ⟨fuel, rfl⟩ := Nat.exists_eq_succ_of_ne_zero (Nat.ne_zero_of_lt hfuel)
    exact if_pos (.inl rfl)
  | cons x xs ihx =>
    induction ys generalizing l m f with
    | nil =>
      rw [List.nil_append] at hf
      rw [List.merge_right, update_of_eq hf]
      refine ⟨m, ?_, h, hd⟩
      intro fuel hfuel
      obtain ⟨fuel, rfl⟩ := Nat.exists_eq_succ_of_ne_zero (Nat.ne_zero_of_lt hfuel)
      exact if_pos (.inr rfl)
    | cons y ys ihy =>
      have hnodup := hd.nodup q
      rw [hf] at hnodup
      have hnodup := (List.nodup_append.mp hnodup).2.1
      have hxy : firstOf q (x :: xs ++ (y :: ys ++ r)) ≠ firstOf q (y :: ys ++ r) :=
        firstOf_ne hnodup (List.cons_ne_nil _ _)
      have hyr : firstOf q (y :: ys ++ r) ≠ firstOf q r :=
        firstOf_ne (List.nodup_append.mp hnodup).2.1 (List.cons_ne_nil _ _)
      have hgo : ¬(firstOf q (x :: xs ++ (y :: ys ++ r)) = firstOf q (y :: ys ++ r) ∨
          firstOf q (y :: ys ++ r) = firstOf q r) := not_or.mpr ⟨hxy, hyr⟩
      rw [List.cons_merge_cons]
      by_cases hless : less y x = true
      · -- `y` is spliced in front of `x`
        rw [if_neg (by simp [notAfter, hless])]
        have hf₁ : f q = (l ++ x :: xs) ++ [y] ++ (ys ++ r) := by
          rw [hf]
          simp
        have hmid : Function.update f q ((l ++ x :: xs) ++ (ys ++ r)) q = l ++ (x :: xs ++ (ys ++ r)) := by
          rw [Function.update_self, List.append_assoc]
        obtain ⟨m₁, hsplice, hm₁, hd₁⟩ := h.listSplice hd hq hq hf₁ hmid
        rw [Function.update_idem] at hm₁ hd₁
        obtain ⟨m', hrun, hm'⟩ := ihy hm₁ hd₁ (l := l ++ [y]) (Function.update_self ..)
        rw [Function.update_idem, List.append_assoc] at hm'
        refine ⟨m', ?_, hm'⟩
        intro fuel hfuel
        obtain ⟨fuel, rfl⟩ := Nat.exists_eq_succ_of_ne_zero (Nat.ne_zero_of_lt hfuel)
        have hnext : m.listNext (.item y) = some (firstOf q (ys ++ r)) := by
          apply h.listNext hq (l := l ++ x :: xs)
          rw [hf]
          simp
        have hprev : m.listPrev (firstOf q (ys ++ r)) = some (.item y) := by
          apply h.listPrev hq hf₁
          exact List.getLast?_concat
        unfold Links.mergeLoop
        rw [if_neg hgo]
        show (lessElem less (.item y) (.item x)).bind _ = _
        simp only [lessElem, Option.bind_some, hless, if_true]
        show (m.listNext (.item y)).bind _ = _
        rw [hnext]
        simp only [Option.bind_some]
        show (m.listPrev _).bind _ = _
        rw [hprev]
        show (m.listSplice _ _ _).bind _ = _
        rw [show m.listSplice (firstOf q (x :: xs ++ (y :: ys ++ r))) (.item y) (firstOf q (ys ++ r)) = some m₁ from
          hsplice]
        apply hrun
        simp only [List.length_cons] at hfuel ⊢
        omega
      · have hno : less y x = false := Bool.eq_false_iff.mpr hless
        rw [if_pos (by simp [notAfter, hno])]
        have hf₁ : f q = (l ++ [x]) ++ (xs ++ (y :: ys ++ r)) := by
          rw [hf]
          simp
        obtain ⟨m', hrun, hm'⟩ := ihx h hd hf₁
        rw [List.append_assoc] at hm'
        refine ⟨m', ?_, hm'⟩
        intro fuel hfuel
        obtain ⟨fuel, rfl⟩ := Nat.exists_eq_succ_of_ne_zero (Nat.ne_zero_of_lt hfuel)
        have hnext : m.listNext (.item x) = some (firstOf q (xs ++ (y :: ys ++ r))) := h.listNext hq hf
        unfold Links.mergeLoop
        rw [if_neg hgo]
        show (lessElem less (.item y) (.item x)).bind _ = _
        simp only [lessElem, Option.bind_some, hno, Bool.false_eq_true, if_false]
        show (m.listNext (.item x)).bind _ = _
        rw [hnext]
        apply hrun
        simp only [List.length_cons] at hfuel ⊢
        omega

/-- `inplace_merge` of two runs: its assertions hold. -/
theorem Holds.inplaceMerge (h : m.Holds lists f) (hd : DisjointLists f) (hq : q ∈ lists)
    (hf : f q = l ++ (xs ++ (ys ++ r))) (hxs : xs.IsChain (InOrder less)) (hys : ys.IsChain (InOrder less)) :
    ∃ m', (∀ fuel, (f q).length < fuel → m.inplaceMerge fuel (firstOf q (xs ++ (ys ++ r))) (firstOf q (ys ++ r))
        (firstOf q r) less = some m') ∧
      m'.Holds lists (Function.update f q (l ++ (xs.merge ys (notAfter less) ++ r))) ∧
      DisjointLists (Function.update f q (l ++ (xs.merge ys (notAfter less) ++ r))) := by
  obtain ⟨m', hrun, hm'⟩ := h.mergeLoop less hd hq hf
  refine ⟨m', ?_, hm'⟩
  intro fuel hfuel
  rw [hf] at hfuel
  simp only [List.length_append] at hfuel
  have hf' : f q = (l ++ xs) ++ (ys ++ r) := by
    rw [hf, List.append_assoc]
  unfold Links.inplaceMerge
  rw [h.isSorted hd hq hf hxs (by omega), h.isSorted hd hq hf' hys (by omega)]
  exact hrun fuel (by omega)

/-! ## Sorting -/

/-- The inner loop of `list_sort` is a pass. -/
theorem Holds.sortPass (less : T → T → Bool) (h : m.Holds lists f) (hd : DisjointLists f) (hq : q ∈ lists) {s : List T}
    (hf : f q = l ++ s) :
    ∃ n s' m', Pass less n s s' ∧
      (∀ fuel k cnt, (f q).length < fuel → s.length < k →
        Links.sortPass q less fuel k (firstOf q s) cnt m = some (cnt + n, m')) ∧
      m'.Holds lists (Function.update f q (l ++ s')) ∧ DisjointLists (Function.update f q (l ++ s')) := by
  induction hlen : s.length using Nat.strong_induction_on generalizing s l m f with
  | _ length ih =>
    subst hlen
    cases s with
    | nil =>
      refine ⟨0, [], m, .nil, ?_, ?_⟩
      · intro fuel k cnt _ hk
        obtain ⟨k, rfl⟩ := Nat.exists_eq_succ_of_ne_zero (Nat.ne_zero_of_lt hk)
        exact if_pos rfl
      · rw [update_of_eq hf]
        exact ⟨h, hd⟩
    | cons t ts =>
      obtain ⟨xs, r, rfl, hxs, hxr⟩ := exists_run less t ts
      have hlength : (f q).length = l.length + (xs.length + r.length + 1) := by
        rw [hf]
        simp
      have hend : ∀ fuel, (f q).length < fuel →
          m.findEndOfRun fuel (.item t) (.tail q) less = some (firstOf q r) := fun fuel hfuel =>
        h.findEndOfRun hq hf hxs hxr (by omega)
      cases r with
      | nil =>
        rw [List.append_nil] at hf ⊢
        refine ⟨1, t :: xs, m, .one (List.cons_ne_nil _ _) hxs, ?_, ?_⟩
        · intro fuel k cnt hfuel hk
          obtain ⟨k, rfl⟩ := Nat.exists_eq_succ_of_ne_zero (Nat.ne_zero_of_lt hk)
          unfold Links.sortPass
          rw [if_neg (by simp [firstOf])]
          show (m.findEndOfRun fuel (.item t) (.tail q) less).bind _ = _
          rw [hend fuel hfuel]
          exact if_pos rfl
        · rw [update_of_eq hf]
          exact ⟨h, hd⟩
      | cons u us =>
        obtain ⟨ys, r, rfl, hys, hyr⟩ := exists_run less u us
        have hf₁ : f q = (l ++ t :: xs) ++ u :: (ys ++ r) := by
          rw [hf]
          simp
        simp only [List.length_cons, List.length_append] at hlength
        have hend' : ∀ fuel, (f q).length < fuel →
            m.findEndOfRun fuel (.item u) (.tail q) less = some (firstOf q r) := fun fuel hfuel =>
          h.findEndOfRun hq hf₁ hys hyr (by omega)
        obtain ⟨m₁, hmerge, hm₁, hd₁⟩ := h.inplaceMerge hd hq hf hxs hys
        set merged := (t :: xs).merge (u :: ys) (notAfter less)
        have hmerged : merged.length = (t :: xs).length + (u :: ys).length := by
          rw [(List.merge_perm_append (notAfter less)).length_eq, List.length_append]
        simp only [List.length_cons] at hmerged
        have hf₂ : Function.update f q (l ++ (merged ++ r)) q = (l ++ merged) ++ r := by
          rw [Function.update_self, List.append_assoc]
        have hshorter : r.length < (t :: (xs ++ u :: (ys ++ r))).length := by
          simp only [List.length_cons, List.length_append]
          omega
        obtain ⟨n, s', m', hpass, hrun, hm'⟩ := ih r.length hshorter hm₁ hd₁ hf₂ rfl
        rw [Function.update_idem, List.append_assoc] at hm'
        refine ⟨n + 1, merged ++ s', m', .two (List.cons_ne_nil _ _) (List.cons_ne_nil _ _) hxs hys hxr hyr hpass, ?_,
          hm'⟩
        intro fuel k cnt hfuel hk
        obtain ⟨k, rfl⟩ := Nat.exists_eq_succ_of_ne_zero (Nat.ne_zero_of_lt hk)
        have hcount := hrun fuel k (cnt + 1) (by
          rw [hf₂]
          simp only [List.length_append]
          omega) (by omega)
        rw [Nat.add_assoc, Nat.add_comm 1 n] at hcount
        unfold Links.sortPass
        rw [if_neg (by simp [firstOf])]
        show (m.findEndOfRun fuel (.item t) (.tail q) less).bind _ = _
        rw [hend fuel hfuel, Option.bind_some, if_neg (by simp [firstOf])]
        show (m.findEndOfRun fuel (.item u) (.tail q) less).bind _ = _
        rw [hend' fuel hfuel, Option.bind_some]
        show (m.inplaceMerge fuel (firstOf q (t :: xs ++ (u :: ys ++ r))) (firstOf q (u :: ys ++ r)) (firstOf q r)
          less).bind _ = _
        rw [hmerge fuel hfuel]
        exact hcount

section

variable [IsStrictWeakOrder T fun a b => less a b = true]

variable (less) in
/-- The outer loop: as long as a pass puts out more than one run there is another one. -/
theorem Holds.sortLoop (h : m.Holds lists f) (hd : DisjointLists f) (hq : q ∈ lists) :
    ∃ l' m', Sorts less (f q) l' ∧
      (∀ fuel k, (f q).length < fuel → descents less (f q) < k → Links.sortLoop q less fuel k m = some m') ∧
      m'.Holds lists (Function.update f q l') ∧ DisjointLists (Function.update f q l') := by
  induction hdescents : descents less (f q) using Nat.strong_induction_on generalizing m f with
  | _ d ih =>
    subst hdescents
    have hbegin : m.next (.head q) = some (firstOf q (f q)) := (h.neighbours hq (List.nil_append (f q)).symm).1
    obtain ⟨n, s', m₁, hpass, hrun, hm₁, hd₁⟩ := h.sortPass less hd hq (List.nil_append (f q)).symm
    rw [List.nil_append] at hm₁ hd₁
    have hfirst : ∀ fuel k, (f q).length < fuel → Links.sortLoop q less fuel (k + 1) m =
        if n > 1 then Links.sortLoop q less fuel k m₁ else some m₁ := by
      intro fuel k hfuel
      rw [Links.sortLoop, hbegin]
      show (Links.sortPass q less fuel fuel (firstOf q (f q)) 0 m).bind _ = _
      rw [hrun fuel fuel 0 hfuel hfuel, Nat.zero_add]
      rfl
    by_cases hn : 1 < n
    · have hs' : Function.update f q s' q = s' := Function.update_self ..
      have hless : descents less (Function.update f q s' q) < descents less (f q) := by
        rw [hs']
        exact hpass.descents_lt hn
      obtain ⟨l', m', hsorts, hrun', hm'⟩ := ih _ hless hm₁ hd₁ rfl
      rw [hs'] at hsorts hrun' hless
      rw [Function.update_idem] at hm'
      refine ⟨l', m', hsorts.after hpass, ?_, hm'⟩
      intro fuel k hfuel hk
      obtain ⟨k, rfl⟩ := Nat.exists_eq_succ_of_ne_zero (Nat.ne_zero_of_lt hk)
      rw [hfirst fuel k hfuel, if_pos hn]
      apply hrun' fuel k
      · rw [hpass.perm.length_eq]
        exact hfuel
      · omega
    · refine ⟨s', m₁, hpass.sorts hn, ?_, hm₁, hd₁⟩
      intro fuel k hfuel hk
      obtain ⟨k, rfl⟩ := Nat.exists_eq_succ_of_ne_zero (Nat.ne_zero_of_lt hk)
      rw [hfirst fuel k hfuel, if_neg hn]

variable (less) in
/-- **`list_sort`** returns, none of its assertions fails, and it leaves the list in order, with the elements of which
neither is less in the order that they had. -/
theorem Holds.listSort (h : m.Holds lists f) (hd : DisjointLists f) (hq : q ∈ lists) :
    ∃ l' m', Sorts less (f q) l' ∧ (∀ fuel, (f q).length < fuel → m.listSort fuel q less = some m') ∧
      m'.Holds lists (Function.update f q l') ∧ DisjointLists (Function.update f q l') := by
  obtain ⟨l', m', hsorts, hrun, hm', hd'⟩ := h.sortLoop less hd hq
  refine ⟨l', m', hsorts, ?_, hm', hd'⟩
  intro fuel hfuel
  have hl' : Function.update f q l' q = [] ++ (l' ++ []) := by
    rw [Function.update_self, List.append_nil, List.nil_append]
  have hbegin : m'.next (.head q) = some (firstOf q (l' ++ [])) := (hm'.neighbours hq hl').1
  have hlast : m'.isSorted fuel (firstOf q (l' ++ [])) (firstOf q []) less = some true := by
    apply hm'.isSorted hd' hq hl' hsorts.run
    rw [hsorts.perm.length_eq]
    exact hfuel
  unfold Links.listSort
  rw [hrun fuel fuel hfuel ((descents_le_length _).trans_lt hfuel)]
  show (m'.next (.head q)).bind _ = _
  rw [hbegin]
  show (m'.isSorted fuel (firstOf q (l' ++ [])) (firstOf q []) less).bind _ = _
  rw [hlast]
  rfl

variable (less) in
/-- **`list_sort` is a stable sort** of every list, with every strict weak order. -/
theorem list_sort_stable (h : m.Holds lists f) (hd : DisjointLists f) (hq : q ∈ lists) :
    ∃ l' m', (∀ fuel, (f q).length < fuel → m.listSort fuel q less = some m') ∧
      m'.Holds lists (Function.update f q l') ∧ DisjointLists (Function.update f q l') ∧
      l'.Perm (f q) ∧ l'.Pairwise (fun a b => less b a = false) ∧
      ∀ a b, [a, b].Sublist (f q) → less a b = false → less b a = false → [a, b].Sublist l' := by
  obtain ⟨l', m', hsorts, hrun, hm', hd'⟩ := h.listSort less hd hq
  refine ⟨l', m', hrun, hm', hd', hsorts.perm, run_pairwise hsorts.run, ?_⟩
  intro a b hab _ hba
  have hsub := hsorts.sublist (hd.nodup q) hab
  rw [if_neg (Bool.eq_false_iff.mp hba)] at hsub
  exact hsub

omit [DecidableEq Q] [DecidableEq T] in
/-- Four numbers by their tens. -/
theorem list_sort_stable_tens : ∃ m m' : Links Unit ℕ, m.Holds Set.univ (fun _ => [21, 13, 20, 11]) ∧
    (∀ fuel, 4 < fuel → m.listSort fuel () (fun a b => decide (a / 10 < b / 10)) = some m') ∧
    ∃ l' : List ℕ, m'.Holds Set.univ (fun _ => l') ∧ [13, 11].Sublist l' ∧ [21, 20].Sublist l' := by
  have horder : IsStrictWeakOrder ℕ fun a b => decide (a / 10 < b / 10) = true := {
    irrefl := by simp
    trans := by simp only [decide_eq_true_eq]; omega
    incomp_trans := by simp only [decide_eq_true_eq]; omega }
  have hdisjoint : DisjointLists fun _ : Unit => [21, 13, 20, 11] :=
    ⟨fun _ => by decide, fun _ _ _ _ _ => rfl⟩
  obtain ⟨m, hm⟩ := exists_holds hdisjoint
  obtain ⟨l', m', hrun, hm', -, -, -, hstable⟩ :=
    list_sort_stable (fun a b => decide (a / 10 < b / 10)) hm hdisjoint (Set.mem_univ ())
  have hupdate : Function.update (fun _ : Unit => [21, 13, 20, 11]) () l' = fun _ => l' := by
    funext q
    exact Function.update_self ..
  rw [hupdate] at hm'
  exact ⟨m, m', hm, hrun, l', hm', hstable 13 11 (by decide) (by decide) (by decide),
    hstable 21 20 (by decide) (by decide) (by decide)⟩

end

/-! ## Ordered insertion -/

/-- In front of the first element that `elem` is less than. -/
def insertedAt (less : T → T → Bool) (elem : T) : List T → List T
  | [] => [elem]
  | t :: ts => if less elem t then elem :: t :: ts else t :: insertedAt less elem ts

/-- The loop of `list_insert_ordered`. -/
theorem Holds.insertOrderedLoop (less : T → T → Bool) {elem : T} (h : m.Holds lists f) (hd : DisjointLists f)
    (hq : q ∈ lists) (hf : f q = l ++ r) (hnew : ∀ q', elem ∉ f q') :
    ∃ m', (∀ fuel, r.length < fuel → Links.insertOrderedLoop q elem less fuel (firstOf q r) m = some m') ∧
      m'.Holds lists (Function.update f q (l ++ insertedAt less elem r)) ∧
      DisjointLists (Function.update f q (l ++ insertedAt less elem r)) := by
  induction r generalizing l with
  | nil =>
    obtain ⟨m', hinsert, hm'⟩ := h.listInsert hd hq hf hnew
    refine ⟨m', ?_, hm'⟩
    intro fuel hfuel
    obtain ⟨fuel, rfl⟩ := Nat.exists_eq_succ_of_ne_zero (Nat.ne_zero_of_lt hfuel)
    exact (if_pos rfl).trans hinsert
  | cons t r ih =>
    unfold insertedAt
    by_cases hless : less elem t = true
    · rw [if_pos hless]
      obtain ⟨m', hinsert, hm'⟩ := h.listInsert hd hq hf hnew
      refine ⟨m', ?_, hm'⟩
      intro fuel hfuel
      obtain ⟨fuel, rfl⟩ := Nat.exists_eq_succ_of_ne_zero (Nat.ne_zero_of_lt hfuel)
      unfold Links.insertOrderedLoop
      rw [if_neg (by simp [firstOf])]
      show (lessElem less (.item elem) (.item t)).bind _ = _
      simp only [lessElem, Option.bind_some, hless, if_true]
      exact hinsert
    · have hno : less elem t = false := Bool.eq_false_iff.mpr hless
      have hnext : m.listNext (.item t) = some (firstOf q r) := h.listNext hq hf
      rw [if_neg hless, List.append_cons]
      rw [List.append_cons] at hf
      obtain ⟨m', hrun, hm'⟩ := ih hf
      refine ⟨m', ?_, hm'⟩
      intro fuel hfuel
      obtain ⟨fuel, rfl⟩ := Nat.exists_eq_succ_of_ne_zero (Nat.ne_zero_of_lt hfuel)
      unfold Links.insertOrderedLoop
      rw [if_neg (by simp [firstOf])]
      show (lessElem less (.item elem) (.item t)).bind _ = _
      simp only [lessElem, Option.bind_some, hno, Bool.false_eq_true, if_false]
      show (m.listNext (.item t)).bind _ = _
      rw [hnext]
      exact hrun fuel (Nat.lt_of_succ_lt_succ hfuel)

/-- `list_insert_ordered` -/
theorem Holds.listInsertOrdered (less : T → T → Bool) {elem : T} (h : m.Holds lists f) (hd : DisjointLists f)
    (hq : q ∈ lists) (hnew : ∀ q', elem ∉ f q') :
    ∃ m', (∀ fuel, (f q).length < fuel → m.listInsertOrdered fuel q elem less = some m') ∧
      m'.Holds lists (Function.update f q (insertedAt less elem (f q))) ∧
      DisjointLists (Function.update f q (insertedAt less elem (f q))) := by
  obtain ⟨m', hrun, hm'⟩ := h.insertOrderedLoop less hd hq (List.nil_append (f q)).symm hnew
  refine ⟨m', ?_, hm'⟩
  intro fuel hfuel
  have hbegin : m.next (.head q) = some (firstOf q (f q)) := (h.neighbours hq (List.nil_append (f q)).symm).1
  unfold Links.listInsertOrdered
  rw [hbegin]
  exact hrun fuel hfuel

end Links

end Pintos.Lib
