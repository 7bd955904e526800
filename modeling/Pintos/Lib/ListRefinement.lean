import Pintos.Library.Trace
import Pintos.Lib.ListSurgery

/-!
# Runs of list operations

`list_reverse` and `list_unique` walk a list while they change it.  With them every call is specified, and a run of
calls refines the run of what they mean (`lists_refine`).
-/

namespace Pintos.Lib

variable {Q T : Type} [DecidableEq Q] [DecidableEq T]

/-! ## Reversal -/

namespace Links

variable {m m' : Links Q T} {lists : Set Q} {f g : Q → List T} {q q' : Q} {t : T} {ts l r l' r' xs : List T}
  {e : ListElem Q T}

/-- The links with the two pointers swapped in the items of `ts`. -/
def swapped (m : Links Q T) (ts : List T) : Links Q T where
  next e := if e ∈ ts.map ListElem.item then m.prev e else m.next e
  prev e := if e ∈ ts.map ListElem.item then m.next e else m.prev e

theorem swapped_cons (ht : t ∉ ts) : (m.swapElem (.item t)).swapped ts = m.swapped (t :: ts) := by
  have hnot : (ListElem.item t : ListElem Q T) ∉ ts.map ListElem.item := by
    intro hmem
    obtain ⟨u, hu, hut⟩ := List.mem_map.mp hmem
    exact ht (ListElem.item.inj hut ▸ hu)
  simp only [swapped, swapElem, List.map_cons, List.mem_cons, Links.mk.injEq]
  constructor <;>
  · funext e
    by_cases he : e = .item t
    · subst he
      simp [hnot]
    · simp [he]

/-- The loop swaps the pointers in all items that are left. -/
theorem reverseLoop_eq (hl : m.Linked (back q ts)) (hts : ts.Nodup) {fuel : ℕ} (hfuel : ts.length < fuel) :
    reverseLoop q fuel (firstOf q ts) m = some (m.swapped ts) := by
  induction ts generalizing m fuel with
  | nil =>
    cases fuel with
    | zero => exact absurd hfuel (Nat.not_lt_zero _)
    | succ fuel =>
      unfold reverseLoop
      exact if_pos rfl
  | cons t ts ih =>
    cases fuel with
    | zero => exact absurd hfuel (Nat.not_lt_zero _)
    | succ fuel =>
      obtain ⟨ht, hts⟩ := List.nodup_cons.mp hts
      obtain ⟨-, hl', hnext⟩ := linked_append.mp (show m.Linked ([.item t] ++ back q ts) from hl)
      have hprev : (m.swapElem (.item t)).prev (.item t) = some (firstOf q ts) :=
        (Function.update_self ..).trans (hnext _ rfl _ firstOf_mem).1
      have hnot : ∀ e ∈ back q ts, e ≠ .item t := by
        intro e he het
        subst het
        rcases mem_items.mp he with ⟨u, hu, hut⟩ | hut
        · exact ht (ListElem.item.inj hut ▸ hu)
        · cases hut
      have hl'' : (m.swapElem (.item t)).Linked (back q ts) := by
        apply hl'.frame
        · intro e he
          exact Function.update_of_ne (hnot e (List.mem_of_mem_dropLast he)) _ _
        · intro e he
          exact Function.update_of_ne (hnot e (List.mem_of_mem_tail he)) _ _
      unfold reverseLoop
      rw [if_neg (by simp [firstOf])]
      simp only [Option.bind_eq_bind, firstOf, hprev, Option.bind_some]
      rw [← swapped_cons ht]
      exact ih hl'' hts (Nat.lt_of_succ_lt_succ hfuel)

/-- The links behind `list_reverse`: those of the sentinels and of the two items at the ends are swapped as well. -/
def reversed (m : Links Q T) (q : Q) (t s : T) (ts : List T) : Links Q T where
  next := Function.update (Function.update (m.swapped ts).next (.head q) (some (.item s))) (.item t) (some (.tail q))
  prev := Function.update (Function.update (m.swapped ts).prev (.tail q) (some (.item t))) (.item s) (some (.head q))

theorem listReverse_eq {s : T} {fuel : ℕ} (hbegin : m.next (.head q) = some (.item t))
    (hend : m.prev (.tail q) = some (.item s)) (hth : m.prev (.item t) = some (.head q))
    (hst : m.next (.item s) = some (.tail q)) (ht : t ∈ ts) (hs : s ∈ ts)
    (hloop : reverseLoop q fuel (.item t) m = some (m.swapped ts)) :
    Links.listReverse fuel m q = some (m.reversed q t s ts) := by
  have hfirst : (m.swapped ts).next (.head q) = some (.item t) := (if_neg (by simp)).trans hbegin
  have hlast : (m.swapped ts).prev (.tail q) = some (.item s) := (if_neg (by simp)).trans hend
  have hnext : (m.swapped ts).next (.item t) = some (.head q) := (if_pos (List.mem_map_of_mem ht)).trans hth
  have hprev : (m.swapped ts).prev (.item s) = some (.tail q) := (if_pos (List.mem_map_of_mem hs)).trans hst
  unfold Links.listReverse
  rw [hbegin]
  simp [hloop, setNext, setPrev, hfirst, hlast, hnext, hprev, reversed]

theorem reversed_next {s u : T} (hu : u ∈ ts) (hut : u ≠ t) :
    (m.reversed q t s ts).next (.item u) = m.prev (.item u) := by
  simp [reversed, swapped, hut, hu]

theorem reversed_prev {s u : T} (hu : u ∈ ts) (hus : u ≠ s) :
    (m.reversed q t s ts).prev (.item u) = m.next (.item u) := by
  simp [reversed, swapped, hus, hu]

theorem reversed_of_ne {s : T} (ht : t ∈ ts) (hs : s ∈ ts) (he : ∀ u ∈ ts, e ≠ .item u) :
    (e ≠ .head q → (m.reversed q t s ts).next e = m.next e) ∧
      (e ≠ .tail q → (m.reversed q t s ts).prev e = m.prev e) := by
  have hnot : e ∉ ts.map ListElem.item := by
    intro hmem
    obtain ⟨u, hu, rfl⟩ := List.mem_map.mp hmem
    exact he u hu rfl
  constructor
  · intro heq
    have hin : (m.swapped ts).next e = m.next e := if_neg hnot
    simp [reversed, he t ht, heq, hin]
  · intro heq
    have hin : (m.swapped ts).prev e = m.prev e := if_neg hnot
    simp [reversed, he s hs, heq, hin]

/-- A chain of items turned around. -/
theorem reversed_linked {s : T} (hl : m.Linked (ts.map .item)) (hts : ts.Nodup) (hs : s ∈ ts.getLast?)
    (ht : t ∈ ts.head?) :
    (m.reversed q t s ts).Linked (elems q ts.reverse) := by
  have hhead : (m.reversed q t s ts).Neighbours (.head q) (.item s) := ⟨by simp [reversed], by simp [reversed]⟩
  have htail : (m.reversed q t s ts).Neighbours (.item t) (.tail q) := ⟨by simp [reversed], by simp [reversed]⟩
  have hchain : (m.reversed q t s ts).Linked (ts.reverse.map .item) := by
    rw [linked_iff] at hl ⊢
    rw [List.isChain_map] at hl ⊢
    rw [List.isChain_reverse]
    apply isChain_of_mem hl
    intro u hu v hv huv
    constructor
    · rw [reversed_next (t := t) (List.mem_of_mem_tail hv) fun hvt => notMem_tail hts ht (hvt ▸ hv)]
      exact huv.2
    · rw [reversed_prev (s := s) (List.mem_of_mem_dropLast hu) fun hus => notMem_dropLast hts hs (hus ▸ hu)]
      exact huv.1
  change (m.reversed q t s ts).Linked ([.head q] ++ ts.reverse.map .item ++ [.tail q])
  rw [List.append_assoc]
  refine linked_append.mpr ⟨trivial, linked_append.mpr ⟨hchain, trivial, ?_⟩, ?_⟩
  · intro a ha b hb
    rw [List.getLast?_map, List.getLast?_reverse, ht] at ha
    cases ha
    cases hb
    exact htail
  · intro a ha b hb
    rw [List.head?_append, List.head?_map, List.head?_reverse, hs] at hb
    cases ha
    cases hb
    exact hhead

/-- `list_reverse` -/
theorem Holds.listReverse (h : m.Holds lists f) (hd : DisjointLists f) (hq : q ∈ lists) :
    ∃ m', (∀ fuel, (f q).length < fuel → Links.listReverse fuel m q = some m') ∧
      m'.Holds lists (Function.update f q (f q).reverse) ∧ DisjointLists (Function.update f q (f q).reverse) := by
  have hd' := hd.perm (List.reverse_perm (f q))
  obtain ⟨hbegin, hth⟩ := h.neighbours hq (List.nil_append (f q)).symm
  obtain ⟨hst, hend⟩ := h.neighbours hq (List.append_nil (f q)).symm
  obtain ⟨-, hback, -⟩ := linked_append.mp (show m.Linked ([.head q] ++ back q (f q)) from (h q hq).2.2)
  have hnodup := hd.nodup q
  rcases List.eq_nil_or_concat (f q) with hfq | ⟨ts, s, hfq⟩
  · rw [update_of_eq (by rw [hfq]; rfl)]
    refine ⟨m, fun fuel _ => ?_, h, hd⟩
    change m.next (.head q) = _ at hbegin
    unfold Links.listReverse
    rw [hbegin, hfq]
    exact if_pos rfl
  · have hs : s ∈ (f q).getLast? := by
      rw [hfq, List.concat_eq_append, List.getLast?_concat]
      exact rfl
    obtain ⟨t, ts', hfq⟩ := List.exists_cons_of_ne_nil (List.ne_nil_of_mem (List.mem_of_getLast? hs))
    have ht : t ∈ (f q).head? := by
      rw [hfq]
      exact rfl
    have hfirst : firstOf q (f q) = .item t := by
      rw [hfq]
      rfl
    have hlast : lastOf q (f q) = .item s := by
      rw [← List.nil_append (f q)]
      exact lastOf_append hs
    have hloop : ∀ fuel, (f q).length < fuel → reverseLoop q fuel (.item t) m = some (m.swapped (f q)) := by
      intro fuel hfuel
      rw [← hfirst]
      exact reverseLoop_eq hback hnodup hfuel
    rw [hfirst] at hbegin hth
    rw [hlast] at hst hend
    have htf := List.mem_of_head? ht
    have hsf := List.mem_of_getLast? hs
    refine ⟨m.reversed q t s (f q),
      fun fuel hfuel => listReverse_eq hbegin hend hth hst htf hsf (hloop fuel hfuel), ?_, hd'⟩
    apply h.change hd'
    · intro q' hne
      exact Function.update_of_ne hne _ _
    · intro e he
      rw [Function.update_self, mem_elems] at he
      apply (reversed_of_ne htf hsf _).1
      · exact fun heq => he (.inl heq)
      · intro u hu heq
        exact he (.inr (.inl ⟨u, List.mem_reverse.mpr hu, heq⟩))
    · intro e he
      rw [Function.update_self, mem_elems] at he
      apply (reversed_of_ne htf hsf _).2
      · exact fun heq => he (.inr (.inr heq))
      · intro u hu heq
        exact he (.inr (.inl ⟨u, List.mem_reverse.mpr hu, heq⟩))
    · intro hhead htail
      refine ⟨?_, ?_, ?_⟩
      · exact ((reversed_of_ne htf hsf (by simp)).2 (by simp)).trans hhead
      · exact ((reversed_of_ne htf hsf (by simp)).1 (by simp)).trans htail
      · rw [Function.update_self]
        exact reversed_linked (linked_append.mp hback).1 hnodup hs ht

end Links

/-! ## Duplicates -/

/-- The elements of `ts` that are equal to the last one kept before them, which is `e` in the beginning. -/
def duplicatesOf (less : T → T → Bool) (e : T) : List T → List T
  | [] => []
  | t :: ts => if Differ less e t then duplicatesOf less t ts else t :: duplicatesOf less e ts

omit [DecidableEq Q] in
theorem duplicatesOf_eq {less : T → T → Bool} {e : T} {ts : List T} (h : (e :: ts).Nodup) :
    duplicatesOf less e ts = (e :: ts).filter fun t => t ∉ uniqued less (e :: ts) := by
  change duplicatesOf less e ts = (e :: ts).filter fun t => t ∉ ts.destutter' (Differ less) e
  induction ts generalizing e with
  | nil => simp [duplicatesOf]
  | cons t ts ih =>
    obtain ⟨he, hts⟩ := List.nodup_cons.mp h
    obtain ⟨ht, hts'⟩ := List.nodup_cons.mp hts
    unfold duplicatesOf
    rw [List.destutter']
    by_cases hdiff : Differ less e t
    · rw [if_pos hdiff, if_pos hdiff, ih hts, List.filter_cons_of_neg (a := e) (by simp)]
      apply List.filter_congr
      intro u hu
      have hue : u ≠ e := fun heq => he (heq ▸ hu)
      simp [hue]
    · rw [if_neg hdiff, if_neg hdiff, ih (List.nodup_cons.mpr ⟨fun hmem => he (List.mem_cons_of_mem _ hmem), hts'⟩)]
      have hin := List.mem_destutter' ts (Differ less) e
      have hout : t ∉ ts.destutter' (Differ less) e := by
        intro hmem
        rcases List.mem_cons.mp ((List.destutter'_sublist ts (Differ less) e).subset hmem) with rfl | hmem
        · exact he List.mem_cons_self
        · exact ht hmem
      simp [hin, hout]

/-- What list `duplicates` is after elements have come to its end. -/
def passed (duplicates : Option Q) (f : Q → List T) (xs : List T) (q : Q) : List T :=
  if duplicates = some q then f q ++ xs else f q

section

omit [DecidableEq T]

variable {duplicates : Option Q} {f : Q → List T} {q d : Q} {xs ys l : List T}

theorem passed_nil : passed duplicates f [] = f := by
  funext q
  simp [passed]

theorem passed_none : passed none f xs = f := by
  funext q
  exact if_neg (by simp)

theorem passed_some : passed (some d) f xs = Function.update f d (f d ++ xs) := by
  funext q
  by_cases hqd : q = d
  · subst hqd
    simp [passed]
  · simp [passed, hqd, Ne.symm hqd]

theorem passed_passed : passed duplicates (passed duplicates f xs) ys = passed duplicates f (xs ++ ys) := by
  funext q
  unfold passed
  split <;> simp

theorem passed_of_ne (hq : duplicates ≠ some q) : passed duplicates f xs q = f q := if_neg hq

theorem update_passed (hq : duplicates ≠ some q) :
    Function.update (passed duplicates f xs) q l = passed duplicates (Function.update f q l) xs := by
  funext q'
  by_cases hqq : q' = q
  · subst hqq
    simp [passed, hq]
  · simp [passed, hqq]

end

namespace Links

variable {m m' : Links Q T} {lists : Set Q} {f g : Q → List T} {q q' : Q} {t : T} {ts l r l' r' xs : List T}
  {e : T} {duplicates : Option Q}

/-- The element removed by `list_unique` goes to the other list. -/
theorem Holds.passed (h : m.Holds lists f) (hd : DisjointLists f) (hdup : ∀ d ∈ duplicates, d ∈ lists)
    (hnew : ∀ q', t ∉ f q') : ∃ m', m.giveTo duplicates t = some m' ∧
      m'.Holds lists (passed duplicates f [t]) ∧ DisjointLists (passed duplicates f [t]) := by
  cases duplicates with
  | none =>
    rw [passed_none]
    exact ⟨m, rfl, h, hd⟩
  | some d =>
    rw [passed_some]
    exact h.listPushBack hd (hdup d rfl) hnew

/-- The loop of `list_unique`: an element that is equal to the last one kept goes to the other list, and every other
one is kept. -/
theorem Holds.uniqueLoop (less : T → T → Bool) (h : m.Holds lists f) (hd : DisjointLists f) (hq : q ∈ lists)
    (hdup : ∀ d ∈ duplicates, d ∈ lists) (hne : duplicates ≠ some q) (hf : f q = l ++ e :: ts) :
    ∃ m', (∀ fuel, ts.length < fuel → Links.uniqueLoop q duplicates less fuel e m = some m') ∧
      m'.Holds lists (Lib.passed duplicates (Function.update f q (l ++ ts.destutter' (Differ less) e))
        (duplicatesOf less e ts)) ∧
      DisjointLists (Lib.passed duplicates (Function.update f q (l ++ ts.destutter' (Differ less) e))
        (duplicatesOf less e ts)) := by
  induction ts generalizing m f l e with
  | nil =>
    rw [List.destutter'_nil, duplicatesOf, passed_nil, update_of_eq hf]
    refine ⟨m, ?_, h, hd⟩
    intro fuel hfuel
    cases fuel with
    | zero => exact absurd hfuel (Nat.not_lt_zero _)
    | succ fuel =>
      unfold Links.uniqueLoop
      rw [h.listNext hq hf]
      exact if_pos rfl
  | cons t ts ih =>
    have hnext := h.listNext hq hf
    change m.listNext (.item e) = some (.item t) at hnext
    unfold duplicatesOf
    rw [List.destutter'_cons]
    by_cases hdiff : Differ less e t
    · -- `elem = next`
      rw [if_pos hdiff, if_pos hdiff, List.append_cons]
      rw [List.append_cons] at hf
      obtain ⟨m', hrun, hm'⟩ := ih h hd hf
      refine ⟨m', ?_, hm'⟩
      intro fuel hfuel
      cases fuel with
      | zero => exact absurd hfuel (Nat.not_lt_zero _)
      | succ fuel =>
        have hless : (!less e t && !less t e) = false := by
          rw [← Bool.not_or, Bool.not_eq_false']
          exact hdiff
        unfold Links.uniqueLoop
        rw [hnext]
        simp only [Option.bind_eq_bind, Option.bind_some, hless]
        exact hrun fuel (Nat.lt_of_succ_lt_succ hfuel)
    · rw [if_neg hdiff, if_neg hdiff]
      have hf₀ : f q = l ++ [e] ++ t :: ts := by
        rw [hf, List.append_cons]
      obtain ⟨m₁, hremove, hm₁, hd₁⟩ := h.listRemove hd hq hf₀
      have hnew : ∀ q', t ∉ Function.update f q (l ++ [e] ++ ts) q' := by
        have hperm : (f q).Perm (t :: (l ++ [e] ++ ts)) := by
          rw [hf₀]
          exact List.perm_middle
        exact hd.not_mem_pop hperm
      obtain ⟨m₂, hgive, hm₂, hd₂⟩ := hm₁.passed hd₁ hdup hnew
      have hf₂ : Lib.passed duplicates (Function.update f q (l ++ [e] ++ ts)) [t] q = l ++ e :: ts := by
        rw [passed_of_ne hne, Function.update_self, ← List.append_cons]
      obtain ⟨m', hrun, hm'⟩ := ih hm₂ hd₂ hf₂
      rw [update_passed hne, Function.update_idem, passed_passed] at hm'
      refine ⟨m', ?_, hm'⟩
      intro fuel hfuel
      cases fuel with
      | zero => exact absurd hfuel (Nat.not_lt_zero _)
      | succ fuel =>
        have hless : (!less e t && !less t e) = true := by
          rw [← Bool.not_or, Bool.not_eq_true']
          exact Bool.eq_false_iff.mpr hdiff
        unfold Links.uniqueLoop
        rw [hnext]
        simp only [Option.bind_eq_bind, Option.bind_some, hless, if_true, hremove, hgive]
        exact hrun fuel (Nat.lt_of_succ_lt_succ hfuel)

/-- `list_unique` -/
theorem Holds.listUnique (less : T → T → Bool) (duplicates : Option Q) (h : m.Holds lists f)
    (hd : DisjointLists f) (hq : q ∈ lists) (hdup : ∀ d ∈ duplicates, d ∈ lists) (hne : duplicates ≠ some q) :
    ∃ m', (∀ fuel, (f q).length < fuel → Links.listUnique fuel m q duplicates less = some m') ∧
      m'.Holds lists (Lib.passed duplicates (Function.update f q (uniqued less (f q)))
        ((f q).filter fun t => t ∉ uniqued less (f q))) ∧
      DisjointLists (Lib.passed duplicates (Function.update f q (uniqued less (f q)))
        ((f q).filter fun t => t ∉ uniqued less (f q))) := by
  have hbegin : m.next (.head q) = some (firstOf q (f q)) := (h.neighbours hq (List.nil_append (f q)).symm).1
  cases hfq : f q with
  | nil =>
    have hun : uniqued less ([] : List T) = [] := List.destutter_nil _
    rw [hun, List.filter_nil, passed_nil, update_of_eq hfq]
    refine ⟨m, ?_, h, hd⟩
    intro fuel _
    unfold Links.listUnique
    rw [hbegin, hfq]
    exact if_pos rfl
  | cons e ts =>
    have hnodup := hd.nodup q
    rw [hfq] at hnodup
    obtain ⟨m', hrun, hm'⟩ := h.uniqueLoop less hd hq hdup hne (l := []) hfq
    rw [duplicatesOf_eq hnodup] at hm'
    refine ⟨m', ?_, hm'⟩
    intro fuel hfuel
    unfold Links.listUnique
    rw [hbegin, hfq]
    exact hrun fuel (Nat.lt_of_succ_lt hfuel)

end Links

/-! ## Runs -/

variable {m m' : Links Q T} {lists : Set Q} {f f' : Q → List T} {op : ListOp Q T} {ops : List (ListOp Q T)}

/-- One call: the links hold what it means. -/
theorem Means.refines (h : Means lists f op f') (hm : m.Holds lists f) (hd : DisjointLists f) :
    ∃ m' N, (∀ fuel, N ≤ fuel → op.exec fuel m = some m') ∧ m'.Holds lists f' ∧ DisjointLists f' := by
  cases h with
  | insert hq hf hnew =>
    obtain ⟨m', hrun, hm'⟩ := hm.listInsert hd hq hf hnew
    exact ⟨m', 0, fun _ _ => hrun, hm'⟩
  | pushFront hq hnew =>
    obtain ⟨m', hrun, hm'⟩ := hm.listPushFront hd hq hnew
    exact ⟨m', 0, fun _ _ => hrun, hm'⟩
  | pushBack hq hnew =>
    obtain ⟨m', hrun, hm'⟩ := hm.listPushBack hd hq hnew
    exact ⟨m', 0, fun _ _ => hrun, hm'⟩
  | splice hq hq' hf hf' =>
    obtain ⟨m', hrun, hm'⟩ := hm.listSplice hd hq hq' hf hf'
    exact ⟨m', 0, fun _ _ => hrun, hm'⟩
  | remove hq hf =>
    obtain ⟨m', hrun, hm'⟩ := hm.listRemove hd hq hf
    exact ⟨m', 0, fun _ _ => congrArg (Option.map Prod.snd) hrun, hm'⟩
  | reverse hq =>
    obtain ⟨m', hrun, hm'⟩ := hm.listReverse hd hq
    exact ⟨m', _, hrun, hm'⟩
  | unique less hq =>
    obtain ⟨m', hrun, hm'⟩ := hm.listUnique less none hd hq (by simp) (by simp)
    rw [passed_none] at hm'
    exact ⟨m', _, hrun, hm'⟩
  | @uniqueTo q d less hq hdl hne =>
    obtain ⟨m', hrun, hm'⟩ := hm.listUnique less (some d) hd hq (by simpa using hdl)
      fun heq => hne (Option.some.inj heq)
    rw [passed_some, Function.update_of_ne hne] at hm'
    exact ⟨m', _, hrun, hm'⟩

/-- **The links hold the sequences after every run of calls**: every call returns, the lists are linked and disjoint,
and their sequences are those that the calls mean. -/
theorem lists_refine (h : Trace (Means lists) f ops f') (hm : m.Holds lists f) (hd : DisjointLists f) :
    ∃ m' N, (∀ fuel, N ≤ fuel → ListOp.execs fuel m ops = some m') ∧ m'.Holds lists f' ∧ DisjointLists f' := by
  induction h generalizing m with
  | nil f => exact ⟨m, 0, fun _ _ => rfl, hm, hd⟩
  | cons head tail ih =>
    obtain ⟨m₁, N₁, hrun₁, hm₁, hd₁⟩ := head.refines hm hd
    obtain ⟨m', N₂, hrun₂, hm', hd'⟩ := ih hm₁ hd₁
    refine ⟨m', max N₁ N₂, ?_, hm', hd'⟩
    intro fuel hfuel
    show Option.bind _ _ = _
    rw [hrun₁ fuel (le_trans (le_max_left _ _) hfuel)]
    exact hrun₂ fuel (le_trans (le_max_right _ _) hfuel)

/-- Two elements come into a list, which is turned around, and the second one goes to another list. -/
theorem lists_refine_splice : ∃ m' N,
    (∀ fuel, N ≤ fuel → ListOp.execs fuel (((⟨fun _ => none, fun _ => none⟩ : Links Bool ℕ).listInit false).listInit true)
      [.pushBack false 1, .pushFront false 2, .reverse false,
        .splice (.tail true) (.item 2) (.tail false)] = some m') ∧
    m'.Holds {true, false} (fun q => if q then [2] else [1]) ∧ DisjointLists fun q : Bool => if q then [2] else [1] := by
  have hend : (Function.update (Function.update (Function.update (Function.update (Function.update (fun _ => [])
      false [1]) false [2, 1]) false [1, 2]) false [1]) true [2] : Bool → List ℕ) =
      fun q => if q then [2] else [1] := by
    funext q
    cases q <;> rfl
  have hnone : (⟨fun _ => none, fun _ => none⟩ : Links Bool ℕ).Holds ∅ fun _ => [] := fun q hq => hq.elim
  rw [← hend, ← insert_empty_eq false]
  apply lists_refine _ ((hnone.listInit rfl).listInit rfl) ⟨fun _ => List.nodup_nil, by simp⟩
  apply Trace.cons (.pushBack (.inr (.inl rfl)) (by simp))
  apply Trace.cons (.pushFront (.inr (.inl rfl)) (by decide))
  apply Trace.cons (.reverse (.inr (.inl rfl)))
  exact Trace.single
    (@Means.splice _ _ _ _ _ _ false true [1] [2] [] [] [] (.inr (.inl rfl)) (.inl rfl) rfl rfl)

end Pintos.Lib
