import Mathlib.Data.List.Chain
import Mathlib.Data.List.Infix
import Pintos.Lib.ListOps

/-!
# Surgery on linked lists

`attach` and `detach` are what all calls but `list_reverse` consist of.  Both are specified for chains of elements
(`Linked.attach`, `Linked.detach`) and from there for the lists of a heap (`Holds.attach`, `Holds.detach`), whatever
the neighbours are: items, a head or a tail.  The calls follow.
-/

namespace Pintos.Lib

section

variable {A : Type} {l : List A} {a : A}

/-- Neighbours in a chain: none is the last and the first of the list. -/
theorem isChain_of_mem {r s : A → A → Prop} (h : l.IsChain r)
    (hrs : ∀ a ∈ l.dropLast, ∀ b ∈ l.tail, r a b → s a b) : l.IsChain s := by
  induction h with
  | nil => exact .nil
  | singleton a => exact .singleton a
  | @cons_cons a b l hab _ ih =>
    apply List.IsChain.cons_cons
    · exact hrs a List.mem_cons_self b List.mem_cons_self hab
    · apply ih
      intro c hc d hd
      exact hrs c (List.mem_cons_of_mem _ hc) d (List.mem_cons_of_mem _ hd)

theorem notMem_dropLast (h : l.Nodup) (ha : a ∈ l.getLast?) : a ∉ l.dropLast := by
  intro hmem
  rw [← List.dropLast_append_getLast? a ha] at h
  exact (List.nodup_append.mp h).2.2 a hmem a (List.mem_singleton_self a) rfl

theorem notMem_tail (h : l.Nodup) (ha : a ∈ l.head?) : a ∉ l.tail := by
  rw [List.eq_cons_of_mem_head? ha] at h
  exact (List.nodup_cons.mp h).1

end

variable {Q T : Type} [DecidableEq Q] [DecidableEq T]

/-! ## Sequences and elements -/

/-- The elements of a list up to an item, and those behind it. -/
def front (q : Q) (l : List T) : List (ListElem Q T) := .head q :: l.map .item

def back (q : Q) (r : List T) : List (ListElem Q T) := r.map .item ++ [.tail q]

section

omit [DecidableEq Q] [DecidableEq T]

variable {f : Q → List T} {q q' : Q} {l r xs : List T} {a : ListElem Q T}

theorem elems_append : Links.elems q (l ++ r) = front q l ++ back q r := by
  simp [Links.elems, front, back]

theorem elems_append_append : Links.elems q (l ++ xs ++ r) = front q l ++ (xs.map .item ++ back q r) := by
  simp [Links.elems, front, back]

theorem lastOf_mem : lastOf q l ∈ (front q l).getLast? := by
  rw [front, List.getLast?_cons, List.getLast?_map]
  exact rfl

theorem firstOf_mem : firstOf q r ∈ (back q r).head? := by
  cases r <;> exact rfl

theorem firstOf_ne_head : firstOf q r ≠ .head q' := by
  cases r <;> simp [firstOf]

theorem lastOf_ne_tail : lastOf q l ≠ .tail q' := by
  unfold lastOf
  cases l.getLast? <;> simp

theorem mem_elems : a ∈ Links.elems q l ↔ a = .head q ∨ (∃ t ∈ l, a = .item t) ∨ a = .tail q := by
  rw [← Links.mem_items]
  exact List.mem_cons

/-- Heads and tails too belong to one list. -/
theorem elems_disjoint (h : DisjointLists f) : DisjointLists fun q => Links.elems q (f q) := by
  constructor
  · intro q
    apply List.nodup_cons.mpr
    constructor
    · intro hmem
      rcases Links.mem_items.mp hmem with ⟨t, -, ht⟩ | ht <;> cases ht
    · exact Links.nodup_items q (h.nodup q)
  · intro q q' a ha ha'
    rcases mem_elems.mp ha with rfl | ⟨t, ht, rfl⟩ | rfl <;>
      rcases mem_elems.mp ha' with h' | ⟨t', ht', h'⟩ | h' <;> cases h'
    · rfl
    · exact h.disjoint q q' t ht ht'
    · rfl

end

namespace Links

/-- `a` stands in front of `b`. -/
def Neighbours (m : Links Q T) (a b : ListElem Q T) : Prop := m.next a = some b ∧ m.prev b = some a

variable {m m' : Links Q T} {lists : Set Q} {f g : Q → List T} {q q' : Q} {t : T} {l r l' r' xs : List T}
  {L R X : List (ListElem Q T)} {a b x y : ListElem Q T}

/-! ## Chains -/

omit [DecidableEq Q] [DecidableEq T] in
theorem linked_iff : m.Linked L ↔ L.IsChain m.Neighbours := by
  induction L with
  | nil => exact ⟨fun _ => .nil, fun _ => trivial⟩
  | cons a L ih =>
    cases L with
    | nil => exact ⟨fun _ => .singleton a, fun _ => trivial⟩
    | cons b L =>
      rw [List.isChain_cons_cons, ← ih]
      exact ⟨fun ⟨h, h', hl⟩ => ⟨⟨h, h'⟩, hl⟩, fun ⟨⟨h, h'⟩, hl⟩ => ⟨h, h', hl⟩⟩

omit [DecidableEq Q] [DecidableEq T] in
/-- A chain in two pieces. -/
theorem linked_append : m.Linked (L ++ R) ↔
    m.Linked L ∧ m.Linked R ∧ ∀ a ∈ L.getLast?, ∀ b ∈ R.head?, m.Neighbours a b := by
  rw [linked_iff, linked_iff, linked_iff]
  exact List.isChain_append

omit [DecidableEq Q] [DecidableEq T] in
/-- Links that are as before inside the chain. -/
theorem Linked.frame (h : m.Linked L) (hnext : ∀ a ∈ L.dropLast, m'.next a = m.next a)
    (hprev : ∀ b ∈ L.tail, m'.prev b = m.prev b) : m'.Linked L := by
  rw [linked_iff] at h ⊢
  apply isChain_of_mem h
  intro a ha b hb hab
  exact ⟨(hnext a ha).trans hab.1, (hprev b hb).trans hab.2⟩

/-! ## Surgery -/

theorem attach_eq (m : Links Q T) (before first last : ListElem Q T) :
    m.attach before first last = (m.prev before).map fun p =>
      ⟨Function.update (Function.update m.next last (some before)) p (some first),
        Function.update (Function.update m.prev first (m.prev before)) before (some last)⟩ := by
  have hprev : ((m.setPrev first (m.prev before)).setNext last (some before)).prev before = m.prev before := by
    show Function.update m.prev first (m.prev before) before = _
    rw [Function.update_apply]
    split <;> rfl
  simp only [attach, hprev]
  cases m.prev before <;> rfl

theorem detach_eq (m : Links Q T) (first last : ListElem Q T) :
    m.detach first last = (m.prev first).bind fun p => (m.next last).map fun n =>
      ⟨Function.update m.next p (some n), Function.update m.prev n (some p)⟩ := by
  unfold detach
  cases hp : m.prev first with
  | none => rfl
  | some p =>
    have hnext : (m.setNext p (m.next last)).next last = m.next last := by
      show Function.update m.next p (m.next last) last = _
      rw [Function.update_apply]
      split <;> rfl
    simp only [Option.bind_eq_bind, Option.bind_some, hnext]
    cases m.next last with
    | none => rfl
    | some n =>
      show some (setPrev _ n (m.prev first)) = _
      rw [hp]
      rfl

/-- A chain goes between two neighbours. -/
theorem Linked.attach (h : m.Linked (L ++ R)) (hX : m.Linked X) (hnodup : (L ++ (X ++ R)).Nodup)
    (ha : a ∈ L.getLast?) (hb : b ∈ R.head?) (hx : x ∈ X.head?) (hy : y ∈ X.getLast?) :
    ∃ m', m.attach b x y = some m' ∧ m'.Linked (L ++ (X ++ R)) ∧
      (∀ c, c ≠ a → c ≠ y → m'.next c = m.next c) ∧ ∀ c, c ≠ b → c ≠ x → m'.prev c = m.prev c := by
  obtain ⟨hL, hR, hab⟩ := linked_append.mp h
  have hba : m.prev b = some a := (hab a ha b hb).2
  obtain ⟨hLn, hXRn, hLXR⟩ := List.nodup_append.mp hnodup
  obtain ⟨hXn, hRn, hXR⟩ := List.nodup_append.mp hXRn
  have haL := List.mem_of_getLast? ha
  have hbR := List.mem_of_head? hb
  have hxX := List.mem_of_head? hx
  have hyX := List.mem_of_getLast? hy
  have hay : a ≠ y := hLXR a haL y (List.mem_append_left _ hyX)
  have hxb : x ≠ b := hXR x hxX b hbR
  set m' : Links Q T := ⟨Function.update (Function.update m.next y (some b)) a (some x),
    Function.update (Function.update m.prev x (some a)) b (some y)⟩
  have hnext : ∀ c, c ≠ a → c ≠ y → m'.next c = m.next c := by
    intro c hca hcy
    exact (Function.update_of_ne hca _ _).trans (Function.update_of_ne hcy _ _)
  have hprev : ∀ c, c ≠ b → c ≠ x → m'.prev c = m.prev c := by
    intro c hcb hcx
    exact (Function.update_of_ne hcb _ _).trans (Function.update_of_ne hcx _ _)
  have hax : m'.Neighbours a x :=
    ⟨Function.update_self .., (Function.update_of_ne hxb _ _).trans (Function.update_self ..)⟩
  have hyb : m'.Neighbours y b :=
    ⟨(Function.update_of_ne hay.symm _ _).trans (Function.update_self ..), Function.update_self ..⟩
  refine ⟨m', by rw [attach_eq, hba]; rfl, ?_, hnext, hprev⟩
  apply linked_append.mpr
  refine ⟨?_, linked_append.mpr ⟨?_, ?_, ?_⟩, ?_⟩
  · apply hL.frame
    · intro c hc
      have hcL := List.mem_of_mem_dropLast hc
      exact hnext c (fun hca => notMem_dropLast hLn ha (hca ▸ hc)) (hLXR c hcL y (List.mem_append_left _ hyX))
    · intro c hc
      have hcL := List.mem_of_mem_tail hc
      exact hprev c (hLXR c hcL b (List.mem_append_right _ hbR)) (hLXR c hcL x (List.mem_append_left _ hxX))
  · apply hX.frame
    · intro c hc
      have hcX := List.mem_of_mem_dropLast hc
      exact hnext c (hLXR a haL c (List.mem_append_left _ hcX)).symm fun hcy => notMem_dropLast hXn hy (hcy ▸ hc)
    · intro c hc
      exact hprev c (hXR c (List.mem_of_mem_tail hc) b hbR) fun hcx => notMem_tail hXn hx (hcx ▸ hc)
  · apply hR.frame
    · intro c hc
      have hcR := List.mem_of_mem_dropLast hc
      exact hnext c (hLXR a haL c (List.mem_append_right _ hcR)).symm (hXR y hyX c hcR).symm
    · intro c hc
      exact hprev c (fun hcb => notMem_tail hRn hb (hcb ▸ hc)) (hXR x hxX c (List.mem_of_mem_tail hc)).symm
  · intro c hc d hd
    rw [Option.mem_unique hc hy, Option.mem_unique hd hb]
    exact hyb
  · intro c hc d hd
    rw [List.head?_append_of_ne_nil _ (List.ne_nil_of_mem hxX)] at hd
    rw [Option.mem_unique hc ha, Option.mem_unique hd hx]
    exact hax

/-- A chain is taken out. -/
theorem Linked.detach (h : m.Linked (L ++ (X ++ R))) (hnodup : (L ++ R).Nodup)
    (ha : a ∈ L.getLast?) (hb : b ∈ R.head?) (hx : x ∈ X.head?) (hy : y ∈ X.getLast?) :
    ∃ m', m.detach x y = some m' ∧ m.next y = some b ∧ m'.Linked (L ++ R) ∧
      (∀ c, c ≠ a → m'.next c = m.next c) ∧ ∀ c, c ≠ b → m'.prev c = m.prev c := by
  obtain ⟨hL, hXR, hLXR⟩ := linked_append.mp h
  obtain ⟨-, hR, hXR⟩ := linked_append.mp hXR
  have hxX := List.mem_of_head? hx
  have hyb : m.next y = some b := (hXR y hy b hb).1
  have hax : m.prev x = some a := by
    apply (hLXR a ha x _).2
    rw [List.head?_append_of_ne_nil _ (List.ne_nil_of_mem hxX)]
    exact hx
  obtain ⟨hLn, hRn, hLR⟩ := List.nodup_append.mp hnodup
  have haL := List.mem_of_getLast? ha
  have hbR := List.mem_of_head? hb
  set m' : Links Q T := ⟨Function.update m.next a (some b), Function.update m.prev b (some a)⟩
  have hnext : ∀ c, c ≠ a → m'.next c = m.next c := fun c hca => Function.update_of_ne hca _ _
  have hprev : ∀ c, c ≠ b → m'.prev c = m.prev c := fun c hcb => Function.update_of_ne hcb _ _
  refine ⟨m', by rw [detach_eq, hax, hyb]; rfl, hyb, ?_, hnext, hprev⟩
  apply linked_append.mpr
  refine ⟨?_, ?_, ?_⟩
  · apply hL.frame
    · intro c hc
      exact hnext c fun hca => notMem_dropLast hLn ha (hca ▸ hc)
    · intro c hc
      exact hprev c (hLR c (List.mem_of_mem_tail hc) b hbR)
  · apply hR.frame
    · intro c hc
      exact hnext c (hLR a haL c (List.mem_of_mem_dropLast hc)).symm
    · intro c hc
      exact hprev c fun hcb => notMem_tail hRn hb (hcb ▸ hc)
  · intro c hc d hd
    rw [Option.mem_unique hc ha, Option.mem_unique hd hb]
    exact ⟨Function.update_self .., Function.update_self ..⟩

/-! ## The lists of a heap -/

omit [DecidableEq Q] [DecidableEq T] in
/-- Links that change in one list only. -/
theorem Holds.change (h : m.Holds lists f) (hg : DisjointLists g) (hfg : ∀ q', q' ≠ q → g q' = f q')
    (hnext : ∀ a, a ∉ elems q (g q) → m'.next a = m.next a) (hprev : ∀ a, a ∉ elems q (g q) → m'.prev a = m.prev a)
    (hlinked : m.prev (.head q) = none → m.next (.tail q) = none →
      m'.prev (.head q) = none ∧ m'.next (.tail q) = none ∧ m'.Linked (elems q (g q))) : m'.Holds lists g := by
  intro q' hq'
  obtain ⟨hhead, htail, hl⟩ := h q' hq'
  by_cases hqq : q' = q
  · subst hqq
    exact hlinked hhead htail
  · have hno : ∀ a ∈ elems q' (g q'), a ∉ elems q (g q) := by
      intro a ha ha'
      exact hqq ((elems_disjoint hg).disjoint q' q a ha ha')
    refine ⟨?_, ?_, ?_⟩
    · rw [hprev _ (hno _ List.mem_cons_self), hhead]
    · rw [hnext _ (hno _ (mem_elems.mpr (.inr (.inr rfl)))), htail]
    · rw [← hfg q' hqq] at hl
      apply hl.frame
      · intro a ha
        exact hnext a (hno a (List.mem_of_mem_dropLast ha))
      · intro a ha
        exact hprev a (hno a (List.mem_of_mem_tail ha))

/-- **Putting items of no list between two neighbours.** -/
theorem Holds.attach (h : m.Holds lists (Function.update g q (l ++ r))) (hg : DisjointLists g) (hq : q ∈ lists)
    (hgq : g q = l ++ xs ++ r) (hX : m.Linked (xs.map .item)) (hx : x ∈ (xs.map ListElem.item).head?)
    (hy : y ∈ (xs.map ListElem.item).getLast?) : ∃ m', m.attach (firstOf q r) x y = some m' ∧ m'.Holds lists g := by
  obtain ⟨hhead, htail, hl⟩ := h q hq
  rw [Function.update_self, elems_append] at hl
  have heq := congrArg (elems q) hgq
  rw [elems_append_append] at heq
  have hnodup := (elems_disjoint hg).nodup q
  rw [heq] at hnodup
  obtain ⟨m', hrun, hl', hnext, hprev⟩ := hl.attach hX hnodup lastOf_mem firstOf_mem hx hy
  refine ⟨m', hrun, ?_⟩
  have hmem : lastOf q l ∈ elems q (g q) ∧ y ∈ elems q (g q) ∧ firstOf q r ∈ elems q (g q) ∧ x ∈ elems q (g q) := by
    rw [heq]
    refine ⟨?_, ?_, ?_, ?_⟩
    · exact List.mem_append_left _ (List.mem_of_getLast? lastOf_mem)
    · exact List.mem_append_right _ (List.mem_append_left _ (List.mem_of_getLast? hy))
    · exact List.mem_append_right _ (List.mem_append_right _ (List.mem_of_head? firstOf_mem))
    · exact List.mem_append_right _ (List.mem_append_left _ (List.mem_of_head? hx))
  apply h.change hg
  · intro q' hne
    exact (Function.update_of_ne hne _ _).symm
  · intro a ha
    exact hnext a (fun he => ha (he ▸ hmem.1)) fun he => ha (he ▸ hmem.2.1)
  · intro a ha
    exact hprev a (fun he => ha (he ▸ hmem.2.2.1)) fun he => ha (he ▸ hmem.2.2.2)
  · intro hhead htail
    obtain ⟨u, -, rfl⟩ := List.mem_map.mp (List.mem_of_head? hx)
    obtain ⟨v, -, rfl⟩ := List.mem_map.mp (List.mem_of_getLast? hy)
    refine ⟨?_, ?_, ?_⟩
    · exact (hprev _ firstOf_ne_head.symm (by simp)).trans hhead
    · exact (hnext _ lastOf_ne_tail.symm (by simp)).trans htail
    · rw [heq]
      exact hl'

/-- **Taking items out of a list.** -/
theorem Holds.detach (h : m.Holds lists g) (hg : DisjointLists g) (hq : q ∈ lists) (hgq : g q = l ++ xs ++ r)
    (hx : x ∈ (xs.map ListElem.item).head?) (hy : y ∈ (xs.map ListElem.item).getLast?) :
    ∃ m', m.detach x y = some m' ∧ m.next y = some (firstOf q r) ∧ m'.Holds lists (Function.update g q (l ++ r)) ∧
      m'.Linked (xs.map .item) := by
  obtain ⟨hhead, htail, hl⟩ := h q hq
  have hsub : (l ++ r).Sublist (g q) := by
    rw [hgq, List.append_assoc]
    exact (List.sublist_append_right xs r).append_left l
  have hg' := hg.take hsub
  rw [hgq, elems_append_append] at hl
  have heq := congrArg (elems q) (Function.update_self q (l ++ r) g)
  rw [elems_append] at heq
  have hnodup := (elems_disjoint hg').nodup q
  rw [heq] at hnodup
  obtain ⟨m', hrun, hyb, hl', hnext, hprev⟩ := hl.detach hnodup lastOf_mem firstOf_mem hx hy
  have hmem : lastOf q l ∈ elems q (Function.update g q (l ++ r) q) ∧
      firstOf q r ∈ elems q (Function.update g q (l ++ r) q) := by
    rw [heq]
    constructor
    · exact List.mem_append_left _ (List.mem_of_getLast? lastOf_mem)
    · exact List.mem_append_right _ (List.mem_of_head? firstOf_mem)
  refine ⟨m', hrun, hyb, ?_, ?_⟩
  · apply h.change hg'
    · intro q' hne
      exact Function.update_of_ne hne _ _
    · intro a ha
      exact hnext a fun he => ha (he ▸ hmem.1)
    · intro a ha
      exact hprev a fun he => ha (he ▸ hmem.2)
    · intro hhead htail
      refine ⟨?_, ?_, ?_⟩
      · exact (hprev _ firstOf_ne_head.symm).trans hhead
      · exact (hnext _ lastOf_ne_tail.symm).trans htail
      · rw [heq]
        exact hl'
  · -- the neighbours of the items are not among them
    have hnodup := (elems_disjoint hg).nodup q
    rw [hgq, elems_append_append] at hnodup
    obtain ⟨-, hXR, hLXR⟩ := List.nodup_append.mp hnodup
    obtain ⟨-, -, hXR⟩ := List.nodup_append.mp hXR
    apply (linked_append.mp (linked_append.mp hl).2.1).1.frame
    · intro c hc
      have hcX := List.mem_of_mem_dropLast hc
      exact hnext c (hLXR _ (List.mem_of_getLast? lastOf_mem) c (List.mem_append_left _ hcX)).symm
    · intro c hc
      exact hprev c (hXR c (List.mem_of_mem_tail hc) _ (List.mem_of_head? firstOf_mem))

/-! ## The calls -/

omit [DecidableEq Q] [DecidableEq T] in
theorem isInterior_or_isTail (m : Links Q T) (e : ListElem Q T) :
    (m.isInterior e || m.isTail e) = (m.prev e).isSome := by
  unfold isInterior isTail
  cases (m.prev e).isSome <;> cases m.next e <;> rfl

omit [DecidableEq Q] [DecidableEq T] in
theorem Holds.neighbours (h : m.Holds lists f) (hq : q ∈ lists) (hf : f q = l ++ r) :
    m.Neighbours (lastOf q l) (firstOf q r) := by
  obtain ⟨-, -, hl⟩ := h q hq
  rw [hf, elems_append] at hl
  exact (linked_append.mp hl).2.2 _ lastOf_mem _ firstOf_mem

omit [DecidableEq Q] [DecidableEq T] in
theorem lastOf_append (ht : t ∈ xs.getLast?) : lastOf q (l ++ xs) = .item t := by
  unfold lastOf
  rw [List.getLast?_append, ht]
  rfl

omit [DecidableEq Q] [DecidableEq T] in
theorem Holds.isInterior (h : m.Holds lists f) (hq : q ∈ lists) (ht : t ∈ f q) : m.isInterior (.item t) = true := by
  obtain ⟨l, r, hf⟩ := List.append_of_mem ht
  have hprev := (h.neighbours hq hf).2
  rw [List.append_cons] at hf
  have hnext := (h.neighbours hq hf).1
  rw [lastOf_append (t := t) rfl] at hnext
  change m.prev (.item t) = _ at hprev
  simp [Links.isInterior, hprev, hnext]

omit [DecidableEq T] in
theorem update_of_eq (hf : f q = l) : Function.update f q l = f := by
  rw [← hf]
  exact Function.update_eq_self q f

/-- `list_init`, also of a list that is there already. -/
theorem Holds.listInit (h : m.Holds lists f) (hf : f q = []) : (m.listInit q).Holds (insert q lists) f := by
  have hnext : ∀ e, e ≠ .head q → e ≠ .tail q → (m.listInit q).next e = m.next e := by
    intro e hhead htail
    simp [Links.listInit, setNext, setPrev, hhead, htail]
  have hprev : ∀ e, e ≠ .head q → e ≠ .tail q → (m.listInit q).prev e = m.prev e := by
    intro e hhead htail
    simp [Links.listInit, setNext, setPrev, hhead, htail]
  intro q' hq'
  by_cases hqq : q' = q
  · subst hqq
    rw [hf]
    refine ⟨?_, ?_, ?_, ?_, trivial⟩ <;> simp [Links.listInit, setNext, setPrev]
  · obtain ⟨hhead, htail, hl⟩ := h q' (hq'.resolve_left hqq)
    have hno : ∀ e ∈ elems q' (f q'), e ≠ .head q ∧ e ≠ .tail q := by
      intro e he
      rcases mem_elems.mp he with rfl | ⟨t, -, rfl⟩ | rfl <;> simp [hqq]
    refine ⟨?_, ?_, ?_⟩
    · rw [hprev _ (by simp [hqq]) (by simp), hhead]
    · rw [hnext _ (by simp) (by simp [hqq]), htail]
    · apply hl.frame
      · intro e he
        obtain ⟨hh, ht⟩ := hno e (List.mem_of_mem_dropLast he)
        exact hnext e hh ht
      · intro e he
        obtain ⟨hh, ht⟩ := hno e (List.mem_of_mem_tail he)
        exact hprev e hh ht

/-- `list_insert` -/
theorem Holds.listInsert (h : m.Holds lists f) (hd : DisjointLists f) (hq : q ∈ lists) (hf : f q = l ++ r)
    (hnew : ∀ q', t ∉ f q') : ∃ m', m.listInsert (firstOf q r) (.item t) = some m' ∧
      m'.Holds lists (Function.update f q (l ++ t :: r)) ∧ DisjointLists (Function.update f q (l ++ t :: r)) := by
  have hg : DisjointLists (Function.update f q (l ++ t :: r)) := by
    apply hd.push hnew
    rw [hf]
    exact List.perm_middle
  have hh : m.Holds lists (Function.update (Function.update f q (l ++ t :: r)) q (l ++ r)) := by
    rw [Function.update_idem, update_of_eq hf]
    exact h
  have hgq : Function.update f q (l ++ t :: r) q = l ++ [t] ++ r := by
    rw [Function.update_self, List.append_assoc]
    rfl
  obtain ⟨m', hrun, hm'⟩ := hh.attach hg hq hgq (x := .item t) (y := .item t) trivial rfl rfl
  refine ⟨m', ?_, hm', hg⟩
  unfold Links.listInsert
  rw [isInterior_or_isTail, (h.neighbours hq hf).2]
  exact hrun

/-- `list_push_front` -/
theorem Holds.listPushFront (h : m.Holds lists f) (hd : DisjointLists f) (hq : q ∈ lists) (hnew : ∀ q', t ∉ f q') :
    ∃ m', m.listPushFront q (.item t) = some m' ∧ m'.Holds lists (Function.update f q (t :: f q)) ∧
      DisjointLists (Function.update f q (t :: f q)) := by
  have hbegin : m.next (.head q) = some (firstOf q (f q)) := (h.neighbours hq (List.nil_append (f q)).symm).1
  unfold Links.listPushFront
  rw [hbegin]
  exact h.listInsert hd hq (List.nil_append (f q)).symm hnew

/-- `list_push_back` -/
theorem Holds.listPushBack (h : m.Holds lists f) (hd : DisjointLists f) (hq : q ∈ lists) (hnew : ∀ q', t ∉ f q') :
    ∃ m', m.listPushBack q (.item t) = some m' ∧ m'.Holds lists (Function.update f q (f q ++ [t])) ∧
      DisjointLists (Function.update f q (f q ++ [t])) :=
  h.listInsert hd hq (List.append_nil (f q)).symm hnew

/-- `list_remove` -/
theorem Holds.listRemove (h : m.Holds lists f) (hd : DisjointLists f) (hq : q ∈ lists) (hf : f q = l ++ t :: r) :
    ∃ m', m.listRemove (.item t) = some (firstOf q r, m') ∧ m'.Holds lists (Function.update f q (l ++ r)) ∧
      DisjointLists (Function.update f q (l ++ r)) := by
  have hfq : f q = l ++ [t] ++ r := by
    rw [hf, List.append_cons]
  obtain ⟨m', hrun, hnext, hm', -⟩ := h.detach hd hq hfq (x := .item t) (y := .item t) rfl rfl
  have hprev := (h.neighbours hq hf).2
  change m.prev (.item t) = _ at hprev
  refine ⟨m', ?_, hm', ?_⟩
  · rw [detach_eq, hprev, hnext] at hrun
    unfold Links.listRemove
    rw [hprev, hnext]
    exact congrArg (Option.map fun m => (firstOf q r, m)) hrun
  · apply hd.take
    rw [hf]
    exact (List.sublist_cons_self t r).append_left l

omit [DecidableEq Q] [DecidableEq T] in
theorem Holds.listNext (h : m.Holds lists f) (hq : q ∈ lists) (hf : f q = l ++ t :: r) :
    m.listNext (.item t) = some (firstOf q r) := by
  have hin : m.isInterior (.item t) = true := by
    apply h.isInterior hq
    rw [hf]
    exact List.mem_append_right _ List.mem_cons_self
  rw [List.append_cons] at hf
  have hnext := (h.neighbours hq hf).1
  rw [lastOf_append (t := t) rfl] at hnext
  unfold Links.listNext
  rw [hin, Bool.or_true, if_pos rfl]
  exact hnext

omit [DecidableEq Q] [DecidableEq T] in
theorem Holds.prev_isSome (h : m.Holds lists f) (hq : q ∈ lists) (hr : r ⊆ f q) :
    (m.prev (firstOf q r)).isSome = true := by
  cases r with
  | nil =>
    have hprev := (h.neighbours hq (List.append_nil (f q)).symm).2
    rw [hprev]
    rfl
  | cons t r =>
    have hin := h.isInterior hq (hr List.mem_cons_self)
    rw [Links.isInterior, Bool.and_eq_true] at hin
    exact hin.1

omit [DecidableEq Q] [DecidableEq T] in
theorem Holds.listPrev (h : m.Holds lists f) (hq : q ∈ lists) (hf : f q = l ++ r) (ht : t ∈ l.getLast?) :
    m.listPrev (firstOf q r) = some (.item t) := by
  have hprev := (h.neighbours hq hf).2
  have hlast : lastOf q l = .item t := lastOf_append (l := []) ht
  rw [hlast] at hprev
  unfold Links.listPrev
  rw [isInterior_or_isTail, hprev]
  rfl

omit [DecidableEq Q] [DecidableEq T] in
theorem firstOf_ne (h : (xs ++ r).Nodup) (hxs : xs ≠ []) : firstOf q (xs ++ r) ≠ firstOf q r := by
  obtain ⟨x, xs, rfl⟩ := List.exists_cons_of_ne_nil hxs
  cases r with
  | nil => simp [firstOf]
  | cons u r =>
    intro hxu
    exact (List.nodup_append.mp h).2.2 x List.mem_cons_self u List.mem_cons_self (ListElem.item.inj hxu)

/-- `list_splice`, to another list or within one. -/
theorem Holds.listSplice (h : m.Holds lists f) (hd : DisjointLists f) (hq : q ∈ lists) (hq' : q' ∈ lists)
    (hf : f q = l ++ xs ++ r) (hf' : Function.update f q (l ++ r) q' = l' ++ r') :
    ∃ m', m.listSplice (firstOf q' r') (firstOf q (xs ++ r)) (firstOf q r) = some m' ∧
      m'.Holds lists (Function.update (Function.update f q (l ++ r)) q' (l' ++ xs ++ r')) ∧
      DisjointLists (Function.update (Function.update f q (l ++ r)) q' (l' ++ xs ++ r')) := by
  have hsub : (l ++ r).Sublist (f q) := by
    rw [hf, List.append_assoc]
    exact (List.sublist_append_right xs r).append_left l
  have hd₁ := hd.take hsub
  have hbefore : (m.isInterior (firstOf q' r') || m.isTail (firstOf q' r')) = true := by
    rw [isInterior_or_isTail]
    apply h.prev_isSome hq'
    intro t ht
    have ht' : t ∈ Function.update f q (l ++ r) q' := hf' ▸ List.mem_append_right _ ht
    rw [Function.update_apply] at ht'
    split at ht'
    · rename_i heq
      exact heq ▸ hsub.subset ht'
    · exact ht'
  unfold Links.listSplice
  rw [if_pos hbefore]
  rcases List.eq_nil_or_concat xs with rfl | ⟨xs', y, hxs⟩
  · -- nothing is moved
    rw [List.append_nil] at hf ⊢
    rw [update_of_eq hf] at hf' hd₁ ⊢
    rw [update_of_eq hf']
    exact ⟨m, if_pos rfl, h, hd⟩
  · have hy : y ∈ xs.getLast? := by
      rw [hxs, List.concat_eq_append, List.getLast?_concat]
      exact rfl
    obtain ⟨x, xs'', rfl⟩ := List.exists_cons_of_ne_nil (List.ne_nil_of_mem (List.mem_of_getLast? hy))
    have hyf : y ∈ f q := by
      rw [hf]
      exact List.mem_append_left _ (List.mem_append_right _ (List.mem_of_getLast? hy))
    have hne : firstOf q (x :: xs'' ++ r) ≠ firstOf q r := by
      apply firstOf_ne _ (List.cons_ne_nil _ _)
      have hnodup := hd.nodup q
      rw [hf, List.append_assoc] at hnodup
      exact (List.nodup_append.mp hnodup).2.1
    have hlast : m.listPrev (firstOf q r) = some (.item y) := by
      apply h.listPrev hq hf
      rw [List.getLast?_append, hy]
      exact rfl
    have hx : (ListElem.item x : ListElem Q T) ∈ ((x :: xs'').map ListElem.item).head? := rfl
    have hy' : (ListElem.item y : ListElem Q T) ∈ ((x :: xs'').map ListElem.item).getLast? := by
      rw [List.getLast?_map, hy]
      exact rfl
    obtain ⟨m₁, hdetach, -, hm₁, hX⟩ := h.detach hd hq hf hx hy'
    have hd₂ : DisjointLists (Function.update (Function.update f q (l ++ r)) q' (l' ++ (x :: xs'') ++ r')) := by
      apply hd.move hf
      rw [hf', ← List.append_assoc]
      exact List.perm_append_comm.append_right r'
    have hh : m₁.Holds lists (Function.update (Function.update (Function.update f q (l ++ r)) q'
        (l' ++ (x :: xs'') ++ r')) q' (l' ++ r')) := by
      rw [Function.update_idem, update_of_eq hf']
      exact hm₁
    obtain ⟨m₂, hattach, hm₂⟩ := hh.attach hd₂ hq' (Function.update_self ..) hX hx hy'
    refine ⟨m₂, ?_, hm₂, hd₂⟩
    rw [if_neg hne, hlast]
    have hxf : x ∈ f q := by
      rw [hf]
      exact List.mem_append_left _ (List.mem_append_right _ List.mem_cons_self)
    have hin : (m.isInterior (firstOf q (x :: xs'' ++ r)) && m.isInterior (.item y)) = true := by
      rw [Bool.and_eq_true]
      exact ⟨h.isInterior hq hxf, h.isInterior hq hyf⟩
    simp only [Option.bind_eq_bind, Option.bind_some, hin, if_true]
    show (m.detach (.item x) (.item y)).bind _ = _
    rw [hdetach]
    exact hattach

omit [DecidableEq Q] [DecidableEq T] in
/-- All disjoint lists can be linked. -/
theorem exists_holds (hd : DisjointLists f) : ∃ m : Links Q T, m.Holds Set.univ f := by
  classical
  let Next (a b : ListElem Q T) : Prop := ∃ q l r, elems q (f q) = l ++ a :: b :: r
  have hsplit : ∀ {L R L' R' : List (ListElem Q T)} {a : ListElem Q T} {q q' : Q}, elems q (f q) = L ++ a :: R →
      elems q' (f q') = L' ++ a :: R' → L = L' ∧ R = R' := by
    intro L R L' R' a q q' h h'
    have hq : q = q' := by
      apply (elems_disjoint hd).disjoint q q' a
      · rw [h]
        exact List.mem_append_right _ List.mem_cons_self
      · rw [h']
        exact List.mem_append_right _ List.mem_cons_self
    have hnodup : (elems q (f q)).Nodup := (elems_disjoint hd).nodup q
    rw [hq, h'] at h
    rw [hq, h'] at hnodup
    obtain ⟨hL', -, hcross⟩ := List.nodup_append.mp hnodup
    have ha : a ∉ L' := fun ha => hcross a ha a List.mem_cons_self rfl
    have ha' : a ∉ R' := (List.nodup_cons.mp (List.nodup_append.mp hnodup).2.1).1
    obtain ⟨hl, -, hr⟩ := (List.append_cons_inj_of_notMem ha ha').mp h
    exact ⟨hl.symm, hr.symm⟩
  have hnext : ∀ {a b b'}, Next a b → Next a b' → b' = b := by
    intro a b b' ⟨q, l, r, h⟩ ⟨q', l', r', h'⟩
    exact (List.cons.inj (hsplit h' h).2).1
  have hprev : ∀ {a a' b}, Next a b → Next a' b → a' = a := by
    intro a a' b ⟨q, l, r, h⟩ ⟨q', l', r', h'⟩
    rw [List.append_cons] at h h'
    exact (List.append_singleton_inj.mp (hsplit h' h).1).2
  let m : Links Q T := ⟨fun a => if h : ∃ b, Next a b then some h.choose else none,
    fun b => if h : ∃ a, Next a b then some h.choose else none⟩
  refine ⟨m, fun q _ => ⟨dif_neg ?_, dif_neg ?_, linked_iff.mpr (List.isChain_iff_forall_rel_of_append_cons_cons.mpr ?_)⟩⟩
  · intro ⟨a, q', l, r, h⟩
    have hhead : elems q (f q) = [] ++ .head q :: ((f q).map .item ++ [.tail q]) := rfl
    rw [List.append_cons] at h
    have := (hsplit h hhead).1
    simp at this
  · intro ⟨b, q', l, r, h⟩
    have htail : elems q (f q) = (.head q :: (f q).map .item) ++ .tail q :: [] := rfl
    have := (hsplit h htail).2
    simp at this
  · intro a b l r h
    have hab : Next a b := ⟨q, l, r, h⟩
    constructor
    · have hex : ∃ b, Next a b := ⟨b, hab⟩
      exact (dif_pos hex).trans (congrArg some (hnext hab hex.choose_spec))
    · have hex : ∃ a, Next a b := ⟨a, hab⟩
      exact (dif_pos hex).trans (congrArg some (hprev hab hex.choose_spec))
end Links

end Pintos.Lib
