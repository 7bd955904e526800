import Mathlib.Data.List.Destutter
import Pintos.Lib.KernelList

/-!
# The operations on linked lists

`list_insert`, `list_splice`, `list_remove`, `list_reverse` and `list_unique` of `lib/kernel/list.c` on the links of a
heap with any number of lists.

`Means` says what a call does to the sequences of elements, and what its caller must see to.
-/

namespace Pintos.Lib

namespace Links

variable {Q T : Type} [DecidableEq Q] [DecidableEq T]

/-! ## The code -/

/-- `a->next = b` -/
def setNext (m : Links Q T) (a : ListElem Q T) (b : Option (ListElem Q T)) : Links Q T :=
  { m with next := Function.update m.next a b }

/-- `a->prev = b` -/
def setPrev (m : Links Q T) (a : ListElem Q T) (b : Option (ListElem Q T)) : Links Q T :=
  { m with prev := Function.update m.prev a b }

/-- `list_init` -/
def listInit (m : Links Q T) (q : Q) : Links Q T :=
  (((m.setPrev (.head q) none).setNext (.head q) (some (.tail q))).setPrev (.tail q) (some (.head q))).setNext
    (.tail q) none

/-- `is_head` -/
def isHead (m : Links Q T) (e : ListElem Q T) : Bool := (m.prev e).isNone && (m.next e).isSome

/-- `is_interior` -/
def isInterior (m : Links Q T) (e : ListElem Q T) : Bool := (m.prev e).isSome && (m.next e).isSome

/-- `is_tail` -/
def isTail (m : Links Q T) (e : ListElem Q T) : Bool := (m.prev e).isSome && (m.next e).isNone

/-- `list_next` -/
def listNext (m : Links Q T) (e : ListElem Q T) : Option (ListElem Q T) :=
  if m.isHead e || m.isInterior e then m.next e else none

/-- `list_prev` -/
def listPrev (m : Links Q T) (e : ListElem Q T) : Option (ListElem Q T) :=
  if m.isInterior e || m.isTail e then m.prev e else none

/-- The four assignments that put the elements from `first` to `last` in front of `before`. -/
def attach (m : Links Q T) (before first last : ListElem Q T) : Option (Links Q T) := do
  let m := m.setPrev first (m.prev before)
  let m := m.setNext last (some before)
  let p ← m.prev before
  let m := m.setNext p (some first)
  return m.setPrev before (some last)

/-- The two assignments that take out the elements from `first` to `last`. -/
def detach (m : Links Q T) (first last : ListElem Q T) : Option (Links Q T) := do
  let p ← m.prev first
  let m := m.setNext p (m.next last)
  let n ← m.next last
  return m.setPrev n (m.prev first)

/-- `list_insert` -/
def listInsert (m : Links Q T) (before elem : ListElem Q T) : Option (Links Q T) :=
  if m.isInterior before || m.isTail before then m.attach before elem elem else none

/-- `list_push_front` -/
def listPushFront (m : Links Q T) (q : Q) (elem : ListElem Q T) : Option (Links Q T) := do
  let begin ← m.next (.head q)
  m.listInsert begin elem

/-- `list_push_back` -/
def listPushBack (m : Links Q T) (q : Q) (elem : ListElem Q T) : Option (Links Q T) := m.listInsert (.tail q) elem

/-- `list_splice` -/
def listSplice (m : Links Q T) (before first last : ListElem Q T) : Option (Links Q T) :=
  if m.isInterior before || m.isTail before then
    if first = last then some m
    else do
      let last ← m.listPrev last
      if m.isInterior first && m.isInterior last then
        let m ← m.detach first last
        m.attach before first last
      else none
  else none

/-- `swap (&e->prev, &e->next)` -/
def swapElem (m : Links Q T) (e : ListElem Q T) : Links Q T where
  next := Function.update m.next e (m.prev e)
  prev := Function.update m.prev e (m.next e)

/-- The loop of `list_reverse`, from an element on. -/
def reverseLoop (q : Q) : ℕ → ListElem Q T → Links Q T → Option (Links Q T)
  | 0, _, _ => none
  | fuel + 1, e, m =>
    if e = .tail q then some m
    else do
      let m := m.swapElem e
      let e ← m.prev e
      reverseLoop q fuel e m

/-- `list_reverse` -/
def listReverse (fuel : ℕ) (m : Links Q T) (q : Q) : Option (Links Q T) := do
  let begin ← m.next (.head q)
  if begin = .tail q then return m
  else
    let m ← reverseLoop q fuel begin m
    -- swap (&list->head.next, &list->tail.prev)
    let first := m.next (.head q)
    let last := m.prev (.tail q)
    let m := (m.setNext (.head q) last).setPrev (.tail q) first
    -- swap (&list->head.next->prev, &list->tail.prev->next)
    let last ← m.next (.head q)
    let first ← m.prev (.tail q)
    let a := m.prev last
    let b := m.next first
    return (m.setPrev last b).setNext first a

/-- `if (duplicates != NULL) list_push_back (duplicates, next)` -/
def giveTo (m : Links Q T) (duplicates : Option Q) (next : T) : Option (Links Q T) :=
  match duplicates with
  | some d => m.listPushBack d (.item next)
  | none => some m

/-- The loop of `list_unique`, with `elem` the last element that stays. -/
def uniqueLoop (q : Q) (duplicates : Option Q) (less : T → T → Bool) : ℕ → T → Links Q T → Option (Links Q T)
  | 0, _, _ => none
  | fuel + 1, elem, m => do
    match ← m.listNext (.item elem) with
    | .item next =>
      if !less elem next && !less next elem then
        let (_, m) ← m.listRemove (.item next)
        let m ← m.giveTo duplicates next
        uniqueLoop q duplicates less fuel elem m
      else uniqueLoop q duplicates less fuel next m
    | .tail q' => if q' = q then return m else none
    | .head _ => none

/-- `list_unique` -/
def listUnique (fuel : ℕ) (m : Links Q T) (q : Q) (duplicates : Option Q) (less : T → T → Bool) :
    Option (Links Q T) := do
  match ← m.next (.head q) with
  | .item elem => uniqueLoop q duplicates less fuel elem m
  | .tail q' => if q' = q then return m else none
  | .head _ => none

end Links

/-- A call. -/
inductive ListOp (Q T : Type)
  | insert (before : ListElem Q T) (t : T)
  | pushFront (q : Q) (t : T)
  | pushBack (q : Q) (t : T)
  | splice (before first last : ListElem Q T)
  | remove (t : T)
  | reverse (q : Q)
  | unique (q : Q) (duplicates : Option Q) (less : T → T → Bool)

variable {Q T : Type} [DecidableEq Q] [DecidableEq T]

/-- The call on the links. -/
def ListOp.exec (fuel : ℕ) (m : Links Q T) : ListOp Q T → Option (Links Q T)
  | .insert before t => m.listInsert before (.item t)
  | .pushFront q t => m.listPushFront q (.item t)
  | .pushBack q t => m.listPushBack q (.item t)
  | .splice before first last => m.listSplice before first last
  | .remove t => (m.listRemove (.item t)).map Prod.snd
  | .reverse q => Links.listReverse fuel m q
  | .unique q duplicates less => Links.listUnique fuel m q duplicates less

/-- A sequence of calls. -/
def ListOp.execs (fuel : ℕ) : Links Q T → List (ListOp Q T) → Option (Links Q T)
  | m, [] => some m
  | m, op :: ops => (op.exec fuel m).bind fun m => ListOp.execs fuel m ops

/-! ## Sequences -/

/-- The element behind the sequence `l` of list `q`: the first of what follows, or the tail. -/
def firstOf (q : Q) : List T → ListElem Q T
  | [] => .tail q
  | t :: _ => .item t

/-- The last of what stands in front, or the head. -/
def lastOf (q : Q) (l : List T) : ListElem Q T := (l.getLast?.map ListElem.item).getD (.head q)

/-- `list_unique` takes two elements for equal when neither is less. -/
def Differ (less : T → T → Bool) (a b : T) : Prop := (less a b || less b a) = true

instance (less : T → T → Bool) : DecidableRel (Differ less) := fun a b =>
  inferInstanceAs (Decidable ((less a b || less b a) = true))

/-- The sequence without the elements that are equal to the last one kept before them. -/
def uniqued (less : T → T → Bool) (ts : List T) : List T := ts.destutter (Differ less)

/-- **What a call does to the sequences of elements**, for a caller that keeps the contract: an element that is
inserted is in no list; a range that is spliced lies in one list, and its target in a list without the range; the
duplicates go to another list. -/
inductive Means (lists : Set Q) (f : Q → List T) : ListOp Q T → (Q → List T) → Prop
  | insert {q : Q} {l r : List T} {t : T} (hq : q ∈ lists) (hf : f q = l ++ r) (hnew : ∀ q', t ∉ f q') :
      Means lists f (.insert (firstOf q r) t) (Function.update f q (l ++ t :: r))
  | pushFront {q : Q} {t : T} (hq : q ∈ lists) (hnew : ∀ q', t ∉ f q') :
      Means lists f (.pushFront q t) (Function.update f q (t :: f q))
  | pushBack {q : Q} {t : T} (hq : q ∈ lists) (hnew : ∀ q', t ∉ f q') :
      Means lists f (.pushBack q t) (Function.update f q (f q ++ [t]))
  | splice {q q' : Q} {l xs r l' r' : List T} (hq : q ∈ lists) (hq' : q' ∈ lists) (hf : f q = l ++ xs ++ r)
      (hf' : Function.update f q (l ++ r) q' = l' ++ r') :
      Means lists f (.splice (firstOf q' r') (firstOf q (xs ++ r)) (firstOf q r))
        (Function.update (Function.update f q (l ++ r)) q' (l' ++ xs ++ r'))
  | remove {q : Q} {l r : List T} {t : T} (hq : q ∈ lists) (hf : f q = l ++ t :: r) :
      Means lists f (.remove t) (Function.update f q (l ++ r))
  | reverse {q : Q} (hq : q ∈ lists) : Means lists f (.reverse q) (Function.update f q (f q).reverse)
  | unique {q : Q} (less : T → T → Bool) (hq : q ∈ lists) :
      Means lists f (.unique q none less) (Function.update f q (uniqued less (f q)))
  | uniqueTo {q d : Q} (less : T → T → Bool) (hq : q ∈ lists) (hd : d ∈ lists) (hne : d ≠ q) :
      Means lists f (.unique q (some d) less)
        (Function.update (Function.update f q (uniqued less (f q))) d
          (f d ++ (f q).filter fun t => t ∉ uniqued less (f q)))

end Pintos.Lib
