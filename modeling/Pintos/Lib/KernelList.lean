import Mathlib.Data.List.Nodup
import Pintos.Library.DisjointLists

/-!
# Linked lists

`lib/kernel/list.c`: a list has two elements of its own, the head and the tail, and the elements between them are
members of what is listed.  `Links` are the two pointers in every element; they hold the lists `f` when those are
linked in them (`Holds`).
-/

namespace Pintos.Lib

/-- An element: the head or the tail of a list, or the member of something listed. -/
inductive ListElem (Q T : Type)
  | head (q : Q)
  | item (t : T)
  | tail (q : Q)
  deriving DecidableEq

structure Links (Q T : Type) where
  next : ListElem Q T → Option (ListElem Q T)
  prev : ListElem Q T → Option (ListElem Q T)

namespace Links

variable {Q T : Type}

/-- Neighbours in `l` point to each other. -/
def Linked (m : Links Q T) : List (ListElem Q T) → Prop
  | a :: b :: l => m.next a = some b ∧ m.prev b = some a ∧ Linked m (b :: l)
  | _ => True

/-- The elements of a list in their order. -/
def elems (q : Q) (l : List T) : List (ListElem Q T) := .head q :: l.map .item ++ [.tail q]

/-- The lists of `lists` are linked. -/
def Holds (m : Links Q T) (lists : Set Q) (f : Q → List T) : Prop :=
  ∀ q ∈ lists, m.prev (.head q) = none ∧ m.next (.tail q) = none ∧ m.Linked (elems q (f q))

variable [DecidableEq Q] [DecidableEq T]

/-- `list_remove`; the element that followed it, and the links. -/
def listRemove (m : Links Q T) (e : ListElem Q T) : Option (ListElem Q T × Links Q T) :=
  match m.prev e, m.next e with
  | some p, some n =>
    -- `elem->prev->next = elem->next; elem->next->prev = elem->prev;`
    some (n, ⟨Function.update m.next p (some n), Function.update m.prev n (some p)⟩)
  | _, _ => none

/-- `list_pop_front` -/
def listPopFront (m : Links Q T) (q : Q) : Option (ListElem Q T × Links Q T) :=
  match m.next (.head q) with
  | some front => if front = .tail q then none else (m.listRemove front).map fun r => (front, r.2)
  | none => none

variable {m m' : Links Q T} {lists : Set Q} {f : Q → List T} {q : Q} {t : T} {ts : List T}

omit [DecidableEq Q] [DecidableEq T] in
/-- Links that are as before in the elements of `l` link them as before: the first one is not looked at from
behind, and the last one not from the front. -/
theorem Linked.transport {l : List (ListElem Q T)} (h : m.Linked l) (hnext : ∀ a ∈ l, m'.next a = m.next a)
    (hprev : ∀ b ∈ l.tail, m'.prev b = m.prev b) : m'.Linked l := by
  induction l with
  | nil => exact trivial
  | cons a l ih =>
    cases l with
    | nil => exact trivial
    | cons b l =>
      obtain ⟨hab, hba, h⟩ := h
      exact ⟨(hnext a List.mem_cons_self).trans hab, (hprev b List.mem_cons_self).trans hba,
        ih h (fun c hc => hnext c (List.mem_cons_of_mem _ hc)) fun c hc => hprev c (List.mem_cons_of_mem _ hc)⟩

omit [DecidableEq Q] [DecidableEq T] in
/-- What stands behind the head. -/
theorem mem_items {a : ListElem Q T} :
    a ∈ ts.map ListElem.item ++ [.tail q] ↔ (∃ u ∈ ts, a = .item u) ∨ a = .tail q := by
  rw [List.mem_append, List.mem_map, List.mem_singleton]
  exact or_congr_left ⟨fun ⟨u, hu, h⟩ => ⟨u, hu, h.symm⟩, fun ⟨u, hu, h⟩ => ⟨u, hu, h.symm⟩⟩

omit [DecidableEq Q] [DecidableEq T] in
theorem nodup_items (q : Q) (h : ts.Nodup) : (ts.map ListElem.item ++ [ListElem.tail q]).Nodup := by
  refine List.nodup_append.mpr ⟨List.Nodup.map (fun _ _ => ListElem.item.inj) h, List.nodup_singleton _, ?_⟩
  intro a ha b hb hab
  obtain ⟨u, -, rfl⟩ := List.mem_map.mp ha
  rw [List.mem_singleton.mp hb] at hab
  cases hab

omit [DecidableEq Q] [DecidableEq T] in
/-- The elements behind the first one: there is one, the first item or the tail. -/
theorem exists_second (q : Q) (ts : List T) : ∃ n r, ts.map ListElem.item ++ [.tail q] = n :: r ∧
    ((∃ u ∈ ts, n = .item u) ∨ n = .tail q) := by
  cases ts with
  | nil => exact ⟨_, _, rfl, .inr rfl⟩
  | cons u us => exact ⟨_, _, rfl, .inl ⟨u, List.mem_cons_self, rfl⟩⟩

/-- **`list_pop_front` takes the front item of a list, and removing this item once more changes no link.** -/
theorem Holds.listPopFront (h : m.Holds lists f) (hdisjoint : DisjointLists f) (hq : q ∈ lists)
    (hf : f q = t :: ts) : ∃ m', m.listPopFront q = some (.item t, m') ∧
      m'.Holds lists (Function.update f q ts) ∧ ∃ n, m'.listRemove (.item t) = some (n, m') := by
  obtain ⟨n, r, hr, hn⟩ := exists_second q ts
  have hnodup := hf ▸ hdisjoint.nodup q
  have hitems : (ListElem.item t :: n :: r).Nodup := hr ▸ nodup_items q hnodup
  obtain ⟨hhead, htail, hlinked⟩ := h q hq
  have helems : elems q (f q) = .head q :: .item t :: n :: r := by rw [hf, ← hr]; rfl
  rw [helems] at hlinked
  obtain ⟨hnext, hprev, hnext', hprev', hrest⟩ := hlinked
  have hnt : ListElem.item t ≠ n := fun he => (List.nodup_cons.mp hitems).1 (he ▸ List.mem_cons_self)
  set m' : Links Q T := ⟨Function.update m.next (.head q) (some n), Function.update m.prev n (some (.head q))⟩
  have hpop : m.listPopFront q = some (.item t, m') := by
    simp [Links.listPopFront, listRemove, hnext, hprev, hnext', m']
  have hagain : m'.listRemove (.item t) = some (n, m') := by
    simp [listRemove, m', Function.update_of_ne hnt, hprev, hnext']
  refine ⟨m', hpop, fun q' hq' => ?_, n, hagain⟩
  -- the links that have changed: from the head of `q`, and to `n` from behind
  have hsame : ∀ {a}, a ≠ .head q → m'.next a = m.next a := fun ha => Function.update_of_ne ha _ _
  have hsame' : ∀ {b}, b ≠ n → m'.prev b = m.prev b := fun hb => Function.update_of_ne hb _ _
  have hhead_ne : ∀ q', ListElem.head q' ≠ n := fun q' => by
    rcases hn with ⟨u, -, rfl⟩ | rfl <;> nofun
  by_cases hqq : q' = q
  · rw [hqq, Function.update_self]
    have hr_head : ∀ a ∈ n :: r, a ≠ .head q := fun a ha => by
      rcases mem_items.mp (hr ▸ ha) with ⟨u, -, rfl⟩ | rfl <;> nofun
    have hnr := (List.nodup_cons.mp (List.nodup_cons.mp hitems).2).1
    refine ⟨(hsame' (hhead_ne q)).trans hhead, (hsame (a := .tail _) nofun).trans htail, ?_⟩
    show m'.Linked (.head q :: (ts.map .item ++ [.tail q]))
    rw [hr]
    exact ⟨Function.update_self .., Function.update_self .., hrest.transport (fun a ha => hsame (hr_head a ha))
      fun b hb => hsame' fun hbn => hnr (hbn ▸ hb)⟩
  · rw [Function.update_of_ne hqq]
    obtain ⟨hhead, htail, hlinked⟩ := h q' hq'
    refine ⟨(hsame' (hhead_ne q')).trans hhead, (hsame (a := .tail _) nofun).trans htail,
      hlinked.transport (fun a ha => hsame ?_) fun b hb => hsame' ?_⟩
    · rcases List.mem_cons.mp ha with rfl | ha
      · exact fun hqq' => hqq (ListElem.head.inj hqq')
      · rcases mem_items.mp ha with ⟨u, -, rfl⟩ | rfl <;> nofun
    · rintro rfl
      rcases mem_items.mp hb with ⟨u, hu, rfl⟩ | rfl
      · obtain ⟨u', hu', hi⟩ := hn.resolve_right nofun
        cases hi
        exact hqq (hdisjoint.disjoint q' q u hu (hf ▸ List.mem_cons_of_mem _ hu'))
      · obtain ⟨u', -, hi⟩ | hi := hn
        · cases hi
        · exact hqq (ListElem.tail.inj hi)

end Links

end Pintos.Lib
