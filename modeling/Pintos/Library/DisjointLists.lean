import Mathlib.Data.Finset.Basic
import Mathlib.Data.List.Nodup
import Mathlib.Data.List.Perm.Basic
import Mathlib.Logic.Function.Basic

/-!
# Disjoint lists

A family of lists no two of which share an element, and in none of which an element stands twice: what lists
are that link their elements through a member of the elements.
-/

namespace Pintos

variable {Q T : Type}

structure DisjointLists (f : Q → List T) : Prop where
  nodup : ∀ q, (f q).Nodup
  disjoint : ∀ q q' t, t ∈ f q → t ∈ f q' → q = q'

namespace DisjointLists

variable [DecidableEq Q] {f : Q → List T} {q : Q} {t : T} {l : List T}

/-- Elements of no list come into one. -/
theorem put {xs : List T} (h : DisjointLists f) (hxs : xs.Nodup) (hno : ∀ t ∈ xs, ∀ q, t ∉ f q)
    (hl : l.Perm (xs ++ f q)) : DisjointLists (Function.update f q l) := by
  have hmem : ∀ {q' u}, u ∈ Function.update f q l q' → u ∈ xs ∧ q' = q ∨ u ∈ f q' := by
    intro q' u hu
    rw [Function.update_apply] at hu
    split at hu
    · rename_i heq
      rw [hl.mem_iff, List.mem_append] at hu
      exact hu.imp (fun hu => ⟨hu, heq⟩) fun hu => heq ▸ hu
    · exact .inr hu
  constructor
  · intro q'
    rw [Function.update_apply]
    split
    · rw [hl.nodup_iff]
      apply List.nodup_append.mpr
      exact ⟨hxs, h.nodup q, fun a ha b hb hab => hno a ha q (hab ▸ hb)⟩
    · exact h.nodup q'
  · intro q₁ q₂ u h₁ h₂
    rcases hmem h₁ with ⟨hu, hq₁⟩ | h₁ <;> rcases hmem h₂ with ⟨hu', hq₂⟩ | h₂
    · exact hq₁.trans hq₂.symm
    · exact absurd h₂ (hno _ hu _)
    · exact absurd h₁ (hno _ hu' _)
    · exact h.disjoint _ _ _ h₁ h₂

/-- An element of no list comes into one. -/
theorem push (h : DisjointLists f) (hno : ∀ q, t ∉ f q) (hl : l.Perm (t :: f q)) :
    DisjointLists (Function.update f q l) := by
  apply h.put (List.nodup_singleton t) _ hl
  intro u hu
  rw [List.mem_singleton.mp hu]
  exact hno

/-- The order in a list does not matter. -/
theorem perm (h : DisjointLists f) (hl : l.Perm (f q)) : DisjointLists (Function.update f q l) := by
  have hmem : ∀ q' u, u ∈ Function.update f q l q' ↔ u ∈ f q' := by
    intro q' u
    rw [Function.update_apply]
    split
    · rename_i heq
      rw [heq, hl.mem_iff]
    · rfl
  refine ⟨fun q' => ?_, fun q₁ q₂ u h₁ h₂ => h.disjoint q₁ q₂ u ((hmem _ _).mp h₁) ((hmem _ _).mp h₂)⟩
  rw [Function.update_apply]
  split
  · exact hl.nodup_iff.mpr (h.nodup q)
  · exact h.nodup q'

/-- The lists behind the removal of an element from one of them. -/
theorem mem_pop {q' : Q} {u : T} (hl : (f q).Perm (t :: l)) (hu : u ∈ Function.update f q l q') : u ∈ f q' := by
  rw [Function.update_apply] at hu
  split at hu
  · rename_i heq
    rw [heq, hl.mem_iff]
    exact List.mem_cons_of_mem _ hu
  · exact hu

/-- Elements are taken from a list. -/
theorem take (h : DisjointLists f) (hl : l.Sublist (f q)) : DisjointLists (Function.update f q l) := by
  have hmem : ∀ q' u, u ∈ Function.update f q l q' → u ∈ f q' := by
    intro q' u hu
    rw [Function.update_apply] at hu
    split at hu
    · rename_i heq
      exact heq ▸ hl.subset hu
    · exact hu
  constructor
  · intro q'
    rw [Function.update_apply]
    split
    · exact (h.nodup q).sublist hl
    · exact h.nodup q'
  · intro q₁ q₂ u h₁ h₂
    exact h.disjoint _ _ _ (hmem _ _ h₁) (hmem _ _ h₂)

/-- They are in none of them then. -/
theorem not_mem_take {q' : Q} {u : T} (h : DisjointLists f) (hu : u ∈ f q) (hul : u ∉ l) :
    u ∉ Function.update f q l q' := by
  rw [Function.update_apply]
  split
  · exact hul
  · rename_i hne
    intro hu'
    exact hne (h.disjoint _ _ _ hu' hu)

/-- A piece of a list comes into a list. -/
theorem move {q' : Q} {xs r l' : List T} (h : DisjointLists f) (hf : f q = l ++ xs ++ r)
    (hl : l'.Perm (xs ++ Function.update f q (l ++ r) q')) :
    DisjointLists (Function.update (Function.update f q (l ++ r)) q' l') := by
  have hsub : (l ++ r).Sublist (f q) := by
    rw [hf, List.append_assoc]
    exact (List.sublist_append_right xs r).append_left l
  have hnodup := h.nodup q
  rw [hf] at hnodup
  obtain ⟨hlxs, -, hlxsr⟩ := List.nodup_append.mp hnodup
  obtain ⟨-, hxs, hlxs⟩ := List.nodup_append.mp hlxs
  apply (h.take hsub).put hxs _ hl
  intro u hu q'
  apply h.not_mem_take
  · rw [hf]
    exact List.mem_append_left _ (List.mem_append_right _ hu)
  · intro hmem
    rcases List.mem_append.mp hmem with hmem | hmem
    · exact hlxs u hmem u hu rfl
    · exact hlxsr u (List.mem_append_right _ hu) u hmem rfl

/-- An element is taken from a list. -/
theorem pop (h : DisjointLists f) (hl : (f q).Perm (t :: l)) : DisjointLists (Function.update f q l) := by
  refine ⟨fun q' => ?_, fun q₁ q₂ u h₁ h₂ => h.disjoint _ _ _ (mem_pop hl h₁) (mem_pop hl h₂)⟩
  rw [Function.update_apply]
  split
  · exact (List.nodup_cons.mp (hl.nodup_iff.mp (h.nodup q))).2
  · exact h.nodup q'

/-- It is in none of them then. -/
theorem not_mem_pop (h : DisjointLists f) (hl : (f q).Perm (t :: l)) (q' : Q) : t ∉ Function.update f q l q' := by
  intro ht
  have hq : q' = q := h.disjoint _ _ _ (mem_pop hl ht) (hl.mem_iff.mpr List.mem_cons_self)
  rw [hq, Function.update_self] at ht
  exact (List.nodup_cons.mp (hl.nodup_iff.mp (h.nodup q))).1 ht

/-- The others are where they were. -/
theorem mem_pop_of_ne {q' : Q} {u : T} (hl : (f q).Perm (t :: l)) (hu : u ∈ f q') (hne : u ≠ t) :
    u ∈ Function.update f q l q' := by
  rw [Function.update_apply]
  split
  · rename_i heq
    rw [heq, hl.mem_iff, List.mem_cons] at hu
    exact hu.resolve_left hne
  · exact hu

end DisjointLists

/-! ## Elements with a place -/

/-- The elements of `S` stand in the lists that `place` says, and nothing else does. -/
structure Placed [DecidableEq T] (f : Q → List T) (S : Finset T) (place : T → Q) : Prop where
  nodup : ∀ q, (f q).Nodup
  mem : ∀ q t, t ∈ f q ↔ t ∈ S ∧ place t = q

namespace Placed

variable [DecidableEq Q] [DecidableEq T] {f : Q → List T} {S : Finset T} {place place' : T → Q} {q : Q} {t : T}
  {l r : List T}

omit [DecidableEq Q] in
theorem disjointLists (h : Placed f S place) : DisjointLists f where
  nodup := h.nodup
  disjoint q q' t ht ht' := ((h.mem q t).mp ht).2.symm.trans ((h.mem q' t).mp ht').2

omit [DecidableEq Q] in
theorem not_mem (h : Placed f S place) (ht : t ∉ S) (q : Q) : t ∉ f q := fun hmem => ht ((h.mem q t).mp hmem).1

omit [DecidableEq Q] in
theorem congr (h : Placed f S place) (heq : ∀ t ∈ S, place' t = place t) : Placed f S place' := by
  refine ⟨h.nodup, ?_⟩
  intro q t
  rw [h.mem]
  apply and_congr_right
  intro ht
  rw [heq t ht]

/-- Another element comes to its place. -/
theorem insert (h : Placed f S place) (ht : t ∉ S) :
    Placed (Function.update f (place t) (t :: f (place t))) (Insert.insert t S) place := by
  constructor
  · exact (h.disjointLists.push (h.not_mem ht) (List.Perm.refl _)).nodup
  · intro q u
    rw [Finset.mem_insert, Function.update_apply]
    by_cases hq : q = place t
    · subst hq
      rw [if_pos rfl, List.mem_cons, h.mem]
      constructor
      · intro hu
        rcases hu with rfl | ⟨hu, hp⟩
        · exact ⟨.inl rfl, rfl⟩
        · exact ⟨.inr hu, hp⟩
      · intro ⟨hu, hp⟩
        exact hu.imp_right fun hu => ⟨hu, hp⟩
    · rw [if_neg hq, h.mem]
      constructor
      · intro ⟨hu, hp⟩
        exact ⟨.inr hu, hp⟩
      · intro ⟨hu, hp⟩
        refine ⟨hu.resolve_left ?_, hp⟩
        intro hut
        exact hq (hut ▸ hp.symm)

/-- An element goes. -/
theorem erase (h : Placed f S place) (hf : f q = l ++ t :: r) :
    Placed (Function.update f q (l ++ r)) (S.erase t) place := by
  have hperm : (f q).Perm (t :: (l ++ r)) := by
    rw [hf]
    exact List.perm_middle
  constructor
  · exact (h.disjointLists.pop hperm).nodup
  · intro q' u
    rw [Finset.mem_erase]
    constructor
    · intro hu
      have hne : u ≠ t := fun hut => h.disjointLists.not_mem_pop hperm q' (hut ▸ hu)
      have hmem := (h.mem q' u).mp (DisjointLists.mem_pop hperm hu)
      exact ⟨⟨hne, hmem.1⟩, hmem.2⟩
    · intro ⟨⟨hne, hu⟩, hp⟩
      exact DisjointLists.mem_pop_of_ne hperm ((h.mem q' u).mpr ⟨hu, hp⟩) hne

/-- An element goes to another place. -/
theorem move (h : Placed f S place) (hf : f q = l ++ t :: r) {q' : Q} (hne : q' ≠ q) :
    Placed (Function.update (Function.update f q (l ++ r)) q' (t :: f q')) S (Function.update place t q') := by
  have ht : t ∈ S := ((h.mem q t).mp (hf ▸ List.mem_append_right _ List.mem_cons_self)).1
  have herase : Placed (Function.update f q (l ++ r)) (S.erase t) (Function.update place t q') := by
    apply (h.erase hf).congr
    intro u hu
    exact Function.update_of_ne (Finset.ne_of_mem_erase hu) _ _
  have hins := herase.insert (Finset.notMem_erase t S)
  rw [Finset.insert_erase ht, Function.update_self, Function.update_of_ne hne] at hins
  exact hins

end Placed

end Pintos
