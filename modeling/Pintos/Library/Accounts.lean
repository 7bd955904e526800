import Mathlib.Tactic
import Mathlib.Data.List.Pairwise
import Mathlib.Data.List.Perm.Basic
import Mathlib.Order.CompletePartialOrder

/-!
# What an allocator has handed out

An allocator knows which units are in use.  Its account is the list of what it has handed out, each entry a set of
units.  `Accounts` says that the two agree: a unit is in use if an entry has it, and no two entries share a unit.

`Accounts.take` enters units that are not in use, and `Accounts.release` strikes an entry.
-/

structure Accounts {L U : Type} (units : L → Set U) (used : Set U) (live : List L) : Prop where
  covers : ∀ u, u ∈ used ↔ ∃ l ∈ live, u ∈ units l
  apart : live.Pairwise fun l l' => Disjoint (units l) (units l')

namespace Accounts

variable {L U : Type} {units : L → Set U} {used used' : Set U} {live : List L} {l : L}

/-- Nothing is handed out while nothing is in use. -/
theorem nil (h : ∀ u, u ∉ used) : Accounts units used [] where
  covers := fun u => iff_of_false (h u) (by simp)
  apart := .nil

theorem subset (h : Accounts units used live) (hl : l ∈ live) : units l ⊆ used := fun u hu => (h.covers u).mpr ⟨l, hl, hu⟩

/-- What has no unit in use shares none with an entry. -/
theorem disjoint_of_free {r : Set U} (h : Accounts units used live) (hr : Disjoint r used) (hl : l ∈ live) :
    Disjoint r (units l) := hr.mono_right (h.subset hl)

/-- What shares no unit with an entry has none in use. -/
theorem free_of_disjoint {r : Set U} (h : Accounts units used live) (hr : ∀ l ∈ live, Disjoint r (units l)) :
    Disjoint r used := by
  apply Set.disjoint_left.mpr
  intro u hu hused
  obtain ⟨l, hl, hul⟩ := (h.covers u).mp hused
  exact Set.disjoint_left.mp (hr l hl) hu hul

/-- Units that are not in use are handed out. -/
theorem take (h : Accounts units used live) (hfree : Disjoint (units l) used)
    (hused : ∀ u, u ∈ used' ↔ u ∈ units l ∨ u ∈ used) : Accounts units used' (l :: live) where
  covers := by
    intro u
    rw [hused, h.covers, List.exists_mem_cons_iff]
  apart := List.pairwise_cons.mpr ⟨fun _ hl' => h.disjoint_of_free hfree hl', h.apart⟩

/-- The units of an entry are taken back. -/
theorem release [DecidableEq L] (h : Accounts units used live) (hl : l ∈ live)
    (hused : ∀ u, u ∈ used' ↔ u ∈ used ∧ u ∉ units l) : Accounts units used' (live.erase l) := by
  have hperm : live.Perm (l :: live.erase l) := List.perm_cons_erase hl
  have hapart := (hperm.pairwise_iff fun hab => hab.symm).mp h.apart
  obtain ⟨hrest, hapart⟩ := List.pairwise_cons.mp hapart
  refine ⟨fun u => ?_, hapart⟩
  rw [hused, h.covers]
  constructor
  · intro hu
    obtain ⟨⟨l', hl', hul⟩, hne⟩ := hu
    rcases List.mem_cons.mp (hperm.mem_iff.mp hl') with heq | hmem
    · exact absurd (heq ▸ hul) hne
    · exact ⟨l', hmem, hul⟩
  · intro hu
    obtain ⟨l', hl', hul⟩ := hu
    exact ⟨⟨l', List.mem_of_mem_erase hl', hul⟩, fun hmem => Set.disjoint_left.mp (hrest l' hl') hmem hul⟩

/-- The order of the entries does not matter. -/
theorem perm {live' : List L} (h : Accounts units used live) (hperm : live.Perm live') : Accounts units used live' where
  covers := by
    intro u
    rw [h.covers]
    constructor
    · intro hu
      obtain ⟨l, hl, hul⟩ := hu
      exact ⟨l, hperm.mem_iff.mp hl, hul⟩
    · intro hu
      obtain ⟨l, hl, hul⟩ := hu
      exact ⟨l, hperm.mem_iff.mpr hl, hul⟩
  apart := (hperm.pairwise_iff fun hab => hab.symm).mp h.apart

end Accounts
