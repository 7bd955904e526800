import Mathlib.Tactic
import Pintos.Library.Trace

/-!
# Tables of slots

A table is a list of slots; `view` says what a slot holds, and nothing if it is free.  A new entry goes
to the first free slot, or behind the last one.  An enumeration holds a position only: it returns what
the first occupied slot from there on holds and moves behind it, while the table changes in between.
What stays in its slot is returned once.

Where slots have keys, and no two slots of a part of the table have the same, this part is a map from keys to slots:
`find` looks one up, and placing an entry is an update of the map (`find_insert`, `find_erase`).
-/

namespace SlotTable

variable {α β : Type}

/-! ### Searching -/

/-- The first slot from `k` on that passes the test. -/
def search (p : α → Bool) (l : List α) (k : ℕ) : Option ℕ :=
  ((l.drop k).findIdx? p).map (· + k)

variable {p : α → Bool} {l l' : List α} {a b : α} {j k : ℕ}

theorem search_of_ge (h : l.length ≤ k) : search p l k = none := by
  rw [search, List.drop_of_length_le h]
  rfl

theorem search_cons (h : l[k]? = some a) :
    search p l k = if p a then some k else search p l (k + 1) := by
  obtain ⟨hk, rfl⟩ := List.getElem?_eq_some_iff.mp h
  rw [search, List.drop_eq_getElem_cons hk, List.findIdx?_cons]
  by_cases hp : p l[k]
  · simp [hp]
  · simp only [hp, Bool.false_eq_true, if_false, search, Option.map_map]
    congr 1
    funext i
    exact Nat.add_right_comm i 1 k

theorem search_eq_some : search p l k = some j ↔
    k ≤ j ∧ (∃ a, l[j]? = some a ∧ p a = true) ∧
      ∀ i, k ≤ i → i < j → ∀ a, l[i]? = some a → p a = false := by
  induction hn : l.length - k generalizing k with
  | zero =>
    have hge : l.length ≤ k := by omega
    rw [search_of_ge hge]
    constructor
    · intro h
      exact absurd h (by simp)
    · intro h
      obtain ⟨hkj, ⟨a, ha, _⟩, _⟩ := h
      obtain ⟨hj, _⟩ := List.getElem?_eq_some_iff.mp ha
      omega
  | succ n ih =>
    have hk : k < l.length := by omega
    have hget : l[k]? = some l[k] := List.getElem?_eq_getElem hk
    rw [search_cons hget]
    by_cases hp : p l[k] = true
    · rw [if_pos hp]
      constructor
      · intro h
        obtain rfl := Option.some.inj h
        exact ⟨le_refl _, ⟨_, hget, hp⟩, fun i hi hi' => absurd hi (by omega)⟩
      · intro h
        obtain ⟨hkj, _, hfirst⟩ := h
        rcases Nat.lt_or_ge k j with hlt | hge
        · exact absurd (hfirst k (le_refl _) hlt _ hget) (by simp [hp])
        · rw [Nat.le_antisymm hkj hge]
    · rw [if_neg hp, ih (by omega)]
      constructor
      · intro h
        obtain ⟨hkj, hsome, hfirst⟩ := h
        refine ⟨by omega, hsome, fun i hi hij a ha => ?_⟩
        rcases Nat.eq_or_lt_of_le hi with rfl | hlt
        · rw [hget] at ha
          obtain rfl := Option.some.inj ha
          simpa using hp
        · exact hfirst i hlt hij a ha
      · intro h
        obtain ⟨hkj, ⟨a, ha, hpa⟩, hfirst⟩ := h
        have hne : k ≠ j := by
          intro heq
          subst heq
          rw [hget] at ha
          obtain rfl := Option.some.inj ha
          exact hp hpa
        exact ⟨by omega, ⟨a, ha, hpa⟩, fun i hi => hfirst i (by omega)⟩

theorem search_eq_none : search p l k = none ↔ ∀ j, k ≤ j → ∀ a, l[j]? = some a → p a = false := by
  constructor
  · intro h
    -- the least slot that passes would have been found
    by_contra hex
    push Not at hex
    obtain ⟨j, ⟨hkj, a, ha, hp⟩, hmin⟩ : ∃ j, (k ≤ j ∧ ∃ a, l[j]? = some a ∧ p a ≠ false) ∧
        ∀ i, i < j → ¬(k ≤ i ∧ ∃ a, l[i]? = some a ∧ p a ≠ false) := by
      classical
      have hex' : ∃ j, k ≤ j ∧ ∃ a, l[j]? = some a ∧ p a ≠ false := hex
      exact ⟨Nat.find hex', Nat.find_spec hex', fun i hi => Nat.find_min hex' hi⟩
    have hsome : search p l k = some j := by
      apply search_eq_some.mpr
      refine ⟨hkj, ⟨a, ha, by simpa using hp⟩, fun i hi hij b hb => ?_⟩
      by_contra hpb
      exact hmin i hij ⟨hi, b, hb, hpb⟩
    rw [h] at hsome
    exact absurd hsome (by simp)
  · intro h
    cases hs : search p l k with
    | none => rfl
    | some j =>
      obtain ⟨hkj, ⟨a, ha, hp⟩, _⟩ := search_eq_some.mp hs
      exact absurd (h j hkj a ha) (by simp [hp])

/-! ### Placing an entry -/

/-- The table with `a` in slot `k`, which may be the one behind the last. -/
def put (l : List α) (k : ℕ) (a : α) : List α := if k < l.length then l.set k a else l ++ [a]

theorem put_self (h : k ≤ l.length) : (put l k a)[k]? = some a := by
  unfold put
  split
  · next hk => exact List.getElem?_set_self hk
  · next hk =>
    have heq : k = l.length := by omega
    rw [heq, List.getElem?_concat_length]

theorem put_of_ne (h : k ≤ l.length) (hj : j ≠ k) : (put l k a)[j]? = l[j]? := by
  unfold put
  split
  · next hk => exact List.getElem?_set_ne (Ne.symm hj)
  · next hk =>
    have heq : k = l.length := by omega
    rcases Nat.lt_or_ge j l.length with hlt | hge
    · exact List.getElem?_append_left hlt
    · rw [List.getElem?_eq_none hge, List.getElem?_eq_none]
      rw [List.length_append, List.length_singleton]
      omega

/-- The first free slot, or the one behind the last. -/
def firstFree (used : α → Bool) (l : List α) : ℕ := (search (fun a => !used a) l 0).getD l.length

variable {used : α → Bool}

theorem firstFree_le : firstFree used l ≤ l.length := by
  unfold firstFree
  cases hs : search (fun a => !used a) l 0 with
  | none => exact le_refl _
  | some j =>
    obtain ⟨_, ⟨a, ha, _⟩, _⟩ := search_eq_some.mp hs
    obtain ⟨hj, _⟩ := List.getElem?_eq_some_iff.mp ha
    exact hj.le

/-- An occupied slot is not the first free one. -/
theorem firstFree_ne (ha : l[k]? = some a) (hu : used a = true) : firstFree used l ≠ k := by
  unfold firstFree
  cases hs : search (fun a => !used a) l 0 with
  | none =>
    obtain ⟨hk, _⟩ := List.getElem?_eq_some_iff.mp ha
    exact hk.ne'
  | some j =>
    obtain ⟨_, ⟨b, hb, hfree⟩, _⟩ := search_eq_some.mp hs
    intro heq
    have hjk : j = k := heq
    rw [hjk, ha] at hb
    obtain rfl := Option.some.inj hb
    simp [hu] at hfree

/-! ### Slots with keys -/

section Keys

variable {κ : Type} {key : κ → α → Bool} {first : ℕ} {n m : κ}

/-- No two slots from `first` on have the same key. -/
def KeysApart (key : κ → α → Bool) (first : ℕ) (l : List α) : Prop :=
  ∀ n j k a b, first ≤ j → first ≤ k → l[j]? = some a → l[k]? = some b → key n a = true → key n b = true → j = k

/-- What the first slot with the key holds. -/
def find (key : κ → α → Bool) (first : ℕ) (l : List α) (n : κ) : Option α := (search (key n) l first).bind (l[·]?)

theorem find_eq_some (h : KeysApart key first l) :
    find key first l n = some a ↔ ∃ j, first ≤ j ∧ l[j]? = some a ∧ key n a = true := by
  unfold find
  constructor
  · intro hf
    obtain ⟨j, hj, ha⟩ := Option.bind_eq_some_iff.mp hf
    obtain ⟨hle, ⟨b, hb, hkey⟩, _⟩ := search_eq_some.mp hj
    rw [hb] at ha
    obtain rfl := Option.some.inj ha
    exact ⟨j, hle, hb, hkey⟩
  · intro hex
    obtain ⟨j, hle, ha, hkey⟩ := hex
    cases hs : search (key n) l first with
    | none =>
      have hno := search_eq_none.mp hs j hle a ha
      rw [hkey] at hno
      cases hno
    | some i =>
      obtain ⟨hi, ⟨b, hb, hkey'⟩, _⟩ := search_eq_some.mp hs
      rw [h n i j b a hi hle hb ha hkey' hkey]
      exact ha

theorem find_eq_none : find key first l n = none ↔ search (key n) l first = none := by
  unfold find
  constructor
  · intro hf
    by_contra hne
    obtain ⟨j, hs⟩ := Option.ne_none_iff_exists'.mp hne
    obtain ⟨_, ⟨a, ha, _⟩, _⟩ := search_eq_some.mp hs
    rw [hs, Option.bind_some, ha] at hf
    cases hf
  · intro hs
    rw [hs]
    rfl

/-- What the slots of the table hold after one of them has been filled. -/
theorem getElem?_put (hk : k ≤ l.length) : (put l k b)[j]? = some a ↔ j = k ∧ a = b ∨ j ≠ k ∧ l[j]? = some a := by
  by_cases hj : j = k
  · rw [hj, put_self hk]
    simp [eq_comm]
  · rw [put_of_ne hk hj]
    simp [hj]

/-- **A new key is bound** by placing an entry that has this key only into a slot with no key. -/
theorem find_insert (h : KeysApart key first l) (hk : k ≤ l.length) (hfirst : first ≤ k)
    (hfree : ∀ a, l[k]? = some a → ∀ m, key m a = false) (hn : find key first l n = none) (hb : key n b = true)
    (honly : ∀ m, key m b = true → m = n) :
    KeysApart key first (put l k b) ∧ find key first (put l k b) n = some b ∧
      ∀ m ≠ n, find key first (put l k b) m = find key first l m := by
  have hnew : ∀ j a, first ≤ j → l[j]? = some a → key n a = false :=
    fun j a hj ha => search_eq_none.mp (find_eq_none.mp hn) j hj a ha
  have hapart : KeysApart key first (put l k b) := by
    intro m i j a c hi hj ha hc hka hkc
    rcases (getElem?_put hk).mp ha with ⟨rfl, rfl⟩ | ⟨_, hla⟩
    · obtain rfl := honly m hka
      rcases (getElem?_put hk).mp hc with ⟨rfl, _⟩ | ⟨_, hlc⟩
      · rfl
      · rw [hnew j c hj hlc] at hkc
        cases hkc
    · rcases (getElem?_put hk).mp hc with ⟨rfl, rfl⟩ | ⟨_, hlc⟩
      · obtain rfl := honly m hkc
        rw [hnew i a hi hla] at hka
        cases hka
      · exact h m i j a c hi hj hla hlc hka hkc
  refine ⟨hapart, (find_eq_some hapart).mpr ⟨k, hfirst, put_self hk, hb⟩, fun m hm => ?_⟩
  apply Option.ext
  intro a
  rw [find_eq_some hapart, find_eq_some h]
  constructor
  · intro hex
    obtain ⟨j, hj, ha, hka⟩ := hex
    rcases (getElem?_put hk).mp ha with ⟨_, rfl⟩ | ⟨_, ha⟩
    · exact absurd (honly m hka) hm
    · exact ⟨j, hj, ha, hka⟩
  · intro hex
    obtain ⟨j, hj, ha, hka⟩ := hex
    refine ⟨j, hj, (getElem?_put hk).mpr (.inr ⟨?_, ha⟩), hka⟩
    rintro rfl
    rw [hfree a ha m] at hka
    cases hka

/-- **A key is unbound** by replacing its slot by one that has no key. -/
theorem find_erase (h : KeysApart key first l) (hfirst : first ≤ k) (ha : l[k]? = some a) (hn : key n a = true)
    (honly : ∀ m, key m a = true → m = n) (hb : ∀ m, key m b = false) :
    KeysApart key first (put l k b) ∧ find key first (put l k b) n = none ∧
      ∀ m ≠ n, find key first (put l k b) m = find key first l m := by
  obtain ⟨hlt, _⟩ := List.getElem?_eq_some_iff.mp ha
  have hold : ∀ m j c, (put l k b)[j]? = some c → key m c = true → j ≠ k ∧ l[j]? = some c := by
    intro m j c hc hkey
    rcases (getElem?_put hlt.le).mp hc with ⟨_, rfl⟩ | hne
    · rw [hb m] at hkey
      cases hkey
    · exact hne
  have hapart : KeysApart key first (put l k b) := by
    intro m i j c d hi hj hc hd hkc hkd
    exact h m i j c d hi hj (hold m i c hc hkc).2 (hold m j d hd hkd).2 hkc hkd
  refine ⟨hapart, ?_, fun m hm => ?_⟩
  · cases hf : find key first (put l k b) n with
    | none => rfl
    | some c =>
      obtain ⟨j, hj, hc, hkey⟩ := (find_eq_some hapart).mp hf
      obtain ⟨hne, hc⟩ := hold n j c hc hkey
      exact absurd (h n j k c a hj hfirst hc ha hkey hn) hne
  · apply Option.ext
    intro c
    rw [find_eq_some hapart, find_eq_some h]
    constructor
    · intro hex
      obtain ⟨j, hj, hc, hkey⟩ := hex
      exact ⟨j, hj, (hold m j c hc hkey).2, hkey⟩
    · intro hex
      obtain ⟨j, hj, hc, hkey⟩ := hex
      refine ⟨j, hj, (getElem?_put hlt.le).mpr (.inr ⟨?_, hc⟩), hkey⟩
      rintro rfl
      rw [ha] at hc
      obtain rfl := Option.some.inj hc
      exact hm (honly m hkey)

end Keys

/-! ### Enumerating -/

/-- An enumeration of a table: the slot to be looked at next, and what has been returned so far, each
with its slot. -/
structure Cursor (α β : Type) where
  table : List α
  pos : ℕ
  seen : List (ℕ × β)

/-- What happens to an enumeration: the table changes, or the next occupied slot is asked for. -/
inductive Event (β : Type)
  | change
  | next (r : Option β)

inductive Cursor.Step (view : α → Option β) : Cursor α β → Event β → Cursor α β → Prop
  | change {c : Cursor α β} (l : List α) : Step view c .change { c with table := l }
  | found {c : Cursor α β} {k : ℕ} {a : α} {b : β}
      (hs : search (fun a => (view a).isSome) c.table c.pos = some k) (ha : c.table[k]? = some a)
      (hb : view a = some b) :
      Step view c (.next (some b)) { c with pos := k + 1, seen := c.seen ++ [(k, b)] }
  | finished {c : Cursor α β}
      (hs : search (fun a => (view a).isSome) c.table c.pos = none) :
      Step view c (.next none) { c with pos := max c.pos c.table.length }

namespace Cursor

variable {view : α → Option β} {c c' : Cursor α β} {ev : Event β} {evs : List (Event β)} {first : ℕ}

/-- Slots are returned in their order, none before `first` and none from the position on. -/
structure Ordered (first : ℕ) (c : Cursor α β) : Prop where
  le : first ≤ c.pos
  below : ∀ x ∈ c.seen, first ≤ x.1 ∧ x.1 < c.pos
  increasing : c.seen.Pairwise fun x y => x.1 < y.1

theorem Ordered.step (h : Ordered first c) (hs : Step view c ev c') : Ordered first c' := by
  cases hs with
  | change l => exact ⟨h.le, h.below, h.increasing⟩
  | finished hs =>
    refine ⟨h.le.trans (le_max_left _ _), fun x hx => ?_, h.increasing⟩
    obtain ⟨h₁, h₂⟩ := h.below x hx
    exact ⟨h₁, h₂.trans_le (le_max_left _ _)⟩
  | @found k a b hs ha hb =>
    obtain ⟨hk, _, _⟩ := search_eq_some.mp hs
    have hfirst : first ≤ k := h.le.trans hk
    refine ⟨Nat.le_succ_of_le hfirst, fun x hx => ?_, ?_⟩
    · rcases List.mem_append.mp hx with hx | hx
      · obtain ⟨h₁, h₂⟩ := h.below x hx
        exact ⟨h₁, Nat.lt_succ_of_le (h₂.le.trans hk)⟩
      · rw [List.mem_singleton.mp hx]
        exact ⟨hfirst, Nat.lt_succ_self k⟩
    · apply List.pairwise_append.mpr
      refine ⟨h.increasing, List.pairwise_singleton _ _, fun x hx y hy => ?_⟩
      rw [List.mem_singleton.mp hy]
      exact (h.below x hx).2.trans_le hk

theorem Ordered.nodup (h : Ordered first c) : (c.seen.map Prod.fst).Nodup := by
  have hlt : (c.seen.map Prod.fst).Pairwise (· < ·) := List.pairwise_map.mpr h.increasing
  exact hlt.imp fun h => Nat.ne_of_lt h

/-- What is in slot `k` is returned when the position moves past it. -/
def Passed (k : ℕ) (b : β) (c : Cursor α β) : Prop := k < c.pos → (k, b) ∈ c.seen

theorem Passed.step {k : ℕ} {b : β} {a : α} (h : Passed k b c) (ha : c.table[k]? = some a)
    (hb : view a = some b) (hs : Step view c ev c') : Passed k b c' := by
  have hocc : ∀ p, search (fun a => (view a).isSome) c.table c.pos = p → k < c.pos ∨ ∃ j, p = some j ∧ j ≤ k := by
    intro p hp
    rcases Nat.lt_or_ge k c.pos with hlt | hge
    · exact .inl hlt
    right
    cases p with
    | none =>
      have := search_eq_none.mp hp k hge a ha
      simp [hb] at this
    | some j =>
      obtain ⟨_, _, hfirst⟩ := search_eq_some.mp hp
      refine ⟨j, rfl, ?_⟩
      by_contra hjk
      have := hfirst k hge (by omega) a ha
      simp [hb] at this
  cases hs with
  | change l => exact h
  | finished hs =>
    intro _
    rcases hocc _ hs with hlt | ⟨j, hj, _⟩
    · exact h hlt
    · exact absurd hj (by simp)
  | @found j a' b' hs ha' hb' =>
    intro hk
    apply List.mem_append.mpr
    rcases hocc _ hs with hlt | ⟨i, hi, hik⟩
    · exact .inl (h hlt)
    · obtain rfl := Option.some.inj hi
      have hjk : j = k := by
        have : k < j + 1 := hk
        omega
      subst hjk
      rw [ha] at ha'
      obtain rfl := Option.some.inj ha'
      rw [hb] at hb'
      obtain rfl := Option.some.inj hb'
      exact .inr (List.mem_singleton.mpr rfl)

/-- The step at which an enumeration ends has passed every occupied slot. -/
theorem Step.finished_pos (hs : Step view c (.next none) c') {a : α} (ha : c.table[k]? = some a) :
    k < c'.pos := by
  cases hs with
  | finished hs =>
    obtain ⟨hk, _⟩ := List.getElem?_eq_some_iff.mp ha
    exact hk.trans_le (le_max_right _ _)

/-- **What stays in its slot is returned once.**  In a run in which slot `k` holds the same all the time,
whatever happens to the other slots, the step that finds nothing more leaves exactly one record of it. -/
theorem returned_once {k : ℕ} {a : α} {b : β} (hfirst : first ≤ k) (hb : view a = some b)
    (h₀ : c.pos = first) (hseen : c.seen = []) (ha : c.table[k]? = some a)
    (h : Trace (fun c ev c' => Step view c ev c' ∧ c'.table[k]? = some a) c evs c') {c'' : Cursor α β}
    (hend : Step view c' (.next none) c'') [BEq β] [LawfulBEq β] :
    (c''.seen.map Prod.fst).count k = 1 ∧ c''.seen.count (k, b) = 1 := by
  have hinv := h.invariant (I := fun c => Ordered first c ∧ Passed k b c ∧ c.table[k]? = some a)
    (fun c₁ ev c₂ hI hs => ⟨hI.1.step hs.1, hI.2.1.step hI.2.2 hb hs.1, hs.2⟩)
    ⟨⟨h₀.ge, by simp [hseen], by simp [hseen]⟩, fun hlt => absurd hlt (by omega), ha⟩
  obtain ⟨hord, hpass, hstay⟩ := hinv
  have hmem : (k, b) ∈ c''.seen := hpass.step hstay hb hend (hend.finished_pos hstay)
  have hnodup := (hord.step hend).nodup
  exact ⟨List.count_eq_one_of_mem hnodup (List.mem_map_of_mem (f := Prod.fst) hmem),
    List.count_eq_one_of_mem hnodup.of_map hmem⟩

end Cursor

end SlotTable
