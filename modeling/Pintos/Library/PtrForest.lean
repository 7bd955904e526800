import Pintos.Library.Bytes

/-!
# Pointer forests in a store of blocks

A store maps addresses to blocks of 32-bit words.  A root pointer of level `l` is the address of a
leaf if `l = 0`, and otherwise the address of a block of `fan` pointers of level `l - 1`; address 0
stands for a missing subtree.  A forest is a finite family of roots, each with its level.

* `sec` is the address at the end of a path, `Ok` says that the forest's addresses are allocated and
  pairwise different.
* `Grow` relates a forest to a later one in which subtrees have been added in fresh addresses: what
  was there stays where it was, new leaves are zero, and no allocated address outside the forest's
  own index blocks has changed.
* `Grow` composes (`Grow.trans`), lifts from one root to the forest (`Grow.child`) and from the
  pointers in a block to the block's own root (`Grow.parent`).
-/

namespace PtrForest

variable {n : ℕ}

/-- The address at the end of a path from the pointer `p`. -/
def sec (disk : ℕ → Block n) : ℕ → List ℕ → ℕ
  | p, [] => p
  | p, i :: π => if p = 0 then 0 else sec disk ((disk p).word i) π

/-- How many roots there are, the level of each, and how many pointers a block holds. -/
structure Shape where
  roots : ℕ
  level : ℕ → ℕ
  fan : ℕ

/-- The shape of a single tree. -/
abbrev Shape.tree (level fan : ℕ) : Shape := ⟨1, fun _ => level, fan⟩

/-- The shape of the pointers in one block. -/
abbrev Shape.block (level fan : ℕ) : Shape := ⟨fan, fun _ => level, fan⟩

/-- A root and a path from it. -/
structure Node (S : Shape) (k : ℕ) (π : List ℕ) : Prop where
  root : k < S.roots
  length : π.length ≤ S.level k
  fan : ∀ i ∈ π, i < S.fan

theorem sec_zero (disk : ℕ → Block n) (π : List ℕ) : sec disk 0 π = 0 := by
  cases π with
  | nil => rfl
  | cons i π => exact if_pos rfl

theorem sec_cons {disk : ℕ → Block n} {p : ℕ} (h : p ≠ 0) (i : ℕ) (π : List ℕ) :
    sec disk p (i :: π) = sec disk ((disk p).word i) π := if_neg h

/-- A path from a pointer in the block at `p` is a path from `p`. -/
theorem sec_below (disk : ℕ → Block n) {p : ℕ} (h : p ≠ 0) (i : ℕ) (π : List ℕ) :
    sec disk p (i :: π) = sec disk ((disk p).word i) π := sec_cons h i π

theorem sec_append (disk : ℕ → Block n) (p : ℕ) (π ρ : List ℕ) :
    sec disk p (π ++ ρ) = sec disk (sec disk p π) ρ := by
  induction π generalizing p with
  | nil => rfl
  | cons i π ih =>
    by_cases h : p = 0
    · rw [h, List.cons_append, sec_zero, sec_zero, sec_zero]
    · rw [List.cons_append, sec_cons h, sec_cons h, ih]

/-- A path that ends somewhere passes through addresses only. -/
theorem sec_take_ne_zero {disk : ℕ → Block n} {p : ℕ} {π : List ℕ} (h : sec disk p π ≠ 0) (m : ℕ) :
    sec disk p (π.take m) ≠ 0 := by
  intro h0
  apply h
  rw [← List.take_append_drop m π, sec_append, h0, sec_zero]

/-- Only the index blocks along a path matter for where it ends. -/
theorem sec_congr {disk disk' : ℕ → Block n} {p : ℕ} {π : List ℕ}
    (h : ∀ m, m < π.length → sec disk p (π.take m) ≠ 0 →
      disk' (sec disk p (π.take m)) = disk (sec disk p (π.take m))) :
    sec disk' p π = sec disk p π := by
  induction π generalizing p with
  | nil => rfl
  | cons i π ih =>
    by_cases hp : p = 0
    · rw [hp, sec_zero, sec_zero]
    · have hroot := h 0 (by simp) (by simpa [sec] using hp)
      simp only [List.take_zero, sec] at hroot
      rw [sec_cons hp, sec_cons hp, hroot]
      refine ih fun m hm hne => ?_
      have hstep : sec disk p ((i :: π).take (m + 1)) = sec disk ((disk p).word i) (π.take m) := by
        rw [List.take_succ_cons, sec_cons hp]
      have := h (m + 1) (by simpa using hm) (by rw [hstep]; exact hne)
      rwa [hstep] at this

theorem Node.take {S : Shape} {k : ℕ} {π : List ℕ} (h : Node S k π) (m : ℕ) : Node S k (π.take m) :=
  ⟨h.root, (List.length_take_le' m π).trans h.length, fun i hi => h.fan i (List.mem_of_mem_take hi)⟩

/-- The forest's addresses are allocated (`A`), none is one that others may change (`D`), and no
address occurs twice. -/
structure Ok (S : Shape) (D A : ℕ → Prop) (disk : ℕ → Block n) (f : ℕ → ℕ) : Prop where
  alloc : ∀ k π, Node S k π → sec disk (f k) π ≠ 0 → A (sec disk (f k) π) ∧ ¬D (sec disk (f k) π)
  inj : ∀ k π k' π', Node S k π → Node S k' π' → sec disk (f k) π = sec disk (f k') π' →
    sec disk (f k) π ≠ 0 → k = k' ∧ π = π'

/-- `s` is one of the forest's index blocks. -/
def Index (S : Shape) (disk : ℕ → Block n) (f : ℕ → ℕ) (s : ℕ) : Prop :=
  ∃ k π, Node S k π ∧ π.length < S.level k ∧ sec disk (f k) π = s

/-- The forest has grown into fresh addresses.  Address 0 and the addresses in `D` are left open. -/
structure Grow (S : Shape) (D : ℕ → Prop) (disk : ℕ → Block n) (A : ℕ → Prop) (f : ℕ → ℕ)
    (disk' : ℕ → Block n) (A' : ℕ → Prop) (f' : ℕ → ℕ) : Prop where
  mono : ∀ s, A s → A' s
  frame : ∀ s, A s → ¬D s → s ≠ 0 → ¬Index S disk f s → disk' s = disk s
  old : ∀ k π, Node S k π → sec disk (f k) π ≠ 0 → sec disk' (f' k) π = sec disk (f k) π
  fresh : ∀ k π, Node S k π → sec disk (f k) π = 0 → sec disk' (f' k) π ≠ 0 →
    ¬A (sec disk' (f' k) π) ∧ A' (sec disk' (f' k) π)
  inj : ∀ k π k' π', Node S k π → Node S k' π' → sec disk' (f' k) π = sec disk' (f' k') π' →
    sec disk' (f' k) π ≠ 0 → k = k' ∧ π = π'
  leaf : ∀ k π, Node S k π → π.length = S.level k → sec disk (f k) π = 0 →
    sec disk' (f' k) π ≠ 0 → disk' (sec disk' (f' k) π) = Block.zero

section Rules

variable {S : Shape} {D A A' A'' : ℕ → Prop} {disk disk' disk'' : ℕ → Block n} {f f' f'' : ℕ → ℕ}

/-- A leaf is not an index block. -/
theorem Ok.leaf_not_index (h : Ok S D A disk f) {k : ℕ} {π : List ℕ} (hn : Node S k π)
    (hl : π.length = S.level k) (h0 : sec disk (f k) π ≠ 0) : ¬Index S disk f (sec disk (f k) π) := by
  rintro ⟨k', π', hn', hlt, heq⟩
  obtain ⟨rfl, rfl⟩ := h.inj k' π' k π hn' hn heq (by rw [heq]; exact h0)
  omega

/-- Changes to address 0, to `D` and outside the allocated addresses do not move the forest. -/
theorem Ok.sec_eq (h : Ok S D A disk f) (hd : ∀ s, A s → ¬D s → s ≠ 0 → disk' s = disk s) {k : ℕ}
    {π : List ℕ} (hn : Node S k π) : sec disk' (f k) π = sec disk (f k) π := by
  refine sec_congr fun m _ hne => ?_
  obtain ⟨hA, hD⟩ := h.alloc k _ (hn.take m) hne
  exact hd _ hA hD hne

/-- Only the forest's own roots matter. -/
theorem Ok.congr (h : Ok S D A disk f) (hf : ∀ k, k < S.roots → f' k = f k) : Ok S D A disk f' where
  alloc k π hn hne := by
    rw [hf k hn.root] at hne ⊢
    exact h.alloc k π hn hne
  inj k π k' π' hn hn' heq hne := by
    rw [hf k hn.root, hf k' hn'.root] at heq
    rw [hf k hn.root] at hne
    exact h.inj k π k' π' hn hn' heq hne

/-- One root of a forest is a tree of its own. -/
theorem Ok.root (h : Ok S D A disk f) {k : ℕ} (hk : k < S.roots) :
    Ok (.tree (S.level k) S.fan) D A disk (fun _ => f k) where
  alloc _ π hn hne := h.alloc k π ⟨hk, hn.length, hn.fan⟩ hne
  inj j π j' π' hn hn' heq hne := by
    have hj : j < 1 := hn.root
    have hj' : j' < 1 := hn'.root
    have := h.inj k π k π' ⟨hk, hn.length, hn.fan⟩ ⟨hk, hn'.length, hn'.fan⟩ heq hne
    exact ⟨by omega, this.2⟩

/-- No pointers, no addresses. -/
theorem Ok.empty (h : ∀ k, k < S.roots → f k = 0) : Ok S D A disk f where
  alloc k π hn hne := by
    rw [h k hn.root, sec_zero] at hne
    exact absurd rfl hne
  inj k π k' π' hn _ _ hne := by
    rw [h k hn.root, sec_zero] at hne
    exact absurd rfl hne

/-- Nothing grown. -/
theorem Grow.same (h : Ok S D A disk f) (hd : ∀ s, A s → ¬D s → s ≠ 0 → disk' s = disk s) :
    Grow S D disk A f disk' A f where
  mono _ := id
  frame s hA hD h0 _ := hd s hA hD h0
  old _ _ hn _ := h.sec_eq hd hn
  fresh k π hn h0 hne := by
    rw [h.sec_eq hd hn] at hne
    exact absurd h0 hne
  inj k π k' π' hn hn' heq hne := by
    rw [h.sec_eq hd hn, h.sec_eq hd hn'] at heq
    rw [h.sec_eq hd hn] at hne
    exact h.inj k π k' π' hn hn' heq hne
  leaf k π hn _ h0 hne := by
    rw [h.sec_eq hd hn] at hne
    exact absurd h0 hne

/-- A forest without pointers that has not grown. -/
theorem Grow.empty (hm : ∀ s, A s → A' s) (hd : ∀ s, A s → ¬D s → s ≠ 0 → disk' s = disk s)
    (h : ∀ k, k < S.roots → f' k = 0) : Grow S D disk A f' disk' A' f' where
  mono := hm
  frame s hA hnD h0 _ := hd s hA hnD h0
  old k π hn h0 := by
    rw [h k hn.root, sec_zero] at h0
    exact absurd rfl h0
  fresh k π hn _ hne := by
    rw [h k hn.root, sec_zero] at hne
    exact absurd rfl hne
  inj k π k' π' hn _ _ hne := by
    rw [h k hn.root, sec_zero] at hne
    exact absurd rfl hne
  leaf k π hn _ _ hne := by
    rw [h k hn.root, sec_zero] at hne
    exact absurd rfl hne

/-- The grown forest is well formed again. -/
theorem Grow.ok (hg : Grow S D disk A f disk' A' f') (h : Ok S D A disk f) (hD : ∀ s, D s → A s) :
    Ok S D A' disk' f' where
  alloc k π hn hne := by
    by_cases h0 : sec disk (f k) π = 0
    · obtain ⟨hA, hA'⟩ := hg.fresh k π hn h0 hne
      exact ⟨hA', fun hd => hA (hD _ hd)⟩
    · rw [hg.old k π hn h0]
      obtain ⟨hA, hnD⟩ := h.alloc k π hn h0
      exact ⟨hg.mono _ hA, hnD⟩
  inj := hg.inj

/-- An index block of the grown forest that was allocated before was one before. -/
theorem Grow.index_old (hg : Grow S D disk A f disk' A' f') {s : ℕ} (hs : A s) (h0 : s ≠ 0)
    (h : Index S disk' f' s) : Index S disk f s := by
  obtain ⟨k, π, hn, hl, rfl⟩ := h
  by_cases hz : sec disk (f k) π = 0
  · exact absurd hs (hg.fresh k π hn hz h0).1
  · exact ⟨k, π, hn, hl, (hg.old k π hn hz).symm⟩

/-- **Growing twice is growing.** -/
theorem Grow.trans (h₁ : Grow S D disk A f disk' A' f') (h₂ : Grow S D disk' A' f' disk'' A'' f'')
    (hD : ∀ s, D s → A s) : Grow S D disk A f disk'' A'' f'' where
  mono s hs := h₂.mono s (h₁.mono s hs)
  frame s hA hnD h0 hidx := by
    rw [h₂.frame s (h₁.mono s hA) hnD h0 fun hi => hidx (h₁.index_old hA h0 hi)]
    exact h₁.frame s hA hnD h0 hidx
  old k π hn h0 := by
    have hold := h₁.old k π hn h0
    rw [h₂.old k π hn (by rw [hold]; exact h0), hold]
  fresh k π hn h0 hne := by
    by_cases hmid : sec disk' (f' k) π = 0
    · obtain ⟨hA, hA''⟩ := h₂.fresh k π hn hmid hne
      exact ⟨fun h => hA (h₁.mono _ h), hA''⟩
    · rw [h₂.old k π hn hmid]
      obtain ⟨hA, hA'⟩ := h₁.fresh k π hn h0 hmid
      exact ⟨hA, h₂.mono _ hA'⟩
  inj := h₂.inj
  leaf k π hn hl h0 hne := by
    by_cases hmid : sec disk' (f' k) π = 0
    · exact h₂.leaf k π hn hl hmid hne
    · obtain ⟨hA, hA'⟩ := h₁.fresh k π hn h0 hmid
      have hidx : ¬Index S disk' f' (sec disk' (f' k) π) := by
        rintro ⟨k', π', hn', hlt, heq⟩
        obtain ⟨rfl, rfl⟩ := h₁.inj k' π' k π hn' hn heq (by rw [heq]; exact hmid)
        omega
      rw [h₂.old k π hn hmid, h₂.frame _ hA' (fun hd => hA (hD _ hd)) hmid hidx]
      exact h₁.leaf k π hn hl h0 hmid

/-- Growing one root leaves the subtrees of the others where they are. -/
theorem Ok.sec_other (h : Ok S D A disk f) {k : ℕ} (hk : k < S.roots) {g : ℕ → ℕ}
    (hg : Grow (.tree (S.level k) S.fan) D disk A (fun _ => f k) disk' A' g) {k' : ℕ}
    {π : List ℕ} (hn : Node S k' π) (hne : k' ≠ k) : sec disk' (f k') π = sec disk (f k') π := by
  refine sec_congr fun m _ h0 => ?_
  obtain ⟨hA, hnD⟩ := h.alloc k' _ (hn.take m) h0
  refine hg.frame _ hA hnD h0 ?_
  rintro ⟨j, ρ, hρ, hl, heq⟩
  exact hne (h.inj k' _ k ρ (hn.take m) ⟨hk, hρ.length, hρ.fan⟩ heq.symm h0).1

/-- **One root of a forest grows.** -/
theorem Grow.child (h : Ok S D A disk f) {k : ℕ} (hk : k < S.roots) {s : ℕ}
    (hg : Grow (.tree (S.level k) S.fan) D disk A (fun _ => f k) disk' A' (fun _ => s)) :
    Grow S D disk A f disk' A' (Function.update f k s) := by
  have hsame : ∀ π, sec disk' (Function.update f k s k) π = sec disk' s π := fun π => by
    rw [Function.update_self]
  have hother : ∀ k' π, Node S k' π → k' ≠ k →
      sec disk' (Function.update f k s k') π = sec disk (f k') π := fun k' π hn hne => by
    rw [Function.update_of_ne hne]
    exact h.sec_other hk hg hn hne
  have hnode : ∀ π, Node S k π → Node (.tree (S.level k) S.fan) 0 π := fun π hn =>
    ⟨Nat.one_pos, hn.length, hn.fan⟩
  -- an address of the grown root is not one of another root's
  have hcross : ∀ π k' π', Node S k π → Node S k' π' → k' ≠ k → sec disk' s π ≠ 0 →
      sec disk' s π ≠ sec disk (f k') π' := by
    intro π k' π' hn hn' hne h0 heq
    by_cases hz : sec disk (f k) π = 0
    · exact (hg.fresh 0 π (hnode π hn) hz h0).1
        (by rw [heq]; exact (h.alloc k' π' hn' (by rw [← heq]; exact h0)).1)
    · rw [hg.old 0 π (hnode π hn) hz] at heq
      exact hne (h.inj k π k' π' hn hn' heq hz).1.symm
  refine ⟨hg.mono, fun t hA hnD h0 hidx => ?_, fun k' π hn h0 => ?_, fun k' π hn h0 hne => ?_,
    fun k₁ π₁ k₂ π₂ hn₁ hn₂ heq hne => ?_, fun k' π hn hl h0 hne => ?_⟩
  · refine hg.frame t hA hnD h0 ?_
    rintro ⟨j, ρ, hρ, hl, heq⟩
    exact hidx ⟨k, ρ, ⟨hk, hρ.length, hρ.fan⟩, hl, heq⟩
  · by_cases hkk : k' = k
    · subst hkk
      rw [hsame]
      exact hg.old 0 π (hnode π hn) h0
    · exact hother k' π hn hkk
  · by_cases hkk : k' = k
    · subst hkk
      rw [hsame] at hne ⊢
      exact hg.fresh 0 π (hnode π hn) h0 hne
    · rw [hother k' π hn hkk] at hne
      exact absurd h0 hne
  · by_cases h₁ : k₁ = k <;> by_cases h₂ : k₂ = k
    · subst h₁ h₂
      rw [hsame, hsame] at heq
      rw [hsame] at hne
      exact ⟨rfl, (hg.inj 0 π₁ 0 π₂ (hnode π₁ hn₁) (hnode π₂ hn₂) heq hne).2⟩
    · subst h₁
      rw [hsame] at heq hne
      rw [hother k₂ π₂ hn₂ h₂] at heq
      exact absurd heq (hcross π₁ k₂ π₂ hn₁ hn₂ h₂ hne)
    · subst h₂
      rw [heq, hsame] at hne
      rw [hsame, hother k₁ π₁ hn₁ h₁] at heq
      exact absurd heq.symm (hcross π₂ k₁ π₁ hn₂ hn₁ h₁ hne)
    · rw [hother k₁ π₁ hn₁ h₁] at heq hne
      rw [hother k₂ π₂ hn₂ h₂] at heq
      exact h.inj k₁ π₁ k₂ π₂ hn₁ hn₂ heq hne
  · by_cases hkk : k' = k
    · subst hkk
      rw [hsame] at hne ⊢
      exact hg.leaf 0 π (hnode π hn) hl h0 hne
    · rw [hother k' π hn hkk] at hne
      exact absurd h0 hne

end Rules

section Tree

variable {D A A' : ℕ → Prop} {disk disk' disk'' : ℕ → Block n} {l fan : ℕ}

/-- A fresh root: an index block of null pointers, or a zero leaf. -/
theorem Grow.root {s : ℕ} (hs : ¬A s) (hs0 : s ≠ 0) (hA' : ∀ t, A' t ↔ A t ∨ t = s)
    (hz : disk' s = Block.zero) (hd : ∀ t, A t → ¬D t → t ≠ 0 → disk' t = disk t) :
    Grow (.tree l fan) D disk A (fun _ => 0) disk' A' (fun _ => s) := by
  have hnil : ∀ π, sec disk' s π ≠ 0 → π = [] := by
    intro π hne
    cases π with
    | nil => rfl
    | cons i π =>
      rw [sec_cons hs0, hz, Block.word_zero, sec_zero] at hne
      exact absurd rfl hne
  refine ⟨fun t ht => (hA' t).2 (.inl ht), fun t hA hD h0 _ => hd t hA hD h0, fun k π _ h0 => ?_,
    fun k π _ _ hne => ?_, fun k π k' π' hn hn' heq hne => ?_, fun k π _ hl _ hne => ?_⟩
  · rw [sec_zero] at h0
    exact absurd rfl h0
  · obtain rfl := hnil π hne
    exact ⟨hs, (hA' s).2 (.inr rfl)⟩
  · have h₁ : k < 1 := hn.root
    have h₂ : k' < 1 := hn'.root
    rw [hnil π hne, hnil π' (by rw [← heq]; exact hne)]
    exact ⟨by omega, rfl⟩
  · obtain rfl := hnil π hne
    exact hz

/-- The pointers in the block of an allocated root form a forest of their own. -/
theorem Ok.block {p : ℕ} (h : Ok (.tree (l + 1) fan) D A disk (fun _ => p)) (hp : p ≠ 0) :
    Ok (.block l fan) D A disk (disk p).word := by
  have hnode : ∀ k π, Node (.block l fan) k π → Node (.tree (l + 1) fan) 0 (k :: π) := fun k π hn =>
    ⟨Nat.one_pos, Nat.succ_le_succ hn.length, by
      intro i hi
      rcases List.mem_cons.mp hi with rfl | hi
      · exact hn.root
      · exact hn.fan i hi⟩
  refine ⟨fun k π hn hne => ?_, fun k π k' π' hn hn' heq hne => ?_⟩
  · rw [← sec_below disk hp] at hne ⊢
    exact h.alloc 0 _ (hnode k π hn) hne
  · rw [← sec_below disk hp, ← sec_below disk hp] at heq
    rw [← sec_below disk hp] at hne
    have := (h.inj 0 _ 0 _ (hnode k π hn) (hnode k' π' hn') heq hne).2
    exact List.cons.inj this

/-- The root's own address is not among the addresses below it, before or after they grow. -/
theorem Grow.root_not_below {p : ℕ} (h : Ok (.tree (l + 1) fan) D A disk (fun _ => p)) (hp : p ≠ 0)
    {g : ℕ → ℕ} (hg : Grow (.block l fan) D disk A (disk p).word disk' A' g) {k : ℕ} {π : List ℕ}
    (hn : Node (.block l fan) k π) (hne : sec disk' (g k) π ≠ 0) : sec disk' (g k) π ≠ p := by
  have hroot : Node (.tree (l + 1) fan) 0 [] := ⟨Nat.one_pos, Nat.zero_le _, by simp⟩
  have hnode : Node (.tree (l + 1) fan) 0 (k :: π) := ⟨Nat.one_pos, Nat.succ_le_succ hn.length, by
    intro i hi
    rcases List.mem_cons.mp hi with rfl | hi
    · exact hn.root
    · exact hn.fan i hi⟩
  intro heq
  by_cases hz : sec disk ((disk p).word k) π = 0
  · refine (hg.fresh k π hn hz hne).1 ?_
    rw [heq]
    exact (h.alloc 0 [] hroot hp).1
  · rw [hg.old k π hn hz, ← sec_below disk hp] at heq
    have := (h.inj 0 _ 0 [] hnode hroot heq (by rw [heq]; exact hp)).2
    exact absurd this (by simp)

/-- **The pointers of a block grow, and then the block itself is stored, or is not.**  `c` is what the
block holds in the end: the grown pointers, or the old ones where those were already set. -/
theorem Grow.parent {p : ℕ} (h : Ok (.tree (l + 1) fan) D A disk (fun _ => p)) (hp : p ≠ 0)
    {g : ℕ → ℕ} (hg : Grow (.block l fan) D disk A (disk p).word disk' A' g)
    (hc : ∀ i, i < fan → (disk'' p).word i = g i ∨
      (disk'' p).word i = 0 ∧ (disk p).word i = 0)
    (hd : ∀ t, t ≠ p → disk'' t = disk' t) :
    Grow (.tree (l + 1) fan) D disk A (fun _ => p) disk'' A' (fun _ => p) := by
  have hroot : Node (.tree (l + 1) fan) 0 [] := ⟨Nat.one_pos, Nat.zero_le _, by simp⟩
  have hbelow : ∀ k π, Node (.block l fan) k π → sec disk'' (g k) π = sec disk' (g k) π := by
    intro k π hn
    exact sec_congr fun m _ hne => hd _ (Grow.root_not_below h hp hg (hn.take m) hne)
  have hsplit : ∀ j i π, Node (.tree (l + 1) fan) j (i :: π) → Node (.block l fan) i π := by
    intro j i π hn
    exact ⟨hn.fan i (by simp), Nat.le_of_succ_le_succ hn.length,
      fun t ht => hn.fan t (List.mem_cons_of_mem _ ht)⟩
  -- a path into the block ends where the grown pointers end, unless its pointer is not stored
  have hval : ∀ j i π, Node (.tree (l + 1) fan) j (i :: π) → sec disk'' p (i :: π) ≠ 0 →
      sec disk'' p (i :: π) = sec disk' (g i) π := by
    intro j i π hn hne
    have hn' := hsplit j i π hn
    rw [sec_cons hp] at hne ⊢
    rcases hc i hn'.root with hci | ⟨hci, _⟩
    · rw [hci, hbelow i π hn']
    · rw [hci, sec_zero] at hne
      exact absurd rfl hne
  have hold : ∀ j π, Node (.tree (l + 1) fan) j π → sec disk p π ≠ 0 →
      sec disk'' p π = sec disk p π := by
    intro j π hn hne
    cases π with
    | nil => rfl
    | cons i π =>
      have hn' := hsplit j i π hn
      have hi0 : (disk p).word i ≠ 0 := by
        have := sec_take_ne_zero hne 1
        simpa [sec, hp] using this
      rw [sec_cons hp] at hne ⊢
      rw [sec_cons hp]
      rcases hc i hn'.root with hci | ⟨_, hz⟩
      · rw [hci, hbelow i π hn', hg.old i π hn' hne]
      · exact absurd hz hi0
  refine ⟨hg.mono, fun t hA hnD h0 hidx => ?_, fun k π hn h0 => hold k π hn h0,
    fun k π hn h0 hne => ?_, fun k π k' π' hn hn' heq hne => ?_, fun k π hn hl h0 hne => ?_⟩
  · have htp : t ≠ p := by
      rintro rfl
      exact hidx ⟨0, [], hroot, Nat.succ_pos l, rfl⟩
    rw [hd t htp]
    refine hg.frame t hA hnD h0 ?_
    rintro ⟨i, π, hn, hl, heq⟩
    refine hidx ⟨0, i :: π, ⟨Nat.one_pos, Nat.succ_le_succ hn.length, ?_⟩, Nat.succ_lt_succ hl, ?_⟩
    · intro j hj
      rcases List.mem_cons.mp hj with rfl | hj
      · exact hn.root
      · exact hn.fan j hj
    · rw [sec_cons hp]
      exact heq
  · cases π with
    | nil => exact absurd h0 hp
    | cons i π =>
      have hn' := hsplit k i π hn
      rw [sec_cons hp] at h0
      have hv := hval k i π hn hne
      rw [hv] at hne ⊢
      exact hg.fresh i π hn' h0 hne
  · have hk : k < 1 := hn.root
    have hk' : k' < 1 := hn'.root
    refine ⟨by omega, ?_⟩
    cases π with
    | nil =>
      cases π' with
      | nil => rfl
      | cons i' π' =>
        have hv := hval k' i' π' hn' (by rw [← heq]; exact hne)
        rw [hv] at heq
        exact absurd heq.symm
          (Grow.root_not_below h hp hg (hsplit k' i' π' hn') (by rw [← heq]; exact hp))
    | cons i π =>
      have hv := hval k i π hn hne
      cases π' with
      | nil =>
        rw [hv] at heq hne
        exact absurd heq (Grow.root_not_below h hp hg (hsplit k i π hn) hne)
      | cons i' π' =>
        have hv' := hval k' i' π' hn' (by rw [← heq]; exact hne)
        rw [hv, hv'] at heq
        rw [hv] at hne
        obtain ⟨rfl, rfl⟩ := hg.inj i π i' π' (hsplit k i π hn) (hsplit k' i' π' hn') heq hne
        rfl
  · cases π with
    | nil => exact absurd hl (by simp)
    | cons i π =>
      have hn' := hsplit k i π hn
      have hv := hval k i π hn hne
      rw [sec_cons hp] at h0
      rw [hv] at hne ⊢
      rw [hd _ (Grow.root_not_below h hp hg hn' hne)]
      exact hg.leaf i π hn' (Nat.succ.inj hl) h0 hne

/-! ### Accounting -/

/-- What has been allocated since is in the forest. -/
def Accounts (S : Shape) (A A' : ℕ → Prop) (disk' : ℕ → Block n) (f' : ℕ → ℕ) : Prop :=
  ∀ s, A' s → ¬A s → ∃ k π, Node S k π ∧ sec disk' (f' k) π = s ∧ s ≠ 0

variable {S : Shape} {A'' : ℕ → Prop} {f f' f'' : ℕ → ℕ}

theorem Accounts.refl : Accounts S A A disk f := fun _ hs hno => absurd hs hno

theorem Accounts.trans (h₁ : Accounts S A A' disk' f') (h₂ : Accounts S A' A'' disk'' f'')
    (hg : Grow S D disk' A' f' disk'' A'' f'') : Accounts S A A'' disk'' f'' := by
  intro s hs hno
  by_cases hmid : A' s
  · obtain ⟨k, π, hn, heq, h0⟩ := h₁ s hmid hno
    have hold := hg.old k π hn (by rw [heq]; exact h0)
    exact ⟨k, π, hn, hold.trans heq, h0⟩
  · exact h₂ s hs hmid

/-- A fresh root is the only new address. -/
theorem Accounts.root {s : ℕ} (hs0 : s ≠ 0) (hA' : ∀ t, A' t ↔ A t ∨ t = s) :
    Accounts (.tree l fan) A A' disk' (fun _ => s) := by
  intro t ht hno
  have hts : t = s := ((hA' t).mp ht).resolve_left hno
  exact ⟨0, [], ⟨Nat.one_pos, Nat.zero_le _, by simp⟩, hts.symm, by rw [hts]; exact hs0⟩

/-- The addresses of one root are addresses of the forest. -/
theorem Accounts.child {k s : ℕ} (hk : k < S.roots)
    (h : Accounts (.tree (S.level k) S.fan) A A' disk' (fun _ => s)) :
    Accounts S A A' disk' (Function.update f k s) := by
  intro t ht hno
  obtain ⟨_, π, hn, heq, h0⟩ := h t ht hno
  refine ⟨k, π, ⟨hk, hn.length, hn.fan⟩, ?_, h0⟩
  rw [Function.update_self]
  exact heq

/-- The addresses below the pointers of a block are addresses below its root, once the block is stored. -/
theorem Accounts.parent {p : ℕ} {g : ℕ → ℕ} (h : Accounts (.block l fan) A A' disk' g)
    (hsec : ∀ k π, Node (.block l fan) k π → sec disk'' p (k :: π) = sec disk' (g k) π) :
    Accounts (.tree (l + 1) fan) A A' disk'' (fun _ => p) := by
  intro t ht hno
  obtain ⟨k, π, hn, heq, h0⟩ := h t ht hno
  refine ⟨0, k :: π, ⟨Nat.one_pos, Nat.succ_le_succ hn.length, ?_⟩, (hsec k π hn).trans heq, h0⟩
  intro i hi
  rcases List.mem_cons.mp hi with rfl | hi
  · exact hn.root
  · exact hn.fan i hi

end Tree

end PtrForest
