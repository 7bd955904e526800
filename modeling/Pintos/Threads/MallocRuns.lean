import Pintos.Threads.MallocCalls

/-!
# Runs of the heap

`calloc` and `realloc`, and the heap over any run of the calls.  The pages come from the page allocator as it is after
`palloc_init`, and others use it in between.

* `allocation_honoured_iff`: a block has the size that was asked for unless the size is within 12 bytes of 4 GB, or the
  product of `calloc` does not fit.
* `heap_disjoint`: without such a size in the run, the live blocks and the headers are apart, and the free lists and
  counts are right.
-/

namespace Pintos.Threads.Malloc

open Pintos.Threads.Palloc (Pools Grant PallocFlags)
open Carving

namespace Heap

variable {H H' H'' : Heap} {foreign : List Grant} {live : List LiveBlock} {c c' : Chunk} {p x : Word} {n : ℕ}

/-! ## `calloc` and `realloc` -/

theorem Inv.congr_bytes (h : H.Inv foreign live) (bytes : Word → BitVec 8) : ({ H with bytes } : Heap).Inv foreign live :=
  ⟨h.pools, h.cells.congr rfl fun _ _ => rfl⟩

/-- The bytes of the other blocks, when some at the start of a block change. -/
theorem Cells.keeps_of_near (h : H.Cells H.own live) {lb : LiveBlock} (hlb : lb ∈ live) (hc : c ∈ H.own)
    (hcell : lb.addr ∈ c.cells) {size : Word} (hsize : size.toNat ≤ c.room) (bytes : Word → BitVec 8)
    (hbytes : ∀ x, ¬x - lb.addr < size → bytes x = H.bytes x) :
    H.Keeps { H with bytes } (live.erase lb) := by
  intro lb' hlb' c' hc' hcell'
  refine ⟨hc', fun x hx => hbytes x ?_⟩
  exact h.not_near hc hcell hc' hcell' (h.addr_ne hlb hlb') hx hsize

/-- **`calloc`** where the product passes its check. -/
theorem calloc_spec {a b : Word} (h : H.Inv foreign live) (hguard : ¬(a * b < a ∨ a * b < b)) (hsize : a * b ≠ 0) :
    (H.NoRoom (a * b) ∧ ∃ H', H.calloc a b = .ok (0, H') ∧ H.Extends H' live ∧ H'.Inv foreign live) ∨
    (¬H.NoRoom (a * b) ∧ ∃ c : Chunk, ((a * b).toNat ≤ 2 ^ 32 - 12 → (a * b).toNat ≤ c.room) ∧
      (2 ^ 32 - 12 < (a * b).toNat → c.room = 4084) ∧
      if (a * b).toNat ≤ c.room then
        ∃ p H', H.calloc a b = .ok (p, H') ∧ p ≠ 0 ∧ H.Extends H' live ∧ c ∈ H'.own ∧ p ∈ c.cells ∧
          (∀ n ≤ c.room, H'.Inv foreign (⟨p, n⟩ :: live)) ∧ ∀ x, x - p < a * b → H'.bytes x = 0
      else H.calloc a b = .error .overrun) := by
  unfold calloc
  dsimp only
  rw [if_neg hguard]
  obtain ⟨hno, H', hmalloc, hext, hinv⟩ | ⟨hroom, p, H₁, hmalloc, hne, hext, c, hc, hcell, hlow, hhigh, hinv⟩ :=
    malloc_spec h hsize
  · refine .inl ⟨hno, H', ?_, hext, hinv⟩
    rw [hmalloc, ok_bind]
    rfl
  · refine .inr ⟨hroom, c, hlow, hhigh, ?_⟩
    have hinv₀ := hinv 0 (Nat.zero_le _)
    obtain ⟨room, hblock, heq⟩ := hinv₀.cells.blockSize_eq hc hcell
    rw [hmalloc, ok_bind]
    dsimp only
    rw [if_pos hne]
    unfold memsetBlock
    rw [hblock, ok_bind]
    by_cases hfits : (a * b).toNat ≤ c.room
    · have hle : a * b ≤ room := by
        rw [BitVec.le_def, heq]
        exact hfits
      rw [if_pos hfits, if_pos hle]
      refine ⟨p, { H₁ with bytes := fun x => if x - p < a * b then 0 else H₁.bytes x }, rfl, hne, ?_, hc, hcell, ?_, ?_⟩
      · refine ⟨hext.own, hext.keeps.trans ?_⟩
        have hmem : (⟨p, 0⟩ : LiveBlock) ∈ (⟨p, 0⟩ : LiveBlock) :: live := List.mem_cons_self
        have hkeeps := hinv₀.cells.keeps_of_near hmem hc hcell hfits
          (fun x => if x - p < a * b then 0 else H₁.bytes x) fun x hx => if_neg hx
        rw [List.erase_cons_head] at hkeeps
        exact hkeeps
      · exact fun n hn => (hinv n hn).congr_bytes _
      · exact fun x hx => if_pos hx
    · have hlt : ¬a * b ≤ room := by
        rw [BitVec.le_def, heq]
        exact hfits
      rw [if_neg hfits, if_neg hlt]
      rfl

/-- A new block is none of the others. -/
theorem Inv.addr_ne_cons (h : H.Inv foreign (⟨p, n⟩ :: live)) {lb : LiveBlock} (hlb : lb ∈ live) : p ≠ lb.addr := by
  have hnodup := h.cells.nodup_live
  rw [List.map_cons, List.nodup_cons] at hnodup
  intro heq
  exact hnodup.1 (List.mem_map.mpr ⟨lb, hlb, heq.symm⟩)

theorem Inv.erase_cons (h : H.Inv foreign (⟨p, n⟩ :: live)) {lb : LiveBlock} (hlb : lb ∈ live) :
    (⟨p, n⟩ :: live).erase lb = ⟨p, n⟩ :: live.erase lb := by
  apply List.erase_cons_tail
  intro heq
  exact h.addr_ne_cons hlb (congrArg LiveBlock.addr (eq_of_beq heq))

/-- An arena that is not there any more has left no page to another one. -/
def Returns (H H' : Heap) : Prop := ∀ c ∈ H.own, c ∉ H'.own → ∀ c' ∈ H'.own, c'.pages ≠ c.pages

theorem Inv.returns (h : H'.Inv foreign live) (hgrow : H.own ⊆ H'.own) (hshrink : H''.own ⊆ H'.own) : H.Returns H'' := by
  intro c hc hgone c' hc' heq
  obtain rfl := h.cells.eq_of_pages (hshrink hc') (hgrow hc) heq
  exact hgone hc'

/-- `realloc` without an old block is `malloc`. -/
theorem realloc_null (H : Heap) {size : Word} (hsize : size ≠ 0) : H.realloc 0 size = H.malloc size := by
  unfold realloc
  rw [if_neg hsize]
  cases H.malloc size with
  | error e => rfl
  | ok r =>
    rw [ok_bind]
    exact if_neg fun hboth => hboth.1 rfl

/-- **`realloc`** of a live block: it is copied and freed. -/
theorem realloc_spec {size : Word} {lb : LiveBlock} (h : H.Inv foreign live) (hlb : lb ∈ live) (hsize : size ≠ 0) :
    (H.NoRoom size ∧ ∃ H', H.realloc lb.addr size = .ok (0, H') ∧ H.Extends H' live ∧ H'.Inv foreign live) ∨
    (¬H.NoRoom size ∧ ∃ (c : Chunk) (room : Word), H.blockSize lb.addr = .ok room ∧
      (size.toNat ≤ 2 ^ 32 - 12 → size.toNat ≤ c.room) ∧ (2 ^ 32 - 12 < size.toNat → c.room = 4084) ∧
      if min size.toNat room.toNat ≤ c.room then
        ∃ p H', H.realloc lb.addr size = .ok (p, H') ∧ p ≠ 0 ∧ c ∈ H'.own ∧ p ∈ c.cells ∧
          H.Keeps H' (live.erase lb) ∧ H.Returns H' ∧ (∀ n ≤ c.room, H'.Inv foreign (⟨p, n⟩ :: live.erase lb)) ∧
          ∀ k < min size.toNat room.toNat,
            H'.bytes (p + BitVec.ofNat 32 k) = H.bytes (lb.addr + BitVec.ofNat 32 k)
      else H.realloc lb.addr size = .error .overrun) := by
  obtain ⟨c₀, hc₀, hcell₀, -⟩ := h.cells.live_cell hlb
  have hvalid₀ := (h.cells.header c₀ hc₀).valid
  have hold : lb.addr ≠ 0 := hvalid₀.cell_ne_zero hcell₀
  obtain ⟨hno, H', hmalloc, hext, hinv⟩ | ⟨hroom, p, H₁, hmalloc, hne, hext, c, hc, hcell, hlow, hhigh, hinv⟩ :=
    malloc_spec h hsize
  · refine .inl ⟨hno, H', ?_, hext, hinv⟩
    unfold realloc
    rw [if_neg hsize, hmalloc, ok_bind]
    dsimp only
    rw [if_neg fun hboth => hboth.2 rfl]
    rfl
  · right
    have hinv₀ := hinv 0 (Nat.zero_le _)
    have hvalid := (hinv₀.cells.header c hc).valid
    obtain ⟨room, hblock, hroom₀⟩ := h.cells.blockSize_eq hc₀ hcell₀
    obtain ⟨hc₁, hbytes₁⟩ := hext.keeps lb hlb c₀ hc₀ hcell₀
    -- the size of the old block is the same behind `malloc`
    obtain ⟨room₁, hblock₁, hroom₁⟩ := hinv₀.cells.blockSize_eq hc₁ hcell₀
    obtain rfl : room₁ = room := BitVec.eq_of_toNat_eq (hroom₁.trans hroom₀.symm)
    obtain ⟨room', hblock', hroom'⟩ := hinv₀.cells.blockSize_eq hc hcell
    refine ⟨hroom, c, room₁, hblock, hlow, hhigh, ?_⟩
    obtain ⟨minSize, hmin⟩ : ∃ minSize, (if size < room₁ then size else room₁) = minSize := ⟨_, rfl⟩
    have hmin' : minSize.toNat = min size.toNat room₁.toNat := by
      rw [← hmin]
      split
      · case isTrue hlt =>
        have hlt' : size.toNat < room₁.toNat := hlt
        omega
      · case isFalse hge =>
        have hge' : room₁.toNat ≤ size.toNat := Nat.le_of_not_lt hge
        omega
    have hrun : H.realloc lb.addr size =
        (H₁.memcpyBlock p lb.addr minSize >>= fun H => H.free lb.addr >>= fun H => .ok (p, H)) := by
      unfold realloc
      rw [if_neg hsize, hmalloc, ok_bind]
      dsimp only
      rw [if_pos ⟨hold, hne⟩, hblock₁, ok_bind]
      rw [hmin]
      rfl
    unfold memcpyBlock at hrun
    rw [hblock', ok_bind] at hrun
    rw [← hmin']
    by_cases hfits : minSize.toNat ≤ c.room
    · have hle : minSize ≤ room' := by
        rw [BitVec.le_def, hroom']
        exact hfits
      rw [if_pos hle] at hrun
      rw [if_pos hfits]
      -- the state behind the copy
      obtain ⟨bytes, hcopy⟩ : ∃ bytes : Word → BitVec 8,
        bytes = fun x => if x - p < minSize then H₁.bytes (lb.addr + (x - p)) else H₁.bytes x := ⟨_, rfl⟩
      have hinv₂ : ∀ n ≤ c.room, ({ H₁ with bytes } : Heap).Inv foreign (⟨p, n⟩ :: live) :=
        fun n hn => (hinv n hn).congr_bytes bytes
      have hmem : ∀ n, lb ∈ (⟨p, n⟩ : LiveBlock) :: live := fun n => List.mem_cons_of_mem _ hlb
      obtain ⟨H', hfree, hinv', hkeeps', hown'⟩ := free_spec (hinv₂ 0 (Nat.zero_le _)) (hmem 0)
      rw [hinv₀.erase_cons hlb] at hinv' hkeeps'
      have hnew := hkeeps' ⟨p, 0⟩ List.mem_cons_self c hc hcell
      refine ⟨p, H', ?_, hne, hnew.1, hcell, ?_, ?_, ?_, ?_⟩
      · rw [hrun, ← hcopy]
        show (free { H₁ with bytes } lb.addr >>= _) = _
        rw [hfree]
        rfl
      · -- the other blocks
        have hfirst : H.Keeps H₁ (live.erase lb) := fun lb' hlb' => hext.keeps lb' (List.mem_of_mem_erase hlb')
        have hself : (⟨p, 0⟩ : LiveBlock) ∈ (⟨p, 0⟩ : LiveBlock) :: live := List.mem_cons_self
        have hsecond := hinv₀.cells.keeps_of_near hself hc hcell hfits bytes (by
          intro x hx
          rw [hcopy]
          exact if_neg hx)
        rw [List.erase_cons_head] at hsecond
        have hthird : ({ H₁ with bytes } : Heap).Keeps H' (live.erase lb) :=
          fun lb' hlb' => hkeeps' lb' (List.mem_cons_of_mem _ hlb')
        exact (hfirst.trans fun lb' hlb' => hsecond lb' (List.mem_of_mem_erase hlb')).trans hthird
      · exact hinv₀.returns hext.own hown'
      · intro n hn
        obtain ⟨H'', hfree'', hinv'', -, -⟩ := free_spec (hinv₂ n hn) (hmem n)
        obtain rfl : H' = H'' := Except.ok.inj (hfree.symm.trans hfree'')
        rw [(hinv n hn).erase_cons hlb] at hinv''
        exact hinv''
      · intro k hk
        have hk' : (BitVec.ofNat 32 k).toNat = k := by
          rw [BitVec.toNat_ofNat, Nat.mod_eq_of_lt (hk.trans minSize.isLt)]
        have hsub : p + BitVec.ofNat 32 k - p = BitVec.ofNat 32 k := by rw [BitVec.add_comm, BitVec.add_sub_cancel]
        have hsub₀ : lb.addr + BitVec.ofNat 32 k - lb.addr = BitVec.ofNat 32 k := by
          rw [BitVec.add_comm, BitVec.add_sub_cancel]
        have hin : (p + BitVec.ofNat 32 k).toNat ∈ c.extent p := by
          rw [hvalid.mem_extent_iff hcell, hsub, hk']
          omega
        have hin₀ : (lb.addr + BitVec.ofNat 32 k).toNat ∈ c₀.extent lb.addr := by
          rw [hvalid₀.mem_extent_iff hcell₀, hsub₀, hk']
          omega
        have hlt : p + BitVec.ofNat 32 k - p < minSize := by
          rw [hsub, BitVec.lt_def, hk']
          exact hk
        rw [hnew.2 _ hin]
        show bytes _ = _
        rw [hcopy]
        dsimp only
        rw [if_pos hlt, hsub]
        exact hbytes₁ _ hin₀
    · have hlt : ¬minSize ≤ room' := by
        rw [BitVec.le_def, hroom']
        exact hfits
      rw [if_neg hlt] at hrun
      rw [if_neg hfits, hrun]
      rfl

/-! ## Blocks of the size that was asked for -/

/-- `n` bytes from an address on are in a block, which is behind the header of an arena and in its pages. -/
def Usable (H : Heap) (p : Word) (n : ℕ) : Prop :=
  ∃ room : Word, H.blockSize p = .ok room ∧ n ≤ room.toNat ∧ ∃ c ∈ H.own,
    c.pages.toNat + 12 ≤ p.toNat ∧ p.toNat + room.toNat ≤ c.pages.toNat + 4096 * c.cnt.toNat

/-- What is to hold of a block that is returned; a store past the end of a block is never right. -/
def Honoured (r : Except Stop (Word × Heap)) (Q : Word → Heap → Prop) : Prop :=
  match r with
  | .ok (p, H') => p ≠ 0 → Q p H'
  | .error .panic => True
  | .error .overrun => False

theorem honoured_congr {r : Except Stop (Word × Heap)} {Q Q' : Word → Heap → Prop} (h : ∀ p H', Q p H' ↔ Q' p H') :
    Honoured r Q ↔ Honoured r Q' := by
  unfold Honoured
  split
  · case h_1 p H' => exact imp_congr_right fun _ => h p H'
  · exact Iff.rfl
  · exact Iff.rfl

def MallocHonoured (H : Heap) (size : Word) : Prop := Honoured (H.malloc size) fun p H' => H'.Usable p size.toNat

def CallocHonoured (H : Heap) (a b : Word) : Prop :=
  Honoured (H.calloc a b) fun p H' =>
    H'.Usable p (a.toNat * b.toNat) ∧ ∀ k < a.toNat * b.toNat, H'.bytes (p + BitVec.ofNat 32 k) = 0

def ReallocHonoured (H : Heap) (oldBlock newSize : Word) : Prop :=
  Honoured (H.realloc oldBlock newSize) fun p H' =>
    H'.Usable p newSize.toNat ∧ (oldBlock ≠ 0 → ∀ room, H.blockSize oldBlock = .ok room →
      ∀ k < min newSize.toNat room.toNat, H'.bytes (p + BitVec.ofNat 32 k) = H.bytes (oldBlock + BitVec.ofNat 32 k))

theorem Cells.usable_iff (h : H.Cells H.own live) (hc : c ∈ H.own) (hcell : p ∈ c.cells) (n : ℕ) :
    H.Usable p n ↔ n ≤ c.room := by
  obtain ⟨room, hblock, hroom⟩ := h.blockSize_eq hc hcell
  constructor
  · intro husable
    obtain ⟨room', hblock', hle, -⟩ := husable
    obtain rfl : room = room' := Except.ok.inj (hblock.symm.trans hblock')
    rw [← hroom]
    exact hle
  · intro hle
    obtain ⟨hlow, hhigh⟩ := (h.header c hc).valid.cell_within hcell
    rw [← hroom] at hle hhigh
    exact ⟨room, hblock, hle, c, hc, hlow, hhigh⟩

/-- A block of the room that `malloc` found for the size. -/
theorem le_room_iff {size : ℕ} (hlow : size ≤ 2 ^ 32 - 12 → size ≤ c.room) (hhigh : 2 ^ 32 - 12 < size → c.room = 4084) :
    size ≤ c.room ↔ size ≤ 2 ^ 32 - 12 := by
  constructor
  · intro hle
    by_contra hlt
    have hroom := hhigh (by omega)
    omega
  · exact hlow

theorem mallocHonoured_iff (h : H.Inv foreign live) (size : Word) :
    H.MallocHonoured size ↔ size.toNat ≤ 2 ^ 32 - 12 ∨ H.NoRoom size := by
  unfold MallocHonoured
  by_cases hsize : size = 0
  · have hzero : H.malloc size = .ok (0, H) := if_pos hsize
    rw [hzero, hsize]
    exact iff_of_true (fun hne => absurd rfl hne) (.inl (Nat.zero_le _))
  · obtain ⟨hno, H', hmalloc, -, -⟩ | ⟨hroom, p, H', hmalloc, hne, -, c, hc, hcell, hlow, hhigh, hinv⟩ :=
      malloc_spec h hsize
    · rw [hmalloc]
      exact iff_of_true (fun hne => absurd rfl hne) (.inr hno)
    · rw [hmalloc, or_iff_left hroom, ← le_room_iff hlow hhigh,
        ← (hinv 0 (Nat.zero_le _)).cells.usable_iff hc hcell]
      exact ⟨fun husable => husable hne, fun husable _ => husable⟩

theorem callocHonoured_iff (h : H.Inv foreign live) (a b : Word) :
    H.CallocHonoured a b ↔ a.toNat * b.toNat ≤ 2 ^ 32 - 12 ∨ a * b < a ∨ a * b < b ∨ H.NoRoom (a * b) := by
  unfold CallocHonoured
  have hmod : (a * b).toNat = a.toNat * b.toNat % 2 ^ 32 := BitVec.toNat_mul a b
  by_cases hguard : a * b < a ∨ a * b < b
  · have hnull : H.calloc a b = .ok (0, H) := if_pos hguard
    rw [hnull]
    apply iff_of_true
    · exact fun hne => absurd rfl hne
    · rcases hguard with hlt | hlt
      · exact .inr (.inl hlt)
      · exact .inr (.inr (.inl hlt))
  · have hnot := not_or.mp hguard
    rw [or_iff_right hnot.1, or_iff_right hnot.2]
    by_cases hsize : a * b = 0
    · -- the check lets no product through that is zero and should not be
      have ha : a = 0 := by
        apply BitVec.eq_of_toNat_eq
        have hle : ¬(a * b).toNat < a.toNat := hnot.1
        rw [hsize] at hle
        exact Nat.le_zero.mp (Nat.le_of_not_lt hle)
      have hnull : H.calloc a b = .ok (0, H) := by
        have hzero : H.malloc (a * b) = .ok (0, H) := if_pos hsize
        unfold calloc
        dsimp only
        rw [if_neg hguard, hzero, ok_bind]
        rfl
      rw [hnull, ha]
      refine iff_of_true (fun hne => absurd rfl hne) (.inl ?_)
      show 0 * b.toNat ≤ _
      rw [Nat.zero_mul]
      exact Nat.zero_le _
    · obtain ⟨hno, H', hcalloc, -, -⟩ | ⟨hroom, c, hlow, hhigh, hcases⟩ := calloc_spec h hguard hsize
      · rw [hcalloc]
        exact iff_of_true (fun hne => absurd rfl hne) (.inr hno)
      · rw [or_iff_left hroom]
        by_cases hfits : (a * b).toNat ≤ c.room
        · rw [if_pos hfits] at hcases
          obtain ⟨p, H', hcalloc, hne, -, hc, hcell, hinv, hbytes⟩ := hcases
          have hinv₀ := hinv 0 (Nat.zero_le _)
          have husable := hinv₀.cells.usable_iff hc hcell (a.toNat * b.toNat)
          have hbelow := (le_room_iff hlow hhigh).mp hfits
          obtain ⟨-, hend⟩ := (hinv₀.cells.header c hc).valid.cell_within hcell
          have htop := (hinv₀.cells.header c hc).valid.high
          rw [hcalloc]
          constructor
          · intro hall
            have hle := husable.mp (hall hne).1
            omega
          · intro hle _
            have heq : (a * b).toNat = a.toNat * b.toNat := by omega
            refine ⟨husable.mpr (heq ▸ hfits), fun k hk => hbytes _ ?_⟩
            have hk' : (BitVec.ofNat 32 k).toNat = k := by
              rw [BitVec.toNat_ofNat, Nat.mod_eq_of_lt (by omega)]
            rw [BitVec.add_comm, BitVec.add_sub_cancel, BitVec.lt_def, hk', heq]
            exact hk
        · rw [if_neg hfits] at hcases
          rw [hcases]
          apply iff_of_false id
          have habove := (not_congr (le_room_iff hlow hhigh)).mp hfits
          omega

theorem reallocHonoured_iff (h : H.Inv foreign live) {oldBlock : Word}
    (hold : oldBlock = 0 ∨ ∃ lb ∈ live, lb.addr = oldBlock)
    (newSize : Word) : H.ReallocHonoured oldBlock newSize ↔ newSize.toNat ≤ 2 ^ 32 - 12 ∨ H.NoRoom newSize := by
  unfold ReallocHonoured
  by_cases hsize : newSize = 0
  · have hnull : Honoured (H.realloc oldBlock newSize) fun p H' =>
        H'.Usable p newSize.toNat ∧ (oldBlock ≠ 0 → ∀ room, H.blockSize oldBlock = .ok room →
          ∀ k < min newSize.toNat room.toNat,
            H'.bytes (p + BitVec.ofNat 32 k) = H.bytes (oldBlock + BitVec.ofNat 32 k)) := by
      rcases hold with rfl | ⟨lb, hlb, rfl⟩
      · have hfree : H.free 0 = .ok H := if_pos rfl
        unfold realloc
        rw [if_pos hsize, hfree, ok_bind]
        exact fun hne => absurd rfl hne
      · obtain ⟨H', hfree, -⟩ := free_spec h hlb
        unfold realloc
        rw [if_pos hsize, hfree, ok_bind]
        exact fun hne => absurd rfl hne
    refine iff_of_true hnull (.inl ?_)
    rw [hsize]
    exact Nat.zero_le _
  · rcases hold with rfl | ⟨lb, hlb, rfl⟩
    · rw [realloc_null H hsize, ← mallocHonoured_iff h newSize]
      apply honoured_congr
      intro p H'
      exact and_iff_left fun hne => absurd rfl hne
    · obtain ⟨hno, H', hrealloc, -, -⟩ | ⟨hroom, c, room, hblock, hlow, hhigh, hcases⟩ := realloc_spec h hlb hsize
      · rw [hrealloc]
        exact iff_of_true (fun hne => absurd rfl hne) (.inr hno)
      · rw [or_iff_left hroom, ← le_room_iff hlow hhigh]
        split at hcases
        · obtain ⟨p, H', hrealloc, hne, hc, hcell, -, -, hinv, hbytes⟩ := hcases
          rw [hrealloc, ← (hinv 0 (Nat.zero_le _)).cells.usable_iff hc hcell]
          constructor
          · exact fun hall => (hall hne).1
          · intro husable _
            refine ⟨husable, fun _ room' hblock' => ?_⟩
            obtain rfl : room = room' := Except.ok.inj (hblock.symm.trans hblock')
            exact hbytes
        · case isFalse hover =>
          rw [hcases]
          exact iff_of_false id (by omega)

/-! ## Runs -/

/-- A call, a store of the program, or a call of the page allocator by others. -/
inductive Op where
  | malloc (size : Word)
  | calloc (a b : Word)
  | realloc (oldBlock newSize : Word)
  | free (p : Word)
  | store (x : Word) (v : BitVec 8)
  | getPages (flags : PallocFlags) (cnt : Word)
  | freePages (g : Grant)

/-- No size near the top, and no product that wraps around and passes the check. -/
def Op.Fits : Op → Prop
  | .malloc size => size.toNat ≤ 2 ^ 32 - 12
  | .calloc a b => a.toNat * b.toNat ≤ 2 ^ 32 - 12 ∨ a * b < a ∨ a * b < b
  | .realloc _ newSize => newSize.toNat ≤ 2 ^ 32 - 12
  | _ => True

/-- The heap, the pages that others have, and the live blocks. -/
abbrev Config := Heap × List Grant × List LiveBlock

/-- The live blocks behind a call that returns a block or a null pointer. -/
def grow (live : List LiveBlock) (p : Word) (size : ℕ) : List LiveBlock := if p = 0 then live else ⟨p, size⟩ :: live

/-- A call that returns.  What is freed or resized is live, and a program stores to its live blocks, or to memory that
is not the heap's. -/
inductive Step : Config → Op → Config → Prop
  | malloc {H H' : Heap} {foreign : List Grant} {live : List LiveBlock} {size p : Word}
      (h : H.malloc size = .ok (p, H')) :
      Step (H, foreign, live) (.malloc size) (H', foreign, grow live p size.toNat)
  | calloc {H H' : Heap} {foreign : List Grant} {live : List LiveBlock} {a b p : Word}
      (h : H.calloc a b = .ok (p, H')) :
      Step (H, foreign, live) (.calloc a b) (H', foreign, grow live p (a.toNat * b.toNat))
  | reallocNull {H H' : Heap} {foreign : List Grant} {live : List LiveBlock} {newSize p : Word}
      (h : H.realloc 0 newSize = .ok (p, H')) :
      Step (H, foreign, live) (.realloc 0 newSize) (H', foreign, grow live p newSize.toNat)
  | realloc {H H' : Heap} {foreign : List Grant} {live : List LiveBlock} {newSize p : Word}
      {lb : LiveBlock} (hlb : lb ∈ live) (h : H.realloc lb.addr newSize = .ok (p, H')) :
      Step (H, foreign, live) (.realloc lb.addr newSize)
        (H', foreign, if p = 0 ∧ newSize ≠ 0 then live else grow (live.erase lb) p newSize.toNat)
  | free {H H' : Heap} {foreign : List Grant} {live : List LiveBlock} {lb : LiveBlock}
      (hlb : lb ∈ live) (h : H.free lb.addr = .ok H') :
      Step (H, foreign, live) (.free lb.addr) (H', foreign, live.erase lb)
  | store {H : Heap} {foreign : List Grant} {live : List LiveBlock} {x : Word} {v : BitVec 8}
      (hx : (∃ lb ∈ live, x.toNat ∈ Set.Ico lb.addr.toNat (lb.addr.toNat + lb.size)) ∨
        ∀ c ∈ H.own, x.toNat / 4096 ∉ c.grant.pageSet) :
      Step (H, foreign, live) (.store x v) ({ H with bytes := Function.update H.bytes x v }, foreign, live)
  | getPages {H : Heap} {foreign : List Grant} {live : List LiveBlock} {flags : PallocFlags}
      {cnt pages : Word} {pools : Pools} (h : H.pools.pallocGetMultiple flags cnt = some (pages, pools)) :
      Step (H, foreign, live) (.getPages flags cnt)
        ({ H with pools }, if pages = 0 then foreign else ⟨flags.user, pages, cnt⟩ :: foreign, live)
  | freePages {H : Heap} {foreign : List Grant} {live : List LiveBlock} {g : Grant} {pools : Pools}
      (hg : g ∈ foreign) (h : H.pools.pallocFreeMultiple g.pages g.cnt = some pools) :
      Step (H, foreign, live) (.freePages g) ({ H with pools }, foreign.erase g, live)

theorem grow_of_ne (live : List LiveBlock) (hne : p ≠ 0) (size : ℕ) : grow live p size = ⟨p, size⟩ :: live := if_neg hne

theorem grow_zero (live : List LiveBlock) (size : ℕ) : grow live 0 size = live := if_pos rfl

/-- `malloc` in a run. -/
theorem Inv.malloc {size : Word} (h : H.Inv foreign live) (hfits : size.toNat ≤ 2 ^ 32 - 12)
    (hcall : H.malloc size = .ok (p, H')) : H'.Inv foreign (grow live p size.toNat) ∧ H.Returns H' := by
  by_cases hsize : size = 0
  · have hzero : H.malloc size = .ok (0, H) := if_pos hsize
    obtain ⟨rfl, rfl⟩ := Prod.mk.inj (Except.ok.inj (hzero.symm.trans hcall))
    rw [grow_zero]
    exact ⟨h, fun c hc hgone => absurd hc hgone⟩
  · obtain ⟨-, H₁, hmalloc, hext, hinv⟩ | ⟨-, p₁, H₁, hmalloc, hne, hext, c, -, -, hlow, -, hinv⟩ := malloc_spec h hsize
    · obtain ⟨rfl, rfl⟩ := Prod.mk.inj (Except.ok.inj (hmalloc.symm.trans hcall))
      rw [grow_zero]
      exact ⟨hinv, hinv.returns hext.own (List.Subset.refl _)⟩
    · obtain ⟨rfl, rfl⟩ := Prod.mk.inj (Except.ok.inj (hmalloc.symm.trans hcall))
      rw [grow_of_ne live hne]
      have hinv' := hinv _ (hlow hfits)
      exact ⟨hinv', hinv'.returns hext.own (List.Subset.refl _)⟩

/-- `calloc` in a run. -/
theorem Inv.calloc {a b : Word} (h : H.Inv foreign live)
    (hfits : a.toNat * b.toNat ≤ 2 ^ 32 - 12 ∨ a * b < a ∨ a * b < b) (hcall : H.calloc a b = .ok (p, H')) :
    H'.Inv foreign (grow live p (a.toNat * b.toNat)) ∧ H.Returns H' := by
  have hnull : H.calloc a b = .ok (0, H) → H'.Inv foreign (grow live p (a.toNat * b.toNat)) ∧ H.Returns H' := by
    intro hzero
    obtain ⟨rfl, rfl⟩ := Prod.mk.inj (Except.ok.inj (hzero.symm.trans hcall))
    rw [grow_zero]
    exact ⟨h, fun c hc hgone => absurd hc hgone⟩
  by_cases hguard : a * b < a ∨ a * b < b
  · exact hnull (if_pos hguard)
  · have hprod := hfits.resolve_right hguard
    have heq : (a * b).toNat = a.toNat * b.toNat := by
      rw [BitVec.toNat_mul]
      exact Nat.mod_eq_of_lt (by omega)
    by_cases hsize : a * b = 0
    · apply hnull
      have hzero : H.malloc (a * b) = .ok (0, H) := if_pos hsize
      unfold Heap.calloc
      dsimp only
      rw [if_neg hguard, hzero, ok_bind]
      rfl
    · obtain ⟨-, H₁, hcalloc, hext, hinv⟩ | ⟨-, c, hlow, -, hcases⟩ := calloc_spec h hguard hsize
      · obtain ⟨rfl, rfl⟩ := Prod.mk.inj (Except.ok.inj (hcalloc.symm.trans hcall))
        rw [grow_zero]
        exact ⟨hinv, hinv.returns hext.own (List.Subset.refl _)⟩
      · rw [heq] at hlow hcases
        rw [if_pos (hlow hprod)] at hcases
        obtain ⟨p₁, H₁, hcalloc, hne, hext, -, -, hinv, -⟩ := hcases
        obtain ⟨rfl, rfl⟩ := Prod.mk.inj (Except.ok.inj (hcalloc.symm.trans hcall))
        rw [grow_of_ne live hne]
        have hinv' := hinv _ (hlow hprod)
        exact ⟨hinv', hinv'.returns hext.own (List.Subset.refl _)⟩

theorem Inv.free {lb : LiveBlock} (h : H.Inv foreign live) (hlb : lb ∈ live) (hcall : H.free lb.addr = .ok H') :
    H'.Inv foreign (live.erase lb) ∧ H.Returns H' := by
  obtain ⟨H₁, hfree, hinv, -, hown⟩ := free_spec h hlb
  obtain rfl := Except.ok.inj (hfree.symm.trans hcall)
  exact ⟨hinv, h.returns (List.Subset.refl _) hown⟩

/-- `realloc` of a live block in a run. -/
theorem Inv.realloc {newSize : Word} {lb : LiveBlock} (h : H.Inv foreign live) (hfits : newSize.toNat ≤ 2 ^ 32 - 12)
    (hlb : lb ∈ live) (hcall : H.realloc lb.addr newSize = .ok (p, H')) :
    H'.Inv foreign (if p = 0 ∧ newSize ≠ 0 then live else grow (live.erase lb) p newSize.toNat) ∧ H.Returns H' := by
  by_cases hsize : newSize = 0
  · obtain ⟨H₁, hfree, hinv, -, hown⟩ := free_spec h hlb
    have hzero : H.realloc lb.addr newSize = .ok (0, H₁) := by
      unfold Heap.realloc
      rw [if_pos hsize, hfree, ok_bind]
      rfl
    obtain ⟨rfl, rfl⟩ := Prod.mk.inj (Except.ok.inj (hzero.symm.trans hcall))
    rw [if_neg fun hboth => hboth.2 hsize, grow_zero]
    exact ⟨hinv, h.returns (List.Subset.refl _) hown⟩
  · obtain ⟨-, H₁, hrealloc, hext, hinv⟩ | ⟨-, c, room, -, hlow, -, hcases⟩ := realloc_spec h hlb hsize
    · obtain ⟨rfl, rfl⟩ := Prod.mk.inj (Except.ok.inj (hrealloc.symm.trans hcall))
      rw [if_pos ⟨rfl, hsize⟩]
      exact ⟨hinv, hinv.returns hext.own (List.Subset.refl _)⟩
    · rw [if_pos ((Nat.min_le_left _ _).trans (hlow hfits))] at hcases
      obtain ⟨p₁, H₁, hrealloc, hne, -, -, -, hreturns, hinv, -⟩ := hcases
      obtain ⟨rfl, rfl⟩ := Prod.mk.inj (Except.ok.inj (hrealloc.symm.trans hcall))
      rw [if_neg fun hboth => hne hboth.1, grow_of_ne _ hne]
      exact ⟨hinv _ (hlow hfits), hreturns⟩

/-- **The invariant is preserved by every step that fits.** -/
theorem Inv.step {o : Op} {s s' : Config} (h : s.1.Inv s.2.1 s.2.2) (hfits : o.Fits) (hstep : Step s o s') :
    s'.1.Inv s'.2.1 s'.2.2 ∧ s.1.Returns s'.1 := by
  cases hstep with
  | malloc hcall => exact Inv.malloc h hfits hcall
  | calloc hcall => exact Inv.calloc h hfits hcall
  | @reallocNull H H' foreign live newSize p hcall =>
    by_cases hsize : newSize = 0
    · have hfree : H.free 0 = .ok H := if_pos rfl
      have hzero : H.realloc 0 newSize = .ok (0, H) := by
        unfold Heap.realloc
        rw [if_pos hsize, hfree, ok_bind]
        rfl
      obtain ⟨rfl, rfl⟩ := Prod.mk.inj (Except.ok.inj (hzero.symm.trans hcall))
      rw [grow_zero]
      exact ⟨h, fun c hc hgone => absurd hc hgone⟩
    · rw [realloc_null H hsize] at hcall
      exact Inv.malloc h hfits hcall
  | realloc hlb hcall => exact Inv.realloc h hfits hlb hcall
  | free hlb hcall => exact Inv.free h hlb hcall
  | store hx => exact ⟨Inv.congr_bytes h _, fun c hc hgone => absurd hc hgone⟩
  | @getPages H foreign live flags cnt pages pools hcall =>
    refine ⟨⟨?_, h.cells.congr rfl fun _ _ => rfl⟩, fun c hc hgone => absurd hc hgone⟩
    have hpools := h.pools.step (c := (H.pools, H.own.map Chunk.grant ++ foreign)) (.get hcall)
    by_cases hpages : pages = 0
    · rw [if_pos hpages] at hpools ⊢
      exact hpools
    · rw [if_neg hpages] at hpools ⊢
      exact hpools.perm List.perm_middle.symm
  | @freePages H foreign live g pools hg hcall =>
    refine ⟨⟨?_, h.cells.congr rfl fun _ _ => rfl⟩, fun c hc hgone => absurd hc hgone⟩
    have hperm : (H.own.map Chunk.grant ++ foreign).Perm (g :: (H.own.map Chunk.grant ++ foreign.erase g)) :=
      ((List.perm_cons_erase hg).append_left _).trans List.perm_middle
    have hpools := (h.pools.perm hperm).step (c := (H.pools, g :: (H.own.map Chunk.grant ++ foreign.erase g)))
      (.free List.mem_cons_self hcall)
    rw [List.erase_cons_head] at hpools
    exact hpools

/-- The heap after `malloc_init`. -/
def start (pools : Pools) (arenas : Word → Arena) (bytes : Word → BitVec 8)
    (links : DescPtr → List Word → Word → BitVec 8) : Heap :=
  { freeList := fun _ => [], arenas, bytes, links, pools, own := [] }

/-- What a run leads to from the start, all of whose steps satisfy a condition. -/
def Reaches (good : Op → Prop) (s : Config) : Prop :=
  ∃ ax userPageLimit memory pools arenas bytes links ops,
    Palloc.pallocInit (Palloc.initRamPages ax) userPageLimit memory = some pools ∧ (∀ o ∈ ops, good o) ∧
    Trace Step (start pools arenas bytes links, [], []) ops s

theorem start_inv {pools : Pools} (h : pools.Inv []) (arenas : Word → Arena) (bytes : Word → BitVec 8)
    (links : DescPtr → List Word → Word → BitVec 8) : (start pools arenas bytes links).Inv [] [] := by
  refine ⟨h, ?_, .nil, ?_, ?_, ?_, ?_⟩
  all_goals
    intro a ha
  · cases ha
  · cases ha
  · cases ha
  · intro hmem
    cases hmem
  · cases ha

theorem Reaches.inv {s : Config} (h : Reaches Op.Fits s) : s.1.Inv s.2.1 s.2.2 := by
  obtain ⟨ax, userPageLimit, memory, pools, arenas, bytes, links, ops, hinit, hops, hrun⟩ := h
  have hstart : (start pools arenas bytes links).Inv [] [] := start_inv (Pools.pallocInit_inv hinit) arenas bytes links
  exact (hrun.restrict hops).invariant (I := fun s => s.1.Inv s.2.1 s.2.2)
    (fun _ _ _ hs hstep => (hs.step hstep.2 hstep.1).1) hstart

/-! ## A small run -/

/-- The block that a call returns. -/
def blockOf (r : Except Stop (Word × Heap)) : Word :=
  match r with
  | .ok (p, _) => p
  | .error _ => 0

theorem exists_of_blockOf {r : Except Stop (Word × Heap)} (h : blockOf r = p) (hne : p ≠ 0) : ∃ H, r = .ok (p, H) := by
  cases r with
  | error e => exact absurd h.symm hne
  | ok r =>
    obtain ⟨p', H⟩ := r
    exact ⟨H, by rw [← show p' = p from h]⟩

/-- A heap with 127 pages: one of them is given for 4 GB, and the next one is an arena. -/
theorem start_two_megabytes : ∃ H : Heap, (∀ good, Reaches good (H, [], [])) ∧
    (∃ H', H.malloc 0xffffffff = .ok (0xc010100c, H') ∧ ∃ H'', H'.malloc 16 = .ok (0xc010200c, H'')) ∧
    ∃ H', H.malloc 0x20001 = .ok (0xc010100c, H') := by
  have hrun : ((Palloc.pallocInit (Palloc.initRamPages 1024) 0xffffffff fun _ => 0).map fun pools =>
      let H := start pools (fun _ => ⟨0, none, 0⟩) (fun _ => 0) fun _ _ _ => 0
      (blockOf (H.malloc 0xffffffff), blockOf (H.malloc 0xffffffff >>= fun r => r.2.malloc 16),
        blockOf (H.malloc 0x20001))) = some (0xc010100c, 0xc010200c, 0xc010100c) := by decide +kernel
  obtain ⟨pools, hinit, hblocks⟩ := Option.map_eq_some_iff.mp hrun
  obtain ⟨hfirst, hblocks⟩ := Prod.mk.inj hblocks
  obtain ⟨hsecond, hthird⟩ := Prod.mk.inj hblocks
  obtain ⟨H', hfirst⟩ := exists_of_blockOf hfirst (by decide)
  rw [hfirst, ok_bind] at hsecond
  refine ⟨start pools (fun _ => ⟨0, none, 0⟩) (fun _ => 0) fun _ _ _ => 0, fun good => ?_,
    ⟨H', hfirst, exists_of_blockOf hsecond (by decide)⟩, exists_of_blockOf hthird (by decide)⟩
  refine ⟨1024, 0xffffffff, fun _ => 0, pools, _, _, _, [], hinit, ?_, .nil _⟩
  intro o ho
  cases ho

theorem Inv.not_noRoom {size : Word} (h : H.Inv foreign live) (hcall : H.malloc size = .ok (p, H')) (hne : p ≠ 0)
    (hsize : size ≠ 0) : ¬H.NoRoom size := by
  obtain ⟨-, H₁, hmalloc, -, -⟩ | ⟨hroom, -⟩ := malloc_spec h hsize
  · exact absurd (Prod.mk.inj (Except.ok.inj (hcall.symm.trans hmalloc))).1 hne
  · exact hroom

/-! ## The size of the blocks -/

/-- **A block has the size that was asked for**, in every state that calls which fit lead to, exactly if the size is not
near the top, the product of `calloc` is not or is rejected, or there is no memory. -/
theorem allocation_honoured_iff (s : Config) (h : Reaches Op.Fits s) :
    (∀ size, s.1.MallocHonoured size ↔ size.toNat ≤ 2 ^ 32 - 12 ∨ s.1.NoRoom size) ∧
      (∀ a b, s.1.CallocHonoured a b ↔
        a.toNat * b.toNat ≤ 2 ^ 32 - 12 ∨ a * b < a ∨ a * b < b ∨ s.1.NoRoom (a * b)) ∧
      ∀ oldBlock newSize, (oldBlock = 0 ∨ ∃ lb ∈ s.2.2, lb.addr = oldBlock) →
        (s.1.ReallocHonoured oldBlock newSize ↔ newSize.toNat ≤ 2 ^ 32 - 12 ∨ s.1.NoRoom newSize) := by
  have hinv := h.inv
  refine ⟨mallocHonoured_iff hinv, callocHonoured_iff hinv, fun oldBlock newSize hold => ?_⟩
  exact reallocHonoured_iff hinv hold newSize

theorem allocation_honoured_two_megabytes : ∃ H : Heap, Reaches Op.Fits (H, [], []) ∧ H.MallocHonoured 100 ∧
    H.CallocHonoured 3 5 ∧ H.ReallocHonoured 0 5000 := by
  obtain ⟨H, hreach, -, -⟩ := start_two_megabytes
  obtain ⟨hmalloc, hcalloc, hrealloc⟩ := allocation_honoured_iff (H, [], []) (hreach Op.Fits)
  exact ⟨H, hreach Op.Fits, (hmalloc 100).mpr (.inl (by decide)), (hcalloc 3 5).mpr (.inl (by decide)),
    (hrealloc 0 5000 (.inl rfl)).mpr (.inl (by decide))⟩

/-- A page for 4 GB, and 33 pages for a product of more than that. -/
theorem allocation_not_honoured : ∃ H : Heap, Reaches (fun _ => True) (H, [], []) ∧ ¬H.MallocHonoured 0xffffffff ∧
    ¬H.CallocHonoured 0x10001 0x10001 ∧ ¬H.ReallocHonoured 0 0xffffffff := by
  obtain ⟨H, hreach, ⟨H', hfirst, -⟩, H'', hthird⟩ := start_two_megabytes
  have hinv : H.Inv [] [] := (hreach Op.Fits).inv
  have hroom := hinv.not_noRoom hfirst (by decide) (by decide)
  have hroom' := hinv.not_noRoom hthird (by decide) (by decide)
  have hbig : ¬(0xffffffff : Word).toNat ≤ 2 ^ 32 - 12 := by decide
  refine ⟨H, hreach _, ?_, ?_, ?_⟩
  · rw [mallocHonoured_iff hinv]
    exact not_or.mpr ⟨hbig, hroom⟩
  · rw [callocHonoured_iff hinv]
    exact not_or.mpr ⟨by decide, not_or.mpr ⟨by decide, not_or.mpr ⟨by decide, hroom'⟩⟩⟩
  · rw [reallocHonoured_iff hinv (.inl rfl)]
    exact not_or.mpr ⟨hbig, hroom⟩

/-! ## Blocks that are apart -/

/-- The bytes that were asked for. -/
def blockBytes (lb : LiveBlock) : Set ℕ := Set.Ico lb.addr.toNat (lb.addr.toNat + lb.size)

/-- A live block is within its cell. -/
theorem blockBytes_subset {lb : LiveBlock} (hsize : lb.size ≤ c.room) : blockBytes lb ⊆ c.extent lb.addr :=
  Set.Ico_subset_Ico_right (Nat.add_le_add_left hsize _)

theorem Inv.blocks_apart (h : H.Inv foreign live) :
    live.Pairwise fun lb lb' => Disjoint (blockBytes lb) (blockBytes lb') := by
  have hnodup : live.Pairwise fun lb lb' => lb.addr ≠ lb'.addr := List.pairwise_map.mp h.cells.nodup_live
  apply hnodup.imp_of_mem
  intro lb lb' hlb hlb' hne
  obtain ⟨c, hc, hcell, hsize⟩ := h.cells.live_cell hlb
  obtain ⟨c', hc', hcell', hsize'⟩ := h.cells.live_cell hlb'
  exact (h.cells.blocks_apart hc hc' hcell hcell' hne).mono (blockBytes_subset hsize) (blockBytes_subset hsize')

/-- No live block has a byte of a header. -/
theorem Inv.header_apart (h : H.Inv foreign live) {lb : LiveBlock} (hlb : lb ∈ live) (hc : c ∈ H.own) :
    Disjoint (blockBytes lb) (Set.Ico c.pages.toNat (c.pages.toNat + 12)) := by
  obtain ⟨c', hc', hcell, hsize⟩ := h.cells.live_cell hlb
  have hvalid := (h.cells.header c hc).valid
  apply Set.disjoint_left.mpr
  intro a ha ha'
  have hin := blockBytes_subset hsize ha
  rw [Set.mem_Ico] at ha'
  by_cases heq : c' = c
  · rw [heq, Chunk.extent, Set.mem_Ico] at hin
    have hlow := (hvalid.cell_within (heq ▸ hcell)).1
    omega
  · have hapart := h.cells.apart_of_ne hc' hc heq
    apply Set.disjoint_left.mp hapart (h.cells.extent_within hc' hcell a hin)
    have haligned := hvalid.aligned
    have hpos := hvalid.pos
    refine Set.mem_Ico.mpr ⟨?_, ?_⟩
    · show c.pages.toNat / 4096 ≤ a / 4096
      omega
    · show a / 4096 < c.pages.toNat / 4096 + c.cnt.toNat
      omega

/-- The free blocks of an arena. -/
theorem Inv.count_free (h : H.Inv foreign live) (hc : c ∈ H.own) {i : DescPtr} (hdesc : c.desc = some i) :
    (H.arenas c.pages).freeCnt.toNat = ((H.freeList i).filter (· ∈ c.cells)).length := by
  have hcnt := h.cells.freeCnt c hc
  unfold freeBlocks at hcnt
  rw [hdesc] at hcnt
  rw [hcnt]
  have hcarved := h.cells.carved c hc
  rw [hdesc] at hcarved
  apply congrArg List.length
  apply List.filter_congr
  intro b hb
  rw [decide_eq_decide]
  constructor
  · exact fun hpage => hcarved.mem_cells_of_free hb hpage
  · exact fun hcell => ((h.cells.header c hc).valid.pgRoundDown_cell hcell).1

/-- The cells of an arena that has gone are neither live nor free. -/
theorem Inv.gone (h : H'.Inv foreign live) (hvalid : c.Valid) (hgone : ∀ c' ∈ H'.own, c'.pages ≠ c.pages) {b : Word}
    (hb : b ∈ c.cells) : b ∉ live.map (·.addr) ∧ ∀ i, b ∉ H'.freeList i := by
  have hpage := (hvalid.pgRoundDown_cell hb).1
  constructor
  · intro hlive
    obtain ⟨lb, hlb, rfl⟩ := List.mem_map.mp hlive
    obtain ⟨c', hc', hpage', -⟩ := h.cells.live_of lb hlb
    exact hgone c' hc' (hpage'.symm.trans hpage)
  · intro i hfree
    obtain ⟨c', hc', -, hpage'⟩ := h.cells.free_of i b hfree
    exact hgone c' hc' (hpage'.symm.trans hpage)

/-- **The heap**, in every state that calls which fit lead to: the live blocks are apart from each other and from the
headers, a small block is live or in its free list, once, an arena counts its free blocks, and it goes only when none of
its blocks is live or free; a live block can be freed. -/
theorem heap_disjoint (H : Heap) (foreign : List Grant) (live : List LiveBlock) (h : Reaches Op.Fits (H, foreign, live)) :
    live.Pairwise (fun lb lb' => Disjoint (blockBytes lb) (blockBytes lb')) ∧
      (∀ lb ∈ live, ∀ c ∈ H.own, Disjoint (blockBytes lb) (Set.Ico c.pages.toNat (c.pages.toNat + 12))) ∧
      (∀ c ∈ H.own, ∀ i, c.desc = some i →
        (∀ b ∈ c.cells, (H.freeList i).count b + (live.map (·.addr)).count b = 1) ∧
          (H.arenas c.pages).freeCnt.toNat = ((H.freeList i).filter (· ∈ c.cells)).length) ∧
      (∀ o s', o.Fits → Step (H, foreign, live) o s' → ∀ c ∈ H.own, c ∉ s'.1.own →
        ∀ b ∈ c.cells, b ∉ s'.2.2.map (·.addr) ∧ ∀ i, b ∉ s'.1.freeList i) ∧
      ∀ lb ∈ live, ∃ H', H.free lb.addr = .ok H' := by
  have hinv : H.Inv foreign live := h.inv
  refine ⟨hinv.blocks_apart, fun lb hlb c hc => hinv.header_apart hlb hc, ?_, ?_, ?_⟩
  · intro c hc i hdesc
    refine ⟨fun b hb => ?_, hinv.count_free hc hdesc⟩
    have hcarved := hinv.cells.carved c hc
    have hvalid := (hinv.cells.header c hc).valid
    rw [hdesc] at hcarved
    exact hcarved.count hvalid.nodup_cells hb (hvalid.pgRoundDown_cell hb).1
  · intro o s' hfits hstep c hc hgone b hb
    have hinv₀ : (H, foreign, live).1.Inv (H, foreign, live).2.1 (H, foreign, live).2.2 := hinv
    obtain ⟨hinv', hreturns⟩ := Inv.step hinv₀ hfits hstep
    exact Inv.gone hinv' (hinv.cells.header c hc).valid (hreturns c hc hgone) hb
  · intro lb hlb
    obtain ⟨H', hfree, -⟩ := free_spec hinv hlb
    exact ⟨H', hfree⟩

theorem heap_disjoint_two_megabytes : ∃ (H : Heap) (lb : LiveBlock), Reaches Op.Fits (H, [], [lb]) ∧
    ∃ H', H.free lb.addr = .ok H' := by
  obtain ⟨H, hreach, -, H', hblock⟩ := start_two_megabytes
  obtain ⟨ax, userPageLimit, memory, pools, arenas, bytes, links, ops, hinit, hops, hrun⟩ := hreach Op.Fits
  have hstep : Step (H, [], []) (.malloc 0x20001) (H', [], [⟨0xc010100c, (0x20001 : Word).toNat⟩]) := .malloc hblock
  have hreach' : Reaches Op.Fits (H', [], [⟨0xc010100c, (0x20001 : Word).toNat⟩]) := by
    refine ⟨ax, userPageLimit, memory, pools, arenas, bytes, links, ops ++ [.malloc 0x20001], hinit, ?_,
      hrun.append (.single hstep)⟩
    intro o ho
    rcases List.mem_append.mp ho with ho | ho
    · exact hops o ho
    · rw [List.mem_singleton.mp ho]
      show (0x20001 : Word).toNat ≤ 2 ^ 32 - 12
      decide
  obtain ⟨-, -, -, -, hfree⟩ := heap_disjoint H' [] _ hreach'
  exact ⟨H', _, hreach', hfree _ List.mem_cons_self⟩

/-- Behind a call for 4 GB, the next block is in it. -/
theorem heap_not_disjoint : ∃ s : Config, Reaches (fun _ => True) s ∧
    ¬s.2.2.Pairwise fun lb lb' => Disjoint (blockBytes lb) (blockBytes lb') := by
  obtain ⟨H, hreach, ⟨H', hfirst, H'', hsecond⟩, -⟩ := start_two_megabytes
  obtain ⟨ax, userPageLimit, memory, pools, arenas, bytes, links, ops, hinit, -, hrun⟩ := hreach fun _ => True
  have hstep : Step (H, [], []) (.malloc 0xffffffff) (H', [], [⟨0xc010100c, (0xffffffff : Word).toNat⟩]) :=
    .malloc hfirst
  have hstep' : Step (H', [], [⟨0xc010100c, (0xffffffff : Word).toNat⟩]) (.malloc 16)
      (H'', [], [⟨0xc010200c, (16 : Word).toNat⟩, ⟨0xc010100c, (0xffffffff : Word).toNat⟩]) := .malloc hsecond
  refine ⟨_, ⟨ax, userPageLimit, memory, pools, arenas, bytes, links, _, hinit, fun _ _ => trivial,
    (hrun.append (.single hstep)).append (.single hstep')⟩, fun hapart => ?_⟩
  have hdisj := (List.pairwise_cons.mp hapart).1 _ List.mem_cons_self
  have hbyte : ∀ lb : LiveBlock, lb.addr.toNat ≤ 0xc010200c → 0xc010200c < lb.addr.toNat + lb.size →
      0xc010200c ∈ blockBytes lb := fun lb hlow hhigh => Set.mem_Ico.mpr ⟨hlow, hhigh⟩
  exact Set.disjoint_left.mp hdisj (hbyte _ (by decide) (by decide)) (hbyte _ (by decide) (by decide))

end Heap

end Pintos.Threads.Malloc
