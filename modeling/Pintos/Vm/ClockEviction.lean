import Pintos.Library.Circular
import Pintos.Userprog.Directories
import Pintos.Vm.Swap

/-!
# The clock

`frame_get_multiple` of `vm/frame.c`.  With no frame free, the clock hand passes over the frames whose occupants have
been accessed, clears their accessed bits, and stops at the first one that has not been.

The frames are of pages of many processes.  The accessed bit of an occupant is in the page directory of its own process,
and `pagedir_clear_page` is called for that directory; but the sweep reads and clears the bits in the page directory of
the *running* process, at the address that the occupant has in another.

* `Evicts` is what the clock is for: it goes by the occupants' own bits.
* `Passes` is the test that the hand makes, and `sweep_spec` where it stops.
* `clock_respects_owners_iff`: the two agree exactly if every occupant up to the victim is the running process's own.
-/

namespace Pintos.Vm

open Filesys (Bitmap)
open Threads (Word pgOfs isUserVaddr)
open Userprog.Pagedir

/-! ## The code -/

/-- `enum page_status` -/
inductive PageStatus
  | allZero
  | inFrameTable
  | inSwapTable
  | inFilesys

/-- `frame_table`, whose frames have their numbers for addresses, with the pages and the swap table; the members `addr`,
`pagedir` and `status` of the pages; the page directories; `free_frames`, `clock_ptr` and `clock_max`. -/
structure Frames where
  swap : Swap
  addr : ℕ → Word
  pagedir : ℕ → Word
  status : ℕ → PageStatus
  memory : Memory
  freeFrames : Bitmap
  clockPtr : ℕ
  clockMax : ℕ

namespace Frames

/-- `clock_ptr++`, with the test that follows. -/
def advance (s : Frames) : Frames :=
  { s with clockPtr := if s.clockPtr + 1 ≥ s.clockMax then 0 else s.clockPtr + 1 }

/-- The loop of `frame_get_multiple`; `pd` is the page directory of the running process. -/
def sweep (pd : Word) : ℕ → Frames → Option Frames
  | 0, _ => none
  | fuel + 1, s => do
    let p ← (s.swap.frame s.clockPtr).pageOccupant
    if ← pagedirIsAccessed s.memory pd (s.addr p) then
      let memory ← pagedirSetAccessed s.memory pd (s.addr p) false
      sweep pd fuel { s with memory := memory }.advance
    else
      return s

/-- What `frame_get_multiple` does with the frame at which the loop ends. -/
def evict (s : Frames) : Option (Frames × ℕ) := do
  let p ← (s.swap.frame s.clockPtr).pageOccupant
  let swap ← s.swap.swapInsert p
  let pg ← swap.page p
  let swap := swap.setPage p (some { pg with frame := none })
  let s := { s with swap := swap, status := Function.update s.status p .inSwapTable }
  let memory ← pagedirClearPage s.memory (s.pagedir p) (s.addr p)
  let s := { s with memory := memory }
  return (s.advance, s.clockPtr)

/-- `frame_get_multiple`; `palloc` is the zeroed page that `palloc_get_page` would return, and `none` its panic. -/
def frameGetMultiple (fuel : ℕ) (s : Frames) (pd : Word) (palloc : Option ℕ) (pageCnt : ℕ) : Option (Frames × ℕ) :=
  match s.freeFrames.scanAndFlip 0 pageCnt false with
  | (some fnum, freeFrames) => do
    let kpage ← palloc
    let swap := { s.swap with
      frame := Function.update s.swap.frame fnum { s.swap.frame fnum with kpage := kpage }
      ram := Function.update s.swap.ram kpage Block.zero }
    return ({ s with swap := swap, freeFrames := freeFrames }, fnum)
  | (none, _) => do
    let s ← sweep pd fuel s
    s.evict

/-! ## The frame table -/

/-- The frame that the hand comes to after `j` steps. -/
def frameAt (s : Frames) (j : ℕ) : ℕ := (s.clockPtr + j) % s.clockMax

/-- The page in it. -/
def occupant (s : Frames) (j : ℕ) : ℕ := ((s.swap.frame (s.frameAt j)).pageOccupant).getD 0

end Frames

/-- Every frame is occupied, by a page of one of the processes with the page directories `pds`. -/
structure AllOccupied (s : Frames) (pds : Set Word) (table : Word → ℕ → Option Word) : Prop where
  clock : s.clockPtr < s.clockMax
  full : ∀ i < s.freeFrames.bitCnt, s.freeFrames.bits i = true
  occupied : ∀ i < s.clockMax, ∃ p pg, (s.swap.frame i).pageOccupant = some p ∧ s.swap.page p = some pg ∧
    pg.frame = some i
  addresses : ∀ i < s.clockMax, ∀ p, (s.swap.frame i).pageOccupant = some p →
    pgOfs (s.addr p) = 0 ∧ isUserVaddr (s.addr p) = true ∧ s.pagedir p ∈ pds
  distinct : ∀ i < s.clockMax, ∀ j < s.clockMax, ∀ p q, (s.swap.frame i).pageOccupant = some p →
    (s.swap.frame j).pageOccupant = some q → s.pagedir p = s.pagedir q → s.addr p = s.addr q → i = j
  directories : Directories s.memory pds table
  slots : s.swap.usedBlocks.bitCnt = 1024

/-- The page for an address is mapped. -/
def Present (m : Memory) (pd va : Word) : Prop := entry m pd va &&& pteP ≠ 0

/-- The accessed bits in `cleared` and the present bits in `unmapped` have been cleared in the page directories, and no
others. -/
structure Clears (pds : Set Word) (cleared unmapped : Word → Word → Prop) (m m' : Memory) : Prop where
  accessed : ∀ pd ∈ pds, ∀ va, isUserVaddr va = true →
    (Accessed m' pd va ↔ Accessed m pd va ∧ ¬cleared pd va)
  present : ∀ pd ∈ pds, ∀ va, isUserVaddr va = true →
    (Present m' pd va ↔ Present m pd va ∧ ¬unmapped pd va)
  rest : ∀ pd ∈ pds, ∀ va, isUserVaddr va = true →
    entry m' pd va &&& ~~~(pteA ||| pteP) = entry m pd va &&& ~~~(pteA ||| pteP)

namespace Frames

/-- The accessed bit of an occupant in the page directory of its own process. -/
def OwnAccessed (s : Frames) (j : ℕ) : Prop := Accessed s.memory (s.pagedir (s.occupant j)) (s.addr (s.occupant j))

/-- The address is in the occupant's page, in the page directory `pd`. -/
def Holds (s : Frames) (pd' : Word) (j : ℕ) (pd va : Word) : Prop :=
  pd = pd' ∧ pageNo va = pageNo (s.addr (s.occupant j))

/-- The address is in the page of an occupant, in its own directory. -/
def Own (s : Frames) (j : ℕ) (pd va : Word) : Prop := s.Holds (s.pagedir (s.occupant j)) j pd va

/-- The page is in a slot that was free, which holds the bytes that its frame had, and it has no frame any more. -/
def SwappedOut (s s' : Swap) (f p : ℕ) : Prop :=
  ∃ slot pg, s.usedBlocks.bits slot = false ∧ s'.usedBlocks.bits slot = true ∧
    s'.page p = some pg ∧ pg.frame = none ∧ pg.blockSector = (slot : ℤ) ∧
    (∀ i < 8, s'.swapTable (slotSector slot i) = sectorAt (s.ram (s.frame f).kpage) i) ∧
    ∀ j, j < slot * 8 ∨ slot * 8 + 8 ≤ j → s'.swapTable j = s.swapTable j

/-- The occupant that is `k` steps from the hand has been evicted, the accessed bits in `cleared` have been cleared, and
its frame is returned. -/
structure EvictsAt (s : Frames) (pds : Set Word) (cleared : Word → Word → Prop) (k : ℕ) (s' : Frames) (f : ℕ) : Prop where
  frame : f = s.frameAt k
  clears : Clears pds cleared (s.Own k) s.memory s'.memory
  swappedOut : SwappedOut s.swap s'.swap f (s.occupant k)
  status : s'.status (s.occupant k) = .inSwapTable

/-- **What the clock is for.**  The first occupant that has not been accessed is evicted, or the first one of all if all
have been; the accessed bits of the occupants before it, in their own page directories, and no others are cleared. -/
def Evicts (s : Frames) (pds : Set Word) (result : Option (Frames × ℕ)) : Prop :=
  ∃ s' f k, result = some (s', f) ∧ k ≤ s.clockMax ∧ (∀ j < k, s.OwnAccessed j) ∧
    (k < s.clockMax → ¬s.OwnAccessed k) ∧ s.EvictsAt pds (fun pd va => ∃ j < k, s.Own j pd va) k s' f

/-- The occupants that the hand should pass over are the running process's own, and the one at which it should stop has
not been accessed at its address in the running process either, unless an occupant before it has that address.  There
is room in the swap table. -/
def RunningOwns (s : Frames) (pd : Word) : Prop :=
  s.swap.Room ∧ ∃ k ≤ s.clockMax, (∀ j < k, s.OwnAccessed j ∧ s.pagedir (s.occupant j) = pd) ∧
    (k < s.clockMax → ¬s.OwnAccessed k ∧
      (Accessed s.memory pd (s.addr (s.occupant k)) → ∃ j < k, s.addr (s.occupant j) = s.addr (s.occupant k)))

end Frames

/-! ## Clearing bits -/

namespace Clears

variable {pds : Set Word} {table : Word → ℕ → Option Word} {c u : Word → Word → Prop} {m m' m'' : Memory}
  {pd va : Word}

theorem refl : Clears pds (fun _ _ => False) (fun _ _ => False) m m := by
  refine ⟨?_, ?_, fun _ _ _ _ => rfl⟩
  · intro pd _ va _
    rw [not_false_iff, and_true]
  · intro pd _ va _
    rw [not_false_iff, and_true]

theorem congr {c' u' : Word → Word → Prop} (h : Clears pds c u m m') (hc : ∀ pd va, c pd va ↔ c' pd va)
    (hu : ∀ pd va, u pd va ↔ u' pd va) : Clears pds c' u' m m' := by
  refine ⟨?_, ?_, h.rest⟩
  · intro pd hpd va huser
    rw [h.accessed pd hpd va huser, hc]
  · intro pd hpd va huser
    rw [h.present pd hpd va huser, hu]

/-- After `pagedir_set_accessed (pd, vpage, false)`. -/
theorem setAccessed (h : Clears pds c u m m') (hset : Changed (· &&& ~~~pteA) pds table pd va m' m'') :
    Clears pds (fun pd' va' => c pd' va' ∨ pd' = pd ∧ pageNo va' = pageNo va) u m m'' := by
  refine ⟨?_, ?_, ?_⟩
  · intro pd' hpd' va' huser
    have hstep : Accessed m'' pd' va' ↔ _ := hset.clears (by decide) hpd' huser
    rw [hstep, not_or, ← and_assoc]
    exact and_congr_left' (h.accessed pd' hpd' va' huser)
  · intro pd' hpd' va' huser
    unfold Present
    rw [hset.keeps (by decide) hpd' huser]
    exact h.present pd' hpd' va' huser
  · intro pd' hpd' va' huser
    rw [hset.keeps (by decide) hpd' huser]
    exact h.rest pd' hpd' va' huser

/-- After `pagedir_clear_page`. -/
theorem clearPage (h : Clears pds c u m m') (hset : Changed (· &&& ~~~pteP) pds table pd va m' m'') :
    Clears pds c (fun pd' va' => u pd' va' ∨ pd' = pd ∧ pageNo va' = pageNo va) m m'' := by
  refine ⟨?_, ?_, ?_⟩
  · intro pd' hpd' va' huser
    unfold Accessed
    rw [hset.keeps (by decide) hpd' huser]
    exact h.accessed pd' hpd' va' huser
  · intro pd' hpd' va' huser
    have hstep : Present m'' pd' va' ↔ _ := hset.clears (by decide) hpd' huser
    rw [hstep, not_or, ← and_assoc]
    exact and_congr_left' (h.present pd' hpd' va' huser)
  · intro pd' hpd' va' huser
    rw [hset.keeps (by decide) hpd' huser]
    exact h.rest pd' hpd' va' huser

end Clears

/-! ## The sweep -/

theorem pageNo_inj {a b : Word} (ha : pgOfs a = 0) (hb : pgOfs b = 0) : pageNo a = pageNo b ↔ a = b := by
  constructor
  · intro h
    have hofs : ∀ {w : Word}, pgOfs w = 0 → w.toNat % 4096 = 0 := by
      intro w hw
      rw [← Threads.toNat_pgOfs, hw]
      rfl
    have hofsa := hofs ha
    have hofsb := hofs hb
    unfold pageNo at h
    apply BitVec.eq_of_toNat_eq
    omega
  · intro h
    rw [h]

variable {s t : Frames} {pds : Set Word} {table : Word → ℕ → Option Word} {pd : Word}

namespace AllOccupied

theorem frameAt_lt (h : AllOccupied s pds table) (j : ℕ) : s.frameAt j < s.clockMax :=
  Nat.mod_lt _ (Nat.zero_lt_of_lt h.clock)

theorem occupant (h : AllOccupied s pds table) (j : ℕ) :
    (s.swap.frame (s.frameAt j)).pageOccupant = some (s.occupant j) ∧
      ∃ pg, s.swap.page (s.occupant j) = some pg ∧ pg.frame = some (s.frameAt j) := by
  obtain ⟨p, pg, hp, hpg, hf⟩ := h.occupied _ (h.frameAt_lt j)
  have heq : s.occupant j = p := by
    unfold Frames.occupant
    rw [hp, Option.getD_some]
  rw [heq]
  exact ⟨hp, pg, hpg, hf⟩

theorem address (h : AllOccupied s pds table) (j : ℕ) : pgOfs (s.addr (s.occupant j)) = 0 ∧
    isUserVaddr (s.addr (s.occupant j)) = true ∧ s.pagedir (s.occupant j) ∈ pds :=
  h.addresses _ (h.frameAt_lt j) _ (h.occupant j).1

theorem pageNo_occupant (h : AllOccupied s pds table) {i j : ℕ} :
    pageNo (s.addr (s.occupant i)) = pageNo (s.addr (s.occupant j)) ↔
      s.addr (s.occupant i) = s.addr (s.occupant j) := pageNo_inj (h.address i).1 (h.address j).1

theorem frameAt_inj (h : AllOccupied s pds table) {i j : ℕ} (hi : i < s.clockMax) (hj : j < s.clockMax)
    (heq : s.frameAt i = s.frameAt j) : i = j := by
  have hclock := h.clock
  unfold Frames.frameAt at heq
  rw [Circular.add_mod_eq hclock hi, Circular.add_mod_eq hclock hj] at heq
  split at heq <;> split at heq <;> omega

end AllOccupied

theorem Frames.frameAt_clockMax : s.frameAt s.clockMax = s.frameAt 0 := by
  unfold Frames.frameAt
  rw [Nat.add_mod_right, Nat.add_zero]

theorem Frames.occupant_congr {i j : ℕ} (h : s.frameAt i = s.frameAt j) : s.occupant i = s.occupant j := by
  unfold Frames.occupant
  rw [h]

/-- The hand passes over the frame: the running process has accessed the address, and no occupant before it has the
same one. -/
def Frames.Passes (s : Frames) (pd : Word) (j : ℕ) : Prop :=
  Accessed s.memory pd (s.addr (s.occupant j)) ∧ ∀ i < j, s.addr (s.occupant i) ≠ s.addr (s.occupant j)

/-- The state after the hand has passed over `j` frames. -/
structure Swept (s : Frames) (pds : Set Word) (table : Word → ℕ → Option Word) (pd : Word) (j : ℕ) (t : Frames) :
    Prop where
  same : t = { s with memory := t.memory, clockPtr := s.frameAt j }
  directories : Directories t.memory pds table
  clears : Clears pds (fun pd' va => ∃ i < j, s.Holds pd i pd' va) (fun _ _ => False) s.memory t.memory

namespace Swept

variable {j : ℕ}

theorem zero (h : AllOccupied s pds table) : Swept s pds table pd 0 s := by
  refine ⟨?_, h.directories, Clears.refl.congr ?_ fun _ _ => Iff.rfl⟩
  · unfold Frames.frameAt
    rw [Nat.add_zero, Nat.mod_eq_of_lt h.clock]
  · intro pd' va
    simp

/-- What the sweep reads at the frame. -/
theorem accessed_iff (h : AllOccupied s pds table) (hpd : pd ∈ pds) (ht : Swept s pds table pd j t) :
    Accessed t.memory pd (s.addr (s.occupant j)) ↔ s.Passes pd j := by
  rw [ht.clears.accessed pd hpd _ (h.address j).2.1]
  unfold Frames.Passes Frames.Holds
  apply and_congr_right'
  constructor
  · intro hno i hi heq
    exact hno ⟨i, hi, rfl, by rw [heq]⟩
  · rintro hall ⟨i, hi, -, hpage⟩
    exact hall i hi (h.pageNo_occupant.mp hpage.symm)

/-- The frame under the hand. -/
theorem step_eq (h : AllOccupied s pds table) (hpd : pd ∈ pds) (ht : Swept s pds table pd j t) (fuel : ℕ) :
    Frames.sweep pd (fuel + 1) t =
      if decide (Accessed t.memory pd (s.addr (s.occupant j))) then
        (pagedirSetAccessed t.memory pd (s.addr (s.occupant j)) false).bind fun memory =>
          Frames.sweep pd fuel ({ t with memory := memory } : Frames).advance
      else some t := by
  have hoccupant : (t.swap.frame t.clockPtr).pageOccupant = some (s.occupant j) := by
    rw [ht.same]
    exact (h.occupant j).1
  have haddr : t.addr = s.addr := by rw [ht.same]
  have hread := ht.directories.pagedirIsAccessed hpd (h.address j).2.1
  rw [Frames.sweep, hoccupant]
  show ((pagedirIsAccessed t.memory pd (t.addr (s.occupant j))).bind _ : Option Frames) = _
  rw [haddr, hread]
  rfl

theorem stop (h : AllOccupied s pds table) (hpd : pd ∈ pds) (ht : Swept s pds table pd j t) (fuel : ℕ)
    (hstop : ¬s.Passes pd j) : Frames.sweep pd (fuel + 1) t = some t := by
  rw [ht.step_eq h hpd, decide_eq_false (fun hread => hstop ((ht.accessed_iff h hpd).mp hread))]
  rfl

theorem next (h : AllOccupied s pds table) (hpd : pd ∈ pds) (ht : Swept s pds table pd j t) (fuel : ℕ)
    (hpass : s.Passes pd j) : ∃ t', Frames.sweep pd (fuel + 1) t = Frames.sweep pd fuel t' ∧
      Swept s pds table pd (j + 1) t' := by
  obtain ⟨memory, hset, hchanged⟩ := ht.directories.pagedirSetAccessed hpd (h.address j).2.1
  refine ⟨({ t with memory := memory } : Frames).advance, ?_, ?_, hchanged.directories, ?_⟩
  · rw [ht.step_eq h hpd, decide_eq_true ((ht.accessed_iff h hpd).mpr hpass), hset]
    rfl
  · have hhand : (if s.frameAt j + 1 ≥ s.clockMax then 0 else s.frameAt j + 1) = s.frameAt (j + 1) := by
      have hnext := Circular.next_eq (h.frameAt_lt j)
      unfold Circular.next at hnext
      unfold Frames.frameAt at hnext ⊢
      rw [← Nat.add_assoc, ← Nat.mod_add_mod (s.clockPtr + j), hnext]
      split <;> split <;> omega
    rw [ht.same]
    unfold Frames.advance
    dsimp only
    rw [hhand]
  · apply (ht.clears.setAccessed hchanged).congr _ fun _ _ => Iff.rfl
    intro pd' va
    rw [Nat.exists_lt_succ_right]
    rfl

end Swept

/-- The hand is back at an address that it has passed after one round. -/
theorem AllOccupied.not_passes (h : AllOccupied s pds table) : ¬s.Passes pd s.clockMax := by
  intro hpass
  exact hpass.2 0 (Nat.zero_lt_of_lt h.clock) (by rw [Frames.occupant_congr Frames.frameAt_clockMax])

/-- The loop ends at the first frame that the hand does not pass over, within one round. -/
theorem sweep_spec (h : AllOccupied s pds table) (hpd : pd ∈ pds) {fuel : ℕ} (hfuel : s.clockMax < fuel) :
    ∃ k t, k ≤ s.clockMax ∧ ¬s.Passes pd k ∧ (∀ j < k, s.Passes pd j) ∧ s.sweep pd fuel = some t ∧
      Swept s pds table pd k t := by
  -- the rounds from the `j`-th on, by induction on how many there are up to the `clockMax`-th
  have hrounds : ∀ m j t fuel, j + m = s.clockMax → m < fuel → (∀ i < j, s.Passes pd i) → Swept s pds table pd j t →
      ∃ k t', k ≤ s.clockMax ∧ ¬s.Passes pd k ∧ (∀ i < k, s.Passes pd i) ∧ t.sweep pd fuel = some t' ∧
        Swept s pds table pd k t' := by
    intro m
    induction m with
    | zero =>
      intro j t fuel hj hfuel hpassed ht
      obtain ⟨fuel, rfl⟩ := Nat.exists_eq_succ_of_ne_zero (Nat.ne_zero_of_lt hfuel)
      have hstop : ¬s.Passes pd j := by
        rw [show j = s.clockMax from hj]
        exact h.not_passes
      exact ⟨j, t, by omega, hstop, hpassed, ht.stop h hpd fuel hstop, ht⟩
    | succ m ih =>
      intro j t fuel hj hfuel hpassed ht
      obtain ⟨fuel, rfl⟩ := Nat.exists_eq_succ_of_ne_zero (Nat.ne_zero_of_lt hfuel)
      by_cases hpass : s.Passes pd j
      · obtain ⟨t', hrun, ht'⟩ := ht.next h hpd fuel hpass
        rw [hrun]
        apply ih (j + 1) t' fuel (by omega) (by omega) _ ht'
        intro i hi
        rcases Nat.lt_succ_iff_lt_or_eq.mp hi with hlt | rfl
        · exact hpassed i hlt
        · exact hpass
      · exact ⟨j, t, by omega, hpass, hpassed, ht.stop h hpd fuel hpass, ht⟩
  exact hrounds s.clockMax 0 s fuel (Nat.zero_add _) hfuel (fun i hi => absurd hi (Nat.not_lt_zero i)) (Swept.zero h)

/-! ## The eviction -/

/-- `swap_insert` keeps the other members of the page. -/
theorem Swap.swappedOut_of_insert {s s' : Swap} {p f : ℕ} {pg : Page} (hcnt : s.usedBlocks.bitCnt = 1024)
    (hpg : s.page p = some pg) (hf : pg.frame = some f) (h : s.swapInsert p = some s') :
    ∃ pg', s'.page p = some pg' ∧ Frames.SwappedOut s (s'.setPage p (some { pg' with frame := none })) f p := by
  obtain ⟨pg₁, f₁, slot, t, hpg₁, hf₁, hlt, hbit, ht, hframe, rfl⟩ := swapInsert_spec (le_of_eq hcnt) h
  cases hpg.symm.trans hpg₁
  cases hf.symm.trans hf₁
  refine ⟨_, Function.update_self .., slot, _, hbit, Function.update_self .., Function.update_self .., rfl, rfl, ht,
    hframe⟩

namespace Swept

variable {k : ℕ}

/-- The call returns exactly if there is room in the swap table. -/
theorem evict (h : AllOccupied s pds table) (ht : Swept s pds table pd k t) :
    (¬s.swap.Room → t.evict = none) ∧ (s.swap.Room → ∃ s', t.evict = some (s', s.frameAt k) ∧
      s.EvictsAt pds (fun pd' va => ∃ i < k, s.Holds pd i pd' va) k s' (s.frameAt k)) := by
  obtain ⟨hoccupant, pg, hpg, hf⟩ := h.occupant k
  obtain ⟨hofs, huser, hown⟩ := h.address k
  have hroom := Swap.swapInsert_isSome (le_of_eq h.slots) hpg hf
  have hcode : t.evict = (s.swap.swapInsert (s.occupant k)).bind fun swap =>
      (swap.page (s.occupant k)).bind fun pg =>
        (pagedirClearPage t.memory (s.pagedir (s.occupant k)) (s.addr (s.occupant k))).bind fun memory =>
          some (({ s with
            swap := swap.setPage (s.occupant k) (some { pg with frame := none })
            status := Function.update s.status (s.occupant k) .inSwapTable
            memory := memory
            clockPtr := s.frameAt k } : Frames).advance, s.frameAt k) := by
    rw [ht.same]
    unfold Frames.evict
    dsimp only
    rw [hoccupant]
    rfl
  rw [hcode]
  constructor
  · intro hno
    rw [Option.not_isSome_iff_eq_none.mp fun hsome => hno (hroom.mp hsome)]
    rfl
  · intro hyes
    obtain ⟨swap, hswap⟩ := Option.isSome_iff_exists.mp (hroom.mpr hyes)
    obtain ⟨pg', hpg', hout⟩ := Swap.swappedOut_of_insert h.slots hpg hf hswap
    obtain ⟨memory, hclear, hchanged⟩ := ht.directories.pagedirClearPage hown hofs huser
    rw [hswap, Option.bind_some, hpg', Option.bind_some, hclear, Option.bind_some]
    refine ⟨_, rfl, rfl, ?_, hout, Function.update_self ..⟩
    apply (ht.clears.clearPage hchanged).congr fun _ _ => Iff.rfl
    intro pd' va
    rw [false_or]
    rfl

end Swept

/-- What the code does: the first frame that the hand does not pass over is evicted, and the accessed bits are cleared
in the running process's page directory. -/
theorem frameGetMultiple_spec (h : AllOccupied s pds table) (hpd : pd ∈ pds) {fuel : ℕ} (hfuel : s.clockMax < fuel)
    (palloc : Option ℕ) : ∃ k ≤ s.clockMax, ¬s.Passes pd k ∧ (∀ j < k, s.Passes pd j) ∧
      (¬s.swap.Room → s.frameGetMultiple fuel pd palloc 1 = none) ∧
      (s.swap.Room → ∃ s', s.frameGetMultiple fuel pd palloc 1 = some (s', s.frameAt k) ∧
        s.EvictsAt pds (fun pd' va => ∃ i < k, s.Holds pd i pd' va) k s' (s.frameAt k)) := by
  obtain ⟨k, t, hk, hstop, hpassed, hsweep, ht⟩ := sweep_spec h hpd hfuel
  have hscan : s.freeFrames.scan 0 1 false = none := by
    cases hscan : s.freeFrames.scan 0 1 false with
    | none => rfl
    | some i =>
      obtain ⟨hlt, hbit⟩ := Bitmap.scan_some hscan
      rw [h.full i hlt] at hbit
      cases hbit
  have hcode : s.frameGetMultiple fuel pd palloc 1 = t.evict := by
    unfold Frames.frameGetMultiple Bitmap.scanAndFlip
    rw [hscan]
    show (s.sweep pd fuel).bind Frames.evict = _
    rw [hsweep, Option.bind_some]
  rw [hcode]
  exact ⟨k, hk, hstop, hpassed, ht.evict h⟩

/-- The bits that the sweep clears are those that should be cleared, where every page it passes over is the running
process's own. -/
theorem Frames.holds_iff_own {k : ℕ} (hown : ∀ j < k, s.pagedir (s.occupant j) = pd) (pd' va : Word) :
    (∃ i < k, s.Holds pd i pd' va) ↔ ∃ i < k, s.Own i pd' va := by
  constructor
  · rintro ⟨i, hi, hholds⟩
    rw [← hown i hi] at hholds
    exact ⟨i, hi, hholds⟩
  · rintro ⟨i, hi, hholds⟩
    unfold Frames.Own at hholds
    rw [hown i hi] at hholds
    exact ⟨i, hi, hholds⟩

/-- Where the running process owns what the hand should pass over, the hand passes over just that. -/
theorem AllOccupied.passes (h : AllOccupied s pds table) {k j : ℕ} (hk : k ≤ s.clockMax)
    (hskipped : ∀ j < k, s.OwnAccessed j ∧ s.pagedir (s.occupant j) = pd) (hj : j < k) : s.Passes pd j := by
  obtain ⟨haccessed, hown⟩ := hskipped j hj
  unfold Frames.OwnAccessed at haccessed
  rw [hown] at haccessed
  refine ⟨haccessed, ?_⟩
  intro i hi haddr
  have hij : s.frameAt i = s.frameAt j := h.distinct _ (h.frameAt_lt i) _ (h.frameAt_lt j) _ _ (h.occupant i).1
    (h.occupant j).1 ((hskipped i (by omega)).2.trans hown.symm) haddr
  have := h.frameAt_inj (by omega) (by omega) hij
  omega

/-- **Clock eviction goes by the owners' accessed bits exactly if all occupants that the hand should pass over are the
running process's own**, the one at which it should stop is not at an address that the running process has accessed,
and the swap table has room. -/
theorem clock_respects_owners_iff (h : AllOccupied s pds table) (hpd : pd ∈ pds) {fuel : ℕ}
    (hfuel : s.clockMax < fuel) (palloc : Option ℕ) :
    s.Evicts pds (s.frameGetMultiple fuel pd palloc 1) ↔ s.RunningOwns pd := by
  obtain ⟨k, hk, hstop, hpassed, hnone, hsome⟩ := frameGetMultiple_spec h hpd hfuel palloc
  constructor
  · rintro ⟨s', f, k', hresult, hk', hskipped, hfirst, hevicts⟩
    have hroom : s.swap.Room := by
      by_contra hno
      rw [hnone hno] at hresult
      cases hresult
    obtain ⟨s₁, hcode, hdone⟩ := hsome hroom
    cases hcode.symm.trans hresult
    -- an accessed bit that should be cleared and the one that is
    have hbits : ∀ pd' ∈ pds, ∀ va, isUserVaddr va = true → Accessed s.memory pd' va →
        ((∃ i < k, s.Holds pd i pd' va) ↔ ∃ i < k', s.Own i pd' va) := by
      intro pd' hpd' va huser haccessed
      have hdone' := hdone.clears.accessed pd' hpd' va huser
      rw [hevicts.clears.accessed pd' hpd' va huser] at hdone'
      simp only [haccessed, true_and] at hdone'
      exact (not_iff_not.mp hdone').symm
    have hsame : k' = k := by
      by_contra hne
      have hframe := hevicts.frame
      rcases Nat.lt_or_ge k s.clockMax with hlt | hge
      · rcases Nat.lt_or_ge k' s.clockMax with hlt' | hge'
        · exact hne (h.frameAt_inj hlt' hlt hframe.symm)
        · -- all occupants should be passed over, and the hand does not move
          have hzero : k = 0 := by
            rw [show k' = s.clockMax by omega, Frames.frameAt_clockMax] at hframe
            exact h.frameAt_inj hlt (by omega) hframe
          obtain ⟨i, hi, -⟩ := (hbits _ (h.address 0).2.2 _ (h.address 0).2.1 (hskipped 0 (by omega))).mpr
            ⟨0, by omega, rfl, rfl⟩
          omega
      · -- none should be passed over, and the hand goes round
        have hzero : k' = 0 := by
          rw [show k = s.clockMax by omega, Frames.frameAt_clockMax] at hframe
          exact (h.frameAt_inj (by omega) (by omega) hframe).symm
        obtain ⟨i, hi, -⟩ := (hbits pd hpd _ (h.address 0).2.1 (hpassed 0 (by omega)).1).mp
          ⟨0, by omega, rfl, rfl⟩
        omega
    subst hsame
    refine ⟨hroom, k', hk', ?_, ?_⟩
    · intro j hj
      refine ⟨hskipped j hj, ?_⟩
      obtain ⟨i, -, hown, -⟩ := (hbits _ (h.address j).2.2 _ (h.address j).2.1 (hskipped j hj)).mpr ⟨j, hj, rfl, rfl⟩
      exact hown
    · intro hlt
      refine ⟨hfirst hlt, ?_⟩
      intro haccessed
      by_contra hno
      exact hstop ⟨haccessed, fun i hi heq => hno ⟨i, hi, heq⟩⟩
  · rintro ⟨hroom, k', hk', hskipped, hlast⟩
    have hsame : k' = k := by
      rcases lt_trichotomy k' k with hlt | heq | hgt
      · obtain ⟨hno, haddr⟩ := hlast (by omega)
        have hpass := hpassed k' hlt
        obtain ⟨i, hi, heq⟩ := haddr hpass.1
        exact absurd heq (hpass.2 i hi)
      · exact heq
      · exact absurd (h.passes hk' hskipped hgt) hstop
    subst hsame
    obtain ⟨s', hresult, hdone⟩ := hsome hroom
    refine ⟨s', _, k', hresult, hk', fun j hj => (hskipped j hj).1, fun hlt => (hlast hlt).1, rfl, ?_,
      hdone.swappedOut, hdone.status⟩
    exact hdone.clears.congr (Frames.holds_iff_own fun j hj => (hskipped j hj).2) fun _ _ => Iff.rfl

/-- Two frames with pages of the second of two processes, which has accessed the first one. -/
def twoFrames : Frames where
  swap := {
    usedBlocks := Bitmap.create 1024 fun _ => false
    swapTable := fun _ => Block.zero
    blockSize := 8192
    page := fun p => if p = 1 ∨ p = 2 then some ⟨some (p - 1), -1⟩ else none
    frame := fun f => ⟨4096 * f, some (f + 1)⟩
    ram := fun _ => Block.zero }
  addr := fun p => if p = 1 then 0x1000 else 0x2000
  pagedir := fun _ => 0xc0102000
  status := fun _ => .inFrameTable
  memory := {
    word := fun p i =>
      if p = 0xc0102000 ∧ i = 0 then 0x00103007
      else if p = 0xc0103000 ∧ i = 1 then 0x00200027
      else if p = 0xc0103000 ∧ i = 2 then 0x00201007
      else 0
    used := {0xc0101000, 0xc0102000, 0xc0103000}
    freed := [] }
  freeFrames := ⟨2, fun _ => true⟩
  clockPtr := 0
  clockMax := 2

/-- The page tables of the two processes: the first one has none. -/
def twoTables (pd : Word) (i : ℕ) : Option Word := if pd = 0xc0102000 ∧ i = 0 then some 0xc0103000 else none

theorem allOccupied_twoFrames : AllOccupied twoFrames {0xc0101000, 0xc0102000} twoTables := by
  have hpair : ∀ {pt : Word} {pd : Word} {i : ℕ}, twoTables pd i = some pt →
      pd = 0xc0102000 ∧ i = 0 ∧ pt = 0xc0103000 := by
    intro pt pd i h
    unfold twoTables at h
    split at h
    · rename_i hpd
      exact ⟨hpd.1, hpd.2, (Option.some.inj h).symm⟩
    · cases h
  refine ⟨by decide, fun _ _ => rfl, ?_, ?_, ?_, ⟨?_, ?_, ?_⟩, rfl⟩
  · intro i hi
    refine ⟨i + 1, ⟨some i, -1⟩, rfl, ?_, rfl⟩
    exact if_pos (by change i < 2 at hi; omega)
  · intro i _ p hp
    refine ⟨?_, ?_, .inr rfl⟩
    · unfold twoFrames
      dsimp only
      split <;> decide
    · unfold twoFrames
      dsimp only
      split <;> decide
  · intro i hi j hj p q hp hq _ haddr
    change i < 2 at hi
    change j < 2 at hj
    cases hp
    cases hq
    have hcases : (i = 0 ∨ i = 1) ∧ (j = 0 ∨ j = 1) := by omega
    obtain ⟨rfl | rfl, rfl | rfl⟩ := hcases
    · rfl
    · exact absurd haddr (by decide)
    · exact absurd haddr (by decide)
    · rfl
  · rintro pd (rfl | rfl) i _
    · have hnone : twoTables 0xc0101000 i = none := if_neg fun h => absurd h.1 (by decide)
      rw [hnone]
      unfold twoFrames PdeOf
      simp
    · by_cases hi : i = 0
      · subst hi
        show pdeCreate 0xc0103000 = some 0x00103007
        decide
      · have hnone : twoTables 0xc0102000 i = none := if_neg fun h => hi h.2
        rw [hnone]
        unfold twoFrames PdeOf
        simp [hi]
  · intro pd _ i _ pt hpt
    obtain ⟨-, -, rfl⟩ := hpair hpt
    refine ⟨by decide, ?_⟩
    rintro (h | h)
    · exact absurd h (by decide)
    · exact absurd h (by decide)
  · intro pd _ pd' _ i _ j _ pt hpt hpt'
    obtain ⟨rfl, rfl, -⟩ := hpair hpt
    obtain ⟨rfl, rfl, -⟩ := hpair hpt'
    exact ⟨rfl, rfl⟩

/-- The owner runs: the hand passes over its accessed page. -/
theorem clock_respects_owners_owner : twoFrames.Evicts {0xc0101000, 0xc0102000}
    (twoFrames.frameGetMultiple 3 0xc0102000 none 1) := by
  apply (clock_respects_owners_iff allOccupied_twoFrames (.inr rfl) (by decide) none).mpr
  refine ⟨⟨0, by decide +kernel, by decide⟩, 1, by decide, ?_, ?_⟩
  · intro j hj
    cases Nat.lt_one_iff.mp hj
    exact ⟨by unfold Frames.OwnAccessed; decide, rfl⟩
  · intro _
    refine ⟨by unfold Frames.OwnAccessed; decide, ?_⟩
    intro h
    exact absurd h (by decide)

/-- The other process runs: the page that its owner has accessed is evicted. -/
theorem clock_evicts_accessed : ¬∀ (s : Frames) (pds : Set Word) (table : Word → ℕ → Option Word) (pd : Word) (fuel : ℕ)
    (palloc : Option ℕ), AllOccupied s pds table → pd ∈ pds → s.clockMax < fuel →
      s.Evicts pds (s.frameGetMultiple fuel pd palloc 1) := by
  intro hall
  obtain ⟨s', f, k, hresult, hk, hskipped, hfirst, hevicts⟩ :=
    hall twoFrames _ _ 0xc0101000 3 none allOccupied_twoFrames (.inl rfl) (by decide)
  have hframe : (twoFrames.frameGetMultiple 3 0xc0101000 none 1).map Prod.snd = some 0 := by decide +kernel
  rw [hresult] at hframe
  have hf : f = 0 := Option.some.inj hframe
  have hk0 : k = 0 ∨ k = 2 := by
    have hat : 0 = (0 + k) % 2 := hf.symm.trans hevicts.frame
    change k ≤ 2 at hk
    omega
  rcases hk0 with rfl | rfl
  · exact hfirst (by decide) (by unfold Frames.OwnAccessed; decide)
  · have hsecond := hskipped 1 (by decide)
    unfold Frames.OwnAccessed at hsecond
    exact absurd hsecond (by decide)

end Pintos.Vm
