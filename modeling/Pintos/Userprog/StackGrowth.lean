import Pintos.Library.Trace
import Pintos.Userprog.LoadSegment

/-!
# Stack growth

`page_fault` of `userprog/exception.c` maps the pages from the one of the fault up to the pages that the stack has
already, with `pagedir_set_page` of `userprog/pagedir.c`.  It asks neither whether `palloc_get_page` has found a
page nor whether a segment of the executable is mapped there.

`pagedir_get_page` and `pagedir_set_page` are those of `Load.lean` on a page directory that has page tables.
-/

namespace Pintos.Userprog.StackGrowth

open Pintos.Threads

/-! ## The page directory -/

/-- `PTMASK` -/
def ptMask : Word := 0x3ff000#32

/-- `pt_no` -/
def ptNo (va : Word) : ℕ := ((va &&& ptMask) >>> 12).toNat

/-- `pd_no` -/
def pdNo (va : Word) : ℕ := (va >>> 22).toNat

/-- A page table entry with `PTE_P`. -/
structure Pte where
  kpage : Word
  writable : Bool
  deriving DecidableEq

/-- The user part of a page directory: its page tables, with their entries. -/
structure PageDirectory where
  table : ℕ → Option (ℕ → Option Pte)

/-- The pages that `palloc_init` gives to users, and `init_ram_pages`. -/
structure UserPool where
  base : Word
  pages : ℕ
  ramPages : Word
  aligned : base.toNat % 4096 = 0
  low : 0xc0000000 ≤ base.toNat
  high : base.toNat + 4096 * pages ≤ 0xc0000000 + 4096 * ramPages.toNat
  ram : 0xc0000000 + 4096 * ramPages.toNat ≤ 2 ^ 32

/-- The page with an index of the bitmap. -/
def UserPool.page (pool : UserPool) (i : ℕ) : Word := pool.base + BitVec.ofNat 32 (4096 * i)

/-- `palloc_get_page (PAL_USER)`: a page of the pool, or the null pointer. -/
def UserPool.pallocGetPage (pool : UserPool) (found : List (Fin pool.pages)) : Word :=
  match found with
  | [] => 0
  | i :: _ => pool.page i

/-- `ASSERT` -/
def assertion (p : Prop) [Decidable p] : Except LoadStop Unit := if p then .ok () else .error .assertion

/-- `vtop` -/
def vtop (vaddr : Word) : Except LoadStop Word := do
  assertion (physBase ≤ vaddr)
  return vaddr - physBase

namespace PageDirectory

/-- The entry for an address, if there is a page table for it and a page. -/
def entry (pd : PageDirectory) (va : Word) : Option Pte := (pd.table (pdNo va)).bind fun pt => pt (ptNo va)

/-- `*pte = ...` in the page table for an address. -/
def setEntry (pd : PageDirectory) (va : Word) (e : Pte) : PageDirectory where
  table := Function.update pd.table (pdNo va)
    ((pd.table (pdNo va)).map fun pt => Function.update pt (ptNo va) (some e))

/-- `lookup_page`: whether there is a page table for the address, or one can be made. -/
def lookupPage (pd : PageDirectory) (vaddr : Word) (create tablePage : Bool) :
    Except LoadStop (Bool × PageDirectory) := do
  assertion (create = true → isUserVaddr vaddr = true)
  if (pd.table (pdNo vaddr)).isSome then
    return (true, pd)
  else if create ∧ tablePage then
    return (true, { table := Function.update pd.table (pdNo vaddr) (some fun _ => none) })
  else
    return (false, pd)

/-- `pagedir_set_page`; a process has a page directory of its own. -/
def pagedirSetPage (pool : UserPool) (pd : PageDirectory) (upage kpage : Word) (writable tablePage : Bool) :
    Except LoadStop (Bool × PageDirectory) := do
  assertion (pgOfs upage = 0)
  assertion (pgOfs kpage = 0)
  assertion (isUserVaddr upage = true)
  let paddr ← vtop kpage
  assertion (paddr >>> 12 < pool.ramPages)
  let (found, pd) ← pd.lookupPage upage true tablePage
  if found then
    assertion ((pd.entry upage).isNone = true)
    return (true, pd.setEntry upage ⟨kpage, writable⟩)
  else
    return (false, pd)

/-- `pagedir_get_page` -/
def pagedirGetPage (pd : PageDirectory) (uaddr : Word) : Except LoadStop (Option Pte) := do
  assertion (isUserVaddr uaddr = true)
  return pd.entry uaddr

end PageDirectory

/-! ## The page fault -/

/-- The members of `struct thread` that `page_fault` uses. -/
structure UserSpace where
  pagedir : PageDirectory
  currentStack : Word

/-- A page fault, the pages that `palloc_get_page (PAL_USER)` finds up to the first null pointer, and whether it finds
one for a page table. -/
structure Fault (pool : UserPool) where
  notPresent : Bool
  faultAddr : Word
  esp : Word
  found : List (Fin pool.pages)
  tablePage : Word → Bool

/-- How `page_fault` ends. -/
inductive FaultEnd
  /-- `exit (-1)` -/
  | exits
  | returns (u : UserSpace)

variable {pool : UserPool}

/-- The loop of `page_fault`; it ends after `2 ^ 20` pages. -/
def growStack (limit : Word) (tablePage : Word → Bool) :
    ℕ → Word → PageDirectory → List (Fin pool.pages) → Except LoadStop PageDirectory
  | 0, _, _, _ => .error .diverges
  | fuel + 1, page, pd, found =>
    if page < limit then do
      let newpage := pool.pallocGetPage found
      let _ ← pd.pagedirGetPage page
      let (_, pd) ← pd.pagedirSetPage pool page newpage true (tablePage page)
      growStack limit tablePage fuel (page + pgSize) pd found.tail
    else .ok pd

/-- `page_fault` -/
def pageFault (u : UserSpace) (f : Fault pool) : Except LoadStop FaultEnd := do
  let page := pgRoundDown f.faultAddr
  if ¬f.notPresent ∨ ¬isUserVaddr f.faultAddr then
    return .exits
  else if f.faultAddr < physBase - u.currentStack ∧ f.faultAddr ≥ physBase - pgSize * 20 ∧
      f.esp - 32 ≤ f.faultAddr then
    let pd ← growStack (physBase - u.currentStack) f.tablePage (2 ^ 20 + 1) page u.pagedir f.found
    return .returns { pagedir := pd, currentStack := physBase - page }
  else
    return .exits

/-! ## The operations -/

theorem pdNo_eq (va : Word) : pdNo va = va.toNat / 4096 / 1024 := by
  rw [pdNo, BitVec.toNat_ushiftRight, Nat.shiftRight_eq_div_pow, Nat.div_div_eq_div_mul]

theorem ptNo_eq (va : Word) : ptNo va = va.toNat / 4096 % 1024 := by
  rw [ptNo, BitVec.toNat_ushiftRight, BitVec.toNat_and, Nat.shiftRight_and_distrib,
    show ptMask.toNat >>> 12 = 2 ^ 10 - 1 from rfl, Nat.and_two_pow_sub_one_eq_mod, Nat.shiftRight_eq_div_pow]

/-- The entry is the one of the page. -/
theorem PageDirectory.entry_congr (pd : PageDirectory) {va vb : Word} (h : va.toNat / 4096 = vb.toNat / 4096) :
    pd.entry va = pd.entry vb := by
  unfold PageDirectory.entry
  rw [pdNo_eq, ptNo_eq, h, ← pdNo_eq, ← ptNo_eq]

theorem PageDirectory.table_setEntry (pd : PageDirectory) (va : Word) (e : Pte) (n : ℕ) :
    (pd.setEntry va e).table n =
      if n = pdNo va then (pd.table (pdNo va)).map fun pt => Function.update pt (ptNo va) (some e) else pd.table n :=
  Function.update_apply ..

/-- There are as many page tables as before. -/
theorem PageDirectory.isSome_table_setEntry (pd : PageDirectory) (va : Word) (e : Pte) (n : ℕ) :
    ((pd.setEntry va e).table n).isSome = (pd.table n).isSome := by
  rw [table_setEntry]
  split
  · rename_i hn
    rw [hn, Option.isSome_map]
  · rfl

/-- An entry is set in a page table. -/
theorem PageDirectory.entry_setEntry (pd : PageDirectory) {va : Word} (e : Pte)
    (htable : (pd.table (pdNo va)).isSome = true) (vb : Word) :
    (pd.setEntry va e).entry vb = if vb.toNat / 4096 = va.toNat / 4096 then some e else pd.entry vb := by
  obtain ⟨pt, hpt⟩ := Option.isSome_iff_exists.mp htable
  unfold PageDirectory.entry
  rw [table_setEntry]
  by_cases hpage : vb.toNat / 4096 = va.toNat / 4096
  · have hpd : pdNo vb = pdNo va := by rw [pdNo_eq, hpage, ← pdNo_eq]
    have hno : ptNo vb = ptNo va := by rw [ptNo_eq, hpage, ← ptNo_eq]
    rw [if_pos hpage, if_pos hpd, hno, hpt, Option.map_some, Option.bind_some, Function.update_self]
  · rw [if_neg hpage]
    split
    · rename_i hpd
      have hno : ptNo vb ≠ ptNo va := fun hno => hpage (by
        rw [pdNo_eq, pdNo_eq] at hpd
        rw [ptNo_eq, ptNo_eq] at hno
        omega)
      rw [hpd, hpt, Option.map_some, Option.bind_some, Function.update_of_ne hno, Option.bind_some]
    · rfl

theorem assertion_ok {p : Prop} [Decidable p] (h : p) : assertion p = .ok () := if_pos h

theorem assertion_error {p : Prop} [Decidable p] (h : ¬p) : assertion p = .error .assertion := if_neg h

/-- A page of the pool. -/
theorem UserPool.page_spec (pool : UserPool) (i : Fin pool.pages) : (pool.page i).toNat % 4096 = 0 ∧
    0xc0000000 ≤ (pool.page i).toNat ∧ (pool.page i).toNat < 0xc0000000 + 4096 * pool.ramPages.toNat := by
  have hi := i.isLt
  have haligned := pool.aligned
  have hlow := pool.low
  have hhigh := pool.high
  have hram := pool.ram
  have hpage : (pool.page i).toNat = pool.base.toNat + 4096 * i := by
    rw [UserPool.page, toNat_add_ofNat (by omega)]
  omega

theorem pgOfs_eq_zero {va : Word} (h : va.toNat % 4096 = 0) : pgOfs va = 0 := by
  apply BitVec.eq_of_toNat_eq
  rw [toNat_pgOfs, h]
  rfl

/-- `pagedir_set_page` with what `palloc_get_page` has returned, for a page of the user's part that has a page
table. -/
theorem pagedirSetPage_eq (found : List (Fin pool.pages)) (pd : PageDirectory) {upage : Word}
    (hofs : upage.toNat % 4096 = 0) (huser : upage.toNat < 0xc0000000)
    (htable : (pd.table (pdNo upage)).isSome = true) (tablePage : Bool) :
    pd.pagedirSetPage pool upage (pool.pallocGetPage found) true tablePage =
      if found ≠ [] ∧ pd.entry upage = none then
        .ok (true, pd.setEntry upage ⟨pool.pallocGetPage found, true⟩)
      else .error .assertion := by
  have huser' : isUserVaddr upage = true := isUserVaddr_iff.mpr huser
  unfold PageDirectory.pagedirSetPage
  rw [assertion_ok (pgOfs_eq_zero hofs), assertion_ok huser']
  cases found with
  | nil =>
    -- the null pointer is no kernel address
    have hnull : vtop (pool.pallocGetPage []) = .error .assertion := by
      rw [vtop, assertion_error (by show ¬physBase ≤ (0 : Word); decide)]
      rfl
    have hofs : pgOfs (pool.pallocGetPage []) = 0 := by
      show pgOfs (0 : Word) = 0
      decide
    rw [assertion_ok hofs, hnull, if_neg fun h => h.1 rfl]
    rfl
  | cons i found =>
    obtain ⟨haligned, hlow, hhigh⟩ := pool.page_spec i
    have hram := pool.ram
    have hkernel : physBase ≤ pool.page i := by rw [BitVec.le_def, toNat_physBase]; exact hlow
    have hpaddr : vtop (pool.pallocGetPage (i :: found)) = .ok (pool.page i - physBase) := by
      rw [vtop, assertion_ok (show physBase ≤ pool.pallocGetPage (i :: found) from hkernel)]
      rfl
    have hsub : (pool.page i - physBase).toNat = (pool.page i).toNat - 0xc0000000 :=
      BitVec.toNat_sub_of_le hkernel
    have hframe : (pool.page i - physBase) >>> 12 < pool.ramPages := by
      rw [BitVec.lt_def, BitVec.toNat_ushiftRight, Nat.shiftRight_eq_div_pow, hsub]
      omega
    have hlookup : pd.lookupPage upage true tablePage = .ok (true, pd) := by
      rw [PageDirectory.lookupPage, assertion_ok fun _ => huser', htable]
      rfl
    rw [assertion_ok (show pgOfs (pool.pallocGetPage (i :: found)) = 0 from pgOfs_eq_zero haligned), hpaddr]
    show (assertion ((pool.page i - physBase) >>> 12 < pool.ramPages) >>= fun _ => _) = _
    rw [assertion_ok hframe]
    show (pd.lookupPage upage true tablePage >>= fun _ => _) = _
    rw [hlookup]
    show (assertion ((pd.entry upage).isNone = true) >>= fun _ => _) = _
    by_cases hentry : pd.entry upage = none
    · rw [assertion_ok (by rw [hentry]; rfl), if_pos ⟨List.cons_ne_nil _ _, hentry⟩]
      rfl
    · rw [assertion_error (by rwa [Option.isNone_iff_eq_none]), if_neg fun h => hentry h.2]
      rfl

/-! ## The loop -/

/-- One round of the loop. -/
theorem growStack_step (tablePage : Word → Bool) {limit page : Word} (fuel : ℕ) (pd : PageDirectory)
    (found : List (Fin pool.pages)) (hlt : page < limit) (hofs : page.toNat % 4096 = 0)
    (huser : page.toNat < 0xc0000000) (htable : (pd.table (pdNo page)).isSome = true) :
    growStack limit tablePage (fuel + 1) page pd found =
      if found ≠ [] ∧ pd.entry page = none then
        growStack limit tablePage fuel (page + pgSize) (pd.setEntry page ⟨pool.pallocGetPage found, true⟩) found.tail
      else .error .assertion := by
  have hget : pd.pagedirGetPage page = .ok (pd.entry page) := by
    rw [PageDirectory.pagedirGetPage, assertion_ok (isUserVaddr_iff.mpr huser)]
    rfl
  rw [growStack, if_pos hlt]
  simp only [hget, pagedirSetPage_eq found pd hofs huser htable (tablePage page)]
  split <;> rfl

/-- No page is mapped between two addresses. -/
def PageDirectory.Unmapped (pd : PageDirectory) (page limit : Word) : Prop :=
  ∀ va, page ≤ va → va < limit → pd.entry va = none

/-- The pages between two addresses are mapped, and the others are as before. -/
structure PageDirectory.Grown (pd pd' : PageDirectory) (page limit : Word) : Prop where
  mapped : ∀ va, page ≤ va → va < limit → (pd'.entry va).isSome = true
  kept : ∀ va, ¬(page ≤ va ∧ va < limit) → pd'.entry va = pd.entry va
  tables : ∀ m, (pd'.table m).isSome = (pd.table m).isSome

section NextPage

variable {page limit : Word} (hofs : page.toNat % 4096 = 0) (hnext : (page + pgSize).toNat = page.toNat + 4096)

include hofs hnext

/-- An address from `page` on is in the page itself or behind it. -/
theorem le_iff_page_or_next (va : Word) :
    page ≤ va ↔ va.toNat / 4096 = page.toNat / 4096 ∨ page + pgSize ≤ va := by
  rw [BitVec.le_def, BitVec.le_def, hnext]
  omega

theorem not_page_of_next {va : Word} (h : page + pgSize ≤ va) : ¬va.toNat / 4096 = page.toNat / 4096 := by
  rw [BitVec.le_def, hnext] at h
  omega

theorem lt_of_page {va : Word} (hle : (page + pgSize).toNat ≤ limit.toNat)
    (h : va.toNat / 4096 = page.toNat / 4096) : va < limit := by
  rw [BitVec.lt_def]
  omega

variable {pd : PageDirectory} (e : Pte) (htable : (pd.table (pdNo page)).isSome = true)

include htable

/-- The pages from an unmapped one on, before the round and after it. -/
theorem PageDirectory.unmapped_setEntry (hentry : pd.entry page = none) :
    (pd.setEntry page e).Unmapped (page + pgSize) limit ↔ pd.Unmapped page limit := by
  have hset := pd.entry_setEntry e htable
  refine ⟨fun h va hl hu => ?_, fun h va hl hu => ?_⟩
  · rcases (le_iff_page_or_next hofs hnext va).mp hl with hself | hl
    · rw [pd.entry_congr hself]
      exact hentry
    · have hva := h va hl hu
      rwa [hset, if_neg (not_page_of_next hofs hnext hl)] at hva
  · rw [hset, if_neg (not_page_of_next hofs hnext hl)]
    exact h va ((le_iff_page_or_next hofs hnext va).mpr (.inr hl)) hu

/-- The page of the round, and the pages that the rest of the loop maps. -/
theorem PageDirectory.Grown.of_setEntry {pd' : PageDirectory} (hle : (page + pgSize).toNat ≤ limit.toNat)
    (h : (pd.setEntry page e).Grown pd' (page + pgSize) limit) : pd.Grown pd' page limit := by
  have hset := pd.entry_setEntry e htable
  refine ⟨fun va hl hu => ?_, fun va hva => ?_, fun m => ?_⟩
  · by_cases hl' : page + pgSize ≤ va
    · exact h.mapped va hl' hu
    · have hpage := ((le_iff_page_or_next hofs hnext va).mp hl).resolve_right hl'
      rw [h.kept va fun h => hl' h.1, hset, if_pos hpage]
      rfl
  · have hva' : ¬(page + pgSize ≤ va ∧ va < limit) := fun h =>
      hva ⟨(le_iff_page_or_next hofs hnext va).mpr (.inr h.1), h.2⟩
    have hpage : ¬va.toNat / 4096 = page.toNat / 4096 := fun h =>
      hva ⟨(le_iff_page_or_next hofs hnext va).mpr (.inl h), lt_of_page hofs hnext hle h⟩
    rw [h.kept va hva', hset, if_neg hpage]
  · rw [h.tables, PageDirectory.isSome_table_setEntry]

end NextPage

/-- What the loop does to the `n` pages from `page` to `limit`, which have page tables: it maps them if none of them is
mapped and there are enough frames, and else it comes to an assertion. -/
theorem growStack_spec (tablePage : Word → Bool) {limit : Word} (hlimit : limit.toNat ≤ 0xc0000000) {n : ℕ} :
    ∀ {fuel : ℕ} {page : Word} {pd : PageDirectory} {found : List (Fin pool.pages)}, n < fuel →
      page.toNat % 4096 = 0 → page.toNat + 4096 * n = limit.toNat →
      (∀ va : Word, page ≤ va → va < limit → (pd.table (pdNo va)).isSome = true) →
      (pd.Unmapped page limit ∧ n ≤ found.length →
        ∃ pd', growStack limit tablePage fuel page pd found = .ok pd' ∧ pd.Grown pd' page limit) ∧
      (¬(pd.Unmapped page limit ∧ n ≤ found.length) →
        growStack limit tablePage fuel page pd found = .error .assertion) := by
  induction n with
  | zero =>
    intro fuel page pd found hfuel hofs hn htable
    obtain ⟨fuel, rfl⟩ := Nat.exists_eq_succ_of_ne_zero hfuel.ne'
    have hempty : ∀ va : Word, page ≤ va → ¬va < limit := fun va hl hu => by
      rw [BitVec.le_def] at hl
      rw [BitVec.lt_def] at hu
      omega
    refine ⟨fun _ => ⟨pd, ?_, fun va hl hu => absurd hu (hempty va hl), fun _ _ => rfl, fun _ => rfl⟩, fun h => ?_⟩
    · rw [growStack, if_neg (hempty page (BitVec.le_refl page))]
    · exact absurd ⟨fun va hl hu => absurd hu (hempty va hl), Nat.zero_le _⟩ h
  | succ n ih =>
    intro fuel page pd found hfuel hofs hn htable
    obtain ⟨fuel, rfl⟩ := Nat.exists_eq_succ_of_ne_zero (by omega : fuel ≠ 0)
    have hlt : page < limit := by
      rw [BitVec.lt_def]
      omega
    have htable₀ := htable page (BitVec.le_refl page) hlt
    have hstep := growStack_step tablePage fuel pd found hlt hofs (by omega) htable₀
    by_cases hcan : found ≠ [] ∧ pd.entry page = none
    · -- the round maps the page, and the induction does the rest
      rw [if_pos hcan] at hstep
      rw [hstep]
      obtain ⟨hfound, hentry⟩ := hcan
      obtain ⟨i, rest, rfl⟩ := List.exists_cons_of_ne_nil hfound
      rw [List.tail_cons]
      set e : Pte := ⟨pool.pallocGetPage (i :: rest), true⟩
      have hnext : (page + pgSize).toNat = page.toNat + 4096 := BitVec.toNat_add_of_lt (by rw [toNat_pgSize]; omega)
      have hle : (page + pgSize).toNat ≤ limit.toNat := by omega
      have hrest := @ih fuel (page + pgSize) (pd.setEntry page e) rest (by omega) (by omega) (by omega)
        fun va hl hu => by
          rw [PageDirectory.isSome_table_setEntry]
          exact htable va ((le_iff_page_or_next hofs hnext va).mpr (.inr hl)) hu
      rw [PageDirectory.unmapped_setEntry hofs hnext e htable₀ hentry] at hrest
      rw [List.length_cons, Nat.add_le_add_iff_right]
      refine ⟨fun hgrow => ?_, hrest.2⟩
      obtain ⟨pd', hok, hgrown⟩ := hrest.1 hgrow
      exact ⟨pd', hok, hgrown.of_setEntry hofs hnext e htable₀ hle⟩
    · rw [if_neg hcan] at hstep
      refine ⟨fun ⟨hnone, hlength⟩ => ?_, fun _ => hstep⟩
      refine absurd ⟨fun hnil => ?_, hnone page (BitVec.le_refl page) hlt⟩ hcan
      rw [hnil] at hlength
      exact absurd hlength (by simp)

/-! ## One fault -/

/-- Every page from `PHYS_BASE - current_stack` on is mapped. -/
def UserSpace.StackMapped (u : UserSpace) : Prop :=
  ∀ va, physBase - u.currentStack ≤ va → va < physBase → (u.pagedir.entry va).isSome = true

/-- The pages that are mapped keep their frames. -/
def UserSpace.Keeps (u u' : UserSpace) : Prop :=
  ∀ va e, u.pagedir.entry va = some e → u'.pagedir.entry va = some e

/-- What holds between the faults of a process. -/
structure UserSpace.Stacked (u : UserSpace) : Prop where
  aligned : u.currentStack.toNat % 4096 = 0
  low : 4096 ≤ u.currentStack.toNat
  high : u.currentStack.toNat ≤ 20 * 4096
  mapped : u.StackMapped

/-- The process is terminated, or its stack is mapped and no page has another frame; no assertion has failed. -/
def UserSpace.HandledBy (u : UserSpace) : Except LoadStop FaultEnd → Prop
  | .ok .exits => True
  | .ok (.returns u') => u'.StackMapped ∧ u.Keeps u'
  | .error _ => False

/-- The stack is to grow. -/
def Fault.Grows (f : Fault pool) (u : UserSpace) : Prop :=
  (f.notPresent = true ∧ isUserVaddr f.faultAddr = true) ∧
    f.faultAddr < physBase - u.currentStack ∧ f.faultAddr ≥ physBase - pgSize * 20 ∧ f.esp - 32 ≤ f.faultAddr

instance (f : Fault pool) (u : UserSpace) : Decidable (f.Grows u) :=
  inferInstanceAs (Decidable ((_ ∧ _) ∧ _ ∧ _ ∧ _))

/-- There is room for the pages that it grows by, and there are as many frames. -/
def Fault.CanGrow (f : Fault pool) (u : UserSpace) : Prop :=
  f.Grows u → u.pagedir.Unmapped (pgRoundDown f.faultAddr) (physBase - u.currentStack) ∧
    (physBase - u.currentStack - pgRoundDown f.faultAddr).toNat / 4096 ≤ f.found.length

theorem UserSpace.Stacked.toNat_limit {u : UserSpace} (h : u.Stacked) :
    (physBase - u.currentStack).toNat = 0xc0000000 - u.currentStack.toNat := by
  have hhigh := h.high
  rw [BitVec.toNat_sub_of_le (by rw [BitVec.le_def, toNat_physBase]; omega), toNat_physBase]

/-- The page of the fault is one of the twenty below `PHYS_BASE`, and below the stack. -/
theorem Fault.Grows.page {u : UserSpace} {f : Fault pool} (hgrows : f.Grows u) (h : u.Stacked) :
    (pgRoundDown f.faultAddr).toNat % 4096 = 0 ∧ 0xc0000000 - 20 * 4096 ≤ (pgRoundDown f.faultAddr).toNat ∧
      (pgRoundDown f.faultAddr).toNat + 4096 ≤ (physBase - u.currentStack).toNat := by
  obtain ⟨-, hlt, hge, -⟩ := hgrows
  have hlow : (physBase - pgSize * 20).toNat = 0xc0000000 - 20 * 4096 := by decide
  have haligned := h.aligned
  have hhigh := h.high
  rw [BitVec.lt_def, h.toNat_limit] at hlt
  rw [ge_iff_le, BitVec.le_def, hlow] at hge
  rw [toNat_pgRoundDown, h.toNat_limit]
  omega

/-- The twenty pages have one page table, the one of the first page of the stack. -/
theorem UserSpace.Stacked.table {u : UserSpace} (h : u.Stacked) {va : Word} (hl : 0xc0000000 - 20 * 4096 ≤ va.toNat)
    (hu : va.toNat < 0xc0000000) : (u.pagedir.table (pdNo va)).isSome = true := by
  have htop : (u.pagedir.entry (physBase - 1)).isSome = true := by
    have hlow := h.low
    refine h.mapped _ ?_ (by decide)
    rw [BitVec.le_def, h.toNat_limit, show (physBase - 1).toNat = 0xc0000000 - 1 by decide]
    omega
  have hsame : pdNo va = pdNo (physBase - 1) := by
    rw [pdNo_eq, pdNo_eq, show (physBase - 1).toNat = 0xc0000000 - 1 by decide]
    omega
  rw [hsame]
  obtain ⟨e, he⟩ := Option.isSome_iff_exists.mp htop
  obtain ⟨pt, hpt, -⟩ := Option.bind_eq_some_iff.mp he
  rw [hpt]
  rfl

/-- `page_fault` does not grow the stack. -/
theorem pageFault_exits {u : UserSpace} {f : Fault pool} (h : ¬f.Grows u) : pageFault u f = .ok .exits := by
  unfold pageFault
  by_cases hbad : ¬f.notPresent ∨ ¬isUserVaddr f.faultAddr
  · rw [if_pos hbad]
    rfl
  · rw [if_neg hbad, if_neg]
    · rfl
    · intro hcond
      rw [not_or, not_not, not_not] at hbad
      exact h ⟨hbad, hcond⟩

/-- `page_fault` grows the stack. -/
theorem pageFault_grows {u : UserSpace} {f : Fault pool} (h : f.Grows u) :
    pageFault u f =
      (growStack (physBase - u.currentStack) f.tablePage (2 ^ 20 + 1) (pgRoundDown f.faultAddr) u.pagedir f.found >>=
        fun pd => .ok (.returns ⟨pd, physBase - pgRoundDown f.faultAddr⟩)) := by
  unfold pageFault
  rw [if_neg (by rw [not_or, not_not, not_not]; exact h.1), if_pos h.2]
  rfl

/-- **A page fault.**  Where the stack can grow it does, and where it is to grow and cannot an assertion fails. -/
theorem pageFault_spec {u : UserSpace} {f : Fault pool} (h : u.Stacked) (hgrows : f.Grows u) :
    (f.CanGrow u → ∃ u', pageFault u f = .ok (.returns u') ∧ u'.Stacked ∧ u.Keeps u') ∧
      (¬f.CanGrow u → pageFault u f = .error .assertion) := by
  obtain ⟨hofs, hlow, hbelow⟩ := hgrows.page h
  have hlimit := h.toNat_limit
  have haligned := h.aligned
  have hstack := h.low
  set page := pgRoundDown f.faultAddr
  set limit := physBase - u.currentStack
  have hsub : (limit - page).toNat = limit.toNat - page.toNat :=
    BitVec.toNat_sub_of_le (by rw [BitVec.le_def]; omega)
  have hiff : f.CanGrow u ↔ u.pagedir.Unmapped page limit ∧ (limit - page).toNat / 4096 ≤ f.found.length :=
    ⟨fun hcan => hcan hgrows, fun hcan _ => hcan⟩
  obtain ⟨hgrown, hfails⟩ := @growStack_spec pool f.tablePage limit (by omega)
    ((limit - page).toNat / 4096) (2 ^ 20 + 1) page u.pagedir f.found (by omega) hofs (by omega) fun va hl hu => by
      rw [BitVec.le_def] at hl
      rw [BitVec.lt_def] at hu
      exact h.table (by omega) (by omega)
  rw [pageFault_grows hgrows, hiff]
  refine ⟨fun hcan => ?_, fun hcan => by rw [hfails hcan]; rfl⟩
  obtain ⟨pd', hok, hmapped, hkept, -⟩ := hgrown hcan
  have hnew : (physBase - page).toNat = 0xc0000000 - page.toNat :=
    BitVec.toNat_sub_of_le (by rw [BitVec.le_def, toNat_physBase]; omega)
  have hback : physBase - (physBase - page) = page := by
    generalize physBase = base
    bv_omega
  rw [hok]
  refine ⟨_, rfl, ⟨by rw [hnew]; omega, by rw [hnew]; omega, by rw [hnew]; omega, fun va hl hu => ?_⟩,
    fun va e he => ?_⟩
  · rw [hback] at hl
    by_cases hva : va < limit
    · exact hmapped va hl hva
    · have hge : limit ≤ va := BitVec.not_lt.mp hva
      rw [show _ = u.pagedir.entry va from hkept va fun h => hva h.2]
      exact h.mapped va hge hu
  · rw [← he]
    refine hkept va fun hrange => ?_
    rw [hcan.1 va hrange.1 hrange.2] at he
    cases he

theorem handledBy_iff {u : UserSpace} (h : u.Stacked) (f : Fault pool) : u.HandledBy (pageFault u f) ↔ f.CanGrow u := by
  by_cases hgrows : f.Grows u
  · obtain ⟨hcan, hfails⟩ := pageFault_spec h hgrows
    by_cases hgrow : f.CanGrow u
    · obtain ⟨u', hok, hstacked, hkeeps⟩ := hcan hgrow
      rw [hok]
      exact iff_of_true ⟨hstacked.mapped, hkeeps⟩ hgrow
    · rw [hfails hgrow]
      exact iff_of_false id hgrow
  · rw [pageFault_exits hgrows]
    exact iff_of_true trivial fun h => absurd h hgrows

/-! ## Runs -/

/-- A fault after which the process goes on. -/
def FaultStep (pool : UserPool) (u : UserSpace) (f : Fault pool) (u' : UserSpace) : Prop :=
  pageFault u f = .ok (.returns u')

/-- **A fault keeps the stack mapped.** -/
theorem UserSpace.Stacked.step {u u' : UserSpace} {f : Fault pool} (h : u.Stacked) (hs : FaultStep pool u f u') :
    u'.Stacked ∧ u.Keeps u' := by
  unfold FaultStep at hs
  by_cases hgrows : f.Grows u
  · obtain ⟨hcan, hfails⟩ := pageFault_spec h hgrows
    by_cases hgrow : f.CanGrow u
    · obtain ⟨u₁, hok, hstacked, hkeeps⟩ := hcan hgrow
      rw [hok] at hs
      cases hs
      exact ⟨hstacked, hkeeps⟩
    · rw [hfails hgrow] at hs
      cases hs
  · rw [pageFault_exits hgrows] at hs
    cases hs

/-- The pages of a process that has been loaded are in the page tables. -/
def PageDirectory.Maps (dir : PageDirectory) (pd : Pagedir) : Prop :=
  ∀ va, pgOfs va = 0 → isUserVaddr va = true → (dir.entry va).isSome = (pd va).isSome

/-- A process that has been loaded has the first page of its stack. -/
theorem load_stack {file : Option ExecFile} {pd₀ pd : Pagedir} {x : Word × Word}
    (h : Loads (load file) pd₀ (.ok (some x)) pd) : (pd (physBase - pgSize)).isSome = true := by
  have hwp : Prog.wp loadEffect (load file)
      (fun r pd => r.isSome = true → (pd (physBase - pgSize)).isSome = true) (fun _ _ => True) pd₀ := by
    simp only [load, Prog.wp_bind, wp_pallocGetPage]
    intro b
    cases b with
    | false => simp
    | true =>
      cases file with
      | none => simp
      | some file =>
        refine (Prog.wp_bind _ _).mpr (wp_fileRead.mpr fun limit => ?_)
        dsimp only
        split_ifs with hshort hvalid
        · simp
        · simp
        · refine (Prog.wp_bind _ _).mpr
            (Prog.wp_mono (MapsUserOnly.loadHeaders _ _ _) (fun ok pd₁ _ => ?_) fun _ _ h => h.elim)
          cases ok with
          | false => simp
          | true =>
            have hstack : Prog.wp loadEffect setupStack
                (fun esp pd => esp.isSome = true → (pd (physBase - pgSize)).isSome = true) (fun _ _ => True) pd₁ := by
              simp only [setupStack, Prog.wp_bind, wp_pallocGetPage]
              intro b
              cases b with
              | false => simp
              | true =>
                simp only [if_true, Prog.wp_bind]
                refine wp_installPage (by decide) (by decide) (by simp) fun _ _ => ?_
                rw [Function.update_self]
                rfl
            refine Prog.wp_seq hstack fun esp pd₂ h => ?_
            cases esp with
            | none => simp
            | some esp => exact fun _ => h rfl
  exact Prog.wp_iff_ends.mp hwp _ _ h rfl

/-- `init_thread` has set `current_stack`. -/
theorem loaded_stacked {file : Option ExecFile} {x : Word × Word} {pd : Pagedir} {dir : PageDirectory}
    (hload : Loads (load file) (fun _ => none) (.ok (some x)) pd) (hdir : dir.Maps pd) :
    UserSpace.Stacked ⟨dir, pgSize⟩ := by
  refine ⟨show pgSize.toNat % 4096 = 0 by decide, show 4096 ≤ pgSize.toNat by decide,
    show pgSize.toNat ≤ 20 * 4096 by decide, fun va hl hu => ?_⟩
  have htop : (dir.entry (physBase - pgSize)).isSome = true := by
    rw [hdir _ (by decide) (by decide)]
    exact load_stack hload
  rw [BitVec.le_def, show (physBase - pgSize).toNat = 0xc0000000 - 4096 by decide] at hl
  rw [BitVec.lt_def, toNat_physBase] at hu
  have hpage : va.toNat / 4096 = (physBase - pgSize).toNat / 4096 := by
    rw [show (physBase - pgSize).toNat = 0xc0000000 - 4096 by decide]
    omega
  exact (congrArg Option.isSome (dir.entry_congr hpage)).trans htop

/-- **When the stack can grow.**  In every state to which the faults of a loaded process lead, `page_fault` terminates
the process or maps the pages, without a failing assertion, if and only if none of these pages is mapped and
`palloc_get_page` finds as many, or the stack is not to grow; and no page has got another frame. -/
theorem stack_growth_iff {file : Option ExecFile} {x : Word × Word} {pd : Pagedir} {dir : PageDirectory}
    (hload : Loads (load file) (fun _ => none) (.ok (some x)) pd) (hdir : dir.Maps pd) {fs : List (Fault pool)}
    {u : UserSpace} (hrun : Trace (FaultStep pool) ⟨dir, pgSize⟩ fs u) (f : Fault pool) :
    (u.HandledBy (pageFault u f) ↔ f.CanGrow u) ∧ u.StackMapped ∧ UserSpace.Keeps ⟨dir, pgSize⟩ u := by
  have hI : u.Stacked ∧ UserSpace.Keeps ⟨dir, pgSize⟩ u := by
    refine hrun.invariant (I := fun u => u.Stacked ∧ UserSpace.Keeps ⟨dir, pgSize⟩ u) (fun u f u' hI hs => ?_)
      ⟨loaded_stacked hload hdir, fun _ _ h => h⟩
    obtain ⟨hstacked, hkeeps⟩ := hI.1.step hs
    exact ⟨hstacked, fun va e he => hkeeps va e (hI.2 va e he)⟩
  exact ⟨handledBy_iff hI.1 f, hI.1.mapped, hI.2⟩

/-! ## A process with a segment below its stack -/

/-- The page directory with the pages of a process in one frame. -/
def PageDirectory.ofPages (pd : Pagedir) : PageDirectory where
  table := fun n => some fun m =>
    if (pd (BitVec.ofNat 32 (4096 * (1024 * n + m)))).isSome then some ⟨0xc0400000#32, true⟩ else none

theorem PageDirectory.ofPages_maps (pd : Pagedir) : (PageDirectory.ofPages pd).Maps pd := by
  intro va hofs _
  have hpage : BitVec.ofNat 32 (4096 * (1024 * pdNo va + ptNo va)) = va := by
    have hofs := congrArg BitVec.toNat hofs
    rw [toNat_pgOfs] at hofs
    apply BitVec.eq_of_toNat_eq
    have hlt := va.isLt
    have hzero : (0 : Word).toNat = 0 := rfl
    rw [BitVec.toNat_ofNat, pdNo_eq, ptNo_eq]
    omega
  have hentry : (ofPages pd).entry va =
      if (pd (BitVec.ofNat 32 (4096 * (1024 * pdNo va + ptNo va)))).isSome then some ⟨0xc0400000#32, true⟩
      else none := rfl
  rw [hentry, hpage]
  cases pd va <;> rfl

/-- Every allocation succeeds, and every read. -/
def calm : Prog.Handler LoadOp LoadOp.Ans Pagedir
  | .palloc, pd => (true, pd)
  | .readLimit, pd => (4096, pd)
  | .getPagedir, pd => (pd, pd)
  | .setPagedir new, _ => ((), new)

/-- An executable with one segment, of one byte, in the third page below `PHYS_BASE`. -/
def highSegment : ExecFile where
  bytes :=
    [0x7f, 0x45, 0x4c, 0x46, 1, 1, 1, 0, 0, 0, 0, 0, 0, 0, 0, 0, 2, 0, 3, 0, 1, 0, 0, 0, 0, 0, 0, 0, 52, 0, 0, 0,
      0, 0, 0, 0, 0, 0, 0, 0, 0, 0, 32, 0, 1, 0, 0, 0, 0, 0, 0, 0,
      1, 0, 0, 0, 0, 0, 0, 0, 0, 0xd0, 0xff, 0xbf, 0, 0, 0, 0, 0, 0, 0, 0, 1, 0, 0, 0, 6, 0, 0, 0, 0, 0, 0, 0]
  short := by decide
  pos := 0

/-- The pages of the process. -/
def loadedPages : Pagedir := (Prog.run calm (load (some highSegment)) fun _ => none).2

theorem loads_highSegment :
    Loads (load (some highSegment)) (fun _ => none) (.ok (some (0, physBase))) loadedPages := by
  have hends := Prog.ends_run (R := loadEffect) (H := calm)
    (fun o pd => by cases o <;> first | rfl | exact ⟨rfl, rfl⟩) (load (some highSegment)) fun _ => none
  have hresult : (Prog.run calm (load (some highSegment)) fun _ => none).1 = .ok (some (0, physBase)) := rfl
  rwa [hresult] at hends

/-- The user pool of a machine with 8 MB. -/
def smallPool : UserPool where
  base := 0xc0400000#32
  pages := 64
  ramPages := 2048
  aligned := by decide
  low := by decide
  high := by decide
  ram := by decide

/-- A push onto the page below the stack. -/
def nextPageFault : Fault smallPool where
  notPresent := true
  faultAddr := 0xbfffeffc#32
  esp := 0xbffff000#32
  found := [⟨0, by decide⟩]
  tablePage := fun _ => false

/-- An access to the fifth page below `PHYS_BASE`. -/
def farFault : Fault smallPool where
  notPresent := true
  faultAddr := 0xbfffb000#32
  esp := 0xbfffb000#32
  found := [⟨0, by decide⟩, ⟨1, by decide⟩, ⟨2, by decide⟩, ⟨3, by decide⟩]
  tablePage := fun _ => false

/-- The process. -/
def highProcess : UserSpace := ⟨.ofPages loadedPages, pgSize⟩

theorem highProcess_entry {va page : Word} (hofs : pgOfs page = 0) (huser : isUserVaddr page = true)
    (hpage : va.toNat / 4096 = page.toNat / 4096) :
    (highProcess.pagedir.entry va).isSome = (loadedPages page).isSome := by
  rw [PageDirectory.entry_congr _ hpage]
  exact PageDirectory.ofPages_maps loadedPages page hofs huser

/-- The stack of the process grows by a page. -/
theorem stack_growth_next_page : nextPageFault.Grows highProcess ∧
    highProcess.HandledBy (pageFault highProcess nextPageFault) := by
  refine ⟨by decide, (stack_growth_iff loads_highSegment (PageDirectory.ofPages_maps _) (.nil _)
    nextPageFault).1.mpr fun _ => ⟨fun va hl hu => ?_, by decide⟩⟩
  rw [BitVec.le_def, show (pgRoundDown nextPageFault.faultAddr).toNat = 0xbfffe000 by decide] at hl
  rw [BitVec.lt_def, show (physBase - pgSize).toNat = 0xbffff000 by decide] at hu
  rw [← Option.isNone_iff_eq_none, ← Option.not_isSome, Bool.not_eq_true']
  refine (@highProcess_entry va 0xbfffe000#32 (by decide) (by decide) ?_).trans (by decide +kernel)
  rw [show (0xbfffe000#32 : Word).toNat = 0xbfffe000 by decide]
  omega

/-- The stack grows into the segment. -/
theorem growth_into_segment : ¬∀ (pool : UserPool) file x pd dir fs u (f : Fault pool),
    Loads (load file) (fun _ => none) (.ok (some x)) pd → dir.Maps pd →
      Trace (FaultStep pool) ⟨dir, pgSize⟩ fs u → u.HandledBy (pageFault u f) := by
  intro hall
  have hmaps := PageDirectory.ofPages_maps loadedPages
  have hhandled := hall smallPool _ _ _ _ [] highProcess farFault loads_highSegment hmaps (.nil _)
  have hcan : farFault.CanGrow highProcess :=
    (handledBy_iff (loaded_stacked loads_highSegment hmaps) farFault).mp hhandled
  have hnone := (hcan (by decide)).1 0xbfffd000#32 (by decide) (by decide)
  have hmapped : (highProcess.pagedir.entry 0xbfffd000#32).isSome = true :=
    (highProcess_entry (by decide) (by decide) rfl).trans (by decide +kernel)
  rw [hnone] at hmapped
  cases hmapped

end Pintos.Userprog.StackGrowth
