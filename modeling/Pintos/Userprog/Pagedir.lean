import Mathlib.Data.Finset.Basic
import Pintos.Userprog.StackGrowth

/-!
# The page directory

`userprog/pagedir.c` and `threads/pte.h` on memory that consists of pages of words: a page directory and its page
tables are pages like any other, and an entry is a word with an address and flags.

`Space` is what a page directory stands for: a partial map from user pages to pages, and the page tables made so far.
`Represents` says that the words in memory are those of a space; the kernel's part is that of `init_page_dir`.
-/

namespace Pintos.Userprog.Pagedir

open Pintos.Threads
open Pintos.Userprog.StackGrowth (pdNo ptNo pdNo_eq ptNo_eq)

/-! ## Entries -/

/-- `PTE_ADDR` -/
def pteAddr : Word := 0xfffff000#32

/-- `PTE_P` -/
def pteP : Word := 0x1#32

/-- `PTE_W` -/
def pteW : Word := 0x2#32

/-- `PTE_U` -/
def pteU : Word := 0x4#32

/-- `PTE_A` -/
def pteA : Word := 0x20#32

/-- `PTE_D` -/
def pteD : Word := 0x40#32

/-- `vtop` -/
def vtop (vaddr : Word) : Option Word := if physBase ≤ vaddr then some (vaddr - physBase) else none

/-- `ptov` -/
def ptov (paddr : Word) : Option Word := if paddr < physBase then some (paddr + physBase) else none

/-- `pde_create` -/
def pdeCreate (pt : Word) : Option Word :=
  if pgOfs pt = 0 then (vtop pt).map fun paddr => paddr ||| pteU ||| pteP ||| pteW else none

/-- `pde_get_pt` -/
def pdeGetPt (pde : Word) : Option Word := if pde &&& pteP ≠ 0 then ptov (pde &&& pteAddr) else none

/-- `pte_create_kernel` -/
def pteCreateKernel (page : Word) (writable : Bool) : Option Word :=
  if pgOfs page = 0 then (vtop page).map fun paddr => paddr ||| pteP ||| (if writable then pteW else 0) else none

/-- `pte_create_user` -/
def pteCreateUser (page : Word) (writable : Bool) : Option Word :=
  (pteCreateKernel page writable).map fun pte => pte ||| pteU

/-- `pte_get_page` -/
def pteGetPage (pte : Word) : Option Word := ptov (pte &&& pteAddr)

/-! ## Memory -/

/-- The words of the pages, the pages that `palloc_get_page` has given out, and those that have been freed, in their
order. -/
structure Memory where
  word : Word → ℕ → Word
  used : Finset Word
  freed : List Word

namespace Memory

/-- `*entry = w`, for the entry with an index in a page. -/
def setWord (s : Memory) (entry : Word × ℕ) (w : Word) : Memory :=
  { s with word := Function.update s.word entry.1 (Function.update (s.word entry.1) entry.2 w) }

/-- `palloc_get_page (PAL_ZERO)` that has found a page. -/
def zeroPage (s : Memory) (page : Word) : Memory :=
  { s with word := Function.update s.word page fun _ => 0, used := insert page s.used }

/-- `palloc_free_page` -/
def pallocFreePage (s : Memory) (page : Word) : Option Memory :=
  if pgOfs page = 0 ∧ page ∈ s.used then
    some { word := Function.update s.word page fun _ => 0xcccccccc, used := s.used.erase page,
           freed := s.freed ++ [page] }
  else none

end Memory

/-! ## The code -/

/-- `pagedir_create`, where `palloc_get_page` returns `palloc`. -/
def pagedirCreate (s : Memory) (initPageDir : Word) (palloc : Option Word) : Option Word × Memory :=
  match palloc with
  | none => (none, s)
  | some pd => (some pd, { s with word := Function.update s.word pd (s.word initPageDir), used := insert pd s.used })

/-- The page table that `lookup_page` makes if it is to, and `palloc_get_page` returns `palloc`; whether there is
one. -/
def createTable (s : Memory) (pd vaddr : Word) (create : Bool) (palloc : Option Word) : Option (Bool × Memory) :=
  match create, palloc with
  | false, _ => some (false, s)
  | true, none => some (false, s)
  | true, some pt => (pdeCreate pt).map fun pde => (true, (s.zeroPage pt).setWord (pd, pdNo vaddr) pde)

/-- `lookup_page` -/
def lookupPage (s : Memory) (pd vaddr : Word) (create : Bool) (palloc : Option Word) :
    Option (Option (Word × ℕ) × Memory) :=
  if create = true → isUserVaddr vaddr = true then do
    let (found, s) ← (if s.word pd (pdNo vaddr) = 0 then createTable s pd vaddr create palloc else some (true, s))
    if found then do
      let pt ← pdeGetPt (s.word pd (pdNo vaddr))
      return (some (pt, ptNo vaddr), s)
    else return (none, s)
  else none

/-- `pagedir_set_page` -/
def pagedirSetPage (initRamPages : Word) (s : Memory) (pd upage kpage : Word) (writable : Bool) (palloc : Option Word) :
    Option (Bool × Memory) := do
  let paddr ← vtop kpage
  if pgOfs upage = 0 ∧ pgOfs kpage = 0 ∧ isUserVaddr upage = true ∧ paddr >>> 12 < initRamPages then do
    let (pte, s) ← lookupPage s pd upage true palloc
    match pte with
    | some pte =>
      if s.word pte.1 pte.2 &&& pteP = 0 then do
        let w ← pteCreateUser kpage writable
        return (true, s.setWord pte w)
      else none
    | none => return (false, s)
  else none

/-- `pagedir_get_page` -/
def pagedirGetPage (s : Memory) (pd uaddr : Word) : Option (Option Word) :=
  if isUserVaddr uaddr = true then do
    let (pte, _) ← lookupPage s pd uaddr false none
    match pte with
    | some pte =>
      if s.word pte.1 pte.2 &&& pteP ≠ 0 then do
        let page ← pteGetPage (s.word pte.1 pte.2)
        return some (page + pgOfs uaddr)
      else return none
    | none => return none
  else none

/-- `pagedir_clear_page`; `invalidate_pagedir` does nothing to memory. -/
def pagedirClearPage (s : Memory) (pd upage : Word) : Option Memory :=
  if pgOfs upage = 0 ∧ isUserVaddr upage = true then do
    let (pte, _) ← lookupPage s pd upage false none
    match pte with
    | some pte =>
      if s.word pte.1 pte.2 &&& pteP ≠ 0 then return s.setWord pte (s.word pte.1 pte.2 &&& ~~~pteP)
      else return s
    | none => return s
  else none

/-- The body of `pagedir_set_dirty` and `pagedir_set_accessed`. -/
def setFlag (flag : Word) (s : Memory) (pd vpage : Word) (on : Bool) : Option Memory := do
  let (pte, _) ← lookupPage s pd vpage false none
  match pte with
  | some pte =>
    if on then return s.setWord pte (s.word pte.1 pte.2 ||| flag)
    else return s.setWord pte (s.word pte.1 pte.2 &&& ~~~flag)
  | none => return s

/-- `pagedir_set_dirty` -/
def pagedirSetDirty (s : Memory) (pd vpage : Word) (dirty : Bool) : Option Memory := setFlag pteD s pd vpage dirty

/-- `pagedir_set_accessed` -/
def pagedirSetAccessed (s : Memory) (pd vpage : Word) (accessed : Bool) : Option Memory :=
  setFlag pteA s pd vpage accessed

/-- The loop of `pagedir_destroy` over the entries of a page table. -/
def destroyPtes (pt : Word) : List ℕ → Memory → Option Memory
  | [], s => some s
  | j :: js, s =>
    if s.word pt j &&& pteP ≠ 0 then do
      let page ← pteGetPage (s.word pt j)
      let s ← s.pallocFreePage page
      destroyPtes pt js s
    else destroyPtes pt js s

/-- The loop over the entries of the page directory. -/
def destroyPdes (pd : Word) : List ℕ → Memory → Option Memory
  | [], s => some s
  | i :: is, s =>
    if s.word pd i &&& pteP ≠ 0 then do
      let pt ← pdeGetPt (s.word pd i)
      let s ← destroyPtes pt (List.range 1024) s
      let s ← s.pallocFreePage pt
      destroyPdes pd is s
    else destroyPdes pd is s

/-- `pagedir_destroy` -/
def pagedirDestroy (s : Memory) (pd initPageDir : Word) : Option Memory :=
  if pd = 0 then some s
  else if pd = initPageDir then none
  else do
    let s ← destroyPdes pd (List.range (pdNo physBase)) s
    s.pallocFreePage pd

/-- A call, with what `palloc_get_page` returns in it. -/
inductive Call
  | setPage (upage kpage : Word) (writable : Bool) (palloc : Option Word)
  | clearPage (upage : Word)
  | setDirty (vpage : Word) (dirty : Bool)
  | setAccessed (vpage : Word) (accessed : Bool)
  | getPage (uaddr : Word)

/-- What a call returns. -/
inductive Result
  | done
  | success (b : Bool)
  | page (kaddr : Option Word)
  deriving DecidableEq

/-- A call on the page directory `pd`. -/
def Call.exec (initRamPages pd : Word) (s : Memory) : Call → Option (Result × Memory)
  | .setPage upage kpage writable palloc =>
    (pagedirSetPage initRamPages s pd upage kpage writable palloc).map fun r => (.success r.1, r.2)
  | .clearPage upage => (pagedirClearPage s pd upage).map fun s => (.done, s)
  | .setDirty vpage dirty => (pagedirSetDirty s pd vpage dirty).map fun s => (.done, s)
  | .setAccessed vpage accessed => (pagedirSetAccessed s pd vpage accessed).map fun s => (.done, s)
  | .getPage uaddr => (pagedirGetPage s pd uaddr).map fun p => (.page p, s)

/-- The address that a call is about. -/
def Call.addr : Call → Word
  | .setPage upage _ _ _ => upage
  | .clearPage upage => upage
  | .setDirty vpage _ => vpage
  | .setAccessed vpage _ => vpage
  | .getPage uaddr => uaddr

/-! ## What it stands for -/

/-- The number of the page of an address. -/
def pageNo (va : Word) : ℕ := va.toNat / 4096

/-- A page of the kernel's memory. -/
def IsPage (p : Word) : Prop := pgOfs p = 0 ∧ physBase ≤ p

instance (p : Word) : Decidable (IsPage p) := inferInstanceAs (Decidable (_ ∧ _))

/-- What `paging_init` has set up: `init_ram_pages`, `init_page_dir`, and the page tables of the kernel's part; and the
pages that the process has of `palloc_get_page`. -/
structure Setup where
  initRamPages : Word
  initPageDir : Word
  kernelTable : ℕ → Option Word
  frames : Finset Word

/-- The entry of the page directory for a page table, or for none. -/
def PdeOf (w : Word) : Option Word → Prop
  | none => w = 0
  | some pt => pdeCreate pt = some w

/-- Memory in which `paging_init` has made the kernel's page directory, with nothing in the user part. -/
structure Booted (k : Setup) (s : Memory) : Prop where
  user : ∀ i < 768, s.word k.initPageDir i = 0
  kernel : ∀ i, 768 ≤ i → i < 1024 → PdeOf (s.word k.initPageDir i) (k.kernelTable i)
  tables : ∀ i kt, k.kernelTable i = some kt → 768 ≤ i ∧ IsPage kt ∧ kt ∈ s.used ∧ kt ∉ k.frames ∧ kt ≠ k.initPageDir
  tables_inj : ∀ i j kt, k.kernelTable i = some kt → k.kernelTable j = some kt → i = j
  frames : ∀ p ∈ k.frames, IsPage p ∧ (p - physBase) >>> 12 < k.initRamPages ∧ p ∈ s.used
  initPageDir : k.initPageDir ∈ s.used ∧ k.initPageDir ∉ k.frames

/-- The pages that the user pages are mapped to, and the page tables that have been made, by their numbers. -/
structure Space where
  page : ℕ → Option Word
  table : ℕ → Option Word

/-- The space with another page table. -/
def Space.withTable (sp : Space) (i : ℕ) (pt : Word) : Space :=
  { sp with table := Function.update sp.table i (some pt) }

/-- The space with a user page mapped to a page, or not mapped. -/
def Space.withPage (sp : Space) (n : ℕ) (p : Option Word) : Space := { sp with page := Function.update sp.page n p }

/-- **What a call does to the map, and what it returns**, for a caller that keeps the contract: user pages are mapped
that are not, to pages that it has and that are mapped nowhere; `base` are the pages in use when the directory is new,
and `palloc_get_page` returns another one. -/
inductive Means (k : Setup) (base : Finset Word) (sp : Space) : Call × Result → Space → Prop
  | setPage {upage kpage pt : Word} {writable : Bool} {palloc : Option Word} (hofs : pgOfs upage = 0)
      (huser : isUserVaddr upage = true) (hfree : sp.page (pageNo upage) = none) (hk : kpage ∈ k.frames)
      (hno : ∀ n, sp.page n ≠ some kpage) (ht : sp.table (pdNo upage) = some pt) :
      Means k base sp (.setPage upage kpage writable palloc, .success true)
        (sp.withPage (pageNo upage) (some kpage))
  | setPageNew {upage kpage pt : Word} {writable : Bool} (hofs : pgOfs upage = 0)
      (huser : isUserVaddr upage = true) (hfree : sp.page (pageNo upage) = none) (hk : kpage ∈ k.frames)
      (hno : ∀ n, sp.page n ≠ some kpage) (ht : sp.table (pdNo upage) = none) (hpt : IsPage pt) (hbase : pt ∉ base)
      (hnew : ∀ i, sp.table i ≠ some pt) :
      Means k base sp (.setPage upage kpage writable (some pt), .success true)
        ((sp.withTable (pdNo upage) pt).withPage (pageNo upage) (some kpage))
  | setPageFails {upage kpage : Word} {writable : Bool} (hofs : pgOfs upage = 0)
      (huser : isUserVaddr upage = true) (hk : kpage ∈ k.frames) (ht : sp.table (pdNo upage) = none) :
      Means k base sp (.setPage upage kpage writable none, .success false) sp
  | clearPage {upage : Word} (hofs : pgOfs upage = 0) (huser : isUserVaddr upage = true) :
      Means k base sp (.clearPage upage, .done) (sp.withPage (pageNo upage) none)
  | setDirty {vpage : Word} {dirty : Bool} : Means k base sp (.setDirty vpage dirty, .done) sp
  | setAccessed {vpage : Word} {accessed : Bool} : Means k base sp (.setAccessed vpage accessed, .done) sp
  | getPage {uaddr : Word} (huser : isUserVaddr uaddr = true) :
      Means k base sp (.getPage uaddr, .page ((sp.page (pageNo uaddr)).map (· + pgOfs uaddr))) sp

/-- The page table entry of a page that is mapped, or not. -/
def PteOf (w : Word) : Option Word → Prop
  | none => w &&& pteP = 0
  | some p => w &&& pteP ≠ 0 ∧ pteGetPage w = some p

/-- The page table for a part of the address space. -/
def tableOf (k : Setup) (sp : Space) (i : ℕ) : Option Word := if i < 768 then sp.table i else k.kernelTable i

/-- What a page directory can stand for. -/
structure Space.Ok (k : Setup) (base : Finset Word) (sp : Space) : Prop where
  tables : ∀ i pt, sp.table i = some pt → i < 768 ∧ IsPage pt ∧ pt ∉ base
  tables_inj : ∀ i j pt, sp.table i = some pt → sp.table j = some pt → i = j
  pages : ∀ n p, sp.page n = some p → p ∈ k.frames ∧ (sp.table (n / 1024)).isSome = true
  pages_inj : ∀ n m p, sp.page n = some p → sp.page m = some p → n = m

/-- The pages at the creation of `pd`. -/
structure Layout (k : Setup) (base : Finset Word) (pd : Word) : Prop where
  kernel : ∀ i kt, k.kernelTable i = some kt →
    768 ≤ i ∧ IsPage kt ∧ kt ∈ base ∧ kt ∉ k.frames ∧ kt ≠ k.initPageDir ∧ kt ≠ pd
  kernel_inj : ∀ i j kt, k.kernelTable i = some kt → k.kernelTable j = some kt → i = j
  frames : ∀ p ∈ k.frames, IsPage p ∧ (p - physBase) >>> 12 < k.initRamPages ∧ p ∈ base
  directory : IsPage pd ∧ pd ∈ base ∧ pd ∉ k.frames
  init : k.initPageDir ∈ base ∧ k.initPageDir ≠ pd

/-- **The words of `pd` and its page tables are those of the space.** -/
structure Represents (k : Setup) (base : Finset Word) (pd : Word) (s : Memory) (sp : Space) : Prop where
  ok : sp.Ok k base
  directory : ∀ i < 1024, PdeOf (s.word pd i) (tableOf k sp i)
  entries : ∀ n pt, sp.table (n / 1024) = some pt → PteOf (s.word pt (n % 1024)) (sp.page n)
  used : ∀ p, p ∈ s.used ↔ p ∈ base ∨ ∃ i, sp.table i = some p

/-- The page table entry for an address; 0 where there is no page table. -/
def entry (s : Memory) (pd va : Word) : Word :=
  if s.word pd (pdNo va) = 0 then 0
  else ((pdeGetPt (s.word pd (pdNo va))).map fun pt => s.word pt (ptNo va)).getD 0

/-! ## Words -/

/-- The address in an entry whose flags are below it. -/
theorem pteAddr_or {p f : Word} (hp : pgOfs p = 0) (hf : f &&& pteAddr = 0#32) : (p ||| f) &&& pteAddr = p := by
  have hround : p &&& pteAddr = p := by
    show pgRoundDown p = p
    have hofs := toNat_pgOfs p
    rw [hp] at hofs
    apply BitVec.eq_of_toNat_eq
    rw [toNat_pgRoundDown, ← hofs]
    rfl
  rw [BitVec.and_or_distrib_right, hround, hf, BitVec.or_zero]

theorem pteP_or {p f : Word} (hf : f &&& pteP = pteP) : (p ||| f) &&& pteP ≠ 0 := by
  intro h
  have hbit := congrArg (fun w : Word => w.getLsbD 0) h
  have hfbit := congrArg (fun w : Word => w.getLsbD 0) hf
  simp [pteP] at hbit hfbit
  simp [hfbit] at hbit

theorem vtop_of_isPage {p : Word} (hp : IsPage p) : vtop p = some (p - physBase) := if_pos hp.2

theorem pgOfs_sub {p : Word} (hp : IsPage p) : pgOfs (p - physBase) = 0 := by
  have hofs := toNat_pgOfs p
  have hle := hp.2
  rw [hp.1] at hofs
  rw [BitVec.le_def, toNat_physBase] at hle
  apply BitVec.eq_of_toNat_eq
  rw [toNat_pgOfs, BitVec.toNat_sub_of_le hp.2, toNat_physBase]
  simp at hofs ⊢
  omega

theorem ptov_sub {p : Word} (hp : IsPage p) : ptov (p - physBase) = some p := by
  have hle := hp.2
  have hlt : p - physBase < physBase := by
    rw [BitVec.le_def, toNat_physBase] at hle
    rw [BitVec.lt_def, BitVec.toNat_sub_of_le hp.2, toNat_physBase]
    omega
  unfold ptov
  rw [if_pos hlt, BitVec.sub_add_cancel]

/-- An entry with the address of a page has this page. -/
theorem ptov_and {p f : Word} (hp : IsPage p) (hf : f &&& pteAddr = 0#32) :
    ptov ((p - physBase ||| f) &&& pteAddr) = some p := by
  rw [pteAddr_or (pgOfs_sub hp) hf, ptov_sub hp]

theorem pdeCreate_isPage {pt : Word} (hp : IsPage pt) :
    pdeCreate pt = some (pt - physBase ||| (pteU ||| pteP ||| pteW)) := by
  unfold pdeCreate
  rw [if_pos hp.1, vtop_of_isPage hp]
  simp only [Option.map_some, BitVec.or_assoc]

theorem pdeGetPt_of_pdeCreate {pt pde : Word} (hp : IsPage pt) (h : pdeCreate pt = some pde) :
    pde ≠ 0 ∧ pde &&& pteP ≠ 0 ∧ pdeGetPt pde = some pt := by
  rw [pdeCreate_isPage hp] at h
  cases h
  have hbit := pteP_or (p := pt - physBase) (f := pteU ||| pteP ||| pteW) (by decide)
  refine ⟨?_, hbit, ?_⟩
  · intro h
    rw [h] at hbit
    exact hbit BitVec.zero_and
  · unfold pdeGetPt
    rw [if_pos hbit, ptov_and hp (by decide)]

theorem pteCreateUser_isPage {p : Word} (hp : IsPage p) (writable : Bool) :
    ∃ w, pteCreateUser p writable = some w ∧ PteOf w (some p) := by
  refine ⟨p - physBase ||| (pteP ||| ((if writable then pteW else 0) ||| pteU)), ?_, ?_⟩
  · unfold pteCreateUser pteCreateKernel
    rw [if_pos hp.1, vtop_of_isPage hp, Option.map_some, Option.map_some, BitVec.or_assoc, BitVec.or_assoc]
  · cases writable <;> exact ⟨pteP_or (by decide), ptov_and hp (by decide)⟩

/-- The flags that are no part of the address and not `PTE_P` do not matter. -/
theorem pteOf_or {w f : Word} {p : Option Word} (hp : f &&& pteP = 0#32) (ha : f &&& pteAddr = 0#32) :
    PteOf (w ||| f) p ↔ PteOf w p := by
  cases p <;>
  · unfold PteOf pteGetPage
    simp only [BitVec.and_or_distrib_right, hp, ha, BitVec.or_zero]

theorem pteOf_and_not {w f : Word} {p : Option Word} (hp : ~~~f &&& pteP = pteP) (ha : ~~~f &&& pteAddr = pteAddr) :
    PteOf (w &&& ~~~f) p ↔ PteOf w p := by
  cases p <;>
  · unfold PteOf pteGetPage
    simp only [BitVec.and_assoc, hp, ha]

theorem pteOf_clear (w : Word) : PteOf (w &&& ~~~pteP) none := by
  have hnot : ~~~pteP &&& pteP = 0#32 := by decide
  show w &&& ~~~pteP &&& pteP = 0
  rw [BitVec.and_assoc, hnot, BitVec.and_zero]
  rfl

theorem pdNo_eq_pageNo (va : Word) : pdNo va = pageNo va / 1024 := pdNo_eq va

theorem ptNo_eq_pageNo (va : Word) : ptNo va = pageNo va % 1024 := ptNo_eq va

theorem pdNo_lt (va : Word) : pdNo va < 1024 := by
  have hlt := va.isLt
  rw [pdNo_eq]
  omega

theorem isUserVaddr_iff_pdNo {va : Word} : isUserVaddr va = true ↔ pdNo va < 768 := by
  rw [isUserVaddr_iff, pdNo_eq]
  omega

end Pintos.Userprog.Pagedir
