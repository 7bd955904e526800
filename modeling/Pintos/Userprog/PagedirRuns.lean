import Mathlib.Data.Finset.Dedup
import Pintos.Userprog.PagedirCalls

/-!
# Runs of calls, and destruction

`pagedir_destroy` frees pages while it walks the entries, so that its loops are followed on memory in which pages have
been freed already (`freePages`).

`pagedir_refines`: every run of calls does to the words what it means for the space, touches no other entry, and
`pagedir_destroy` then frees what the space has.
-/

namespace Pintos.Userprog.Pagedir

open Pintos.Threads
open Pintos.Userprog.StackGrowth (pdNo ptNo pdNo_eq ptNo_eq)

/-! ## Destruction -/

/-- Memory after pages have been freed in an order. -/
def Memory.freePages (s : Memory) (ps : List Word) : Memory where
  word p := if p ∈ ps then fun _ => 0xcccccccc else s.word p
  used := s.used \ ps.toFinset
  freed := s.freed ++ ps

/-- The pages that `pagedir_destroy` frees for the entries of a page table. -/
def Space.pagesOf (sp : Space) (i : ℕ) (js : List ℕ) : List Word := js.filterMap fun j => sp.page (i * 1024 + j)

/-- The pages that it frees for an entry of the page directory. -/
def Space.freedBy (sp : Space) (i : ℕ) : List Word :=
  match sp.table i with
  | none => []
  | some pt => sp.pagesOf i (List.range 1024) ++ [pt]

section

variable {k : Setup} {base : Finset Word} {pd : Word} {s s' : Memory} {sp sp' : Space} {va vb pt p : Word} {i j : ℕ}
  {ps qs : List Word}

theorem Memory.freePages_nil (s : Memory) : s.freePages [] = s := by
  simp [Memory.freePages]

theorem Memory.freePages_freePages (s : Memory) (ps qs : List Word) :
    (s.freePages ps).freePages qs = s.freePages (ps ++ qs) := by
  simp only [Memory.freePages, List.toFinset_append, List.append_assoc, Memory.mk.injEq, and_true]
  constructor
  · funext p
    by_cases hq : p ∈ qs <;> by_cases hp : p ∈ ps <;> simp [hq, hp]
  · rw [Finset.sdiff_sdiff_left']
    ext p
    simp only [Finset.mem_inter, Finset.mem_sdiff, Finset.mem_union]
    tauto

theorem Memory.pallocFreePage_eq (hp : IsPage p) (hused : p ∈ s.used) :
    s.pallocFreePage p = some (s.freePages [p]) := by
  unfold Memory.pallocFreePage
  rw [if_pos ⟨hp.1, hused⟩]
  congr 1
  simp only [Memory.freePages, Memory.mk.injEq, and_true]
  constructor
  · funext q
    by_cases hq : q = p
    · subst hq
      simp
    · simp [hq]
  · ext q
    simp [and_comm]

/-- One page more is freed. -/
theorem Memory.freePages_step (hp : IsPage p ∧ p ∈ s.used) (hnot : p ∉ qs) :
    (s.freePages qs).pallocFreePage p = some (s.freePages (qs ++ [p])) := by
  have hused : p ∈ (s.freePages qs).used := Finset.mem_sdiff.mpr ⟨hp.2, by rwa [List.mem_toFinset]⟩
  rw [Memory.pallocFreePage_eq hp.1 hused, Memory.freePages_freePages]

/-- The loop over a page table frees the pages that are mapped, in their order. -/
theorem destroyPtes_eq (qs : List Word) (js : List ℕ)
    (h : ∀ n, n / 1024 = i → PteOf (s.word pt (n % 1024)) (sp.page n)) (hjs : ∀ j ∈ js, j < 1024)
    (hpages : ∀ p ∈ sp.pagesOf i js, IsPage p ∧ p ∈ s.used)
    (hnodup : (qs ++ sp.pagesOf i js).Nodup) (hpt : pt ∉ qs ++ sp.pagesOf i js) :
    destroyPtes pt js (s.freePages qs) = some (s.freePages (qs ++ sp.pagesOf i js)) := by
  induction js generalizing qs with
  | nil =>
    rw [Space.pagesOf, List.filterMap_nil, List.append_nil]
    rfl
  | cons j js ih =>
    have hj := hjs j List.mem_cons_self
    have hjs' : ∀ j ∈ js, j < 1024 := fun j hj => hjs j (List.mem_cons_of_mem _ hj)
    have hpte := h (i * 1024 + j) (by omega)
    rw [show (i * 1024 + j) % 1024 = j by omega] at hpte
    have hword : (s.freePages qs).word pt = s.word pt := if_neg fun hmem => hpt (List.mem_append_left _ hmem)
    unfold destroyPtes
    rw [hword]
    cases hpage : sp.page (i * 1024 + j) with
    | none =>
      have hpagesOf : sp.pagesOf i (j :: js) = sp.pagesOf i js := List.filterMap_cons_none hpage
      rw [hpagesOf] at hpages hnodup hpt ⊢
      rw [hpage] at hpte
      have hzero : s.word pt j &&& pteP = 0 := hpte
      rw [if_neg (not_not.mpr hzero)]
      exact ih qs hjs' hpages hnodup hpt
    | some p =>
      have hpagesOf : sp.pagesOf i (j :: js) = p :: sp.pagesOf i js := List.filterMap_cons_some hpage
      rw [hpagesOf] at hpages hnodup hpt ⊢
      rw [hpage] at hpte
      have hnot : p ∉ qs := fun hmem => (List.nodup_append.mp hnodup).2.2 p hmem p List.mem_cons_self rfl
      rw [if_pos hpte.1, hpte.2]
      rw [List.append_cons] at hnodup hpt ⊢
      simp only [Option.bind_eq_bind, Option.bind_some, Memory.freePages_step (hpages p List.mem_cons_self) hnot]
      exact ih _ hjs' (fun q hq => hpages q (List.mem_cons_of_mem _ hq)) hnodup hpt

/-- The loop over the page directory frees the pages of each page table and then the page table. -/
theorem destroyPdes_eq (qs : List Word) (is : List ℕ) (h : Represents k base pd s sp)
    (his : ∀ i ∈ is, i < 768) (hpages : ∀ p ∈ is.flatMap sp.freedBy, IsPage p ∧ p ∈ s.used)
    (hnodup : (qs ++ is.flatMap sp.freedBy).Nodup) (hpd : pd ∉ qs ++ is.flatMap sp.freedBy) :
    destroyPdes pd is (s.freePages qs) = some (s.freePages (qs ++ is.flatMap sp.freedBy)) := by
  induction is generalizing qs with
  | nil =>
    rw [List.flatMap_nil, List.append_nil]
    rfl
  | cons i is ih =>
    have hi := his i List.mem_cons_self
    have his' : ∀ i ∈ is, i < 768 := fun i hi => his i (List.mem_cons_of_mem _ hi)
    have hdir := h.directory i (by omega)
    unfold tableOf at hdir
    rw [if_pos hi] at hdir
    have hword : (s.freePages qs).word pd = s.word pd := if_neg fun hmem => hpd (List.mem_append_left _ hmem)
    unfold destroyPdes
    rw [hword]
    rw [List.flatMap_cons] at hpages hnodup hpd ⊢
    cases ht : sp.table i with
    | none =>
      have hfreed : sp.freedBy i = [] := by
        unfold Space.freedBy
        rw [ht]
      rw [hfreed, List.nil_append] at hpages hnodup hpd ⊢
      rw [ht] at hdir
      have hzero : s.word pd i &&& pteP = 0 := by
        rw [show s.word pd i = 0#32 from hdir, BitVec.zero_and]
        rfl
      rw [if_neg (not_not.mpr hzero)]
      exact ih qs his' hpages hnodup hpd
    | some pt =>
      have hfreed : sp.freedBy i = sp.pagesOf i (List.range 1024) ++ [pt] := by
        unfold Space.freedBy
        rw [ht]
      rw [hfreed] at hpages hnodup hpd ⊢
      rw [ht] at hdir
      obtain ⟨-, hbit, hget⟩ := pdeGetPt_of_pdeCreate (h.ok.tables i pt ht).2.1 hdir
      rw [if_pos hbit, hget]
      -- first the pages, then the page table, then the others
      rw [← List.append_assoc, ← List.append_assoc] at hnodup hpd ⊢
      obtain ⟨hnodup₁, -, -⟩ := List.nodup_append.mp hnodup
      obtain ⟨hnodup₂, -, hpt⟩ := List.nodup_append.mp hnodup₁
      have hnot : pt ∉ qs ++ sp.pagesOf i (List.range 1024) := fun hmem =>
        hpt pt hmem pt (List.mem_singleton_self pt) rfl
      have hptes := destroyPtes_eq qs (List.range 1024)
        (fun n hn => h.entries n pt (hn ▸ ht)) (fun j hj => List.mem_range.mp hj)
        (fun p hp => hpages p (List.mem_append_left _ (List.mem_append_left _ hp))) hnodup₂ hnot
      have hfreept := Memory.freePages_step (hpages pt (List.mem_append_left _ (List.mem_append_right _
        (List.mem_singleton_self pt)))) hnot
      simp only [Option.bind_eq_bind, Option.bind_some, hptes, hfreept]
      exact ih _ his' (fun p hp => hpages p (List.mem_append_right _ hp)) hnodup hpd

theorem Space.Ok.mem_freedBy (h : sp.Ok k base) :
    p ∈ sp.freedBy i ↔ (∃ n, n / 1024 = i ∧ sp.page n = some p) ∨ sp.table i = some p := by
  unfold Space.freedBy
  cases ht : sp.table i with
  | none =>
    simp only [List.not_mem_nil, reduceCtorEq, or_false, false_iff, not_exists, not_and]
    intro n hn hpage
    rw [h.page_eq_none (hn ▸ ht)] at hpage
    cases hpage
  | some pt =>
    rw [List.mem_append, List.mem_singleton, Option.some.injEq, eq_comm (a := p)]
    apply or_congr_left
    unfold Space.pagesOf
    rw [List.mem_filterMap]
    constructor
    · intro ⟨j, hj, hp⟩
      have hlt := List.mem_range.mp hj
      exact ⟨i * 1024 + j, by omega, hp⟩
    · intro ⟨n, hn, hp⟩
      refine ⟨n % 1024, List.mem_range.mpr (Nat.mod_lt _ (by omega)), ?_⟩
      rw [show i * 1024 + n % 1024 = n by omega]
      exact hp

/-- What the loops free. -/
theorem Space.Ok.mem_freed (h : sp.Ok k base) : p ∈ (List.range 768).flatMap sp.freedBy ↔
    (∃ n, sp.page n = some p) ∨ ∃ i, sp.table i = some p := by
  rw [List.mem_flatMap]
  constructor
  · intro ⟨i, _, hp⟩
    rcases h.mem_freedBy.mp hp with ⟨n, -, hn⟩ | hi
    · exact .inl ⟨n, hn⟩
    · exact .inr ⟨i, hi⟩
  · intro hp
    rcases hp with ⟨n, hn⟩ | ⟨i, hi⟩
    · obtain ⟨pt, hpt⟩ := Option.isSome_iff_exists.mp (h.pages n p hn).2
      exact ⟨n / 1024, List.mem_range.mpr (h.tables _ pt hpt).1, h.mem_freedBy.mpr (.inl ⟨n, rfl, hn⟩)⟩
    · exact ⟨i, List.mem_range.mpr (h.tables i p hi).1, h.mem_freedBy.mpr (.inr hi)⟩

/-- Nothing is freed twice. -/
theorem Space.Ok.nodup_freed (h : sp.Ok k base) (hl : Layout k base pd) :
    ((List.range 768).flatMap sp.freedBy).Nodup := by
  have hdisj : ∀ n i p, sp.page n = some p → sp.table i ≠ some p := by
    intro n i p hn hi
    exact (h.tables i p hi).2.2 (hl.frames p (h.pages n p hn).1).2.2
  apply List.nodup_flatMap.mpr
  constructor
  · intro i _
    unfold Space.freedBy
    cases ht : sp.table i with
    | none => exact List.nodup_nil
    | some pt =>
      refine List.nodup_append.mpr ⟨?_, List.nodup_singleton pt, ?_⟩
      · apply List.Nodup.filterMap _ List.nodup_range
        intro j l p hj hl
        have hjl := h.pages_inj _ _ p hj hl
        omega
      · intro p hp q hq hpq
        obtain ⟨j, -, hj⟩ := List.mem_filterMap.mp hp
        rw [hpq, List.mem_singleton.mp hq] at hj
        exact hdisj _ _ _ hj ht
  · apply List.Pairwise.imp _ List.nodup_range
    intro i j hij p hi hj
    rcases h.mem_freedBy.mp hi with ⟨n, hn, hpn⟩ | hti <;> rcases h.mem_freedBy.mp hj with ⟨m, hm, hpm⟩ | htj
    · have hnm := h.pages_inj n m p hpn hpm
      exact hij (hn ▸ hm ▸ hnm ▸ rfl)
    · exact hdisj n j p hpn htj
    · exact hdisj m i p hpm hti
    · exact hij (h.tables_inj i j p hti htj)

/-- **`pagedir_destroy` frees what the space has, each page once.** -/
theorem Represents.pagedirDestroy (h : Represents k base pd s sp) (hl : Layout k base pd) :
    ∃ s' pages, pagedirDestroy s pd k.initPageDir = some s' ∧ s'.freed = s.freed ++ pages ∧ pages.Nodup ∧
      (∀ p, p ∈ pages ↔ (∃ n, sp.page n = some p) ∨ (∃ i, sp.table i = some p) ∨ p = pd) ∧
      ∀ i kt, k.kernelTable i = some kt → kt ∉ pages := by
  have hmem : ∀ p, p ∈ (List.range 768).flatMap sp.freedBy → IsPage p ∧ p ∈ s.used ∧ p ≠ pd := by
    intro p hp
    rcases h.ok.mem_freed.mp hp with ⟨n, hn⟩ | ⟨i, hi⟩
    · obtain ⟨hpage, -, hbase⟩ := hl.frames p (h.ok.pages n p hn).1
      exact ⟨hpage, (h.used p).mpr (.inl hbase), fun heq => hl.directory.2.2 (heq ▸ (h.ok.pages n p hn).1)⟩
    · obtain ⟨-, hpage, hbase⟩ := h.ok.tables i p hi
      exact ⟨hpage, (h.used p).mpr (.inr ⟨i, hi⟩), fun heq => hbase (heq ▸ hl.directory.2.1)⟩
  have hnodup := h.ok.nodup_freed hl
  have hpd : pd ∉ (List.range 768).flatMap sp.freedBy := fun hp => (hmem pd hp).2.2 rfl
  have hloop := destroyPdes_eq [] (List.range 768) h (fun i hi => List.mem_range.mp hi)
    (fun p hp => ⟨(hmem p hp).1, (hmem p hp).2.1⟩) (by rwa [List.nil_append]) (by rwa [List.nil_append])
  rw [Memory.freePages_nil, List.nil_append] at hloop
  have hfree := Memory.freePages_step ⟨hl.directory.1, (h.used pd).mpr (.inl hl.directory.2.1)⟩ hpd
  have hzero : pd ≠ 0 := by
    intro heq
    have hle := hl.directory.1.2
    rw [heq] at hle
    exact absurd hle (by decide)
  refine ⟨s.freePages ((List.range 768).flatMap sp.freedBy ++ [pd]), _, ?_, rfl, ?_, ?_, ?_⟩
  · unfold Pagedir.pagedirDestroy
    rw [if_neg hzero, if_neg hl.init.2.symm, show pdNo physBase = 768 from rfl, hloop]
    exact hfree
  · refine List.nodup_append.mpr ⟨hnodup, List.nodup_singleton pd, ?_⟩
    intro p hp q hq hpq
    rw [hpq, List.mem_singleton.mp hq] at hp
    exact hpd hp
  · intro p
    rw [List.mem_append, List.mem_singleton, h.ok.mem_freed, or_assoc]
  · intro i kt hkt hmem
    obtain ⟨-, -, hbase, hframes, -, hne⟩ := hl.kernel i kt hkt
    rw [List.mem_append, List.mem_singleton, h.ok.mem_freed] at hmem
    rcases hmem with (⟨n, hn⟩ | ⟨j, hj⟩) | heq
    · exact hframes (h.ok.pages n kt hn).1
    · exact (h.ok.tables j kt hj).2.2 hbase
    · exact hne heq

/-! ## Runs -/

/-- A sequence of calls on the page directory `pd`. -/
def Call.execs (initRamPages pd : Word) : Memory → List Call → Option (List Result × Memory)
  | s, [] => some ([], s)
  | s, c :: cs => (c.exec initRamPages pd s).bind fun r =>
      (Call.execs initRamPages pd r.2 cs).map fun rs => (r.1 :: rs.1, rs.2)

/-- The kernel's part after a run: its page directory entries are as they were, and its page table entries too but for
the accessed and dirty bits, which change only with a call for a kernel address. -/
structure KernelKept (k : Setup) (pd : Word) (cs : List Call) (s s' : Memory) : Prop where
  pdes : ∀ i, 768 ≤ i → s'.word pd i = s.word pd i
  initPageDir : s'.word k.initPageDir = s.word k.initPageDir
  flags : ∀ i kt, k.kernelTable i = some kt → ∀ j,
    s'.word kt j &&& ~~~(pteA ||| pteD) = s.word kt j &&& ~~~(pteA ||| pteD)
  ptes : (∀ c ∈ cs, isUserVaddr c.addr = true) → ∀ i kt, k.kernelTable i = some kt → s'.word kt = s.word kt

/-- A run of calls does to the words what it means for the space. -/
theorem execs_refine {calls : List (Call × Result)} (ht : Trace (Means k base) sp calls sp')
    (h : Represents k base pd s sp) (hl : Layout k base pd) :
    ∃ s', Call.execs k.initRamPages pd s (calls.map Prod.fst) = some (calls.map Prod.snd, s') ∧
      Represents k base pd s' sp' ∧ KernelKept k pd (calls.map Prod.fst) s s' := by
  induction ht generalizing s with
  | nil sp => exact ⟨s, rfl, h, fun _ _ => rfl, rfl, fun _ _ _ _ => rfl, fun _ _ _ _ => rfl⟩
  | @cons sp sp₁ sp' c cs head tail ih =>
    obtain ⟨c, r⟩ := c
    obtain ⟨s₁, hrun₁, h₁, hch⟩ := head.refines h hl
    obtain ⟨s', hrun, h', hkept⟩ := ih h₁
    refine ⟨s', ?_, h', ?_⟩
    · show (c.exec k.initRamPages pd s).bind _ = _
      rw [hrun₁, Option.bind_some, hrun]
      rfl
    · constructor
      · intro i hi
        rw [hkept.pdes i hi, hch.kernelPdes i hi]
      · rw [hkept.initPageDir, hch.initPageDir]
      · intro i kt hkt j
        rw [hkept.flags i kt hkt j, hch.kernelFlags i kt hkt j]
      · intro huser i kt hkt
        rw [hkept.ptes (fun c hc => huser c (List.mem_cons_of_mem _ hc)) i kt hkt,
          hch.kernelPtes i kt hkt (huser c List.mem_cons_self)]

/-- The layout of a new page directory. -/
theorem Booted.layout (hb : Booted k s) (hpd : IsPage pd) (hnew : pd ∉ s.used) : Layout k (insert pd s.used) pd := by
  refine ⟨?_, hb.tables_inj, ?_, ⟨hpd, Finset.mem_insert_self _ _, ?_⟩, ?_⟩
  · intro i kt hkt
    obtain ⟨hi, hp, hused, hframes, hinit⟩ := hb.tables i kt hkt
    exact ⟨hi, hp, Finset.mem_insert_of_mem hused, hframes, hinit, fun heq => hnew (heq ▸ hused)⟩
  · intro p hp
    obtain ⟨hpage, hram, hused⟩ := hb.frames p hp
    exact ⟨hpage, hram, Finset.mem_insert_of_mem hused⟩
  · exact fun hmem => hnew (hb.frames pd hmem).2.2
  · exact ⟨Finset.mem_insert_of_mem hb.initPageDir.1, fun heq => hnew (heq ▸ hb.initPageDir.1)⟩

/-- `pagedir_create` makes a page directory without user pages. -/
theorem Booted.pagedirCreate (hb : Booted k s) :
    Represents k (insert pd s.used) pd (pagedirCreate s k.initPageDir (some pd)).2 ⟨fun _ => none, fun _ => none⟩ := by
  refine ⟨⟨?_, ?_, ?_, ?_⟩, ?_, ?_, ?_⟩
  · intro i pt h
    cases h
  · intro i j pt h
    cases h
  · intro n p h
    cases h
  · intro n m p h
    cases h
  · intro i hi
    show PdeOf (Function.update s.word pd (s.word k.initPageDir) pd i) _
    rw [Function.update_self]
    unfold tableOf
    split
    · rename_i hlt
      exact hb.user i hlt
    · rename_i hlt
      exact hb.kernel i (by omega) hi
  · intro n pt h
    cases h
  · intro p
    simp [Pagedir.pagedirCreate]

/-- **A page directory is a partial map.**  After every run of calls on a page directory that `pagedir_create` has
made, the calls have returned what they mean; the kernel's page directory entries are as they were, and so are its page
table entries but for the accessed and dirty bits, which only calls for kernel addresses change; the next call changes
no entry but that of its page; and `pagedir_destroy` frees the pages that are mapped, the page tables and the directory,
each once, and no page table of the kernel. -/
theorem pagedir_refines (hb : Booted k s) (hpd : IsPage pd) (hnew : pd ∉ s.used) {calls : List (Call × Result)}
    (ht : Trace (Means k (insert pd s.used)) ⟨fun _ => none, fun _ => none⟩ calls sp) :
    ∃ s', Call.execs k.initRamPages pd (pagedirCreate s k.initPageDir (some pd)).2 (calls.map Prod.fst) =
        some (calls.map Prod.snd, s') ∧
      KernelKept k pd (calls.map Prod.fst) (pagedirCreate s k.initPageDir (some pd)).2 s' ∧
      (∀ c r sp', Means k (insert pd s.used) sp (c, r) sp' →
        ∃ s'', c.exec k.initRamPages pd s' = some (r, s'') ∧
          ∀ va, pageNo va ≠ pageNo c.addr → entry s'' pd va = entry s' pd va) ∧
      ∃ s'' pages, pagedirDestroy s' pd k.initPageDir = some s'' ∧ s''.freed = s'.freed ++ pages ∧ pages.Nodup ∧
        (∀ p, p ∈ pages ↔ (∃ n, sp.page n = some p) ∨ (∃ i, sp.table i = some p) ∨ p = pd) ∧
        ∀ i kt, k.kernelTable i = some kt → kt ∉ pages := by
  have hl := hb.layout hpd hnew
  obtain ⟨s', hrun, h', hkept⟩ := execs_refine ht hb.pagedirCreate hl
  refine ⟨s', hrun, hkept, ?_, h'.pagedirDestroy hl⟩
  intro c r sp' hm
  obtain ⟨s'', hrun', -, hch⟩ := hm.refines h' hl
  exact ⟨s'', hrun', hch.others⟩

end

/-! ## A small machine -/

/-- A kernel with 4 MB of memory and one frame for the process. -/
def smallSetup : Setup where
  initRamPages := 1024
  initPageDir := 0xc0101000
  kernelTable i := if i = 768 then some 0xc0102000 else none
  frames := {0xc0200000}

/-- Its memory, with an entry for the first page. -/
def smallMemory : Memory where
  word p i := if p = 0xc0101000 ∧ i = 768 then 0x00102007 else if p = 0xc0102000 ∧ i = 0 then 0x3 else 0
  used := {0xc0101000, 0xc0102000, 0xc0200000}
  freed := []

theorem small_booted : Booted smallSetup smallMemory := by
  refine ⟨?_, ?_, ?_, ?_, ?_, by decide⟩
  · intro i hi
    have hne : i ≠ 768 := hi.ne
    simp [smallSetup, smallMemory, hne]
  · intro i _ _
    by_cases hi : i = 768
    · subst hi
      rfl
    · simp [smallSetup, smallMemory, hi, PdeOf]
  · intro i kt hkt
    obtain ⟨hi, rfl⟩ : i = 768 ∧ 0xc0102000 = kt := by
      simpa [smallSetup] using hkt
    exact ⟨hi.ge, by decide⟩
  · intro i j kt hi hj
    have hi' : i = 768 := by
      by_contra hne
      simp [smallSetup, hne] at hi
    have hj' : j = 768 := by
      by_contra hne
      simp [smallSetup, hne] at hj
    rw [hi', hj']
  · intro p hp
    obtain rfl : p = 0xc0200000 := Finset.mem_singleton.mp hp
    decide

/-- `pagedir_set_dirty` for the first page of the kernel changes the kernel's entry. -/
theorem kernel_entry_changes : Booted smallSetup smallMemory ∧ IsPage 0xc0103000 ∧ 0xc0103000 ∉ smallMemory.used ∧
    ∃ s', (Call.setDirty 0xc0000000 true).exec 1024 0xc0103000
        (pagedirCreate smallMemory 0xc0101000 (some 0xc0103000)).2 = some (.done, s') ∧
      entry s' 0xc0103000 0xc0000000 ≠
        entry (pagedirCreate smallMemory 0xc0101000 (some 0xc0103000)).2 0xc0103000 0xc0000000 :=
  ⟨small_booted, by decide, by decide, _, rfl, by decide⟩

/-- A page is mapped and looked up, and is then mapped no more. -/
theorem pagedir_refines_small : ∃ s',
    Call.execs 1024 0xc0103000 (pagedirCreate smallMemory 0xc0101000 (some 0xc0103000)).2
        [.setPage 0x08048000 0xc0200000 true (some 0xc0104000), .getPage 0x08048123, .clearPage 0x08048000] =
      some ([.success true, .page (some 0xc0200123), .done], s') ∧
    ∃ s'' pages, pagedirDestroy s' 0xc0103000 0xc0101000 = some s'' ∧ s''.freed = s'.freed ++ pages ∧ pages.Nodup := by
  set base : Finset Word := insert 0xc0103000 smallMemory.used
  set sp : Space := ((⟨fun _ => none, fun _ => none⟩ : Space).withTable (pdNo 0x08048000) 0xc0104000).withPage
    (pageNo 0x08048000) (some 0xc0200000)
  have hset : Means smallSetup base ⟨fun _ => none, fun _ => none⟩
      (.setPage 0x08048000 0xc0200000 true (some 0xc0104000), .success true) sp :=
    .setPageNew (by decide) (by decide) rfl (by decide) (by simp) rfl (by decide) (by decide) (by simp)
  have hget : Means smallSetup base sp (.getPage 0x08048123, .page (some 0xc0200123)) sp := by
    have hpage : (sp.page (pageNo 0x08048123)).map (· + pgOfs 0x08048123) = some 0xc0200123 := by decide
    rw [← hpage]
    exact .getPage (by decide)
  have hclear : Means smallSetup base sp (.clearPage 0x08048000, .done) (sp.withPage (pageNo 0x08048000) none) :=
    .clearPage (by decide) (by decide)
  obtain ⟨s', hrun, -, -, s'', pages, hdestroy, hfreed, hnodup, -⟩ :=
    pagedir_refines small_booted (by decide) (by decide) (.cons hset (.cons hget (.single hclear)))
  exact ⟨s', hrun, s'', pages, hdestroy, hfreed, hnodup⟩

end Pintos.Userprog.Pagedir
