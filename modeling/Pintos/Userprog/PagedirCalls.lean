import Pintos.Userprog.Pagedir

/-!
# The calls on a page directory

One word of one page table is written by every call, and a page of zeros and one word of the page directory if a page
table is made (`Represents.setWord`, `Represents.newTable`).  From these two each call does to the words what it means
for the space, and changes no entry but the one it is about (`Means.refines`).
-/

namespace Pintos.Userprog.Pagedir

open Pintos.Threads
open Pintos.Userprog.StackGrowth (pdNo ptNo pdNo_eq ptNo_eq)

/-! ## The words of a space -/

section

variable {k : Setup} {base : Finset Word} {pd : Word} {s s' : Memory} {sp sp' : Space} {va vb pt : Word} {i j : ℕ}

theorem Space.Ok.tableOf_inj (h : sp.Ok k base) (hl : Layout k base pd) (hi : tableOf k sp i = some pt)
    (hj : tableOf k sp j = some pt) : i = j := by
  unfold tableOf at hi hj
  split at hi <;> split at hj
  · exact h.tables_inj i j pt hi hj
  · exact absurd (hl.kernel j pt hj).2.2.1 (h.tables i pt hi).2.2
  · exact absurd (hl.kernel i pt hi).2.2.1 (h.tables j pt hj).2.2
  · exact hl.kernel_inj i j pt hi hj

/-- A page table is a page of its own. -/
theorem Space.Ok.tableOf_page (h : sp.Ok k base) (hl : Layout k base pd) (ht : tableOf k sp i = some pt) :
    IsPage pt ∧ pt ≠ pd ∧ pt ≠ k.initPageDir ∧ pt ∉ k.frames := by
  unfold tableOf at ht
  split at ht
  · obtain ⟨-, hp, hbase⟩ := h.tables i pt ht
    refine ⟨hp, ?_, ?_, ?_⟩
    · exact fun heq => hbase (heq ▸ hl.directory.2.1)
    · exact fun heq => hbase (heq ▸ hl.init.1)
    · exact fun hmem => hbase (hl.frames pt hmem).2.2
  · obtain ⟨-, hp, -, hframes, hinit, hpd⟩ := hl.kernel i pt ht
    exact ⟨hp, hpd, hinit, hframes⟩

/-- `lookup_page` that makes no page table finds the one that is there. -/
theorem Represents.lookupPage (h : Represents k base pd s sp) (hl : Layout k base pd) (va : Word)
    (palloc : Option Word) : lookupPage s pd va false palloc =
      some ((tableOf k sp (pdNo va)).map fun pt => (pt, ptNo va), s) := by
  have hdir := h.directory (pdNo va) (pdNo_lt va)
  unfold Pagedir.lookupPage
  rw [if_pos (by simp)]
  cases ht : tableOf k sp (pdNo va) with
  | none =>
    rw [ht] at hdir
    have hzero : s.word pd (pdNo va) = 0 := hdir
    simp [hzero, createTable]
  | some pt =>
    rw [ht] at hdir
    obtain ⟨hne, -, hget⟩ := pdeGetPt_of_pdeCreate (h.ok.tableOf_page hl ht).1 hdir
    rw [if_neg hne]
    simp [hget]

theorem Represents.entry_eq (h : Represents k base pd s sp) (hl : Layout k base pd) (va : Word) :
    entry s pd va = ((tableOf k sp (pdNo va)).map fun pt => s.word pt (ptNo va)).getD 0 := by
  have hdir := h.directory (pdNo va) (pdNo_lt va)
  unfold entry
  cases ht : tableOf k sp (pdNo va) with
  | none =>
    rw [ht] at hdir
    exact if_pos hdir
  | some pt =>
    rw [ht] at hdir
    obtain ⟨hne, -, hget⟩ := pdeGetPt_of_pdeCreate (h.ok.tableOf_page hl ht).1 hdir
    rw [if_neg hne, hget]

/-- The entry of a user page is one for the page that it is mapped to. -/
theorem Represents.pteOf (h : Represents k base pd s sp) (ht : sp.table (pdNo va) = some pt) :
    PteOf (s.word pt (ptNo va)) (sp.page (pageNo va)) := by
  rw [pdNo_eq_pageNo] at ht
  rw [ptNo_eq_pageNo]
  exact h.entries (pageNo va) pt ht

/-! ## What a call changes -/

/-- Nothing but the entry for an address has changed, and no kernel entry if it is a user address; otherwise the
accessed and dirty bits at most. -/
structure Changes (k : Setup) (pd va : Word) (s s' : Memory) : Prop where
  others : ∀ vb, pageNo vb ≠ pageNo va → entry s' pd vb = entry s pd vb
  kernelPdes : ∀ i, 768 ≤ i → s'.word pd i = s.word pd i
  initPageDir : s'.word k.initPageDir = s.word k.initPageDir
  kernelPtes : ∀ i kt, k.kernelTable i = some kt → isUserVaddr va = true → s'.word kt = s.word kt
  kernelFlags : ∀ i kt, k.kernelTable i = some kt → ∀ j,
    s'.word kt j &&& ~~~(pteA ||| pteD) = s.word kt j &&& ~~~(pteA ||| pteD)

theorem Changes.refl (s : Memory) : Changes k pd va s s :=
  ⟨fun _ _ => rfl, fun _ _ => rfl, rfl, fun _ _ _ _ => rfl, fun _ _ _ _ => rfl⟩

theorem Changes.trans {s₁ : Memory} (h : Changes k pd va s s₁) (h' : Changes k pd va s₁ s') : Changes k pd va s s' where
  others vb hvb := (h'.others vb hvb).trans (h.others vb hvb)
  kernelPdes i hi := (h'.kernelPdes i hi).trans (h.kernelPdes i hi)
  initPageDir := h'.initPageDir.trans h.initPageDir
  kernelPtes i kt hkt hva := (h'.kernelPtes i kt hkt hva).trans (h.kernelPtes i kt hkt hva)
  kernelFlags i kt hkt j := (h'.kernelFlags i kt hkt j).trans (h.kernelFlags i kt hkt j)

/-- **Writing the entry for an address.** -/
theorem Represents.setWord (h : Represents k base pd s sp) (hl : Layout k base pd)
    (ht : tableOf k sp (pdNo va) = some pt) {w : Word} (hok : sp'.Ok k base) (htable : sp'.table = sp.table)
    (hself : isUserVaddr va = true → PteOf w (sp'.page (pageNo va)))
    (hother : ∀ n, (isUserVaddr va = true → n ≠ pageNo va) → sp'.page n = sp.page n)
    (hflags : ¬isUserVaddr va = true → w &&& ~~~(pteA ||| pteD) = s.word pt (ptNo va) &&& ~~~(pteA ||| pteD)) :
    Represents k base pd (s.setWord (pt, ptNo va) w) sp' ∧ Changes k pd va s (s.setWord (pt, ptNo va) w) := by
  obtain ⟨hp, hpd, hinit, hframes⟩ := h.ok.tableOf_page hl ht
  have htab : ∀ i, tableOf k sp' i = tableOf k sp i := by
    intro i
    unfold tableOf
    rw [htable]
  have hword : ∀ p, p ≠ pt → (s.setWord (pt, ptNo va) w).word p = s.word p :=
    fun p hp => Function.update_of_ne hp _ _
  have hself' : (s.setWord (pt, ptNo va) w).word pt = Function.update (s.word pt) (ptNo va) w :=
    Function.update_self ..
  have hrep : Represents k base pd (s.setWord (pt, ptNo va) w) sp' := by
    refine ⟨hok, ?_, ?_, ?_⟩
    · intro i hi
      rw [hword pd hpd.symm, htab i]
      exact h.directory i hi
    · intro n pt' hpt'
      rw [htable] at hpt'
      have hn : n / 1024 < 768 := (h.ok.tables _ _ hpt').1
      by_cases hpp : pt' = pt
      · subst hpp
        have hi : n / 1024 = pdNo va := by
          apply h.ok.tableOf_inj hl _ ht
          unfold tableOf
          rw [if_pos hn, hpt']
        have huser : isUserVaddr va = true := isUserVaddr_iff_pdNo.mpr (hi ▸ hn)
        rw [hself']
        by_cases hj : n % 1024 = ptNo va
        · have hnva : n = pageNo va := by
            rw [pdNo_eq_pageNo] at hi
            rw [ptNo_eq_pageNo] at hj
            omega
          rw [hj, Function.update_self, hnva]
          exact hself huser
        · rw [Function.update_of_ne hj, hother n]
          · exact h.entries n pt' hpt'
          · intro _ hnva
            rw [ptNo_eq_pageNo] at hj
            exact hj (hnva ▸ rfl)
      · rw [hword pt' hpp, hother n]
        · exact h.entries n pt' hpt'
        · intro _ hnva
          apply hpp
          rw [hnva, ← pdNo_eq_pageNo] at hpt' hn
          unfold tableOf at ht
          rw [if_pos hn, hpt'] at ht
          exact Option.some.inj ht
    · intro p
      rw [htable]
      exact h.used p
  refine ⟨hrep, ?_, ?_, hword _ hinit.symm, ?_, ?_⟩
  · intro vb hvb
    rw [hrep.entry_eq hl, h.entry_eq hl, htab]
    cases htb : tableOf k sp (pdNo vb) with
    | none => rfl
    | some pt' =>
      show (s.setWord (pt, ptNo va) w).word pt' (ptNo vb) = s.word pt' (ptNo vb)
      by_cases hpp : pt' = pt
      · subst hpp
        have hpdno := h.ok.tableOf_inj hl htb ht
        rw [hself', Function.update_of_ne]
        intro hj
        rw [pdNo_eq_pageNo, pdNo_eq_pageNo] at hpdno
        rw [ptNo_eq_pageNo, ptNo_eq_pageNo] at hj
        omega
      · rw [hword pt' hpp]
  · intro i _
    rw [hword pd hpd.symm]
  · intro i kt hkt huser
    apply hword
    intro hktpt
    subst hktpt
    have hlt := isUserVaddr_iff_pdNo.mp huser
    unfold tableOf at ht
    rw [if_pos hlt] at ht
    exact (h.ok.tables _ _ ht).2.2 (hl.kernel i kt hkt).2.2.1
  · intro i kt hkt j
    by_cases hktpt : kt = pt
    · subst hktpt
      rw [hself', Function.update_apply]
      split
      · rename_i hj
        rw [hj]
        apply hflags
        intro huser
        have hlt := isUserVaddr_iff_pdNo.mp huser
        unfold tableOf at ht
        rw [if_pos hlt] at ht
        exact (h.ok.tables _ _ ht).2.2 (hl.kernel i kt hkt).2.2.1
      · rfl
    · rw [hword kt hktpt]

omit s s' sp' va vb j in
theorem Space.table_withTable_self : (sp.withTable i pt).table i = some pt := Function.update_self ..

theorem Space.table_withTable_of_ne (h : j ≠ i) : (sp.withTable i pt).table j = sp.table j :=
  Function.update_of_ne h _ _

theorem Space.Ok.withTable (h : sp.Ok k base) (hi : i < 768) (hpt : IsPage pt) (hbase : pt ∉ base)
    (hnew : ∀ j, sp.table j ≠ some pt) : (sp.withTable i pt).Ok k base := by
  refine ⟨?_, ?_, ?_, h.pages_inj⟩
  · intro j p hp
    by_cases hj : j = i
    · rw [hj, Space.table_withTable_self] at hp
      cases hp
      exact ⟨hj ▸ hi, hpt, hbase⟩
    · rw [Space.table_withTable_of_ne hj] at hp
      exact h.tables j p hp
  · intro j l p hj hl
    by_cases hji : j = i <;> by_cases hli : l = i
    · rw [hji, hli]
    · rw [hji, Space.table_withTable_self] at hj
      rw [Space.table_withTable_of_ne hli, ← hj] at hl
      exact absurd hl (hnew l)
    · rw [hli, Space.table_withTable_self] at hl
      rw [Space.table_withTable_of_ne hji, ← hl] at hj
      exact absurd hj (hnew j)
    · rw [Space.table_withTable_of_ne hji] at hj
      rw [Space.table_withTable_of_ne hli] at hl
      exact h.tables_inj j l p hj hl
  · intro n p hp
    obtain ⟨hframes, hsome⟩ := h.pages n p hp
    refine ⟨hframes, ?_⟩
    by_cases hn : n / 1024 = i
    · rw [hn, Space.table_withTable_self]
      rfl
    · rw [Space.table_withTable_of_ne hn]
      exact hsome

/-- No page of a part without a page table is mapped. -/
theorem Space.Ok.page_eq_none (h : sp.Ok k base) {n : ℕ} (ht : sp.table (n / 1024) = none) : sp.page n = none := by
  cases hpage : sp.page n with
  | none => rfl
  | some p =>
    have hsome := (h.pages n p hpage).2
    rw [ht] at hsome
    cases hsome

/-- **Making a page table**: it has no entries, so that no address is mapped or unmapped. -/
theorem Represents.newTable (h : Represents k base pd s sp) (hl : Layout k base pd) (huser : isUserVaddr va = true)
    (ht : sp.table (pdNo va) = none) (hpt : IsPage pt) (hbase : pt ∉ base) (hnew : ∀ i, sp.table i ≠ some pt)
    {pde : Word} (hpde : pdeCreate pt = some pde) :
    Represents k base pd ((s.zeroPage pt).setWord (pd, pdNo va) pde) (sp.withTable (pdNo va) pt) ∧
      Changes k pd va s ((s.zeroPage pt).setWord (pd, pdNo va) pde) := by
  have hlt := isUserVaddr_iff_pdNo.mp huser
  have hpd : pd ≠ pt := fun heq => hbase (heq ▸ hl.directory.2.1)
  set s' := (s.zeroPage pt).setWord (pd, pdNo va) pde
  have hword : ∀ p, p ≠ pt → p ≠ pd → s'.word p = s.word p := fun p hp hp' =>
    (Function.update_of_ne hp' _ _).trans (Function.update_of_ne hp _ _)
  have hwordpt : s'.word pt = fun _ => 0 := (Function.update_of_ne hpd.symm _ _).trans (Function.update_self ..)
  have hzero : (s.zeroPage pt).word pd = s.word pd := Function.update_of_ne hpd _ _
  have hwordpd : s'.word pd = Function.update (s.word pd) (pdNo va) pde :=
    (Function.update_self ..).trans (congrArg (fun g => Function.update g (pdNo va) pde) hzero)
  have htab : ∀ i, i ≠ pdNo va → tableOf k (sp.withTable (pdNo va) pt) i = tableOf k sp i := by
    intro i hi
    unfold tableOf
    rw [Space.table_withTable_of_ne hi]
  have htabva : tableOf k (sp.withTable (pdNo va) pt) (pdNo va) = some pt := by
    unfold tableOf
    rw [if_pos hlt, Space.table_withTable_self]
  have hrep : Represents k base pd s' (sp.withTable (pdNo va) pt) := by
    refine ⟨h.ok.withTable hlt hpt hbase hnew, ?_, ?_, ?_⟩
    · intro i hi
      rw [hwordpd]
      by_cases hiv : i = pdNo va
      · rw [hiv, Function.update_self, htabva]
        exact hpde
      · rw [Function.update_of_ne hiv, htab i hiv]
        exact h.directory i hi
    · intro n p hp
      by_cases hn : n / 1024 = pdNo va
      · rw [hn, Space.table_withTable_self] at hp
        cases hp
        have hnone : sp.page n = none := h.ok.page_eq_none (hn ▸ ht)
        rw [hwordpt, show (sp.withTable (pdNo va) pt).page n = none from hnone]
        exact BitVec.zero_and
      · rw [Space.table_withTable_of_ne hn] at hp
        rw [hword p]
        · exact h.entries n p hp
        · exact fun heq => hnew _ (heq ▸ hp)
        · exact fun heq => (h.ok.tables _ _ hp).2.2 (heq ▸ hl.directory.2.1)
    · intro p
      show p ∈ insert pt s.used ↔ _
      rw [Finset.mem_insert, h.used]
      constructor
      · rintro (rfl | hp | ⟨i, hi⟩)
        · exact .inr ⟨pdNo va, Space.table_withTable_self⟩
        · exact .inl hp
        · have hiv : i ≠ pdNo va := by
            intro heq
            rw [heq, ht] at hi
            cases hi
          exact .inr ⟨i, (Space.table_withTable_of_ne hiv).trans hi⟩
      · rintro (hp | ⟨i, hi⟩)
        · exact .inr (.inl hp)
        · by_cases hiv : i = pdNo va
          · rw [hiv, Space.table_withTable_self] at hi
            exact .inl (Option.some.inj hi).symm
          · rw [Space.table_withTable_of_ne hiv] at hi
            exact .inr (.inr ⟨i, hi⟩)
  have hkt : ∀ i kt, k.kernelTable i = some kt → s'.word kt = s.word kt := by
    intro i kt hkt
    obtain ⟨-, -, hktbase, -, -, hktpd⟩ := hl.kernel i kt hkt
    exact hword kt (fun heq => hbase (heq ▸ hktbase)) hktpd
  refine ⟨hrep, ?_, ?_, hword _ (fun heq => hbase (heq ▸ hl.init.1)) hl.init.2, fun i kt hi _ => hkt i kt hi, ?_⟩
  · intro vb _
    rw [hrep.entry_eq hl, h.entry_eq hl]
    by_cases hvb : pdNo vb = pdNo va
    · -- there was no page table for the addresses around
      have hnone : tableOf k sp (pdNo va) = none := by
        unfold tableOf
        rw [if_pos hlt, ht]
      rw [hvb, htabva, hnone]
      show s'.word pt (ptNo vb) = 0
      rw [hwordpt]
    · rw [htab _ hvb]
      cases htb : tableOf k sp (pdNo vb) with
      | none => rfl
      | some p =>
        have hpp : p ≠ pt := by
          intro heq
          unfold tableOf at htb
          split at htb
          · exact hnew _ (heq ▸ htb)
          · exact hbase (heq ▸ (hl.kernel _ p htb).2.2.1)
        show s'.word p (ptNo vb) = s.word p (ptNo vb)
        rw [hword p hpp (h.ok.tableOf_page hl htb).2.1]
  · intro i hi
    rw [hwordpd, Function.update_of_ne]
    omega
  · intro i kt hi j
    rw [hkt i kt hi]

/-! ## The calls -/

/-- `pagedir_set_dirty` and `pagedir_set_accessed` -/
theorem Represents.setFlag (h : Represents k base pd s sp) (hl : Layout k base pd) {flag : Word}
    (hflag : flag = pteA ∨ flag = pteD) (on : Bool) :
    ∃ s', setFlag flag s pd va on = some s' ∧ Represents k base pd s' sp ∧ Changes k pd va s s' := by
  unfold Pagedir.setFlag
  rw [h.lookupPage hl]
  cases ht : tableOf k sp (pdNo va) with
  | none => exact ⟨s, rfl, h, Changes.refl s⟩
  | some pt =>
    have hentry : isUserVaddr va = true → PteOf (s.word pt (ptNo va)) (sp.page (pageNo va)) := by
      intro huser
      apply h.pteOf
      unfold tableOf at ht
      rw [if_pos (isUserVaddr_iff_pdNo.mp huser)] at ht
      exact ht
    cases on with
    | true =>
      have hp : flag &&& pteP = 0#32 := by rcases hflag with rfl | rfl <;> decide
      have ha : flag &&& pteAddr = 0#32 := by rcases hflag with rfl | rfl <;> decide
      have hf : flag &&& ~~~(pteA ||| pteD) = 0#32 := by rcases hflag with rfl | rfl <;> decide
      refine ⟨_, rfl, h.setWord hl ht h.ok rfl ?_ (fun _ _ => rfl) ?_⟩
      · intro huser
        exact (pteOf_or hp ha).mpr (hentry huser)
      · intro _
        rw [BitVec.and_or_distrib_right, hf, BitVec.or_zero]
    | false =>
      have hp : ~~~flag &&& pteP = pteP := by rcases hflag with rfl | rfl <;> decide
      have ha : ~~~flag &&& pteAddr = pteAddr := by rcases hflag with rfl | rfl <;> decide
      have hf : ~~~flag &&& ~~~(pteA ||| pteD) = ~~~(pteA ||| pteD) := by rcases hflag with rfl | rfl <;> decide
      refine ⟨_, rfl, h.setWord hl ht h.ok rfl ?_ (fun _ _ => rfl) ?_⟩
      · intro huser
        exact (pteOf_and_not hp ha).mpr (hentry huser)
      · intro _
        rw [BitVec.and_assoc, hf]

theorem tableOf_user (huser : isUserVaddr va = true) : tableOf k sp (pdNo va) = sp.table (pdNo va) :=
  if_pos (isUserVaddr_iff_pdNo.mp huser)

/-- `pagedir_get_page` -/
theorem Represents.pagedirGetPage (h : Represents k base pd s sp) (hl : Layout k base pd)
    (huser : isUserVaddr va = true) :
    pagedirGetPage s pd va = some ((sp.page (pageNo va)).map (· + pgOfs va)) := by
  unfold Pagedir.pagedirGetPage
  rw [if_pos huser, h.lookupPage hl, tableOf_user huser]
  cases ht : sp.table (pdNo va) with
  | none =>
    rw [h.ok.page_eq_none (pdNo_eq_pageNo va ▸ ht)]
    rfl
  | some pt =>
    have hentry := h.pteOf ht
    cases hpage : sp.page (pageNo va) with
    | none =>
      rw [hpage] at hentry
      exact if_neg (not_not.mpr hentry)
    | some p =>
      rw [hpage] at hentry
      refine (if_pos hentry.1).trans ?_
      show (pteGetPage (s.word pt (ptNo va))).bind _ = _
      rw [hentry.2]
      rfl

theorem Space.Ok.unmap (h : sp.Ok k base) (n : ℕ) : (sp.withPage n none).Ok k base := by
  have hpage : ∀ m p, (sp.withPage n none).page m = some p → sp.page m = some p := by
    intro m p hm
    by_cases hmn : m = n
    · rw [hmn, show (sp.withPage n none).page n = none from Function.update_self ..] at hm
      cases hm
    · rw [← hm]
      exact (Function.update_of_ne hmn _ _).symm
  refine ⟨h.tables, h.tables_inj, ?_, ?_⟩
  · intro m p hm
    exact h.pages m p (hpage m p hm)
  · intro m l p hm hl
    exact h.pages_inj m l p (hpage m p hm) (hpage l p hl)

theorem Space.Ok.map (h : sp.Ok k base) {n : ℕ} {p : Word} (hp : p ∈ k.frames) (hno : ∀ m, sp.page m ≠ some p)
    (ht : (sp.table (n / 1024)).isSome = true) : (sp.withPage n (some p)).Ok k base := by
  have hself : (sp.withPage n (some p)).page n = some p := Function.update_self ..
  have hother : ∀ m, m ≠ n → (sp.withPage n (some p)).page m = sp.page m := fun m hm => Function.update_of_ne hm _ _
  refine ⟨h.tables, h.tables_inj, ?_, ?_⟩
  · intro m q hm
    by_cases hmn : m = n
    · rw [hmn, hself] at hm
      cases hm
      exact ⟨hp, hmn ▸ ht⟩
    · rw [hother m hmn] at hm
      exact h.pages m q hm
  · intro m l q hm hl
    by_cases hmn : m = n <;> by_cases hln : l = n
    · rw [hmn, hln]
    · rw [hmn, hself] at hm
      rw [hother l hln, ← hm] at hl
      exact absurd hl (hno l)
    · rw [hln, hself] at hl
      rw [hother m hmn, ← hl] at hm
      exact absurd hm (hno m)
    · rw [hother m hmn] at hm
      rw [hother l hln] at hl
      exact h.pages_inj m l q hm hl

/-- `pagedir_clear_page` -/
theorem Represents.pagedirClearPage (h : Represents k base pd s sp) (hl : Layout k base pd) (hofs : pgOfs va = 0)
    (huser : isUserVaddr va = true) :
    ∃ s', pagedirClearPage s pd va = some s' ∧ Represents k base pd s' (sp.withPage (pageNo va) none) ∧
      Changes k pd va s s' := by
  have hself : sp.page (pageNo va) = none → sp.withPage (pageNo va) none = sp := by
    intro hnone
    show (⟨Function.update sp.page (pageNo va) none, sp.table⟩ : Space) = sp
    rw [← hnone, Function.update_eq_self]
  unfold Pagedir.pagedirClearPage
  rw [if_pos ⟨hofs, huser⟩, h.lookupPage hl, tableOf_user huser]
  cases ht : sp.table (pdNo va) with
  | none =>
    rw [hself (h.ok.page_eq_none (pdNo_eq_pageNo va ▸ ht))]
    exact ⟨s, rfl, h, Changes.refl s⟩
  | some pt =>
    have hentry := h.pteOf ht
    cases hpage : sp.page (pageNo va) with
    | none =>
      rw [hpage] at hentry
      rw [hself hpage]
      exact ⟨s, if_neg (not_not.mpr hentry), h, Changes.refl s⟩
    | some p =>
      rw [hpage] at hentry
      refine ⟨_, if_pos hentry.1, h.setWord hl ((tableOf_user huser).trans ht) (h.ok.unmap _) rfl ?_ ?_ ?_⟩
      · intro _
        rw [show (sp.withPage (pageNo va) none).page (pageNo va) = none from Function.update_self ..]
        exact pteOf_clear _
      · intro n hn
        exact Function.update_of_ne (hn huser) _ _
      · intro hnot
        exact absurd huser hnot

/-- `lookup_page` that is to make a page table finds the one that is there. -/
theorem Represents.lookupPage_found (h : Represents k base pd s sp) (huser : isUserVaddr va = true)
    (ht : sp.table (pdNo va) = some pt) (palloc : Option Word) :
    Pagedir.lookupPage s pd va true palloc = some (some (pt, ptNo va), s) := by
  have hdir := h.directory (pdNo va) (pdNo_lt va)
  rw [tableOf_user huser, ht] at hdir
  obtain ⟨hne, -, hget⟩ := pdeGetPt_of_pdeCreate (h.ok.tables _ _ ht).2.1 hdir
  unfold Pagedir.lookupPage
  rw [if_pos fun _ => huser, if_neg hne]
  simp [hget]

/-- `lookup_page` that has made a page table finds it. -/
theorem Represents.lookupPage_new (h : Represents k base pd s sp) (hl : Layout k base pd)
    (huser : isUserVaddr va = true) (ht : sp.table (pdNo va) = none) (hpt : IsPage pt) (hbase : pt ∉ base)
    (hnew : ∀ i, sp.table i ≠ some pt) :
    ∃ s', Pagedir.lookupPage s pd va true (some pt) = some (some (pt, ptNo va), s') ∧
      Represents k base pd s' (sp.withTable (pdNo va) pt) ∧ Changes k pd va s s' := by
  have hdir := h.directory (pdNo va) (pdNo_lt va)
  rw [tableOf_user huser, ht] at hdir
  have hpde := pdeCreate_isPage hpt
  obtain ⟨hrep, hch⟩ := h.newTable hl huser ht hpt hbase hnew hpde
  refine ⟨_, ?_, hrep, hch⟩
  have hdir' := hrep.directory (pdNo va) (pdNo_lt va)
  rw [tableOf_user huser, Space.table_withTable_self] at hdir'
  have hget := (pdeGetPt_of_pdeCreate hpt hdir').2.2
  have hzero : s.word pd (pdNo va) = 0 := hdir
  have hcreate : createTable s pd va true (some pt) = some (true, _) := congrArg (Option.map _) hpde
  unfold Pagedir.lookupPage
  rw [if_pos fun _ => huser, if_pos hzero, hcreate]
  simp only [Option.bind_eq_bind, Option.bind_some, if_true, hget, Option.pure_def]

theorem Represents.lookupPage_fails (h : Represents k base pd s sp) (huser : isUserVaddr va = true)
    (ht : sp.table (pdNo va) = none) : Pagedir.lookupPage s pd va true none = some (none, s) := by
  have hdir := h.directory (pdNo va) (pdNo_lt va)
  rw [tableOf_user huser, ht] at hdir
  have hzero : s.word pd (pdNo va) = 0 := hdir
  unfold Pagedir.lookupPage createTable
  rw [if_pos fun _ => huser, if_pos hzero]
  rfl

/-- What `pagedir_set_page` does with the entry that `lookup_page` has found. -/
theorem Represents.pagedirSetPage {s₁ : Memory} {kpage : Word} {palloc : Option Word} (writable : Bool)
    (h : Represents k base pd s₁ sp) (hl : Layout k base pd) (hofs : pgOfs va = 0) (huser : isUserVaddr va = true)
    (hfree : sp.page (pageNo va) = none) (hk : kpage ∈ k.frames) (hno : ∀ n, sp.page n ≠ some kpage)
    (ht : sp.table (pdNo va) = some pt)
    (hlookup : Pagedir.lookupPage s pd va true palloc = some (some (pt, ptNo va), s₁)) :
    ∃ s', Pagedir.pagedirSetPage k.initRamPages s pd va kpage writable palloc = some (true, s') ∧
      Represents k base pd s' (sp.withPage (pageNo va) (some kpage)) ∧ Changes k pd va s₁ s' := by
  obtain ⟨hpage, hram, -⟩ := hl.frames kpage hk
  obtain ⟨w, hw, hpte⟩ := pteCreateUser_isPage hpage writable
  have hentry := h.pteOf ht
  rw [hfree] at hentry
  have hzero : s₁.word pt (ptNo va) &&& pteP = 0 := hentry
  have hok := h.ok.map (n := pageNo va) hk hno (by rw [← pdNo_eq_pageNo, ht]; rfl)
  obtain ⟨hrep, hch⟩ := h.setWord hl ((tableOf_user huser).trans ht) hok rfl (w := w)
    (fun _ => by
      rw [show (sp.withPage (pageNo va) (some kpage)).page (pageNo va) = some kpage from Function.update_self ..]
      exact hpte)
    (fun n hn => Function.update_of_ne (hn huser) _ _) (fun hnot => absurd huser hnot)
  refine ⟨_, ?_, hrep, hch⟩
  unfold Pagedir.pagedirSetPage
  rw [vtop_of_isPage hpage]
  simp only [Option.bind_eq_bind, Option.bind_some, if_pos (show pgOfs va = 0 ∧ pgOfs kpage = 0 ∧
    isUserVaddr va = true ∧ (kpage - physBase) >>> 12 < k.initRamPages from ⟨hofs, hpage.1, huser, hram⟩), hlookup, hw]
  exact if_pos hzero

/-- **One call** does to the words what it means for the space. -/
theorem Means.refines {c : Call} {r : Result} (hm : Means k base sp (c, r) sp') (h : Represents k base pd s sp)
    (hl : Layout k base pd) :
    ∃ s', c.exec k.initRamPages pd s = some (r, s') ∧ Represents k base pd s' sp' ∧ Changes k pd c.addr s s' := by
  cases hm with
  | @setPage upage kpage pt writable palloc hofs huser hfree hk hno ht =>
    obtain ⟨s', hrun, hrep, hch⟩ := h.pagedirSetPage writable hl hofs huser hfree hk hno ht
      (h.lookupPage_found huser ht palloc)
    exact ⟨s', congrArg (Option.map fun r : Bool × Memory => (Result.success r.1, r.2)) hrun, hrep, hch⟩
  | @setPageNew upage kpage pt writable hofs huser hfree hk hno ht hpt hbase hnew =>
    obtain ⟨s₁, hlookup, hrep₁, hch₁⟩ := h.lookupPage_new hl huser ht hpt hbase hnew
    obtain ⟨s', hrun, hrep, hch⟩ := hrep₁.pagedirSetPage writable hl hofs huser hfree hk hno Space.table_withTable_self
      hlookup
    exact ⟨s', congrArg (Option.map fun r : Bool × Memory => (Result.success r.1, r.2)) hrun, hrep, hch₁.trans hch⟩
  | @setPageFails upage kpage writable hofs huser hk ht =>
    obtain ⟨hpage, hram, -⟩ := hl.frames kpage hk
    have hrun : Pagedir.pagedirSetPage k.initRamPages s pd upage kpage writable none = some (false, s) := by
      unfold Pagedir.pagedirSetPage
      rw [vtop_of_isPage hpage]
      simp only [Option.bind_eq_bind, Option.bind_some, if_pos (show pgOfs upage = 0 ∧ pgOfs kpage = 0 ∧
        isUserVaddr upage = true ∧ (kpage - physBase) >>> 12 < k.initRamPages from ⟨hofs, hpage.1, huser, hram⟩),
        h.lookupPage_fails huser ht, Option.pure_def]
    exact ⟨s, congrArg (Option.map fun r : Bool × Memory => (Result.success r.1, r.2)) hrun, h, Changes.refl s⟩
  | clearPage hofs huser =>
    obtain ⟨s', hrun, hrep, hch⟩ := h.pagedirClearPage hl hofs huser
    exact ⟨s', congrArg (Option.map fun s => (Result.done, s)) hrun, hrep, hch⟩
  | setDirty =>
    obtain ⟨s', hrun, hrep, hch⟩ := h.setFlag hl (.inr rfl) _
    exact ⟨s', congrArg (Option.map fun s => (Result.done, s)) hrun, hrep, hch⟩
  | setAccessed =>
    obtain ⟨s', hrun, hrep, hch⟩ := h.setFlag hl (.inl rfl) _
    exact ⟨s', congrArg (Option.map fun s => (Result.done, s)) hrun, hrep, hch⟩
  | getPage huser =>
    exact ⟨s, congrArg (Option.map fun p => (Result.page p, s)) (h.pagedirGetPage hl huser), h, Changes.refl s⟩

end

end Pintos.Userprog.Pagedir
