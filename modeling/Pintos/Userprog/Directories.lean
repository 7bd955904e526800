import Pintos.Userprog.Pagedir

/-!
# The page directories of several processes

The user parts of the page directories in one memory, each of which has page tables of its own.  A call that changes
the entry for a page in one of them leaves all other entries of all of them alone.
-/

namespace Pintos.Userprog.Pagedir

open Pintos.Threads
open Pintos.Userprog.StackGrowth (pdNo ptNo)

/-- `pagedir_is_accessed` -/
def pagedirIsAccessed (s : Memory) (pd vpage : Word) : Option Bool := do
  let (pte, _) ← lookupPage s pd vpage false none
  match pte with
  | some pte => return s.word pte.1 pte.2 &&& pteA ≠ 0
  | none => return false

/-- The accessed bit in the entry for an address. -/
def Accessed (s : Memory) (pd va : Word) : Prop := entry s pd va &&& pteA ≠ 0

instance (s : Memory) (pd va : Word) : Decidable (Accessed s pd va) := inferInstanceAs (Decidable (_ ≠ _))

/-- The page directories `pds`, with the page tables that each of them has. -/
structure Directories (s : Memory) (pds : Set Word) (table : Word → ℕ → Option Word) : Prop where
  directory : ∀ pd ∈ pds, ∀ i < 768, PdeOf (s.word pd i) (table pd i)
  tables : ∀ pd ∈ pds, ∀ i < 768, ∀ pt, table pd i = some pt → IsPage pt ∧ pt ∉ pds
  alone : ∀ pd ∈ pds, ∀ pd' ∈ pds, ∀ i < 768, ∀ j < 768, ∀ pt, table pd i = some pt → table pd' j = some pt →
    pd = pd' ∧ i = j

/-- The entry for a page in one directory has become `g` of what it was, and the others are as they were. -/
structure Changed (g : Word → Word) (pds : Set Word) (table : Word → ℕ → Option Word) (pd va : Word)
    (s s' : Memory) : Prop where
  directories : Directories s' pds table
  entry : ∀ pd' ∈ pds, ∀ va', isUserVaddr va' = true →
    entry s' pd' va' = if pd' = pd ∧ pageNo va' = pageNo va then g (entry s pd' va') else entry s pd' va'

section Directories

variable {s : Memory} {pds : Set Word} {table : Word → ℕ → Option Word} {pd va : Word}

theorem Directories.pde (h : Directories s pds table) (hpd : pd ∈ pds) (huser : isUserVaddr va = true) :
    (table pd (pdNo va) = none ∧ s.word pd (pdNo va) = 0) ∨
      ∃ pt, table pd (pdNo va) = some pt ∧ s.word pd (pdNo va) ≠ 0 ∧ pdeGetPt (s.word pd (pdNo va)) = some pt := by
  have hlt := isUserVaddr_iff_pdNo.mp huser
  have hpde := h.directory pd hpd (pdNo va) hlt
  cases ht : table pd (pdNo va) with
  | none =>
    rw [ht] at hpde
    exact .inl ⟨rfl, hpde⟩
  | some pt =>
    rw [ht] at hpde
    obtain ⟨hne, -, hget⟩ := pdeGetPt_of_pdeCreate (h.tables pd hpd _ hlt pt ht).1 hpde
    exact .inr ⟨pt, rfl, hne, hget⟩

theorem Directories.lookupPage (h : Directories s pds table) (hpd : pd ∈ pds) (huser : isUserVaddr va = true) :
    lookupPage s pd va false none = some ((table pd (pdNo va)).map fun pt => (pt, ptNo va), s) := by
  unfold Pagedir.lookupPage
  rw [if_pos nofun]
  rcases h.pde hpd huser with ⟨ht, hw⟩ | ⟨pt, ht, hw, hget⟩
  · rw [if_pos hw, ht]
    rfl
  · rw [if_neg hw, ht]
    simp only [Option.bind_eq_bind, Option.bind_some, if_true, hget]
    rfl

theorem Directories.entry_eq (h : Directories s pds table) (hpd : pd ∈ pds) (huser : isUserVaddr va = true) :
    entry s pd va = ((table pd (pdNo va)).map fun pt => s.word pt (ptNo va)).getD 0 := by
  unfold entry
  rcases h.pde hpd huser with ⟨ht, hw⟩ | ⟨pt, ht, hw, hget⟩
  · rw [if_pos hw, ht]
    rfl
  · rw [if_neg hw, ht, hget]

theorem Directories.pagedirIsAccessed (h : Directories s pds table) (hpd : pd ∈ pds)
    (huser : isUserVaddr va = true) : pagedirIsAccessed s pd va = some (decide (Accessed s pd va)) := by
  have hdecide : decide (Accessed s pd va) =
      decide (((table pd (pdNo va)).map fun pt => s.word pt (ptNo va)).getD 0 &&& pteA ≠ 0) := by
    apply decide_eq_decide.mpr
    unfold Accessed
    rw [h.entry_eq hpd huser]
  unfold Pagedir.pagedirIsAccessed
  rw [h.lookupPage hpd huser, hdecide]
  cases table pd (pdNo va) with
  | none =>
    have hzero : ¬(0 : Word) &&& pteA ≠ 0 := by decide
    exact congrArg some (decide_eq_false hzero).symm
  | some pt => rfl

/-- Where the address has no page table there is no entry to change. -/
theorem Directories.changed_none (h : Directories s pds table) {g : Word → Word} (hg : g 0 = 0)
    (ht : table pd (pdNo va) = none) : Changed g pds table pd va s s := by
  refine ⟨h, fun pd' hpd' va' huser' => ?_⟩
  split
  · rename_i hsame
    rw [h.entry_eq hpd' huser', pdNo_eq_pageNo, hsame.1, hsame.2, ← pdNo_eq_pageNo, ht]
    exact hg.symm
  · rfl

/-- An entry that has the value already. -/
theorem Directories.changed_same (h : Directories s pds table) {g : Word → Word} (hpd : pd ∈ pds)
    (huser : isUserVaddr va = true) (hg : g (Pagedir.entry s pd va) = Pagedir.entry s pd va) :
    Changed g pds table pd va s s := by
  refine ⟨h, fun pd' hpd' va' huser' => ?_⟩
  split
  · rename_i hsame
    have hentry : Pagedir.entry s pd' va' = Pagedir.entry s pd va := by
      rw [h.entry_eq hpd' huser', h.entry_eq hpd huser, pdNo_eq_pageNo, ptNo_eq_pageNo, hsame.1, hsame.2,
        ← pdNo_eq_pageNo, ← ptNo_eq_pageNo]
    rw [hentry, hg]
  · rfl

theorem Directories.changed_set (h : Directories s pds table) (g : Word → Word) (hpd : pd ∈ pds)
    (huser : isUserVaddr va = true) {pt : Word} (ht : table pd (pdNo va) = some pt) :
    Changed g pds table pd va s (s.setWord (pt, ptNo va) (g (s.word pt (ptNo va)))) := by
  have hlt := isUserVaddr_iff_pdNo.mp huser
  have hpt := (h.tables pd hpd _ hlt pt ht).2
  set s' := s.setWord (pt, ptNo va) (g (s.word pt (ptNo va)))
  have hword : ∀ p, p ≠ pt → s'.word p = s.word p := fun p hp => Function.update_of_ne hp _ _
  have hh : Directories s' pds table := by
    refine ⟨fun pd' hpd' i hi => ?_, h.tables, h.alone⟩
    have hne : pd' ≠ pt := fun heq => hpt (heq ▸ hpd')
    rw [hword pd' hne]
    exact h.directory pd' hpd' i hi
  refine ⟨hh, fun pd' hpd' va' huser' => ?_⟩
  rw [hh.entry_eq hpd' huser', h.entry_eq hpd' huser']
  cases ht' : table pd' (pdNo va') with
  | none =>
    have hno : ¬(pd' = pd ∧ pageNo va' = pageNo va) := fun hsame => by
      rw [pdNo_eq_pageNo, hsame.1, hsame.2, ← pdNo_eq_pageNo, ht] at ht'
      cases ht'
    rw [if_neg hno]
    rfl
  | some pt' =>
    show s'.word pt' (ptNo va') = if _ then g (s.word pt' (ptNo va')) else s.word pt' (ptNo va')
    by_cases hp : pt' = pt
    · -- the same page table, so that the directory and the upper part of the address are the same
      subst hp
      obtain ⟨rfl, hpdNo⟩ := h.alone pd' hpd' pd hpd _ (isUserVaddr_iff_pdNo.mp huser') _ hlt pt' ht' ht
      have hupd : s'.word pt' = Function.update (s.word pt') (ptNo va) (g (s.word pt' (ptNo va))) :=
        Function.update_self _ _ _
      rw [hupd]
      rw [pdNo_eq_pageNo, pdNo_eq_pageNo] at hpdNo
      by_cases hk : ptNo va' = ptNo va
      · have hpage : pageNo va' = pageNo va := by
          rw [ptNo_eq_pageNo, ptNo_eq_pageNo] at hk
          omega
        rw [if_pos ⟨rfl, hpage⟩, hk, Function.update_self]
      · have hpage : pageNo va' ≠ pageNo va := fun hpage => hk (by rw [ptNo_eq_pageNo, hpage, ← ptNo_eq_pageNo])
        rw [if_neg fun hsame => hpage hsame.2, Function.update_of_ne hk]
    · have hno : ¬(pd' = pd ∧ pageNo va' = pageNo va) := fun hsame => by
        rw [pdNo_eq_pageNo, hsame.1, hsame.2, ← pdNo_eq_pageNo, ht] at ht'
        exact hp (Option.some.inj ht').symm
      rw [hword pt' hp, if_neg hno]

/-- `pagedir_set_accessed (pd, vpage, false)` -/
theorem Directories.pagedirSetAccessed (h : Directories s pds table) (hpd : pd ∈ pds)
    (huser : isUserVaddr va = true) : ∃ s', pagedirSetAccessed s pd va false = some s' ∧
      Changed (· &&& ~~~pteA) pds table pd va s s' := by
  unfold Pagedir.pagedirSetAccessed setFlag
  rw [h.lookupPage hpd huser]
  cases ht : table pd (pdNo va) with
  | none => exact ⟨s, rfl, h.changed_none BitVec.zero_and ht⟩
  | some pt => exact ⟨_, rfl, h.changed_set _ hpd huser ht⟩

theorem pteP_absent {w : Word} (hw : w &&& pteP = 0) : w &&& ~~~pteP = w := by
  have hsplit : w = (w &&& pteP) ||| (w &&& ~~~pteP) := by
    rw [← BitVec.and_or_distrib_left, BitVec.or_not_self, BitVec.and_allOnes]
  rw [hw] at hsplit
  exact (hsplit.trans BitVec.zero_or).symm

/-- `pagedir_clear_page` -/
theorem Directories.pagedirClearPage (h : Directories s pds table) (hpd : pd ∈ pds) (hofs : pgOfs va = 0)
    (huser : isUserVaddr va = true) : ∃ s', pagedirClearPage s pd va = some s' ∧
      Changed (· &&& ~~~pteP) pds table pd va s s' := by
  have hentry := h.entry_eq hpd huser
  unfold Pagedir.pagedirClearPage
  rw [if_pos ⟨hofs, huser⟩, h.lookupPage hpd huser]
  cases ht : table pd (pdNo va) with
  | none => exact ⟨s, rfl, h.changed_none BitVec.zero_and ht⟩
  | some pt =>
    rw [ht] at hentry
    simp only [Option.bind_eq_bind, Option.bind_some, Option.map_some]
    split
    · exact ⟨_, rfl, h.changed_set _ hpd huser ht⟩
    · rename_i hp
      refine ⟨s, rfl, h.changed_same hpd huser ?_⟩
      rw [hentry]
      exact pteP_absent (not_not.mp hp)

end Directories

section Changed

variable {pds : Set Word} {table : Word → ℕ → Option Word} {s s' : Memory} {pd va pd' va' a b : Word}

/-- Bits that are not cleared. -/
theorem Changed.keeps (hset : Changed (· &&& a) pds table pd va s s') (hab : a &&& b = b) (hpd : pd' ∈ pds)
    (huser : isUserVaddr va' = true) : Pagedir.entry s' pd' va' &&& b = Pagedir.entry s pd' va' &&& b := by
  rw [hset.entry pd' hpd va' huser]
  split
  · rw [BitVec.and_assoc, hab]
  · rfl

/-- The bits that are cleared. -/
theorem Changed.clears (hset : Changed (· &&& a) pds table pd va s s') (hab : a &&& b = 0) (hpd : pd' ∈ pds)
    (huser : isUserVaddr va' = true) :
    Pagedir.entry s' pd' va' &&& b ≠ 0 ↔ Pagedir.entry s pd' va' &&& b ≠ 0 ∧ ¬(pd' = pd ∧ pageNo va' = pageNo va) := by
  rw [hset.entry pd' hpd va' huser]
  split
  · rename_i hsame
    have hzero : Pagedir.entry s pd' va' &&& a &&& b = 0 := by
      rw [BitVec.and_assoc, hab]
      exact BitVec.and_zero
    constructor
    · intro hne
      exact absurd hzero hne
    · intro hno
      exact absurd hsame hno.2
  · rename_i hother
    constructor
    · intro hne
      exact ⟨hne, hother⟩
    · intro hne
      exact hne.1

end Changed

end Pintos.Userprog.Pagedir
