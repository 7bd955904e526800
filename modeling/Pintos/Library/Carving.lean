import Mathlib.Data.List.Basic
import Mathlib.Data.List.Perm.Basic
import Mathlib.Data.List.Perm.Subperm
import Mathlib.Tactic

/-!
# Pages that are carved into cells

An allocator of small things carves a page into cells.  A cell is in a list of free cells, which may hold cells of
many pages, or it is handed out.  `key` says which page a cell is on.

`Carved` is about one page: the free cells and the live ones on it are together its cells, each once.  A cell is taken
from the list, put back, the cells of a new page are added, and those of a page with no live cell are removed.
-/

namespace Carving

variable {B P : Type} [DecidableEq P] {key : B → P} {free live live' cells s : List B} {p q : P} {b : B}

/-- What is on a page. -/
def onPage (key : B → P) (l : List B) (p : P) : List B := l.filter fun b => key b = p

def Carved (key : B → P) (free live : List B) (p : P) (cells : List B) : Prop :=
  (onPage key free p ++ onPage key live p).Perm cells

theorem mem_onPage {l : List B} : b ∈ onPage key l p ↔ b ∈ l ∧ key b = p := by simp [onPage]

theorem onPage_cons_self (l : List B) (h : key b = p) : onPage key (b :: l) p = b :: onPage key l p :=
  List.filter_cons_of_pos (decide_eq_true h)

theorem onPage_cons_of_ne (l : List B) (h : key b ≠ p) : onPage key (b :: l) p = onPage key l p :=
  List.filter_cons_of_neg (by simpa using h)

theorem onPage_eq_nil {l : List B} (h : ∀ b ∈ l, key b ≠ p) : onPage key l p = [] := by
  apply List.eq_nil_iff_forall_not_mem.mpr
  intro b hb
  rw [mem_onPage] at hb
  exact h b hb.1 hb.2

theorem onPage_eq_self {l : List B} (h : ∀ b ∈ l, key b = p) : onPage key l p = l :=
  List.filter_eq_self.mpr fun b hb => decide_eq_true (h b hb)

theorem onPage_append (l l' : List B) : onPage key (l ++ l') p = onPage key l p ++ onPage key l' p :=
  List.filter_append ..

namespace Carved

theorem mem_cells_of_free (h : Carved key free live p cells) (hb : b ∈ free) (hp : key b = p) : b ∈ cells :=
  h.subset (List.mem_append_left _ (mem_onPage.mpr ⟨hb, hp⟩))

theorem mem_cells_of_live (h : Carved key free live p cells) (hb : b ∈ live) (hp : key b = p) : b ∈ cells :=
  h.subset (List.mem_append_right _ (mem_onPage.mpr ⟨hb, hp⟩))

/-- A free cell is not live. -/
theorem not_live (h : Carved key free live p cells) (hcells : cells.Nodup) (hp : key b = p) (hb : b ∈ free) :
    b ∉ live := by
  intro hlive
  have hnodup := h.nodup_iff.mpr hcells
  exact (List.nodup_append.mp hnodup).2.2 b (mem_onPage.mpr ⟨hb, hp⟩) b (mem_onPage.mpr ⟨hlive, hp⟩) rfl

/-- A cell is taken from the list. -/
theorem take (h : Carved key (b :: free) live p cells) : Carved key free (b :: live) p cells := by
  unfold Carved at h ⊢
  by_cases hp : key b = p
  · rw [onPage_cons_self _ hp] at h ⊢
    exact List.perm_middle.trans h
  · rw [onPage_cons_of_ne _ hp] at h ⊢
    exact h

/-- A live cell is put back. -/
theorem put (h : Carved key free live p cells) (hlive : live.Perm (b :: live')) :
    Carved key (b :: free) live' p cells := by
  have hperm : (onPage key live p).Perm (onPage key (b :: live') p) := hlive.filter _
  have h' : Carved key free (b :: live') p cells := (hperm.symm.append_left _).trans h
  unfold Carved at h' ⊢
  by_cases hp : key b = p
  · rw [onPage_cons_self _ hp] at h' ⊢
    exact List.perm_middle.symm.trans h'
  · rw [onPage_cons_of_ne _ hp] at h' ⊢
    exact h'

/-- A cell of another page becomes live. -/
theorem cons_live (h : Carved key free live p cells) (hp : key b ≠ p) : Carved key free (b :: live) p cells := by
  unfold Carved at h ⊢
  rw [onPage_cons_of_ne _ hp]
  exact h

/-- A cell of another page is live no more. -/
theorem of_cons_live (h : Carved key free live p cells) (hlive : live.Perm (b :: live')) (hp : key b ≠ p) :
    Carved key free live' p cells := by
  have hperm : (onPage key live p).Perm (onPage key (b :: live') p) := hlive.filter _
  rw [onPage_cons_of_ne _ hp] at hperm
  exact (hperm.symm.append_left _).trans h

/-- The cells of a new page. -/
theorem fresh (hfree : ∀ b ∈ free, key b ≠ p) (hlive : ∀ b ∈ live, key b ≠ p) (hs : ∀ b ∈ s, key b = p) :
    Carved key (free ++ s) live p s := by
  unfold Carved
  rw [onPage_append, onPage_eq_nil hfree, onPage_eq_nil hlive, onPage_eq_self hs, List.nil_append, List.append_nil]

/-- The cells of another page are added. -/
theorem append (h : Carved key free live p cells) (hs : ∀ b ∈ s, key b ≠ p) : Carved key (free ++ s) live p cells := by
  unfold Carved at h ⊢
  rw [onPage_append, onPage_eq_nil hs, List.append_nil]
  exact h

/-- With as many free cells as there are cells, none is live. -/
theorem not_live_of_full (h : Carved key free live p cells) (hfull : cells.length ≤ (onPage key free p).length)
    (hb : b ∈ live) : key b ≠ p := by
  intro hp
  have hlength := h.length_eq
  have hpos : 0 < (onPage key live p).length := List.length_pos_of_mem (mem_onPage.mpr ⟨hb, hp⟩)
  rw [List.length_append] at hlength
  omega

/-- With no live cell on it, the cells of the page are in the list. -/
theorem subperm (h : Carved key free live p cells) (hlive : ∀ b ∈ live, key b ≠ p) : cells.Subperm free := by
  unfold Carved at h
  rw [onPage_eq_nil hlive, List.append_nil] at h
  exact h.symm.subperm.trans List.filter_sublist.subperm

end Carved

/-! ### Removing -/

variable [DecidableEq B]

theorem onPage_diff (l s : List B) : onPage key (l.diff s) p = (onPage key l p).diff s := by
  induction s generalizing l with
  | nil => rfl
  | cons b s ih =>
    have herase : onPage key (l.erase b) p = (onPage key l p).erase b := List.erase_filter.symm
    rw [List.diff_cons, List.diff_cons, ih, herase]

theorem diff_eq_self {l : List B} (h : ∀ b ∈ s, b ∉ l) : l.diff s = l := by
  induction s with
  | nil => rfl
  | cons b s ih =>
    rw [List.diff_cons, List.erase_of_not_mem (h b List.mem_cons_self)]
    exact ih fun b' hb' => h b' (List.mem_cons_of_mem b hb')

theorem diff_self (s : List B) : s.diff s = [] := by
  induction s with
  | nil => rfl
  | cons b s ih => rw [List.diff_cons, List.erase_cons_head, ih]

/-- The first of some elements of a list, and the others when it is removed. -/
theorem mem_of_subperm {l : List B} (h : (b :: s).Subperm l) : b ∈ l ∧ s.Subperm (l.erase b) := by
  refine ⟨h.subset List.mem_cons_self, ?_⟩
  have herase := h.erase b
  rw [List.erase_cons_head] at herase
  exact herase

namespace Carved

/-- A cell is free or live, and once. -/
theorem count (h : Carved key free live p cells) (hcells : cells.Nodup) (hb : b ∈ cells) (hp : key b = p) :
    free.count b + live.count b = 1 := by
  have hcount := h.count_eq b
  rw [List.count_append, List.count_eq_one_of_mem hcells hb] at hcount
  have hpage : ∀ l : List B, (onPage key l p).count b = l.count b :=
    fun l => List.count_filter (decide_eq_true hp)
  rw [hpage, hpage] at hcount
  exact hcount

/-- The cells of another page are removed. -/
theorem diff (h : Carved key free live p cells) (hs : ∀ b ∈ s, key b ≠ p) : Carved key (free.diff s) live p cells := by
  unfold Carved at h ⊢
  rw [onPage_diff, diff_eq_self fun b hb hmem => hs b hb (mem_onPage.mp hmem).2]
  exact h

/-- When they are removed, there are none left. -/
theorem not_mem_diff (h : Carved key free live p cells) (hlive : ∀ b ∈ live, key b ≠ p) (hb : b ∈ free.diff cells) :
    key b ≠ p := by
  intro hp
  unfold Carved at h
  rw [onPage_eq_nil hlive, List.append_nil] at h
  have hmem : b ∈ onPage key (free.diff cells) p := mem_onPage.mpr ⟨hb, hp⟩
  rw [onPage_diff, (h.diff_right cells).mem_iff, diff_self] at hmem
  cases hmem

end Carved

end Carving
