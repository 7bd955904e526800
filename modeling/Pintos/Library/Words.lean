import Mathlib.Tactic

/-!
# The words of a text

The words of a text are what lies between its separators.  A word is closed where a separator follows it: a
scanner that looks for the separator behind a word finds the closed words and no others.  A text up to a
separator adds all of its words to the closed ones (`closedWords_append`).
-/

namespace Words

variable {α : Type} {sep : α} {w text : List α} {k n : ℕ}

section Pieces

variable [DecidableEq α]

/-- What lies between the separators, without the empty pieces. -/
def words (sep : α) (text : List α) : List (List α) := (text.splitOn sep).filter (· ≠ [])

/-- The words with a separator behind them. -/
def closedWords (sep : α) (text : List α) : List (List α) := (text.splitOn sep).dropLast.filter (· ≠ [])

theorem words_of_notMem (h : sep ∉ w) (hne : w ≠ []) : words sep w = [w] := by
  rw [words, List.splitOn_eq_singleton h, List.filter_cons_of_pos (by simpa using hne), List.filter_nil]

theorem closedWords_of_notMem (h : sep ∉ w) : closedWords sep w = [] := by
  rw [closedWords, List.splitOn_eq_singleton h]
  rfl

theorem closedWords_append (w text : List α) :
    closedWords sep (w ++ sep :: text) = words sep w ++ closedWords sep text := by
  rw [closedWords, List.splitOn_append_cons_self, List.dropLast_append_of_ne_nil (List.splitOn_ne_nil sep text),
    List.filter_append]
  rfl

theorem closedWords_cons (text : List α) : closedWords sep (sep :: text) = closedWords sep text :=
  closedWords_append [] text

theorem closedWords_replicate (k : ℕ) (text : List α) :
    closedWords sep (List.replicate k sep ++ text) = closedWords sep text := by
  induction k with
  | zero => rfl
  | succ k ih => rw [List.replicate_succ, List.cons_append, closedWords_cons, ih]

/-- A word at the start of a text, and the separators behind it. -/
theorem closedWords_word (h : sep ∉ w) (hne : w ≠ []) (k : ℕ) (text : List α) :
    closedWords sep (w ++ sep :: (List.replicate k sep ++ text)) = w :: closedWords sep text := by
  rw [closedWords_append, words_of_notMem h hne, closedWords_replicate]
  rfl

/-- The words and a separator for each of them are not longer than the text and one separator. -/
theorem length_words (sep : α) (text : List α) :
    ((words sep text).map fun w => w.length + 1).sum ≤ text.length + 1 := by
  have hpieces : ((text.splitOn sep).map fun w => w.length + 1).sum = text.length + 1 := by
    induction text with
    | nil => rfl
    | cons b text ih =>
      rw [List.splitOn_cons_eq_if_modifyHead]
      split
      · rw [List.map_cons, List.sum_cons, ih, List.length_nil, List.length_cons]
        omega
      · obtain ⟨piece, pieces, hsplit⟩ := List.exists_cons_of_ne_nil (List.splitOn_ne_nil sep text)
        rw [hsplit, List.map_cons, List.sum_cons] at ih
        rw [hsplit, List.modifyHead_cons, List.map_cons, List.sum_cons, List.length_cons, List.length_cons]
        omega
  rw [← hpieces]
  exact List.Sublist.sum_le_sum (List.filter_sublist.map _) fun _ _ => Nat.zero_le _

/-- A text with an element that is no separator has a word. -/
theorem words_ne_nil {b : α} (hb : b ∈ text) (hne : b ≠ sep) : words sep text ≠ [] := by
  induction text with
  | nil => exact absurd hb List.not_mem_nil
  | cons c text ih =>
    rw [words, List.splitOn_cons_eq_if_modifyHead]
    split
    · case isTrue hc =>
      have htail : b ∈ text := (List.mem_cons.mp hb).resolve_left fun heq => hne (heq.trans (eq_of_beq hc))
      rw [List.filter_cons_of_neg (by simp)]
      exact ih htail
    · obtain ⟨piece, pieces, hsplit⟩ := List.exists_cons_of_ne_nil (List.splitOn_ne_nil sep text)
      rw [hsplit, List.modifyHead_cons, List.filter_cons_of_pos (by simp)]
      exact List.cons_ne_nil _ _

end Pieces

/-! ## Where the words are closed -/

/-- The separators that close a word lie at the first `n` places. -/
def ClosedWithin (sep : α) (n : ℕ) (text : List α) : Prop :=
  ∀ i b, text[i]? = some b → b ≠ sep → text[i + 1]? = some sep → i + 1 < n

theorem closedWithin_cons {b : α} : ClosedWithin sep n (b :: text) ↔
    (b ≠ sep → text[0]? = some sep → 1 < n) ∧ ClosedWithin sep (n - 1) text := by
  constructor
  · intro h
    refine ⟨fun hb hsep => h 0 b rfl hb hsep, fun i c hc hne hsep => ?_⟩
    have hlt := h (i + 1) c hc hne hsep
    omega
  · rintro ⟨hhead, htail⟩ i c hc hne hsep
    cases i with
    | zero =>
      cases hc
      exact hhead hne hsep
    | succ i =>
      have hlt := htail i c hc hne hsep
      omega

theorem closedWithin_of_notMem (h : sep ∉ text) : ClosedWithin sep n text :=
  fun _ _ _ _ hsep => absurd (List.mem_of_getElem? hsep) h

theorem closedWithin_replicate :
    ClosedWithin sep n (List.replicate k sep ++ text) ↔ ClosedWithin sep (n - k) text := by
  induction k generalizing n with
  | zero => rfl
  | succ k ih =>
    rw [List.replicate_succ, List.cons_append, closedWithin_cons, ih, show n - 1 - k = n - (k + 1) by omega]
    exact ⟨fun h => h.2, fun h => ⟨fun hne => absurd rfl hne, h⟩⟩

/-- A word at the start of a text is closed at its end. -/
theorem closedWithin_append (h : sep ∉ w) (hne : w ≠ []) :
    ClosedWithin sep n (w ++ sep :: text) ↔ w.length < n ∧ ClosedWithin sep (n - (w.length + 1)) text := by
  induction w generalizing n with
  | nil => exact absurd rfl hne
  | cons b w ih =>
    obtain ⟨hb, hw⟩ := not_or.mp (mt List.mem_cons.mpr h)
    rw [List.cons_append, closedWithin_cons, List.length_cons]
    cases w with
    | nil =>
      rw [List.nil_append, closedWithin_cons, List.length_nil, show n - 1 - 1 = n - (0 + 1 + 1) by omega]
      constructor
      · rintro ⟨hhead, -, htail⟩
        exact ⟨hhead (Ne.symm hb) rfl, htail⟩
      · rintro ⟨hlt, htail⟩
        exact ⟨fun _ _ => hlt, fun hne => absurd rfl hne, htail⟩
    | cons c w =>
      rw [ih hw (List.cons_ne_nil c w), show n - 1 - ((c :: w).length + 1) = n - ((c :: w).length + 1 + 1) by omega]
      constructor
      · rintro ⟨-, hlt, htail⟩
        exact ⟨by omega, htail⟩
      · rintro ⟨hlt, htail⟩
        refine ⟨fun _ hsep => ?_, by omega, htail⟩
        rw [List.cons_append, List.getElem?_cons_zero] at hsep
        exact absurd (Option.some.inj hsep).symm (fun heq => hw (List.mem_cons.mpr (Or.inl heq)))

/-- A text that goes up to a separator closes its words there at the latest. -/
theorem ClosedWithin.append {pre : List α} (hpre : pre.length < n)
    (h : ClosedWithin sep (n - (pre.length + 1)) text) : ClosedWithin sep n (pre ++ sep :: text) := by
  intro i b hb hne hsep
  rcases Nat.lt_trichotomy i pre.length with hlt | rfl | hgt
  · omega
  · rw [List.getElem?_append_right le_rfl, Nat.sub_self] at hb
    exact absurd (Option.some.inj hb).symm hne
  · obtain ⟨j, rfl⟩ : ∃ j, i = pre.length + 1 + j := ⟨i - (pre.length + 1), by omega⟩
    rw [List.getElem?_append_right (by omega), show pre.length + 1 + j - pre.length = j + 1 by omega] at hb
    rw [List.getElem?_append_right (by omega), show pre.length + 1 + j + 1 - pre.length = j + 1 + 1 by omega]
      at hsep
    have hlt := h j b hb hne hsep
    omega

/-- Where no word is closed. -/
theorem closedWithin_of_closedWords [DecidableEq α] (h : closedWords sep text = []) :
    ClosedWithin sep n text := by
  intro i b hb hne hsep
  obtain ⟨hlt, hget⟩ := List.getElem?_eq_some_iff.mp hsep
  have hcut : text = text.take (i + 1) ++ sep :: text.drop (i + 2) := by
    rw [← hget, ← List.drop_eq_getElem_cons hlt, List.take_append_drop]
  have hmem : b ∈ text.take (i + 1) := by
    apply List.mem_of_getElem? (i := i)
    rw [List.getElem?_take_of_lt (Nat.lt_succ_self i), hb]
  rw [hcut, closedWords_append] at h
  exact absurd (List.append_eq_nil_iff.mp h).1 (words_ne_nil hmem hne)

end Words
