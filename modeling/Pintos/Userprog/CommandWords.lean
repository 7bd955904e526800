import Pintos.Library.Words
import Pintos.Userprog.CommandLine

/-!
# What a command line is cut into

`parsing` finds the closed words of the text that the scratch buffer holds up to the first zero byte, and
`Outcome` says how a run of it ends: within its two arrays where the words are few enough and closed in time,
and at the end of the memory where there is no zero byte.  The text begins with the command line and the space
that has come over its terminator; what follows has not been written by anyone.
-/

namespace Pintos.Userprog.CommandLine

open Words

variable {base n : ℕ} {fault : Fault} {w s bs line : List UInt8} {a pos : ℕ}

/-! ## Strings -/

/-- The bytes of a memory up to the first zero byte. -/
def text (bs : List UInt8) : List UInt8 := bs.takeWhile (· ≠ 0)

theorem text_append (h : 0 ∉ w) (bs : List UInt8) : text (w ++ bs) = w ++ text bs := by
  rw [text, List.takeWhile_append_of_pos]
  · rfl
  · intro b hb
    exact decide_eq_true (fun h0 => h (h0 ▸ hb))

theorem text_self (h : 0 ∉ w) : text w = w := by
  have happ := text_append h []
  rw [List.append_nil] at happ
  exact happ.trans (List.append_nil w)

theorem text_zero (h : 0 ∉ w) (bs : List UInt8) : text (w ++ 0 :: bs) = w := by
  rw [text_append h]
  exact List.append_nil w

theorem string_append (h : 0 ∉ w) (bs : List UInt8) : string (w ++ 0 :: bs) = .ok w := by
  induction w with
  | nil => rfl
  | cons b w ih =>
    obtain ⟨hb, hw⟩ := not_or.mp (mt List.mem_cons.mpr h)
    rw [List.cons_append, string, if_neg (Ne.symm hb), ih hw]
    rfl

/-- A string read byte by byte. -/
theorem string_of_get {r : Region UInt8 base n} (h0 : 0 ∉ w) (hbytes : ∀ i < w.length, r.get (a + i) = w[i]?)
    (hend : r.get (a + w.length) = some 0) : string (r.behind a) = .ok w := by
  rw [Region.behind_of_get hbytes, Region.behind_eq_cons hend, string_append h0]

/-- A copy of a whole string: its bytes and the terminator. -/
theorem strlcpy_eq (r : Region UInt8 base n) (dst : ℕ) {src : List UInt8} {size : ℕ} (hsize : src.length < size) :
    strlcpy fault r dst src size = (check fault (r.puts dst (src ++ [0]))).map fun r => (r, src.length) := by
  have hlen : (if src.length < size - 1 then src.length else size - 1) = src.length := by
    split
    · rfl
    · omega
  rw [strlcpy, if_pos (by omega), hlen]
  dsimp only
  rw [List.take_length, Region.puts_append]
  cases r.puts dst src with
  | none => rfl
  | some r =>
    rw [Option.bind_some, Region.puts]
    cases hput : r.put (dst + src.length) 0 with
    | none => simp [check, hput, Except.map, bind, Except.bind]
    | some r => simp [check, hput, Region.puts, Except.map, bind, Except.bind, pure, Except.pure]

/-- A copy to the start of an array that is large enough. -/
theorem exists_copy (r : Region UInt8 base n) (hlen : line.length < n) :
    ∃ r', r.puts base (line ++ [0]) = some r' ∧ r'.cells = line ++ 0 :: r.cells.drop (line.length + 1) := by
  obtain ⟨r', hputs⟩ := r.puts_of_le (line ++ [0]) le_rfl
    (by rw [List.length_append, List.length_singleton]; omega)
  refine ⟨r', hputs, ?_⟩
  have hbehind := Region.behind_puts hputs le_rfl
  rw [Region.behind_base, Region.behind_add le_rfl, Region.behind_base, List.append_assoc, List.length_append,
    List.length_singleton] at hbehind
  exact hbehind

/-- A memory starts with bytes that are neither zero nor a space, and there it ends, or a zero byte follows,
or a space. -/
theorem exists_word (bs : List UInt8) : ∃ w, 0 ∉ w ∧ 32 ∉ w ∧
    (bs = w ∨ (∃ rest, bs = w ++ 0 :: rest) ∨ ∃ rest, bs = w ++ 32 :: rest) := by
  induction bs with
  | nil => exact ⟨[], List.not_mem_nil, List.not_mem_nil, Or.inl rfl⟩
  | cons b bs ih =>
    by_cases h0 : b = 0
    · exact ⟨[], List.not_mem_nil, List.not_mem_nil, Or.inr (Or.inl ⟨bs, by rw [h0]; rfl⟩)⟩
    by_cases h32 : b = 32
    · exact ⟨[], List.not_mem_nil, List.not_mem_nil, Or.inr (Or.inr ⟨bs, by rw [h32]; rfl⟩)⟩
    obtain ⟨w, hw0, hw32, h⟩ := ih
    refine ⟨b :: w, ?_, ?_, ?_⟩
    · simp [hw0, Ne.symm h0]
    · simp [hw32, Ne.symm h32]
    · rcases h with rfl | ⟨rest, rfl⟩ | ⟨rest, rfl⟩
      · exact Or.inl rfl
      · exact Or.inr (Or.inl ⟨rest, rfl⟩)
      · exact Or.inr (Or.inr ⟨rest, rfl⟩)

theorem exists_spaces (bs : List UInt8) : ∃ k s, bs = List.replicate k 32 ++ s ∧ s.head? ≠ some 32 := by
  induction bs with
  | nil => exact ⟨0, [], rfl, fun h => by cases h⟩
  | cons b bs ih =>
    by_cases h32 : b = 32
    · obtain ⟨k, s, rfl, hs⟩ := ih
      exact ⟨k + 1, s, by rw [h32]; rfl, hs⟩
    · refine ⟨0, b :: bs, rfl, fun h => h32 (Option.some.inj h)⟩

/-- What `strchr` meets on its way to a space. -/
theorem strchr_append (h0 : 0 ∉ w) (h32 : 32 ∉ w) (bs : List UInt8) (pos : ℕ) :
    strchr 32 (w ++ bs) pos = strchr 32 bs (pos + w.length) := by
  induction w generalizing pos with
  | nil => rfl
  | cons b w ih =>
    obtain ⟨hb0, hw0⟩ := not_or.mp (mt List.mem_cons.mpr h0)
    obtain ⟨hb32, hw32⟩ := not_or.mp (mt List.mem_cons.mpr h32)
    rw [List.cons_append, strchr, if_neg (Ne.symm hb32), if_neg (Ne.symm hb0), ih hw0 hw32, List.length_cons,
      show pos + 1 + w.length = pos + (w.length + 1) by omega]

theorem skipSpaces_eq (k : ℕ) (hs : s.head? ≠ some 32) (pos : ℕ) :
    skipSpaces (List.replicate k 32 ++ s) pos = if s = [] then .error .page else .ok (pos + k) := by
  induction k generalizing pos with
  | zero =>
    cases s with
    | nil => rfl
    | cons b s =>
      rw [List.replicate_zero, List.nil_append, skipSpaces, if_neg, if_neg (List.cons_ne_nil b s), Nat.add_zero]
      rintro ⟨-, rfl⟩
      exact hs rfl
  | succ k ih =>
    rw [List.replicate_succ, List.cons_append, skipSpaces, if_pos ⟨by decide, rfl⟩, ih,
      show pos + 1 + k = pos + (k + 1) by omega]

/-! ## The name of the file -/

theorem nameEnd_append (h0 : 0 ∉ w) (h32 : 32 ∉ w) (bs : List UInt8) (i : ℕ) :
    nameEnd (w ++ bs) i = nameEnd bs (i + w.length) := by
  induction w generalizing i with
  | nil => rfl
  | cons b w ih =>
    obtain ⟨hb0, hw0⟩ := not_or.mp (mt List.mem_cons.mpr h0)
    obtain ⟨hb32, hw32⟩ := not_or.mp (mt List.mem_cons.mpr h32)
    rw [List.cons_append, nameEnd, if_pos ⟨Ne.symm hb32, Ne.symm hb0⟩, ih hw0 hw32, List.length_cons,
      show i + 1 + w.length = i + (w.length + 1) by omega]

/-- A command line starts with the name of the file. -/
theorem exists_name (h0 : 0 ∉ line) : ∃ w, line.takeWhile (· ≠ 32) = w ∧ 0 ∉ w ∧ 32 ∉ w ∧
    (line = w ∨ ∃ rest, line = w ++ 32 :: rest) := by
  obtain ⟨w, hw0, hw32, h⟩ := exists_word line
  have htake : ∀ bs : List UInt8, (w ++ bs).takeWhile (· ≠ 32) = w ++ bs.takeWhile (· ≠ 32) := by
    intro bs
    apply List.takeWhile_append_of_pos
    intro b hb
    exact decide_eq_true (fun h32 => hw32 (h32 ▸ hb))
  rcases h with rfl | ⟨rest, rfl⟩ | ⟨rest, rfl⟩
  · have hnil := htake []
    rw [List.takeWhile_nil, List.append_nil] at hnil
    exact ⟨line, hnil, hw0, hw32, Or.inl rfl⟩
  · exact absurd (List.mem_append_right w List.mem_cons_self) h0
  · refine ⟨w, ?_, hw0, hw32, Or.inr ⟨rest, rfl⟩⟩
    rw [htake, List.takeWhile_cons_of_neg (by decide), List.append_nil]

/-- The name of the file is cut out where the array holds the whole command line. -/
theorem cutName_eq {array : Buffer} (command : Region UInt8 0 n) (h0 : 0 ∉ line) :
    cutName array command line =
      if line.length < n then .ok (line.takeWhile (· ≠ 32)) else .error (.outside array) := by
  rw [cutName, strlcpy_eq command 0 (Nat.lt_succ_self _)]
  split
  · case isTrue hlt =>
    obtain ⟨r, hr, hcells⟩ := exists_copy command hlt
    obtain ⟨w, htake, hw0, hw32, hline⟩ := exists_name h0
    rw [htake]
    obtain ⟨b, rest, hb, hwords⟩ : ∃ b rest, ¬(b ≠ 32 ∧ b ≠ 0) ∧ r.cells = w ++ b :: rest := by
      rcases hline with rfl | ⟨rest, rfl⟩
      · exact ⟨0, _, fun h => h.2 rfl, hcells⟩
      · exact ⟨32, _, fun h => h.1 rfl, by rw [hcells, List.append_assoc]; rfl⟩
    have hend : nameEnd r.cells 0 = .ok w.length := by
      rw [hwords, nameEnd_append hw0 hw32, nameEnd, if_neg hb, Nat.zero_add]
    have hle : w.length ≤ line.length := by
      rcases hline with rfl | ⟨rest, rfl⟩
      · exact le_rfl
      · rw [List.length_append]; omega
    obtain ⟨r', hr'⟩ := r.put_of_mem 0 (Nat.zero_le w.length) (by omega)
    have hcells' : r'.cells = w ++ 0 :: rest := by
      rw [(Region.put_eq hr').2.2, hwords, List.set_append_right _ _ (by omega)]
      simp
    simp only [hr, check, Except.map, bind, Except.bind, hend, hr', hcells', string_append hw0]
  · case isFalse hlt =>
    have hnone : command.puts 0 (line ++ [0]) = none := by
      rw [← Option.not_isSome_iff_eq_none, Region.puts_isSome]
      rintro (hnil | ⟨-, hle⟩)
      · exact absurd hnil (List.append_ne_nil_of_right_ne_nil line (List.cons_ne_nil 0 []))
      · rw [List.length_append, List.length_singleton] at hle
        omega
    rw [hnone]
    rfl

/-! ## The words -/

/-- The closed words of a text fit in `argv` from `argc` on, and the spaces behind them lie at its first `n`
places. -/
structure Room (n argc : ℕ) (text : List UInt8) : Prop where
  count : argc + (closedWords 32 text).length ≤ 256
  within : ClosedWithin 32 n text

theorem room_of_notMem {argc : ℕ} (h32 : 32 ∉ w) (hargc : argc ≤ 256) : Room n argc w where
  count := by rw [closedWords_of_notMem h32]; exact hargc
  within := closedWithin_of_notMem h32

theorem room_replicate {argc k : ℕ} : Room n argc (List.replicate k 32 ++ s) ↔ Room (n - k) argc s := by
  constructor
  · rintro ⟨hcount, hwithin⟩
    exact ⟨closedWords_replicate k s ▸ hcount, closedWithin_replicate.mp hwithin⟩
  · rintro ⟨hcount, hwithin⟩
    exact ⟨(closedWords_replicate k s).symm ▸ hcount, closedWithin_replicate.mpr hwithin⟩

/-- Room for a word and for what comes behind it. -/
theorem room_word {argc k : ℕ} (h32 : 32 ∉ w) (hne : w ≠ []) :
    Room n argc (w ++ 32 :: (List.replicate k 32 ++ s)) ↔
      argc < 256 ∧ w.length < n ∧ Room (n - (w.length + 1 + k)) (argc + 1) s := by
  have hwords := closedWords_word h32 hne k s
  constructor
  · rintro ⟨hcount, hwithin⟩
    rw [hwords, List.length_cons] at hcount
    obtain ⟨hlt, htail⟩ := (closedWithin_append h32 hne).mp hwithin
    rw [closedWithin_replicate, Nat.sub_sub] at htail
    exact ⟨by omega, hlt, by omega, htail⟩
  · rintro ⟨hargc, hlt, hcount, htail⟩
    constructor
    · rw [hwords, List.length_cons]
      omega
    · rw [closedWithin_append h32 hne, closedWithin_replicate, Nat.sub_sub]
      exact ⟨hlt, htail⟩

/-- What the loop leaves: the pointers and the bytes it has already passed are as they were, and the new
pointers point to the words. -/
structure Parsed (argv : Region ℕ 0 256) (argc : ℕ) (mem : Region UInt8 base 1024) (buf : ℕ)
    (ws : List (List UInt8)) (argv' : Region ℕ 0 256) (mem' : Region UInt8 base 1024) : Prop where
  earlier : ∀ i < argc, argv'.get i = argv.get i
  before : ∀ a < buf, mem'.get a = mem.get a
  points : ∀ i w, ws[i]? = some w → ∃ p, argv'.get (argc + i) = some p ∧ string (mem'.behind p) = .ok w

/-- How a run ends: within the arrays where there is room, and behind the last zero byte where there is none. -/
def Ends {α : Type} (room zero : Prop) (good : α → Prop) : Except Fault α → Prop
  | .ok r => room ∧ zero ∧ good r
  | .error (.outside _) => ¬room
  | .error .page => room ∧ ¬zero

theorem Ends.imp {α : Type} {room room' zero zero' : Prop} {good good' : α → Prop} {o : Except Fault α}
    (h : Ends room zero good o) (hroom : room ↔ room') (hzero : zero ↔ zero') (hgood : ∀ r, good r → good' r) :
    Ends room' zero' good' o := by
  cases o with
  | ok r => exact ⟨hroom.mp h.1, hzero.mp h.2.1, hgood r h.2.2⟩
  | error fault =>
    cases fault with
    | outside array => exact fun hr => h (hroom.mpr hr)
    | page => exact ⟨hroom.mp h.1, fun hz => h.2 (hzero.mpr hz)⟩

/-- How the loop ends. -/
def Outcome (argv : Region ℕ 0 256) (argc : ℕ) (mem : Region UInt8 base 1024) (buf : ℕ) :
    Except Fault (Region ℕ 0 256 × ℕ × Region UInt8 base 1024) → Prop :=
  Ends (Room (base + 1024 - buf) argc (text (mem.behind buf))) (0 ∈ mem.behind buf) fun r =>
    r.2.1 = argc + (closedWords 32 (text (mem.behind buf))).length ∧
      Parsed argv argc mem buf (closedWords 32 (text (mem.behind buf))) r.1 r.2.2

section Word

variable {argv argv₁ : Region ℕ 0 256} {mem mem₁ : Region UInt8 base 1024} {argc buf k : ℕ}

theorem text_word (h0 : 0 ∉ w) (hword : mem.behind buf = w ++ 32 :: (List.replicate k 32 ++ s)) :
    text (mem.behind buf) = w ++ 32 :: (List.replicate k 32 ++ text s) := by
  have hspaces : (0 : UInt8) ∉ List.replicate k 32 := fun h => absurd (List.mem_replicate.mp h).2 (by decide)
  rw [hword, text_append h0, ← text_append hspaces]
  rfl

/-- One turn of the loop: what the rest of it does tells how it ends. -/
theorem Outcome.word {o : Except Fault (Region ℕ 0 256 × ℕ × Region UInt8 base 1024)} (hbuf : base ≤ buf)
    (h0 : 0 ∉ w) (h32 : 32 ∉ w) (hne : w ≠ [])
    (hword : mem.behind buf = w ++ 32 :: (List.replicate k 32 ++ s))
    (hargv : argv.put argc buf = some argv₁) (hmem : mem.put (buf + w.length) 0 = some mem₁)
    (hrest : mem₁.behind (buf + w.length + 1 + k) = s)
    (h : Outcome argv₁ (argc + 1) mem₁ (buf + w.length + 1 + k) o) : Outcome argv argc mem buf o := by
  have htext := text_word h0 hword
  have hput := Region.put_eq hargv
  have hput₁ := Region.put_eq hmem
  have hroom : Room (base + 1024 - buf) argc (text (mem.behind buf)) ↔
      Room (base + 1024 - (buf + w.length + 1 + k)) (argc + 1) (text s) := by
    rw [htext, room_word h32 hne, show base + 1024 - buf - (w.length + 1 + k)
      = base + 1024 - (buf + w.length + 1 + k) by omega]
    exact ⟨fun h => h.2.2, fun h => ⟨by omega, by omega, h⟩⟩
  have hzero : 0 ∈ mem.behind buf ↔ 0 ∈ s := by
    rw [hword]
    simp [h0]
  have hwords : closedWords 32 (text (mem.behind buf)) = w :: closedWords 32 (text s) := by
    rw [htext, closedWords_word h32 hne]
  rw [Outcome, hrest] at h
  apply h.imp hroom.symm hzero.symm
  rintro ⟨argv', argc', mem'⟩ ⟨hcount, hparsed⟩
  refine ⟨?_, ?_, ?_, ?_⟩
  · rw [hcount, hwords, List.length_cons]
    omega
  · intro i hi
    rw [hparsed.earlier i (by omega), Region.get_put_ne hargv (by omega)]
  · intro a ha
    rw [hparsed.before a (by omega), Region.get_put_ne hmem (by omega)]
  · rw [hwords]
    intro i w' hw'
    cases i with
    | zero =>
      cases hw'
      refine ⟨buf, ?_, ?_⟩
      · rw [Nat.add_zero, hparsed.earlier argc (by omega), Region.get_put_self hargv]
      · apply string_of_get h0
        · intro i hi
          rw [hparsed.before _ (by omega), Region.get_put_ne hmem (by omega), Region.get_add hbuf, hword,
            List.getElem?_append_left hi]
        · rw [hparsed.before _ (by omega), Region.get_put_self hmem]
    | succ i =>
      obtain ⟨p, hp, hstring⟩ := hparsed.points i w' hw'
      exact ⟨p, by rw [← hp]; congr 1; omega, hstring⟩

/-- A run of the loop with fuel enough ends as `Outcome` says. -/
theorem parsing_outcome (fuel : ℕ) (hfuel : (mem.behind buf).length < fuel) (hbuf : base ≤ buf)
    (hargc : argc ≤ 256) (hhead : (mem.behind buf).head? ≠ some 32) :
    Outcome argv argc mem buf (parsing fuel argv argc mem buf) := by
  induction fuel generalizing argv argc mem buf with
  | zero => exact absurd hfuel (Nat.not_lt_zero _)
  | succ fuel ih =>
    obtain ⟨w, hw0, hw32, h⟩ := exists_word (mem.behind buf)
    rcases h with hword | ⟨rest, hword⟩ | ⟨rest, hword⟩
    · have hchr : strchr 32 (mem.behind buf) buf = .error .page := by
        have hend := strchr_append hw0 hw32 [] buf
        rw [List.append_nil] at hend
        rw [hword, hend]
        rfl
      have htext : text (mem.behind buf) = w := by rw [hword, text_self hw0]
      rw [parsing, hchr]
      exact ⟨htext ▸ room_of_notMem hw32 hargc, hword ▸ hw0⟩
    · have hchr : strchr 32 (mem.behind buf) buf = .ok none := by
        rw [hword, strchr_append hw0 hw32]
        rfl
      have htext : text (mem.behind buf) = w := by rw [hword, text_zero hw0]
      rw [parsing, hchr]
      refine ⟨htext ▸ room_of_notMem hw32 hargc, ?_, ?_, fun _ _ => rfl, fun _ _ => rfl, ?_⟩
      · rw [hword]
        exact List.mem_append_right w List.mem_cons_self
      · rw [htext, closedWords_of_notMem hw32]
        rfl
      · rw [htext, closedWords_of_notMem hw32]
        intro i w' hw'
        cases hw'
    · have hne : w ≠ [] := by
        rintro rfl
        exact hhead (by rw [hword]; rfl)
      obtain ⟨k, s, rfl, hs⟩ := exists_spaces rest
      have hchr : strchr 32 (mem.behind buf) buf = .ok (some (buf + w.length)) := by
        rw [hword, strchr_append hw0 hw32]
        rfl
      have htext := text_word hw0 hword
      have hroom : Room (base + 1024 - buf) argc (text (mem.behind buf)) ↔ argc < 256 ∧ w.length < base + 1024 - buf ∧
          Room (base + 1024 - buf - (w.length + 1 + k)) (argc + 1) (text s) := by
        rw [htext]
        exact room_word hw32 hne
      rw [parsing, hchr]
      by_cases hlt : argc < 256
      · obtain ⟨argv₁, hargv⟩ := argv.put_of_mem buf (Nat.zero_le argc) (by omega)
        by_cases hend : w.length < base + 1024 - buf
        · obtain ⟨mem₁, hmem⟩ := mem.put_of_mem 0 (le_trans hbuf (Nat.le_add_right buf w.length)) (by omega)
          have hbehind : mem₁.behind (buf + w.length + 1) = List.replicate k 32 ++ s := by
            rw [Region.behind_put hmem (Nat.lt_add_one _), Nat.add_assoc, Region.behind_add hbuf, hword]
            simp
          have hrest : mem₁.behind (buf + w.length + 1 + k) = s := by
            rw [Region.behind_add (by omega), hbehind]
            simp
          by_cases hnil : s = []
          · simp only [check, hargv, hmem, bind, Except.bind, hbehind, skipSpaces_eq k hs, if_pos hnil]
            subst hnil
            refine ⟨hroom.mpr ⟨hlt, hend, room_of_notMem List.not_mem_nil (by omega)⟩, ?_⟩
            rw [hword]
            simp [hw0]
          · simp only [check, hargv, hmem, bind, Except.bind, hbehind, skipSpaces_eq k hs, if_neg hnil]
            apply Outcome.word hbuf hw0 hw32 hne hword hargv hmem hrest
            apply ih
            · rw [hrest]
              rw [hword, List.length_append, List.length_cons, List.length_append] at hfuel
              omega
            · omega
            · omega
            · rw [hrest]
              exact hs
        · have hnone : mem.put (buf + w.length) 0 = none := Region.put_eq_none.mpr (by omega)
          simp only [check, hargv, hnone, bind, Except.bind]
          exact fun h => hend (hroom.mp h).2.1
      · have hnone : argv.put argc buf = none := Region.put_eq_none.mpr (by omega)
        simp only [check, hnone, bind, Except.bind]
        exact fun h => hlt (hroom.mp h).1

end Word

/-- What the scratch buffer holds up to the first zero byte when its words are cut: the command line, the space
over its terminator, and what has been in the memory before. -/
def scratchText (mem : Region UInt8 base 1024) (line : List UInt8) : List UInt8 :=
  line ++ 32 :: text (mem.cells.drop (line.length + 1))

/-- How the first half of `makeup_stack` ends. -/
def CutOutcome (mem : Region UInt8 base 1024) (line : List UInt8) :
    Except Fault (Region ℕ 0 256 × ℕ × Region UInt8 base 1024) → Prop :=
  Ends (Room 1024 0 (scratchText mem line)) (0 ∈ mem.cells.drop (line.length + 1)) fun r =>
    r.2.1 = (closedWords 32 (scratchText mem line)).length ∧
      ∀ i w, (closedWords 32 (scratchText mem line))[i]? = some w →
        ∃ p, r.1.get i = some p ∧ string (r.2.2.behind p) = .ok w

theorem cutWords_outcome (argv : Region ℕ 0 256) (mem : Region UInt8 base 1024) (h0 : 0 ∉ line)
    (hlen : line.length < 1024) : CutOutcome mem line (cutWords argv mem line) := by
  obtain ⟨mem₁, hputs, hcopy⟩ := exists_copy mem hlen
  obtain ⟨mem₂, hput⟩ := mem₁.put_of_mem 32 (Nat.le_add_right base line.length) (by omega)
  have hcells : mem₂.cells = line ++ 32 :: mem.cells.drop (line.length + 1) := by
    rw [(Region.put_eq hput).2.2, hcopy, Nat.add_sub_cancel_left, List.set_append_right _ _ le_rfl]
    simp
  have htext : text mem₂.cells = scratchText mem line := by
    rw [hcells, text_append h0]
    rfl
  have hzero : 0 ∈ mem₂.cells ↔ 0 ∈ mem.cells.drop (line.length + 1) := by
    rw [hcells]
    simp [h0]
  obtain ⟨k, s, hk, hs⟩ := exists_spaces mem₂.cells
  have hspaces : (0 : UInt8) ∉ List.replicate k 32 := fun h => absurd (List.mem_replicate.mp h).2 (by decide)
  have hroom : Room 1024 0 (scratchText mem line) ↔ Room (1024 - k) 0 (text s) := by
    rw [← htext, hk, text_append hspaces, room_replicate]
  have hwords : closedWords 32 (scratchText mem line) = closedWords 32 (text s) := by
    rw [← htext, hk, text_append hspaces, closedWords_replicate]
  have hin : 0 ∈ mem.cells.drop (line.length + 1) ↔ 0 ∈ s := by
    rw [← hzero, hk, List.mem_append]
    exact ⟨fun h => h.resolve_left hspaces, Or.inr⟩
  rw [cutWords, strlcpy_eq mem base (Nat.lt_succ_self _)]
  have hskip := skipSpaces_eq k hs base
  rw [← hk] at hskip
  by_cases hnil : s = []
  · rw [if_pos hnil] at hskip
    simp only [check, hputs, Except.map, bind, Except.bind, hput, Region.behind_base, hskip]
    subst hnil
    exact ⟨hroom.mpr (room_of_notMem List.not_mem_nil (Nat.zero_le 256)), fun h => List.not_mem_nil (hin.mp h)⟩
  · rw [if_neg hnil] at hskip
    have hrest : mem₂.behind (base + k) = s := by
      rw [Region.behind_add le_rfl, Region.behind_base, hk]
      simp
    have hle : s.length ≤ mem₂.cells.length := by
      rw [hk, List.length_append]
      omega
    have hout : Outcome argv 0 mem₂ (base + k) (parsing (mem₂.cells.length + 1) argv 0 mem₂ (base + k)) :=
      parsing_outcome _ (by rw [hrest]; omega) (by omega) (by omega) (by rw [hrest]; exact hs)
    simp only [check, hputs, Except.map, bind, Except.bind, hput, Region.behind_base, hskip]
    rw [Outcome, hrest, show base + 1024 - (base + k) = 1024 - k by omega, ← hwords] at hout
    apply hout.imp hroom.symm hin.symm
    rintro ⟨argv', argc, mem'⟩ ⟨hcount, hparsed⟩
    refine ⟨by rw [hcount, Nat.zero_add], fun i w hw => ?_⟩
    obtain ⟨p, hp, hstring⟩ := hparsed.points i w hw
    exact ⟨p, by rw [← hp, Nat.zero_add], hstring⟩

end Pintos.Userprog.CommandLine
