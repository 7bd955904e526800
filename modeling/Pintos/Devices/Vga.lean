import Mathlib.Data.List.Basic
import Mathlib.Data.List.Induction
import Mathlib.Logic.Function.Basic
import Mathlib.Tactic.Linarith

/-!
# The text screen

`vga_putc` of `devices/vga.c`, with the framebuffer and the cursor registers of the CRT controller.

* A `Paper` is a screen without scrolling: rows without end, of which the screen shows the 25 from `top` on.  What has
  been typed stays on it.  `Shows.vgaPutc` is one character, `shows_puts` a whole text, whatever control characters are
  in it.
* `lines` says where a text breaks: at each newline, and after each 80th character of a line.
* `screen_shows_lines`: after a form feed and any text the screen has the last 25 of its lines, and the hardware cursor
  stands behind the last one.
-/

namespace Pintos.Devices.Vga

/-! ## The code -/

/-- `COL_CNT` -/
abbrev colCnt : ℕ := 80

/-- `ROW_CNT` -/
abbrev rowCnt : ℕ := 25

/-- The two bytes of a position of the framebuffer. -/
structure Cell where
  char : UInt8
  attr : UInt8
  deriving DecidableEq

/-- A character in gray on black. -/
def gray (c : UInt8) : Cell := ⟨c, 0x07⟩

def blank : Cell := gray 32

/-- `fb`, `cx`, `cy` and `inited`, and the registers behind the ports 0x3d4 and 0x3d5. -/
structure Screen where
  fb : ℕ → ℕ → Cell
  cx : ℕ
  cy : ℕ
  inited : Bool
  crtc : ℕ → UInt8

/-- The cases of `vga_putc`. -/
inductive Control
  | newline
  | formFeed
  | backspace
  | carriageReturn
  | tab
  | bell
  | char (c : UInt8)
  deriving DecidableEq

def control (c : UInt8) : Control :=
  if c = 10 then .newline
  else if c = 12 then .formFeed
  else if c = 8 then .backspace
  else if c = 13 then .carriageReturn
  else if c = 9 then .tab
  else if c = 7 then .bell
  else .char c

/-- `ROUND_UP (x, 8)` -/
def roundUp8 (x : ℕ) : ℕ := (x + 7) / 8 * 8

namespace Screen

/-- `clear_row` -/
def clearRow (s : Screen) (y : ℕ) : Screen :=
  { s with fb := fun y' x => if y' = y ∧ x < colCnt then blank else s.fb y' x }

/-- `outw` to the port 0x3d4: the low byte selects a register, the high byte goes to it. -/
def outw (s : Screen) (v : ℕ) : Screen :=
  { s with crtc := Function.update s.crtc (v % 256) (UInt8.ofNat (v / 256)) }

/-- `move_cursor` -/
def moveCursor (s : Screen) : Screen :=
  let cp := (s.cx + colCnt * s.cy) % 2 ^ 16
  (s.outw (0x0e ||| (cp &&& 0xff00))).outw (0x0f ||| (cp <<< 8))

/-- `find_cursor` -/
def findCursor (s : Screen) : ℕ × ℕ :=
  let cp := ((s.crtc 0x0e).toNat <<< 8) ||| (s.crtc 0x0f).toNat
  (cp % colCnt, cp / colCnt)

/-- `cls` -/
def cls (s : Screen) : Screen :=
  { (List.range rowCnt).foldl clearRow s with cx := 0, cy := 0 }.moveCursor

/-- `newline` -/
def newline (s : Screen) : Screen :=
  if rowCnt ≤ s.cy + 1 then
    -- memmove (&fb[0], &fb[1], sizeof fb[0] * (ROW_CNT - 1))
    { s with
      cx := 0
      cy := rowCnt - 1
      fb := fun y x => if y < rowCnt - 1 ∧ x < colCnt then s.fb (y + 1) x else s.fb y x }.clearRow (rowCnt - 1)
  else { s with cx := 0, cy := s.cy + 1 }

/-- `init` -/
def init (s : Screen) : Screen :=
  if s.inited then s else { s with cx := s.findCursor.1, cy := s.findCursor.2, inited := true }

/-- A newline behind the last column. -/
def wrap (s : Screen) : Screen := if colCnt ≤ s.cx then s.newline else s

/-- `fb[cy][cx]` -/
def put (s : Screen) (c : UInt8) : Screen :=
  { s with fb := fun y x => if y = s.cy ∧ x = s.cx then gray c else s.fb y x }

/-- The switch of `vga_putc`. -/
def interpret (s : Screen) : Control → Screen
  | .newline => s.newline
  | .formFeed => s.cls
  | .backspace => { s with cx := s.cx - 1 }
  | .carriageReturn => { s with cx := 0 }
  | .tab => { s with cx := roundUp8 (s.cx + 1) }.wrap
  | .bell => s
  | .char c => { s.put c with cx := s.cx + 1 }.wrap

/-- `vga_putc` -/
def vgaPutc (s : Screen) (c : UInt8) : Screen := (s.init.interpret (control c)).moveCursor

/-- The characters of a text, one after the other. -/
def puts (s : Screen) (text : List UInt8) : Screen := text.foldl vgaPutc s

/-- The position that `init` uses is on the screen. -/
def OnScreen (s : Screen) : Prop := s.init.cx < colCnt ∧ s.init.cy < rowCnt

end Screen

/-! ## The hardware cursor -/

variable {s : Screen} {c : UInt8} {text : List UInt8} {x y : ℕ}

@[simp] theorem roundUp8_le (h : x < colCnt) : roundUp8 (x + 1) ≤ colCnt := by
  have hcol : colCnt = 80 := rfl
  unfold roundUp8
  omega

theorem word_low {r : ℕ} (v : ℕ) (hr : r < 256) : (r ||| (v &&& 0xff00)) % 256 = r ∧ (r ||| (v <<< 8)) % 256 = r := by
  constructor
  · rw [show 256 = 2 ^ 8 from rfl, Nat.or_mod_two_pow, Nat.and_mod_two_pow]
    simpa using hr
  · rw [show 256 = 2 ^ 8 from rfl, Nat.or_mod_two_pow, Nat.shiftLeft_eq]
    simpa using hr

theorem word_high {r : ℕ} (v : ℕ) (hr : r < 256) :
    (r ||| (v &&& 0xff00)) / 256 = v / 256 % 256 ∧ (r ||| (v <<< 8)) / 256 = v := by
  have hzero : r / 2 ^ 8 = 0 := Nat.div_eq_of_lt hr
  constructor
  · rw [show 256 = 2 ^ 8 from rfl, Nat.or_div_two_pow, hzero, Nat.zero_or, Nat.and_div_two_pow]
    exact Nat.and_two_pow_sub_one_eq_mod _ 8
  · rw [show 256 = 2 ^ 8 from rfl, Nat.or_div_two_pow, hzero, Nat.zero_or, Nat.shiftLeft_eq]
    simp

theorem moveCursor_crtc (s : Screen) :
    s.moveCursor.crtc 0x0e = UInt8.ofNat ((s.cx + colCnt * s.cy) % 2 ^ 16 / 256) ∧
      s.moveCursor.crtc 0x0f = UInt8.ofNat ((s.cx + colCnt * s.cy) % 2 ^ 16) := by
  have hlow := word_low (r := 0x0e) ((s.cx + colCnt * s.cy) % 2 ^ 16) (by decide)
  have hlow' := word_low (r := 0x0f) ((s.cx + colCnt * s.cy) % 2 ^ 16) (by decide)
  have hhigh := word_high (r := 0x0e) ((s.cx + colCnt * s.cy) % 2 ^ 16) (by decide)
  have hhigh' := word_high (r := 0x0f) ((s.cx + colCnt * s.cy) % 2 ^ 16) (by decide)
  constructor
  · simp only [Screen.moveCursor, Screen.outw, hlow.1, hlow'.2, hhigh.1, hhigh'.2]
    rw [Function.update_of_ne (by decide), Function.update_self, Nat.mod_eq_of_lt (by omega)]
  · simp only [Screen.moveCursor, Screen.outw, hlow'.2, hhigh'.2]
    rw [Function.update_self]

/-- **`find_cursor` finds where `move_cursor` has put it.** -/
theorem findCursor_moveCursor (hx : s.cx < colCnt) (hy : s.cy < rowCnt) : s.moveCursor.findCursor = (s.cx, s.cy) := by
  obtain ⟨hhigh, hlow⟩ := moveCursor_crtc s
  have hcol : colCnt = 80 := rfl
  have hrow : rowCnt = 25 := rfl
  have hcp : s.cx + colCnt * s.cy < 2 ^ 16 := by
    rw [hcol]
    omega
  rw [Nat.mod_eq_of_lt hcp] at hhigh hlow
  have hword : ((s.moveCursor.crtc 0x0e).toNat <<< 8) ||| (s.moveCursor.crtc 0x0f).toNat = s.cx + colCnt * s.cy := by
    rw [hhigh, hlow, ← Nat.shiftLeft_add_eq_or_of_lt (UInt8.toNat_lt _), Nat.shiftLeft_eq]
    simp only [UInt8.toNat_ofNat']
    omega
  simp only [Screen.findCursor, hword, Prod.mk.injEq, hcol]
  omega

/-! ## The paper -/

/-- A screen without an end. -/
structure Paper where
  cell : ℕ → ℕ → Cell
  top : ℕ
  row : ℕ
  col : ℕ

namespace Paper

/-- The next line, which moves into the window. -/
def newline (p : Paper) : Paper :=
  { p with col := 0, row := p.row + 1, top := if p.top + rowCnt ≤ p.row + 1 then p.top + 1 else p.top }

def wrap (p : Paper) : Paper := if colCnt ≤ p.col then p.newline else p

def put (p : Paper) (c : UInt8) : Paper :=
  { p with cell := fun r x => if r = p.row ∧ x = p.col then gray c else p.cell r x }

/-- A form feed moves the window behind what it shows. -/
def type (p : Paper) : Control → Paper
  | .newline => p.newline
  | .formFeed => { p with col := 0, row := p.top + rowCnt, top := p.top + rowCnt }
  | .backspace => { p with col := p.col - 1 }
  | .carriageReturn => { p with col := 0 }
  | .tab => { p with col := roundUp8 (p.col + 1) }.wrap
  | .bell => p
  | .char c => { p.put c with col := p.col + 1 }.wrap

end Paper

/-- The screen shows the paper from `top` on, and nothing has been typed behind it. -/
structure Window (s : Screen) (p : Paper) : Prop where
  col : s.cx = p.col
  row : p.row = p.top + s.cy
  inRow : s.cy < rowCnt
  cell : ∀ y x, y < rowCnt → x < colCnt → s.fb y x = p.cell (p.top + y) x
  fresh : ∀ r x, p.top + rowCnt ≤ r → x < colCnt → p.cell r x = blank

/-- The screen between two characters. -/
structure Shows (s : Screen) (p : Paper) : Prop extends Window s p where
  inited : s.inited = true
  inCol : s.cx < colCnt

namespace Window

variable {p : Paper}

theorem setCol (h : Window s p) (k : ℕ) : Window { s with cx := k } { p with col := k } :=
  ⟨rfl, h.row, h.inRow, h.cell, h.fresh⟩

theorem moveCursor (h : Window s p) : Window s.moveCursor p := ⟨h.col, h.row, h.inRow, h.cell, h.fresh⟩

theorem newline (h : Window s p) : Window s.newline p.newline := by
  have hrow := h.row
  have hin := h.inRow
  unfold Screen.newline Paper.newline
  by_cases hlast : rowCnt ≤ s.cy + 1
  · have htop : p.top + rowCnt ≤ p.row + 1 := by omega
    simp only [if_pos hlast, if_pos htop]
    refine ⟨rfl, by simp only [Screen.clearRow]; omega, Nat.lt_succ_self 24, fun y x hy hx => ?_, fun r x hr hx => ?_⟩
    · by_cases hyl : y = rowCnt - 1
      · have hfresh := h.fresh (p.top + 1 + y) x (by omega) hx
        simp [Screen.clearRow, hyl, hx, ← hfresh]
      · have hcell := h.cell (y + 1) x (by omega) hx
        have hlt : y < rowCnt - 1 := by omega
        simp only [Screen.clearRow, hyl, false_and, if_false, hlt, hx, and_self, if_true, hcell]
        congr 1
        omega
    · exact h.fresh r x (by simp only at hr; omega) hx
  · have htop : ¬p.top + rowCnt ≤ p.row + 1 := by omega
    simp only [if_neg hlast, if_neg htop]
    exact ⟨rfl, by simp only; omega, by simp only; omega, h.cell, h.fresh⟩

theorem wrap (h : Window s p) : Window s.wrap p.wrap := by
  unfold Screen.wrap Paper.wrap
  rw [h.col]
  split
  · exact h.newline
  · exact h

theorem put (h : Window s p) (c : UInt8) : Window (s.put c) (p.put c) := by
  refine ⟨h.col, h.row, h.inRow, fun y x hy hx => ?_, fun r x hr hx => ?_⟩
  · have hrow := h.row
    have hiff : p.top + y = p.row ∧ x = p.col ↔ y = s.cy ∧ x = s.cx := by
      rw [h.col]
      omega
    simp only [Screen.put, Paper.put, hiff, h.cell y x hy hx]
  · have hne : ¬(r = p.row ∧ x = p.col) := by
      have hrow := h.row
      have hin := h.inRow
      simp only [Paper.put] at hr
      omega
    simp only [Paper.put, if_neg hne]
    exact h.fresh r x hr hx

end Window

theorem foldl_clearRow (s : Screen) (n : ℕ) :
    (List.range n).foldl Screen.clearRow s =
      { s with fb := fun y x => if y < n ∧ x < colCnt then blank else s.fb y x } := by
  induction n with
  | zero => simp
  | succ n ih =>
    rw [List.range_succ, List.foldl_append, ih]
    simp only [List.foldl_cons, List.foldl_nil, Screen.clearRow, Screen.mk.injEq, and_true]
    funext y x
    by_cases hx : x < colCnt
    · by_cases hy : y = n
      · simp [hy, hx]
      · have hiff : y < n + 1 ↔ y < n := by omega
        simp [hy, hx, hiff]
    · simp [hx]

theorem Window.cls {p : Paper} (h : Window s p) : Window s.cls (p.type .formFeed) := by
  unfold Screen.cls
  rw [foldl_clearRow]
  apply moveCursor
  refine ⟨rfl, rfl, Nat.succ_pos 24, fun y x hy hx => ?_, fun r x hr hx => ?_⟩
  · have hfresh := h.fresh (p.top + rowCnt + y) x (by omega) hx
    simp [Paper.type, hy, hx, hfresh]
  · simp only [Paper.type] at hr
    exact h.fresh r x (by omega) hx

@[simp] theorem newline_inited (s : Screen) : s.newline.inited = s.inited := by
  unfold Screen.newline
  split <;> rfl

@[simp] theorem newline_cx (s : Screen) : s.newline.cx = 0 := by
  unfold Screen.newline
  split <;> rfl

theorem wrap_inited (s : Screen) : s.wrap.inited = s.inited := by
  unfold Screen.wrap
  split
  · exact newline_inited s
  · rfl

theorem wrap_cx (s : Screen) : s.wrap.cx < colCnt := by
  unfold Screen.wrap
  split
  · rw [newline_cx]
    decide
  · next h => exact Nat.lt_of_not_le h

theorem Shows.init {p : Paper} (h : Shows s p) : s.init = s := by rw [Screen.init, if_pos h.inited]

/-- **One character.** -/
theorem Shows.vgaPutc {p : Paper} (h : Shows s p) (c : UInt8) : Shows (s.vgaPutc c) (p.type (control c)) := by
  suffices hint : Shows (s.interpret (control c)) (p.type (control c)) by
    rw [Screen.vgaPutc, h.init]
    exact ⟨hint.toWindow.moveCursor, hint.inited, hint.inCol⟩
  have hw := h.toWindow
  have hcol := h.inCol
  cases control c with
  | newline => exact ⟨hw.newline, by simp [Screen.interpret, h.inited], by simp [Screen.interpret]⟩
  | formFeed =>
    refine ⟨hw.cls, ?_, ?_⟩
    · show s.cls.inited = true
      simp [Screen.cls, Screen.moveCursor, Screen.outw, foldl_clearRow, h.inited]
    · show s.cls.cx < colCnt
      simp [Screen.cls, Screen.moveCursor, Screen.outw]
  | backspace =>
    rw [Paper.type, ← hw.col]
    exact ⟨hw.setCol _, h.inited, Nat.lt_of_le_of_lt (Nat.sub_le _ _) hcol⟩
  | carriageReturn => exact ⟨hw.setCol 0, h.inited, by simp [Screen.interpret]⟩
  | tab =>
    rw [Paper.type, ← hw.col]
    exact ⟨(hw.setCol _).wrap, (wrap_inited _).trans h.inited, wrap_cx _⟩
  | bell => exact h
  | char c =>
    rw [Paper.type, ← hw.col]
    exact ⟨((hw.put c).setCol _).wrap, (wrap_inited _).trans h.inited, wrap_cx _⟩

theorem Screen.OnScreen.shows (h : s.OnScreen) :
    Shows s.init ⟨fun r x => if r < rowCnt then s.fb r x else blank, 0, s.init.cy, s.init.cx⟩ := by
  have hfb : s.init.fb = s.fb := by
    unfold Screen.init
    split <;> rfl
  refine ⟨⟨rfl, (Nat.zero_add _).symm, h.2, fun y x hy _ => ?_, fun r x hr _ => ?_⟩, ?_, h.1⟩
  · simp [hfb, hy]
  · have hnot : ¬r < rowCnt := by omega
    simp only [if_neg hnot]
  · unfold Screen.init
    split
    · assumption
    · rfl

/-- **A text.** -/
theorem Shows.puts {p : Paper} (h : Shows s p) (text : List UInt8) :
    Shows (s.puts text) ((text.map control).foldl Paper.type p) := by
  unfold Screen.puts
  induction text generalizing s p with
  | nil => exact h
  | cons c text ih => exact ih (h.vgaPutc c)

@[simp] theorem puts_cons (s : Screen) (c : UInt8) (text : List UInt8) :
    s.puts (c :: text) = (s.vgaPutc c).puts text := rfl

theorem puts_append (s : Screen) (text text' : List UInt8) : s.puts (text ++ text') = (s.puts text).puts text' :=
  List.foldl_append

theorem puts_init (s : Screen) (htext : text ≠ []) : s.init.puts text = s.puts text := by
  have hinit : s.init.init = s.init := by
    unfold Screen.init
    by_cases h : s.inited
    · simp [h]
    · simp [h]
  cases text with
  | nil => exact absurd rfl htext
  | cons c text => simp [Screen.vgaPutc, hinit]

/-- What is on the screen after a text. -/
theorem Screen.OnScreen.puts (h : s.OnScreen) (htext : text ≠ []) : ∃ p, Shows (s.puts text) p := by
  rw [← puts_init s htext]
  exact ⟨_, h.shows.puts text⟩

/-- The hardware cursor is where the next character goes. -/
theorem findCursor_puts (h : s.OnScreen) (htext : text ≠ []) :
    (s.puts text).findCursor = ((s.puts text).cx, (s.puts text).cy) := by
  obtain ⟨p, hp⟩ := h.puts htext
  have hx := hp.inCol
  have hy := hp.inRow
  obtain ⟨before, c, rfl⟩ := (List.eq_nil_or_concat' text).resolve_left htext
  rw [puts_append] at hx hy ⊢
  exact findCursor_moveCursor hx hy

/-! ## Lines -/

/-- The screen lines of one line. -/
def breakLine (l : List UInt8) : List (List UInt8) :=
  if l.length < colCnt then [l] else l.take colCnt :: breakLine (l.drop colCnt)
termination_by l.length
decreasing_by
  have hcol : colCnt = 80 := rfl
  rw [List.length_drop]
  omega

/-- The screen lines of a text. -/
def lines (text : List UInt8) : List (List UInt8) := (text.splitOn 10).flatMap breakLine

/-- The character and the attribute at a position of some lines. -/
def cellAt (ls : List (List UInt8)) (y x : ℕ) : Cell := ((ls[y]?.bind fun l => l[x]?).map gray).getD blank

/-- What another character does to the last line. -/
def extend (full : List (List UInt8)) (cur : List UInt8) (c : UInt8) : List (List UInt8) :=
  if cur.length + 1 < colCnt then full ++ [cur ++ [c]] else full ++ [cur ++ [c], []]

theorem breakLine_concat (l : List UInt8) (c : UInt8) : ∃ full cur, breakLine l = full ++ [cur] ∧
    cur.length < colCnt ∧ breakLine (l ++ [c]) = extend full cur c := by
  induction l using breakLine.induct with
  | case1 l hlt =>
    refine ⟨[], l, by rw [breakLine, if_pos hlt]; rfl, hlt, ?_⟩
    rw [breakLine, extend, List.length_append, List.length_singleton]
    split
    · rfl
    · next hge =>
      have hlen : (l ++ [c]).length = colCnt := by
        rw [List.length_append, List.length_singleton]
        omega
      rw [← hlen, List.take_length, List.drop_length, breakLine]
      rfl
  | case2 l hge ih =>
    obtain ⟨full, cur, hbreak, hcur, hconcat⟩ := ih
    refine ⟨l.take colCnt :: full, cur, by rw [breakLine, if_neg hge, hbreak]; rfl, hcur, ?_⟩
    have hlen : ¬(l ++ [c]).length < colCnt := by
      rw [List.length_append]
      omega
    have htake : (l ++ [c]).take colCnt = l.take colCnt := List.take_append_of_le_length (by omega)
    have hdrop : (l ++ [c]).drop colCnt = l.drop colCnt ++ [c] := List.drop_append_of_le_length (by omega)
    rw [breakLine, if_neg hlen, htake, hdrop, hconcat, extend, extend]
    split <;> rfl

theorem splitOn_concat (text : List UInt8) (hc : c ≠ 10) : ∃ full cur, text.splitOn 10 = full ++ [cur] ∧
    (text ++ [c]).splitOn 10 = full ++ [cur ++ [c]] := by
  induction text with
  | nil => exact ⟨[], [], rfl, by simp [List.splitOn_cons_eq_if_modifyHead, hc]⟩
  | cons b text ih =>
    obtain ⟨full, cur, hsplit, hconcat⟩ := ih
    rw [List.cons_append, List.splitOn_cons_eq_if_modifyHead, List.splitOn_cons_eq_if_modifyHead, hsplit, hconcat]
    by_cases hb : b = 10
    · exact ⟨[] :: full, cur, by simp [hb], by simp [hb]⟩
    · cases full with
      | nil => exact ⟨[], b :: cur, by simp [hb], by simp [hb]⟩
      | cons l full => exact ⟨(b :: l) :: full, cur, by simp [hb], by simp [hb]⟩

/-- **Where the next character of a text goes.** -/
theorem lines_concat (text : List UInt8) : ∃ full cur, lines text = full ++ [cur] ∧ cur.length < colCnt ∧
    lines (text ++ [10]) = full ++ [cur, []] ∧ ∀ c, c ≠ 10 → lines (text ++ [c]) = extend full cur c := by
  have hnext : ∀ c, c ≠ 10 → ∃ full cur, lines text = full ++ [cur] ∧ cur.length < colCnt ∧
      lines (text ++ [c]) = extend full cur c := by
    intro c hc
    obtain ⟨ls, l, hsplit, hconcat⟩ := splitOn_concat text hc
    obtain ⟨full, cur, hbreak, hcur, hextend⟩ := breakLine_concat l c
    refine ⟨ls.flatMap breakLine ++ full, cur, ?_, hcur, ?_⟩
    · rw [lines, hsplit, List.flatMap_append, List.flatMap_singleton, hbreak, List.append_assoc]
    · rw [lines, hconcat, List.flatMap_append, List.flatMap_singleton, hextend, extend, extend]
      split <;> simp
  obtain ⟨full, cur, hlines, hcur, _⟩ := hnext 0 (by decide)
  refine ⟨full, cur, hlines, hcur, ?_, fun c hc => ?_⟩
  · have hnil : ([] : List UInt8).splitOn 10 = [[]] := rfl
    rw [lines, List.splitOn_append_cons_self, List.flatMap_append, hnil, ← lines, hlines]
    simp [breakLine]
  · obtain ⟨full', cur', hlines', _, hextend⟩ := hnext c hc
    rw [hlines] at hlines'
    obtain ⟨rfl, hcur'⟩ := List.append_inj' hlines' rfl
    rw [hextend, List.singleton_inj.mp hcur']

theorem cellAt_concat (full : List (List UInt8)) (cur : List UInt8) (y x : ℕ) : cellAt (full ++ [cur]) y x =
    if y = full.length then (cur[x]?.map gray).getD blank else cellAt full y x := by
  unfold cellAt
  rcases Nat.lt_trichotomy y full.length with hlt | rfl | hgt
  · simp [List.getElem?_append_left hlt, hlt.ne]
  · simp
  · have hnone : (full ++ [cur])[y]? = none := by
      apply List.getElem?_eq_none
      rw [List.length_append]
      exact hgt
    simp [hnone, List.getElem?_eq_none hgt.le, hgt.ne']

/-- An empty line looks as if it were not there. -/
@[simp] theorem cellAt_concat_nil (full : List (List UInt8)) (y x : ℕ) : cellAt (full ++ [[]]) y x = cellAt full y x := by
  rw [cellAt_concat]
  split
  · next hy => simp [cellAt, hy]
  · rfl

/-- The paper has these lines from row `r` on, which was the first one of the window. -/
structure Typed (p : Paper) (r : ℕ) (full : List (List UInt8)) (cur : List UInt8) : Prop where
  row : p.row = r + full.length
  col : p.col = cur.length
  top : p.top = r + (full.length - (rowCnt - 1))
  cell : ∀ y x, x < colCnt → p.cell (r + y) x = cellAt (full ++ [cur]) y x

namespace Typed

variable {p : Paper} {r : ℕ} {full : List (List UInt8)} {cur : List UInt8}

theorem newline (h : Typed p r full cur) : Typed p.newline r (full ++ [cur]) [] := by
  have hrow := h.row
  have htop := h.top
  have hcnt : rowCnt = 25 := rfl
  refine ⟨?_, rfl, ?_, fun y x hx => ?_⟩
  · simp only [Paper.newline, List.length_append, List.length_singleton]
    omega
  · simp only [Paper.newline, List.length_append, List.length_singleton]
    split <;> omega
  · rw [cellAt_concat_nil]
    exact h.cell y x hx

theorem char (h : Typed p r full cur) (c : UInt8) :
    Typed { p.put c with col := p.col + 1 } r full (cur ++ [c]) := by
  refine ⟨h.row, by simp [h.col], h.top, fun y x hx => ?_⟩
  have hcell := h.cell y x hx
  rw [cellAt_concat] at hcell ⊢
  have hiff : r + y = p.row ∧ x = p.col ↔ y = full.length ∧ x = cur.length := by
    rw [h.row, h.col]
    omega
  simp only [Paper.put, hiff, hcell]
  by_cases hy : y = full.length
  · by_cases hxc : x = cur.length
    · simp [hy, hxc]
    · have hget : (cur ++ [c])[x]? = cur[x]? := by
        rcases Nat.lt_or_gt_of_ne hxc with hlt | hgt
        · exact List.getElem?_append_left hlt
        · rw [List.getElem?_eq_none hgt.le, List.getElem?_eq_none]
          rw [List.length_append]
          exact hgt
      simp [hy, hxc, hget]
  · simp [hy]

/-- A character and the line break behind the last column. -/
theorem extend (h : Typed p r full cur) (c : UInt8) :
    ∃ full' cur', extend full cur c = full' ++ [cur'] ∧ Typed (p.type (.char c)) r full' cur' := by
  have hput := h.char c
  rw [Vga.extend]
  show ∃ full' cur', _ ∧ Typed (if colCnt ≤ p.col + 1 then _ else _) r full' cur'
  rw [h.col] at hput ⊢
  by_cases hfit : cur.length + 1 < colCnt
  · rw [if_pos hfit, if_neg (Nat.not_le_of_lt hfit)]
    exact ⟨full, cur ++ [c], rfl, hput⟩
  · rw [if_neg hfit, if_pos (Nat.le_of_not_lt hfit)]
    exact ⟨full ++ [cur ++ [c]], [], by simp, hput.newline⟩

end Typed

/-- A byte that `vga_putc` writes to the screen, or a newline. -/
def Printable (c : UInt8) : Prop := control c = .newline ∨ control c = .char c

instance printableDecidable : DecidablePred Printable := fun _ => inferInstanceAs (Decidable (_ ∨ _))

theorem control_newline (h : control c = .newline) : c = 10 := by
  unfold control at h
  split_ifs at h
  assumption

/-- **The paper has the lines of the text.**  By induction on the text, from its end. -/
theorem typed_lines {p : Paper} {r : ℕ} (hstart : Typed p r [] []) (htext : ∀ c ∈ text, Printable c) :
    ∃ full cur, lines text = full ++ [cur] ∧ Typed ((text.map control).foldl Paper.type p) r full cur := by
  induction text using List.reverseRecOn with
  | nil => exact ⟨[], [], by simp [lines, breakLine], hstart⟩
  | append_singleton text c ih =>
    obtain ⟨full, cur, hlines, ht⟩ := ih fun b hb => htext b (by simp [hb])
    obtain ⟨full', cur', hlines', hcur, hnewline, hchar⟩ := lines_concat text
    rw [hlines] at hlines'
    obtain ⟨rfl, hcur'⟩ := List.append_inj' hlines' rfl
    obtain rfl := List.singleton_inj.mp hcur'
    rw [List.map_append, List.foldl_append]
    rcases htext c (by simp) with hc | hc
    · obtain rfl := control_newline hc
      refine ⟨full ++ [cur], [], by simp [hnewline], ?_⟩
      rw [List.map_singleton, hc]
      exact ht.newline
    · have hne : c ≠ 10 := by
        rintro rfl
        cases hc
      rw [hchar c hne, List.map_singleton, hc]
      exact ht.extend c

/-- **The screen shows the last lines of a text**, and the cursor stands behind them, whatever was printed before. -/
theorem screen_shows_lines (h : s.OnScreen) (before : List UInt8) (htext : ∀ c ∈ text, Printable c) :
    ∃ full cur, lines text = full ++ [cur] ∧
      (s.puts (before ++ 12 :: text)).findCursor = (cur.length, min full.length (rowCnt - 1)) ∧
      ∀ y x, y < rowCnt → x < colCnt → (s.puts (before ++ 12 :: text)).fb y x =
        cellAt (full ++ [cur]) (full.length - (rowCnt - 1) + y) x := by
  have hne : before ++ 12 :: text ≠ [] := by simp
  have hcursor := findCursor_puts h hne
  rw [← puts_init s hne, puts_append, puts_cons] at hcursor ⊢
  have hbefore := h.shows.puts before
  obtain ⟨p, hp⟩ : ∃ p, p = (before.map control).foldl Paper.type
      ⟨fun r x => if r < rowCnt then s.fb r x else blank, 0, s.init.cy, s.init.cx⟩ := ⟨_, rfl⟩
  rw [← hp] at hbefore
  have hstart : Typed (p.type .formFeed) (p.top + rowCnt) [] [] := by
    refine ⟨rfl, rfl, rfl, fun y x hx => ?_⟩
    rw [cellAt_concat_nil]
    exact hbefore.fresh _ x (Nat.le_add_right _ y) hx
  obtain ⟨full, cur, hlines, ht⟩ := typed_lines hstart htext
  have hshows := (hbefore.vgaPutc 12).puts text
  rw [show control 12 = .formFeed from rfl] at hshows
  have hrow := hshows.row
  have hin := hshows.inRow
  rw [ht.row, ht.top] at hrow
  refine ⟨full, cur, hlines, ?_, fun y x hy hx => ?_⟩
  · rw [hcursor, hshows.col, ht.col, Prod.mk.injEq]
    have hcnt : rowCnt = 25 := rfl
    omega
  · rw [hshows.cell y x hy hx, ht.top, Nat.add_assoc, ht.cell _ x hx]

/-- The screen of a machine with the cursor in its upper left corner. -/
def poweredOn : Screen := ⟨fun _ _ => gray 0, 0, 0, false, fun _ => 0⟩

theorem screen_shows_lines_poweredOn : ∃ full cur, lines [72, 105, 10] = full ++ [cur] ∧
    (poweredOn.puts ([7] ++ 12 :: [72, 105, 10])).findCursor = (cur.length, min full.length (rowCnt - 1)) ∧
    ∀ y x, y < rowCnt → x < colCnt → (poweredOn.puts ([7] ++ 12 :: [72, 105, 10])).fb y x =
      cellAt (full ++ [cur]) (full.length - (rowCnt - 1) + y) x :=
  screen_shows_lines ⟨by decide, by decide⟩ [7] (by simp [Printable, control])

end Pintos.Devices.Vga
