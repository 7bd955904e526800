import Pintos.Library.Region
import Pintos.Library.TokenRuns
import Pintos.Userprog.CommandLine

/-!
# Cutting a string into tokens

`strtok_r` of `project5/src/lib/string.c` on the array of a string.  A pointer into the string is its offset, and
`none` is the null pointer; a run ends at an assertion that fails, at a store outside of the array and at a read behind
the end of the memory.  The delimiters are the memory from their own string on, read by `strchr`, which finds the null
byte that ends them as well.

One call takes the first run of the text that is left (`strtokR_cons`), and the calls one after the other take the runs
of the string (`strtokCalls_eq`).
-/

namespace Pintos.Lib.Strtok

open TokenRuns

/-! ## The code -/

/-- `strchr (delimiters, c) != NULL` -/
def isDelimiter (delimiters : List UInt8) (c : UInt8) : Option Bool :=
  match Userprog.CommandLine.strchr c delimiters 0 with
  | .ok pos => some pos.isSome
  | .error _ => none

/-- The loop over the delimiters at the start, with the memory at `s`; the flag says that the string has come to its
end. -/
def skipDelimiters (delimiters : List UInt8) : List UInt8 → ℕ → Option (ℕ × Bool)
  | [], _ => none
  | c :: cs, s => do
    if ← isDelimiter delimiters c then
      if c = 0 then return (s, true) else skipDelimiters delimiters cs (s + 1)
    else return (s, false)

/-- The loop over the token, and the byte that ends it. -/
def skipToken (delimiters : List UInt8) : List UInt8 → ℕ → Option (ℕ × UInt8)
  | [], _ => none
  | c :: cs, s => do
    if ← isDelimiter delimiters c then return (s, c) else skipToken delimiters cs (s + 1)

variable {n : ℕ}

/-- `strtok_r (s, delimiters, save_ptr)`: the array, `*save_ptr` and the token. -/
def strtokR (mem : Region UInt8 0 n) (s : Option ℕ) (delimiters : List UInt8) (savePtr : Option ℕ) :
    Option (Region UInt8 0 n × Option ℕ × Option ℕ) := do
  -- a null pointer goes on at the saved position
  let s ← s.or savePtr
  let (s, ended) ← skipDelimiters delimiters (mem.behind s) s
  if ended then return (mem, some s, none)
  let token := s
  let (s, c) ← skipToken delimiters (mem.behind s) s
  if c ≠ 0 then
    let mem ← mem.put s 0
    return (mem, some (s + 1), some token)
  else return (mem, some s, some token)

/-- Calls one after the other, the first one with `s` and the others with a null pointer; what they have returned. -/
def strtokCalls (delimiters : List UInt8) :
    ℕ → Region UInt8 0 n → Option ℕ → Option ℕ → Option (Region UInt8 0 n × List (Option ℕ))
  | 0, mem, _, _ => some (mem, [])
  | calls + 1, mem, s, savePtr => do
    let (mem, savePtr, token) ← strtokR mem s delimiters savePtr
    let (mem, tokens) ← strtokCalls delimiters calls mem none savePtr
    return (mem, token :: tokens)

/-! ## Strings -/

/-- The characters of a string, without the null byte that ends it. -/
structure CString where
  chars : List UInt8
  noNul : 0 ∉ chars

namespace CString

/-- The memory from a string on. -/
def memory (s : CString) (behind : List UInt8) : List UInt8 := s.chars ++ 0 :: behind

/-- The array of a string. -/
def array (s : CString) (behind : List UInt8) : Region UInt8 0 (s.chars.length + 1) where
  cells := s.memory behind
  room := by rw [memory, List.length_append, List.length_cons]; omega

end CString

/-- A character of a token. -/
def isChar (d : CString) (c : UInt8) : Bool := decide (c ∉ d.chars)

variable {mem : Region UInt8 0 n} {d : CString} {c : UInt8} {rest tail : List UInt8} {i k : ℕ}

theorem strchr_memory (cs behind : List UInt8) (hcs : 0 ∉ cs) (c : UInt8) (pos : ℕ) :
    ∃ r, Userprog.CommandLine.strchr c (cs ++ 0 :: behind) pos = .ok r ∧ (r.isSome = true ↔ c = 0 ∨ c ∈ cs) := by
  induction cs generalizing pos with
  | nil =>
    rw [List.nil_append, Userprog.CommandLine.strchr]
    by_cases hc : 0 = c
    · exact ⟨some pos, by rw [if_pos hc], fun _ => Or.inl hc.symm, fun _ => rfl⟩
    · refine ⟨none, by rw [if_neg hc, if_pos rfl], fun h => absurd h Bool.false_ne_true, ?_⟩
      rintro (h | h)
      · exact absurd h.symm hc
      · exact absurd h List.not_mem_nil
  | cons b cs ih =>
    obtain ⟨hb, hcs⟩ := List.ne_and_not_mem_of_not_mem_cons hcs
    rw [List.cons_append, Userprog.CommandLine.strchr]
    by_cases hc : b = c
    · exact ⟨some pos, by rw [if_pos hc], fun _ => Or.inr (hc ▸ List.mem_cons_self), fun _ => rfl⟩
    · obtain ⟨r, hr, hiff⟩ := ih hcs (pos + 1)
      refine ⟨r, by rw [if_neg hc, if_neg hb.symm, hr], hiff.trans ?_⟩
      rw [List.mem_cons]
      constructor
      · rintro (h | h)
        · exact Or.inl h
        · exact Or.inr (Or.inr h)
      · rintro (h | h | h)
        · exact Or.inl h
        · exact absurd h.symm hc
        · exact Or.inr h

/-- The delimiters are found, and so is the null byte. -/
theorem isDelimiter_memory (d : CString) (behind : List UInt8) (c : UInt8) :
    isDelimiter (d.memory behind) c = some (decide (c = 0) || !isChar d c) := by
  obtain ⟨r, hr, hiff⟩ := strchr_memory d.chars behind d.noNul c 0
  rw [isDelimiter, CString.memory, hr, Option.some_inj, Bool.eq_iff_iff, hiff, Bool.or_eq_true, decide_eq_true_iff,
    isChar, Bool.not_eq_true', decide_eq_false_iff_not, not_not]

theorem isDelimiter_of_isChar (behind : List UInt8) (h0 : c ≠ 0) (hc : isChar d c = true) :
    isDelimiter (d.memory behind) c = some false := by
  rw [isDelimiter_memory, hc, decide_eq_false h0]
  rfl

theorem isDelimiter_of_not_isChar (behind : List UInt8) (hc : isChar d c = false) :
    isDelimiter (d.memory behind) c = some true := by
  rw [isDelimiter_memory, hc, Bool.not_false, Bool.or_true]

theorem isDelimiter_zero (behind : List UInt8) : isDelimiter (d.memory behind) 0 = some true := by
  rw [isDelimiter_memory, decide_eq_true rfl, Bool.true_or]

/-! ## The loops -/

/-- The delimiters at the start: to the end of the string, or to where the first run begins. -/
theorem skipDelimiters_eq (behind tail rest : List UInt8) (k : ℕ) (h0 : 0 ∉ rest) :
    (runsFrom (isChar d) none k rest = [] ∧
      skipDelimiters (d.memory behind) (rest ++ 0 :: tail) k = some (k + rest.length, true)) ∨
    ∃ g c w, rest = g ++ c :: w ∧ isChar d c = true ∧
      skipDelimiters (d.memory behind) (rest ++ 0 :: tail) k = some (k + g.length, false) ∧
      runsFrom (isChar d) none k rest = runsFrom (isChar d) (some (k + g.length)) (k + g.length) (c :: w) := by
  induction rest generalizing k with
  | nil =>
    refine Or.inl ⟨rfl, ?_⟩
    rw [List.nil_append, skipDelimiters, isDelimiter_zero]
    rfl
  | cons b rest ih =>
    obtain ⟨hb, h0⟩ := List.ne_and_not_mem_of_not_mem_cons h0
    cases hp : isChar d b with
    | true =>
      refine Or.inr ⟨[], b, rest, rfl, hp, ?_, ?_⟩
      · rw [List.cons_append, skipDelimiters, isDelimiter_of_isChar behind hb.symm hp]
        rfl
      · rw [List.length_nil, Nat.add_zero, runsFrom, if_pos hp, runsFrom, if_pos hp]
    | false =>
      have hskip : skipDelimiters (d.memory behind) (b :: rest ++ 0 :: tail) k =
          skipDelimiters (d.memory behind) (rest ++ 0 :: tail) (k + 1) := by
        rw [List.cons_append, skipDelimiters, isDelimiter_of_not_isChar behind hp]
        exact if_neg hb.symm
      have hruns : runsFrom (isChar d) none k (b :: rest) = runsFrom (isChar d) none (k + 1) rest := by
        rw [runsFrom, if_neg (by rw [hp]; exact Bool.false_ne_true)]
      have hlen : ∀ l : List UInt8, k + 1 + l.length = k + (b :: l).length := by
        intro l
        rw [List.length_cons]
        omega
      rw [hskip, hruns]
      rcases ih (k + 1) h0 with ⟨hnil, hend⟩ | ⟨g, c, w, rfl, hc, hend, hrun⟩
      · exact Or.inl ⟨hnil, by rw [hend, hlen]⟩
      · exact Or.inr ⟨b :: g, c, w, rfl, hc, by rw [hend, hlen], by rw [hrun, hlen]⟩

/-- The rest of a token: to the end of the string, or to the delimiter behind the run. -/
theorem skipToken_eq (behind tail w : List UInt8) (i k : ℕ) (h0 : 0 ∉ w) :
    (runsFrom (isChar d) (some i) k w = [(i, k + w.length)] ∧
      skipToken (d.memory behind) (w ++ 0 :: tail) k = some (k + w.length, 0)) ∨
    ∃ u c v, w = u ++ c :: v ∧ skipToken (d.memory behind) (w ++ 0 :: tail) k = some (k + u.length, c) ∧
      runsFrom (isChar d) (some i) k w = (i, k + u.length) :: runsFrom (isChar d) none (k + u.length + 1) v := by
  induction w generalizing k with
  | nil =>
    refine Or.inl ⟨rfl, ?_⟩
    rw [List.nil_append, skipToken, isDelimiter_zero]
    rfl
  | cons b w ih =>
    obtain ⟨hb, h0⟩ := List.ne_and_not_mem_of_not_mem_cons h0
    cases hp : isChar d b with
    | false =>
      refine Or.inr ⟨[], b, w, rfl, ?_, ?_⟩
      · rw [List.cons_append, skipToken, isDelimiter_of_not_isChar behind hp]
        rfl
      · rw [List.length_nil, Nat.add_zero, runsFrom, if_neg (by rw [hp]; exact Bool.false_ne_true)]
    | true =>
      have hskip : skipToken (d.memory behind) (b :: w ++ 0 :: tail) k =
          skipToken (d.memory behind) (w ++ 0 :: tail) (k + 1) := by
        rw [List.cons_append, skipToken, isDelimiter_of_isChar behind hb.symm hp]
        rfl
      have hruns : runsFrom (isChar d) (some i) k (b :: w) = runsFrom (isChar d) (some i) (k + 1) w := by
        rw [runsFrom, if_pos hp]
      have hlen : ∀ l : List UInt8, k + 1 + l.length = k + (b :: l).length := by
        intro l
        rw [List.length_cons]
        omega
      rw [hskip, hruns]
      rcases ih (k + 1) h0 with ⟨hlast, hend⟩ | ⟨u, c, v, rfl, hend, hrun⟩
      · exact Or.inl ⟨by rw [hlast, hlen], by rw [hend, hlen]⟩
      · exact Or.inr ⟨b :: u, c, v, rfl, by rw [hend, hlen], by rw [hrun, hlen]⟩

/-! ## One call -/

/-- What is left of the string: `rest` from the offset `k` on, and the null byte behind it in the array. -/
structure Left (mem : Region UInt8 0 n) (k : ℕ) (rest : List UInt8) : Prop where
  behind : ∃ tail, mem.behind k = rest ++ 0 :: tail
  noNul : 0 ∉ rest
  inArray : k + rest.length < n

/-- Where no run is left, a call returns a null pointer and stays at the end of the string. -/
theorem strtokR_nil {s savePtr : Option ℕ} (behind : List UInt8) (h : Left mem k rest)
    (hs : s.or savePtr = some k) (hruns : runsFrom (isChar d) none k rest = []) :
    strtokR mem s (d.memory behind) savePtr = some (mem, some (k + rest.length), none) := by
  obtain ⟨tail, htail⟩ := h.behind
  rcases skipDelimiters_eq (d := d) behind tail rest k h.noNul with ⟨_, hskip⟩ | ⟨g, c, w, _, hc, _, hrun⟩
  · rw [strtokR, hs, Option.bind_eq_bind, Option.bind_some, htail, hskip]
    rfl
  · -- a run would begin at `c`
    rw [hruns, runsFrom, if_pos hc] at hrun
    exact absurd hrun.symm (runsFrom_some_ne_nil _ _ _ _)

theorem Left.skip {g w : List UInt8} (h : Left mem k (g ++ w)) : Left mem (k + g.length) w := by
  obtain ⟨tail, htail⟩ := h.behind
  have hlt := h.inArray
  rw [List.length_append] at hlt
  constructor
  · exact ⟨tail, by rw [Region.behind_add (Nat.zero_le k), htail, List.append_assoc, List.drop_left]⟩
  · intro h0
    exact h.noNul (List.mem_append_right g h0)
  · omega

/-- The byte that ends the string. -/
theorem Left.set_end (h : Left mem k rest) : mem.cells.set (k + rest.length) 0 = mem.cells := by
  obtain ⟨tail, htail⟩ := h.behind
  have hget : mem.get (k + rest.length) = some 0 := by
    rw [Region.get_add (Nat.zero_le k), htail, List.getElem?_append_right le_rfl, Nat.sub_self]
    rfl
  rw [Region.get, if_pos (Nat.zero_le _), Nat.sub_zero] at hget
  obtain ⟨hlt, hzero⟩ := List.getElem?_eq_some_iff.mp hget
  rw [← hzero]
  exact List.set_getElem_self hlt

/-- A call returns the start of the first run that is left and ends it with a null byte. -/
theorem strtokR_cons {s savePtr : Option ℕ} {j : ℕ} {rs : List (ℕ × ℕ)} (behind : List UInt8) (h : Left mem k rest)
    (hs : s.or savePtr = some k) (hruns : runsFrom (isChar d) none k rest = (i, j) :: rs) :
    ∃ mem' k' rest', strtokR mem s (d.memory behind) savePtr = some (mem', some k', some i) ∧
      mem'.cells = mem.cells.set j 0 ∧ Left mem' k' rest' ∧ runsFrom (isChar d) none k' rest' = rs := by
  obtain ⟨tail, htail⟩ := h.behind
  rcases skipDelimiters_eq (d := d) behind tail rest k h.noNul with ⟨hnil, _⟩ | ⟨g, c, w, rfl, hc, hskip, hrun⟩
  · rw [hnil] at hruns
    cases hruns
  · have htoken := h.skip
    have hmem : mem.behind (k + g.length) = c :: w ++ 0 :: tail := by
      rw [Region.behind_add (Nat.zero_le k), htail, List.append_assoc, List.drop_left]
    rw [hrun] at hruns
    rcases skipToken_eq (d := d) behind tail (c :: w) (k + g.length) (k + g.length) htoken.noNul with
      ⟨hlast, hend⟩ | ⟨u, b, v, hw, hend, hcut⟩
    · -- the token ends with the string
      rw [hlast] at hruns
      cases hruns
      have hlen : k + g.length + (c :: w).length = k + (g ++ c :: w).length := by
        rw [List.length_append]
        omega
      have hleft : Left mem (k + g.length + (c :: w).length) [] := by
        have hall : Left mem (k + g.length) ((c :: w) ++ []) := by rwa [List.append_nil]
        exact hall.skip
      refine ⟨mem, k + g.length + (c :: w).length, [], ?_, htoken.set_end.symm, hleft, rfl⟩
      rw [strtokR, hs, Option.bind_eq_bind, Option.bind_some, htail, hskip, Option.bind_eq_bind, Option.bind_some]
      show (skipToken (d.memory behind) (mem.behind (k + g.length)) (k + g.length)).bind _ = _
      rw [hmem, hend]
      rfl
    · -- the token ends with the delimiter `b`
      rw [hcut] at hruns
      cases hruns
      rw [hw] at htoken
      have hb : b ≠ 0 := by
        rintro rfl
        exact htoken.noNul (List.mem_append_right u List.mem_cons_self)
      have hlt : k + g.length + u.length < n := by
        have hall := htoken.skip.inArray
        omega
      obtain ⟨mem', hput⟩ := Region.put_of_mem mem 0 (Nat.zero_le (k + g.length + u.length)) (by omega)
      have hafter : Left mem (k + g.length + u.length + 1) v := by
        have hall : Left mem (k + g.length + u.length) ([b] ++ v) := htoken.skip
        exact hall.skip
      refine ⟨mem', k + g.length + u.length + 1, v, ?_, (Region.put_eq hput).2.2, ?_, rfl⟩
      · rw [strtokR, hs, Option.bind_eq_bind, Option.bind_some, htail, hskip, Option.bind_eq_bind, Option.bind_some]
        show (skipToken (d.memory behind) (mem.behind (k + g.length)) (k + g.length)).bind _ = _
        rw [hmem, hend, Option.bind_some]
        show (if b ≠ 0 then (mem.put (k + g.length + u.length) 0).bind _ else _) = _
        rw [if_pos hb, hput]
        rfl
      · constructor
        · obtain ⟨tail', htail'⟩ := hafter.behind
          exact ⟨tail', by rw [Region.behind_put hput (Nat.lt_succ_self _), htail']⟩
        · exact hafter.noNul
        · exact hafter.inArray

/-! ## The calls one after the other -/

/-- The ends of runs overwritten. -/
def cut (cells : List UInt8) (rs : List (ℕ × ℕ)) : List UInt8 := rs.foldl (fun cells r => cells.set r.2 0) cells

theorem length_cut (cells : List UInt8) (rs : List (ℕ × ℕ)) : (cut cells rs).length = cells.length := by
  induction rs generalizing cells with
  | nil => rfl
  | cons r rs ih => exact (ih _).trans List.length_set

theorem getElem?_cut_of_ne {cells : List UInt8} {rs : List (ℕ × ℕ)} (h : ∀ r ∈ rs, r.2 ≠ k) :
    (cut cells rs)[k]? = cells[k]? := by
  induction rs generalizing cells with
  | nil => rfl
  | cons r rs ih =>
    have htail : ∀ r' ∈ rs, r'.2 ≠ k := fun r' hr' => h r' (List.mem_cons_of_mem r hr')
    exact (ih htail).trans (List.getElem?_set_ne (h r List.mem_cons_self))

theorem getElem?_cut_of_mem {cells : List UInt8} {rs : List (ℕ × ℕ)} (h : ∃ r ∈ rs, r.2 = k)
    (hlt : k < cells.length) : (cut cells rs)[k]? = some 0 := by
  induction rs generalizing cells with
  | nil =>
    obtain ⟨r, hr, _⟩ := h
    exact absurd hr List.not_mem_nil
  | cons r rs ih =>
    by_cases hlater : ∃ r' ∈ rs, r'.2 = k
    · exact ih hlater (by rwa [List.length_set])
    · have hne : ∀ r' ∈ rs, r'.2 ≠ k := fun r' hr' heq => hlater ⟨r', hr', heq⟩
      have hhead : r.2 = k := by
        obtain ⟨r', hr', heq⟩ := h
        rcases List.mem_cons.mp hr' with rfl | hmem
        · exact heq
        · exact absurd heq (hne r' hmem)
      calc (cut cells (r :: rs))[k]? = (cells.set r.2 0)[k]? := getElem?_cut_of_ne hne
        _ = some 0 := by rw [hhead, List.getElem?_set_self hlt]

/-- The calls return the starts of the runs that are left, one after the other, and null pointers from then on. -/
theorem strtokCalls_eq {s savePtr : Option ℕ} {rs : List (ℕ × ℕ)} (behind : List UInt8) (calls : ℕ)
    (h : Left mem k rest) (hs : s.or savePtr = some k) (hruns : runsFrom (isChar d) none k rest = rs) :
    ∃ mem', strtokCalls (d.memory behind) calls mem s savePtr =
        some (mem', (List.range calls).map fun call => rs[call]?.map Prod.fst) ∧
      mem'.cells = cut mem.cells (rs.take calls) := by
  induction calls generalizing mem k rest s savePtr rs with
  | zero => exact ⟨mem, rfl, rfl⟩
  | succ calls ih =>
    rw [List.range_succ_eq_map, List.map_cons, List.map_map]
    cases rs with
    | nil =>
      have hend : Left mem (k + rest.length) [] := by
        have hall : Left mem k (rest ++ []) := by rwa [List.append_nil]
        exact hall.skip
      have hsaved : Option.or none (some (k + rest.length)) = some (k + rest.length) := rfl
      have hnone : runsFrom (isChar d) none (k + rest.length) [] = [] := rfl
      obtain ⟨mem', hcalls, hcells⟩ := ih hend hsaved hnone
      refine ⟨mem', ?_, hcells.trans (by rw [List.take_nil, List.take_nil])⟩
      rw [strtokCalls, strtokR_nil behind h hs hruns, Option.bind_eq_bind, Option.bind_some]
      show (strtokCalls (d.memory behind) calls mem none (some (k + rest.length))).bind _ = _
      rw [hcalls]
      rfl
    | cons r rs =>
      obtain ⟨mem₁, k', rest', hcall, hset, hleft, hrest⟩ := strtokR_cons behind h hs hruns
      have hsaved : Option.or none (some k') = some k' := rfl
      obtain ⟨mem', hcalls, hcells⟩ := ih hleft hsaved hrest
      refine ⟨mem', ?_, ?_⟩
      · rw [strtokCalls, hcall, Option.bind_eq_bind, Option.bind_some]
        show (strtokCalls (d.memory behind) calls mem₁ none (some k')).bind _ = _
        rw [hcalls]
        rfl
      · rw [hcells, hset]
        rfl

/-! ## The tokens of a string -/

/-- The string at the start of a token is the run. -/
def TokenAt (mem : Region UInt8 0 n) (s : CString) (t : ℕ × ℕ) : Prop :=
  ∃ tail, mem.behind t.1 = (s.chars.drop t.1).take (t.2 - t.1) ++ 0 :: tail

theorem get_eq (mem : Region UInt8 0 n) (k : ℕ) : mem.get k = mem.cells[k]? := by
  rw [Region.get, if_pos (Nat.zero_le k), Nat.sub_zero]

theorem tokenAt_of_cut {s : CString} {behind : List UInt8} {mem : Region UInt8 0 (s.chars.length + 1)}
    {rs : List (ℕ × ℕ)} {t : ℕ × ℕ} (hcells : mem.cells = cut (s.memory behind) rs)
    (hruns : ∀ r ∈ rs, IsRun (isChar d) s.chars r.1 r.2) (ht : t ∈ rs) : TokenAt mem s t := by
  have hrun := hruns t ht
  have hlen : ((s.chars.drop t.1).take (t.2 - t.1)).length = t.2 - t.1 := by
    have hend := hrun.end_le
    rw [List.length_take, List.length_drop]
    omega
  have htext : ∀ i < ((s.chars.drop t.1).take (t.2 - t.1)).length,
      mem.get (t.1 + i) = ((s.chars.drop t.1).take (t.2 - t.1))[i]? := by
    intro i hi
    rw [hlen] at hi
    have hend := hrun.end_le
    have hkept : ∀ r ∈ rs, r.2 ≠ t.1 + i := fun r hr => hrun.end_ne (hruns r hr) (by omega) (by omega)
    rw [get_eq, hcells, getElem?_cut_of_ne hkept, CString.memory, List.getElem?_append_left (by omega),
      List.getElem?_take_of_lt hi, List.getElem?_drop]
  have hnul : mem.get t.2 = some 0 := by
    rw [get_eq, hcells]
    apply getElem?_cut_of_mem ⟨t, ht, rfl⟩
    have hend := hrun.end_le
    rw [CString.memory, List.length_append, List.length_cons]
    omega
  have hplace : t.1 + (t.2 - t.1) = t.2 := Nat.add_sub_cancel' hrun.nonempty.le
  refine ⟨mem.behind (t.2 + 1), ?_⟩
  rw [Region.behind_of_get htext, hlen, hplace, Region.behind_eq_cons hnul]

/-- **The tokens of a string are its longest runs of characters that are no delimiters, in order**: call after call
returns the start of the next one, which stays a string of its own, and null pointers come when they are used up.  The
bytes that change are delimiters right behind a token, and they become null bytes. -/
theorem strtokR_tokens (s d : CString) (behind behind' : List UInt8) (savePtr : Option ℕ) :
    ∃ toks, MaximalRuns (isChar d) s.chars toks ∧ ∀ calls, ∃ mem',
      strtokCalls (d.memory behind') calls (s.array behind) (some 0) savePtr =
        some (mem', (List.range calls).map fun call => toks[call]?.map Prod.fst) ∧
      (∀ t ∈ toks.take calls, TokenAt mem' s t) ∧
      ∀ k, mem'.get k ≠ (s.array behind).get k →
        (∃ t ∈ toks.take calls, t.2 = k) ∧ (∃ c ∈ d.chars, s.chars[k]? = some c) ∧ mem'.get k = some 0 := by
  refine ⟨runs (isChar d) s.chars, maximalRuns_runs _ _, fun calls => ?_⟩
  have hleft : Left (s.array behind) 0 s.chars := by
    constructor
    · exact ⟨behind, Region.behind_base _⟩
    · exact s.noNul
    · omega
  have hstart : Option.or (some 0) savePtr = some 0 := rfl
  obtain ⟨mem', hcalls, hcells⟩ := strtokCalls_eq (d := d) behind' calls hleft hstart rfl
  have hruns : ∀ r ∈ (runs (isChar d) s.chars).take calls, IsRun (isChar d) s.chars r.1 r.2 :=
    fun r hr => mem_runs.mp (List.mem_of_mem_take hr)
  refine ⟨mem', hcalls, fun t ht => tokenAt_of_cut hcells hruns ht, fun k hk => ?_⟩
  have hcut : ∃ t ∈ (runs (isChar d) s.chars).take calls, t.2 = k := by
    by_contra hnone
    apply hk
    rw [get_eq, get_eq, hcells]
    exact getElem?_cut_of_ne fun r hr heq => hnone ⟨r, hr, heq⟩
  obtain ⟨t, ht, rfl⟩ := hcut
  have hend := (hruns t ht).end_le
  have hnul : mem'.get t.2 = some 0 := by
    rw [get_eq, hcells]
    apply getElem?_cut_of_mem ⟨t, ht, rfl⟩
    show t.2 < (s.memory behind).length
    rw [CString.memory, List.length_append, List.length_cons]
    omega
  have hold : (s.array behind).get t.2 = (s.memory behind)[t.2]? := get_eq _ _
  refine ⟨⟨t, ht, rfl⟩, ?_, hnul⟩
  rcases Nat.lt_or_eq_of_le hend with hlt | heq
  · -- a delimiter stands behind the run
    have hc : s.chars[t.2]? = some s.chars[t.2] := List.getElem?_eq_getElem hlt
    have hdelim := (hruns t ht).after _ hc
    rw [isChar, decide_eq_false_iff_not, not_not] at hdelim
    exact ⟨_, hdelim, hc⟩
  · -- the null byte that ends the string is there already
    exfalso
    apply hk
    rw [hnul, hold, heq, CString.memory, List.getElem?_append_right le_rfl, Nat.sub_self]
    rfl

end Pintos.Lib.Strtok
