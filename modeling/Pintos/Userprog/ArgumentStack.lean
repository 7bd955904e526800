import Pintos.Userprog.CommandWords

/-!
# The stack of a new process

What the second half of `makeup_stack` builds: each push puts its bytes in front of what the page already
holds (`Holds.puts`), so the page holds the list of all that has been pushed, the last push first
(`layOut_holds`).  The layout that a program relies on is read off that list (`Holds.laidOut`).

The first half hands over the words of the command line, and the words that the bytes behind it make up.
-/

namespace Pintos.Userprog.CommandLine

open Bytes Words

variable {base n : ℕ} {line : List UInt8} {s s' : Stack} {content vs : List UInt8} {ws : List (List UInt8)}

/-! ## What a program finds -/

/-- The word at an address. -/
def Stack.word (s : Stack) (a : ℕ) : ℕ := le32 (fun i => (s.mem.get i).getD 0) a

/-- `argv[i]` -/
def Stack.argv (s : Stack) (i : ℕ) : ℕ := s.word (s.word (s.esp + 8) + 4 * i)

/-- The address and the length of everything on the stack. -/
def Stack.regions (s : Stack) (ws : List (List UInt8)) : List (ℕ × ℕ) :=
  (s.esp, 4) :: (s.esp + 4, 4) :: (s.esp + 8, 4) :: (s.word (s.esp + 8), 4 * (ws.length + 1)) ::
    ws.mapIdx fun i w => (s.argv i, w.length + 1)

def Apart (r r' : ℕ × ℕ) : Prop := r.1 + r.2 ≤ r'.1 ∨ r'.1 + r'.2 ≤ r.1

/-- The stack of a process with the arguments `ws`. -/
structure LaidOut (s : Stack) (ws : List (List UInt8)) : Prop where
  aligned : s.esp % 4 = 0
  returnAddress : s.word s.esp = 0
  argc : s.word (s.esp + 4) = ws.length
  strings : ∀ i w, ws[i]? = some w → string (s.mem.behind (s.argv i)) = .ok w
  sentinel : s.argv ws.length = 0
  apart : (s.regions ws).Pairwise Apart
  inside : ∀ r ∈ s.regions ws, physBase - 4096 ≤ r.1 ∧ r.1 + r.2 ≤ physBase

/-! ## Pushes -/

/-- The page holds these bytes from `*esp` to its end. -/
structure Holds (s : Stack) (content : List UInt8) : Prop where
  fits : content.length ≤ 4096
  esp : s.esp + content.length = physBase
  bytes : content <+: s.mem.behind s.esp

theorem Holds.empty (mem : Region UInt8 (physBase - 4096) 4096) : Holds ⟨physBase, mem⟩ [] where
  fits := Nat.zero_le _
  esp := rfl
  bytes := List.nil_prefix

theorem Holds.puts (h : Holds s content) (vs : List UInt8) (hlen : vs.length + content.length ≤ 4096) :
    ∃ mem, s.mem.puts (s.esp - vs.length) vs = some mem ∧ Holds ⟨s.esp - vs.length, mem⟩ (vs ++ content) := by
  have hesp := h.esp
  have hbase : physBase = 0xC0000000 := rfl
  obtain ⟨mem, hputs⟩ := s.mem.puts_of_le vs (show physBase - 4096 ≤ s.esp - vs.length by omega)
    (by omega)
  refine ⟨mem, hputs, ?_, ?_, ?_⟩
  · rw [List.length_append]
    exact hlen
  · rw [List.length_append]
    dsimp only
    omega
  · dsimp only
    rw [Region.behind_puts hputs (by omega), Nat.sub_add_cancel (by omega)]
    exact (List.prefix_append_right_inj vs).mpr h.bytes

theorem Holds.pushString (h : Holds s content) (w : List UInt8) (hlen : w.length + 1 + content.length ≤ 4096) :
    ∃ s', pushString s w = .ok s' ∧ Holds s' (w ++ [0] ++ content) := by
  obtain ⟨mem, hputs, hholds⟩ := h.puts (w ++ [0]) (by rw [List.length_append]; exact hlen)
  rw [List.length_append, List.length_singleton] at hputs hholds
  refine ⟨_, ?_, hholds⟩
  rw [CommandLine.pushString, strlcpy_eq s.mem _ (Nat.lt_succ_self _), hputs]
  rfl

@[simp] theorem length_bytes32 (v : ℕ) : (bytes32 v).length = 4 := rfl

theorem Holds.push32 (h : Holds s content) (v : ℕ) (hlen : 4 + content.length ≤ 4096) :
    ∃ s', push32 s v = .ok s' ∧ Holds s' (bytes32 v ++ content) := by
  obtain ⟨mem, hputs, hholds⟩ := h.puts (bytes32 v) hlen
  refine ⟨_, ?_, hholds⟩
  rw [CommandLine.push32]
  change (check .page (s.mem.puts (s.esp - (bytes32 v).length) (bytes32 v)) >>= _) = _
  rw [hputs]
  rfl

theorem Holds.pushByte (h : Holds s content) (b : UInt8) (hlen : 1 + content.length ≤ 4096) :
    ∃ s', pushByte s b = .ok s' ∧ Holds s' (b :: content) := by
  obtain ⟨mem, hputs, hholds⟩ := h.puts [b] hlen
  refine ⟨_, ?_, hholds⟩
  rw [Region.puts_singleton] at hputs
  rw [CommandLine.pushByte]
  change (check .page (s.mem.put (s.esp - [b].length) b) >>= _) = _
  rw [hputs]
  rfl

theorem Holds.pushZeros (h : Holds s content) (n : ℕ) (hlen : n + content.length ≤ 4096) :
    ∃ s', pushZeros n s = .ok s' ∧ Holds s' (List.replicate n 0 ++ content) := by
  induction n generalizing s content with
  | zero => exact ⟨s, rfl, h⟩
  | succ n ih =>
    obtain ⟨s₁, hpush, hs₁⟩ := h.pushByte 0 (by omega)
    obtain ⟨s', hpushes, hs'⟩ := ih hs₁ (by rw [List.length_cons]; omega)
    refine ⟨s', ?_, ?_⟩
    · rw [CommandLine.pushZeros, hpush]
      exact hpushes
    · rw [List.replicate_succ', List.append_assoc]
      exact hs'

/-! ## The loops -/

/-- The strings of the arguments, one behind the other. -/
def strings (ws : List (List UInt8)) : List UInt8 := ws.flatMap (· ++ [0])

theorem strings_append (ws ws' : List (List UInt8)) : strings (ws ++ ws') = strings ws ++ strings ws' :=
  List.flatMap_append

theorem strings_take {i : ℕ} {w : List UInt8} (hw : ws[i]? = some w) :
    strings (ws.take (i + 1)) = strings (ws.take i) ++ (w ++ [0]) := by
  rw [List.take_add_one, hw, Option.toList_some, strings_append]
  congr 1
  exact List.flatMap_singleton _ w

/-- The loop over the arguments pushes their strings, and `argv` points to them. -/
theorem Holds.pushArgs (h : Holds s content) (mem : Region UInt8 base 1024) (i : ℕ) (argv : Region ℕ 0 256)
    (tlen : ℕ) (hi : i ≤ ws.length) (hws : ws.length ≤ 256)
    (hargv : ∀ j < i, ∀ w, ws[j]? = some w → ∃ p, argv.get j = some p ∧ string (mem.behind p) = .ok w)
    (hlen : (strings (ws.take i)).length + content.length ≤ 4096) :
    ∃ argv' s', pushArgs mem i argv tlen s = .ok (argv', tlen + (strings (ws.take i)).length, s') ∧
      Holds s' (strings (ws.take i) ++ content) ∧
      (∀ j < i, argv'.get j = some (s'.esp + (strings (ws.take j)).length)) ∧
      ∀ j, i ≤ j → argv'.get j = argv.get j := by
  induction i generalizing argv tlen s content with
  | zero => exact ⟨argv, s, rfl, h, fun j hj => absurd hj (Nat.not_lt_zero j), fun _ _ => rfl⟩
  | succ i ih =>
    obtain ⟨w, hw⟩ : ∃ w, ws[i]? = some w := ⟨_, List.getElem?_eq_getElem hi⟩
    have htake := strings_take hw
    obtain ⟨p, hp, hstring⟩ := hargv i (Nat.lt_succ_self i) w hw
    rw [htake, List.length_append, List.length_append, List.length_singleton] at hlen
    obtain ⟨s₁, hpush, hs₁⟩ := h.pushString w (by omega)
    obtain ⟨argv₁, hput⟩ := argv.put_of_mem s₁.esp (Nat.zero_le i) (by omega)
    obtain ⟨argv', s', hpushes, hs', hnew, hold⟩ := ih hs₁ argv₁ (tlen + (w.length + 1)) (by omega)
      (by
        intro j hj w' hw'
        rw [Region.get_put_ne hput (by omega)]
        exact hargv j (by omega) w' hw')
      (by rw [List.length_append, List.length_append, List.length_singleton]; omega)
    refine ⟨argv', s', ?_, ?_, ?_, ?_⟩
    · rw [CommandLine.pushArgs, hp]
      change (string (mem.behind p) >>= _) = _
      rw [hstring]
      change (CommandLine.pushString s w >>= _) = _
      rw [hpush]
      change (check _ (argv.put i s₁.esp) >>= _) = _
      rw [hput]
      change CommandLine.pushArgs mem i argv₁ (tlen + (w.length + 1)) s₁ = _
      rw [hpushes, htake, List.length_append, List.length_append, List.length_singleton]
      congr 3
      omega
    · rw [htake, List.append_assoc]
      exact hs'
    · intro j hj
      rcases Nat.lt_succ_iff_lt_or_eq.mp hj with hlt | rfl
      · exact hnew j hlt
      · rw [hold j le_rfl, Region.get_put_self hput]
        have hesp := hs₁.esp
        have hesp' := hs'.esp
        rw [List.length_append] at hesp'
        congr 1
        omega
    · intro j hj
      rw [hold j (by omega), Region.get_put_ne hput (by omega)]

/-- The loop over the addresses of the arguments. -/
theorem Holds.pushAddrs (h : Holds s content) (argv : Region ℕ 0 256) {ptrs : List ℕ} (i : ℕ)
    (hi : i ≤ ptrs.length) (hargv : ∀ j p, ptrs[j]? = some p → argv.get j = some p)
    (hlen : 4 * i + content.length ≤ 4096) :
    ∃ s', pushAddrs argv i s = .ok s' ∧ Holds s' ((ptrs.take i).flatMap bytes32 ++ content) := by
  induction i generalizing s content with
  | zero => exact ⟨s, rfl, h⟩
  | succ i ih =>
    obtain ⟨p, hp⟩ : ∃ p, ptrs[i]? = some p := ⟨_, List.getElem?_eq_getElem hi⟩
    obtain ⟨s₁, hpush, hs₁⟩ := h.push32 p (by omega)
    obtain ⟨s', hpushes, hs'⟩ := ih hs₁ (by omega) (by
      rw [List.length_append, show (bytes32 p).length = 4 from rfl]
      omega)
    refine ⟨s', ?_, ?_⟩
    · rw [CommandLine.pushAddrs, hargv i p hp]
      change (CommandLine.push32 s p >>= _) = _
      rw [hpush]
      exact hpushes
    · rw [List.take_add_one, hp, Option.toList_some, List.flatMap_append, List.append_assoc]
      exact hs'

/-! ## The layout -/

/-- The addresses of the strings. -/
def addresses (ws : List (List UInt8)) : List ℕ :=
  (List.range ws.length).map fun i => physBase - (strings ws).length + (strings (ws.take i)).length

/-- The strings and the bytes that align what is below them. -/
def padded (ws : List (List UInt8)) : List UInt8 :=
  List.replicate (wordAlign (strings ws).length) 0 ++ strings ws

/-- All that `makeup_stack` pushes, the last push first; `esp` is where it leaves `*esp`. -/
def layout (esp : ℕ) (ws : List (List UInt8)) : List UInt8 :=
  bytes32 0 ++ (bytes32 ws.length ++ (bytes32 (esp + 12) ++
    ((addresses ws).flatMap bytes32 ++ (bytes32 0 ++ padded ws))))

theorem length_flatMap_bytes32 (vs : List ℕ) : (vs.flatMap bytes32).length = 4 * vs.length := by
  induction vs with
  | nil => rfl
  | cons v vs ih =>
    rw [List.flatMap_cons, List.length_append, ih, List.length_cons]
    change 4 + _ = _
    omega

theorem length_layout (esp : ℕ) (ws : List (List UInt8)) :
    (layout esp ws).length = 16 + 4 * ws.length + (padded ws).length := by
  rw [layout, List.length_append, List.length_append, List.length_append, List.length_append, List.length_append,
    length_flatMap_bytes32, addresses, List.length_map, List.length_range]
  change 4 + (4 + (4 + (4 * ws.length + (4 + (padded ws).length)))) = _
  omega

theorem length_padded (ws : List (List UInt8)) :
    (padded ws).length = wordAlign (strings ws).length + (strings ws).length := by
  rw [padded, List.length_append, List.length_replicate]

theorem padded_aligned (ws : List (List UInt8)) : (padded ws).length % 4 = 0 := by
  rw [length_padded, wordAlign]
  split <;> omega

/-- The second half of `makeup_stack` on the words `ws`. -/
theorem layOut_holds {mem : Region UInt8 base 1024} {argv : Region ℕ 0 256}
    (stack : Region UInt8 (physBase - 4096) 4096) (hws : ws.length ≤ 256)
    (hargv : ∀ i w, ws[i]? = some w → ∃ p, argv.get i = some p ∧ string (mem.behind p) = .ok w)
    (hlen : 16 + 4 * ws.length + (padded ws).length ≤ 4096) :
    ∃ s, layOut ⟨physBase, stack⟩ argv ws.length mem = .ok s ∧ Holds s (layout s.esp ws) := by
  rw [length_padded] at hlen
  have hroom : (strings (ws.take ws.length)).length + ([] : List UInt8).length ≤ 4096 := by
    rw [List.take_length, List.length_nil]
    omega
  obtain ⟨argv', s₁, hargs, hs₁, hptrs, -⟩ :=
    (Holds.empty stack).pushArgs mem ws.length argv 0 le_rfl hws (fun j _ => hargv j) hroom
  rw [List.take_length, List.append_nil] at hs₁
  rw [List.take_length, Nat.zero_add] at hargs
  obtain ⟨s₂, hzeros, hs₂⟩ := hs₁.pushZeros (wordAlign (strings ws).length) (by omega)
  obtain ⟨s₃, hsentinel, hs₃⟩ := hs₂.push32 0 (by
    rw [List.length_append, List.length_replicate]
    omega)
  have haddresses : ∀ j p, (addresses ws)[j]? = some p → argv'.get j = some p := by
    intro j p hp
    rw [addresses, List.getElem?_map] at hp
    obtain ⟨i, hi, rfl⟩ := Option.map_eq_some_iff.mp hp
    obtain ⟨hlt, rfl⟩ := List.getElem?_eq_some_iff.mp hi
    rw [List.length_range] at hlt
    rw [List.getElem_range, hptrs j hlt]
    have hesp := hs₁.esp
    congr 1
    omega
  have hcount : (addresses ws).length = ws.length := by rw [addresses, List.length_map, List.length_range]
  obtain ⟨s₄, haddrs, hs₄⟩ := hs₃.pushAddrs argv' ws.length hcount.ge haddresses (by
    rw [List.length_append, List.length_append, List.length_replicate]
    change 4 * ws.length + (4 + _) ≤ 4096
    omega)
  rw [← hcount, List.take_length] at hs₄
  have htables : ((addresses ws).flatMap bytes32 ++ (bytes32 0 ++ padded ws)).length =
      4 * ws.length + 4 + (padded ws).length := by
    rw [List.length_append, List.length_append, length_flatMap_bytes32, length_bytes32, hcount]
    omega
  replace hs₄ : Holds s₄ ((addresses ws).flatMap bytes32 ++ (bytes32 0 ++ padded ws)) := hs₄
  rw [← length_padded] at hlen
  obtain ⟨s₅, hargvPush, hs₅⟩ := hs₄.push32 (s₄.esp - 4 + 4) (by omega)
  obtain ⟨s₆, hargcPush, hs₆⟩ := hs₅.push32 ws.length (by
    rw [List.length_append, length_bytes32]
    omega)
  obtain ⟨s₇, hreturn, hs₇⟩ := hs₆.push32 0 (by
    rw [List.length_append, List.length_append, length_bytes32, length_bytes32]
    omega)
  refine ⟨s₇, ?_, ?_⟩
  · rw [layOut, hargs]
    change (CommandLine.pushZeros _ s₁ >>= _) = _
    rw [hzeros]
    change (CommandLine.push32 s₂ 0 >>= _) = _
    rw [hsentinel]
    change (CommandLine.pushAddrs argv' ws.length s₃ >>= _) = _
    rw [haddrs]
    change (CommandLine.push32 s₄ _ >>= _) = _
    rw [hargvPush]
    change (CommandLine.push32 s₅ ws.length >>= _) = _
    rw [hargcPush]
    exact hreturn
  · have hesp : s₇.esp + 12 = s₄.esp - 4 + 4 := by
      have h₄ := hs₄.esp
      have h₇ := hs₇.esp
      have hbase : physBase = 0xC0000000 := rfl
      rw [List.length_append, List.length_append, List.length_append, length_bytes32, length_bytes32,
        length_bytes32] at h₇
      omega
    rw [layout, hesp]
    exact hs₇

/-! ## Reading the layout -/

theorem Holds.base_le (h : Holds s content) : physBase - 4096 ≤ s.esp := by
  have hfits := h.fits
  have hesp := h.esp
  omega

/-- What lies behind the first bytes that a page holds. -/
theorem Holds.behind (h : Holds s content) (pre : List UInt8) {post : List UInt8} (hcut : content = pre ++ post) :
    ∃ rest, s.mem.behind (s.esp + pre.length) = post ++ rest := by
  obtain ⟨rest, hrest⟩ := h.bytes
  refine ⟨rest, ?_⟩
  rw [Region.behind_add h.base_le, ← hrest, hcut, List.append_assoc, List.drop_left]

theorem word_of_behind {a v : ℕ} {rest : List UInt8} (ha : physBase - 4096 ≤ a) (hv : v < 2 ^ 32)
    (h : s.mem.behind a = bytes32 v ++ rest) : s.word a = v := by
  apply le32_leByte hv
  intro i hi
  have hget : s.mem.get (a + i) = some (leByte v i) := by
    rw [Region.get_add ha, h, List.getElem?_append_left (by rw [length_bytes32]; exact hi)]
    interval_cases i <;> rfl
  rw [hget]
  rfl

theorem Holds.word (h : Holds s content) {v : ℕ} (hv : v < 2 ^ 32) (pre post : List UInt8)
    (hcut : content = pre ++ (bytes32 v ++ post)) : s.word (s.esp + pre.length) = v := by
  obtain ⟨rest, hbehind⟩ := h.behind pre hcut
  rw [List.append_assoc] at hbehind
  exact word_of_behind (le_trans h.base_le (Nat.le_add_right _ _)) hv hbehind

theorem Holds.string (h : Holds s content) {w : List UInt8} (h0 : 0 ∉ w) (pre post : List UInt8)
    (hcut : content = pre ++ (w ++ 0 :: post)) : string (s.mem.behind (s.esp + pre.length)) = .ok w := by
  obtain ⟨rest, hbehind⟩ := h.behind pre hcut
  rw [hbehind, List.append_assoc]
  exact string_append h0 _

theorem addresses_get {i : ℕ} (hi : i < ws.length) : (addresses ws)[i]? =
    some (physBase - (strings ws).length + (strings (ws.take i)).length) := by
  rw [addresses, List.getElem?_map, List.getElem?_range hi]
  rfl

theorem strings_cut {i : ℕ} {w : List UInt8} (hw : ws[i]? = some w) :
    strings ws = strings (ws.take i) ++ (w ++ 0 :: strings (ws.drop (i + 1))) := by
  conv_lhs => rw [← List.take_append_drop (i + 1) ws, strings_append, strings_take hw]
  rw [List.append_assoc, List.append_assoc]
  rfl

/-- The string of an argument ends before the next one begins. -/
theorem strings_take_le {i j : ℕ} {w : List UInt8} (hw : ws[i]? = some w) (hij : i < j) :
    (strings (ws.take i)).length + (w.length + 1) ≤ (strings (ws.take j)).length := by
  have htake : (ws.take j)[i]? = some w := by rw [List.getElem?_take_of_lt hij, hw]
  rw [strings_cut htake, List.take_take, Nat.min_eq_left hij.le, List.length_append, List.length_append,
    List.length_cons]
  omega

/-- What is in front of the pointers. -/
def header (esp : ℕ) (ws : List (List UInt8)) : List UInt8 := bytes32 0 ++ bytes32 ws.length ++ bytes32 (esp + 12)

theorem Holds.layout_esp (h : Holds s (layout s.esp ws)) :
    s.esp + (16 + 4 * ws.length + (padded ws).length) = physBase := by
  rw [← length_layout s.esp ws]
  exact h.esp

theorem Holds.layout_argv (h : Holds s (layout s.esp ws)) : s.word (s.esp + 8) = s.esp + 12 := by
  have hesp := h.layout_esp
  have hbase : physBase = 0xC0000000 := rfl
  exact h.word (by omega) (bytes32 0 ++ bytes32 ws.length) _ (List.append_assoc _ _ _).symm

theorem Holds.layout_pointer (h : Holds s (layout s.esp ws)) {i : ℕ} (hi : i < ws.length) :
    s.argv i = physBase - (strings ws).length + (strings (ws.take i)).length := by
  have hget := addresses_get hi
  obtain ⟨w, hw⟩ : ∃ w, ws[i]? = some w := ⟨_, List.getElem?_eq_getElem hi⟩
  have hcut : (addresses ws).flatMap bytes32 = ((addresses ws).take i).flatMap bytes32 ++
      (bytes32 (physBase - (strings ws).length + (strings (ws.take i)).length) ++
        ((addresses ws).drop (i + 1)).flatMap bytes32) := by
    conv_lhs => rw [← List.take_append_drop (i + 1) (addresses ws), List.take_add_one, hget]
    rw [List.flatMap_append, List.flatMap_append, List.append_assoc]
    rfl
  have hlt : i < (addresses ws).length := by rw [addresses, List.length_map, List.length_range]; exact hi
  have hfront : (header s.esp ws ++ ((addresses ws).take i).flatMap bytes32).length = 12 + 4 * i := by
    rw [List.length_append, length_flatMap_bytes32, List.length_take_of_le hlt.le]
    rfl
  have hbound : physBase - (strings ws).length + (strings (ws.take i)).length < 2 ^ 32 := by
    have hstrings : (strings (ws.take i)).length ≤ (strings ws).length := by
      rw [strings_cut hw, List.length_append]
      omega
    have hbase : physBase = 0xC0000000 := rfl
    have hesp := h.layout_esp
    rw [length_padded] at hesp
    omega
  rw [Stack.argv, h.layout_argv]
  have hword := h.word hbound (header s.esp ws ++ ((addresses ws).take i).flatMap bytes32)
    (((addresses ws).drop (i + 1)).flatMap bytes32 ++ (bytes32 0 ++ padded ws)) (by
      rw [layout, hcut, header]
      simp only [List.append_assoc])
  rw [hfront] at hword
  rw [← hword]
  congr 1
  omega

theorem Holds.layout_sentinel (h : Holds s (layout s.esp ws)) : s.argv ws.length = 0 := by
  have hfront : (header s.esp ws ++ (addresses ws).flatMap bytes32).length = 12 + 4 * ws.length := by
    rw [List.length_append, length_flatMap_bytes32, addresses, List.length_map, List.length_range]
    rfl
  rw [Stack.argv, h.layout_argv]
  have hword := h.word (v := 0) (by decide) (header s.esp ws ++ (addresses ws).flatMap bytes32) (padded ws) (by
    rw [layout, header]
    simp only [List.append_assoc])
  rw [hfront] at hword
  rw [← hword]
  congr 1
  omega

theorem Holds.layout_string (h : Holds s (layout s.esp ws)) {i : ℕ} {w : List UInt8} (hw : ws[i]? = some w)
    (h0 : 0 ∉ w) : CommandLine.string (s.mem.behind (s.argv i)) = .ok w := by
  obtain ⟨hi, -⟩ := List.getElem?_eq_some_iff.mp hw
  have hesp := h.layout_esp
  have hpadded := length_padded ws
  have htables : (header s.esp ws ++ (addresses ws).flatMap bytes32 ++ bytes32 0 ++
      List.replicate (wordAlign (strings ws).length) 0).length = 16 + 4 * ws.length + wordAlign (strings ws).length := by
    rw [List.length_append, List.length_append, List.length_append, length_flatMap_bytes32, addresses,
      List.length_map, List.length_range, List.length_replicate]
    change 12 + 4 * ws.length + 4 + _ = _
    omega
  have hstring := h.string h0 (header s.esp ws ++ (addresses ws).flatMap bytes32 ++ bytes32 0 ++
      List.replicate (wordAlign (strings ws).length) 0 ++ strings (ws.take i)) (strings (ws.drop (i + 1))) (by
    rw [layout, header, padded, List.append_assoc _ (strings _), ← strings_cut hw]
    simp only [List.append_assoc])
  rw [List.length_append, htables] at hstring
  rw [h.layout_pointer hi, show physBase - (strings ws).length + (strings (ws.take i)).length = s.esp +
    (16 + 4 * ws.length + wordAlign (strings ws).length + (strings (ws.take i)).length) by omega]
  exact hstring

/-- What `makeup_stack` pushes is the stack that a program expects. -/
theorem Holds.laidOut (h : Holds s (layout s.esp ws)) (h0 : ∀ w ∈ ws, 0 ∉ w) : LaidOut s ws := by
  have hesp := h.layout_esp
  have hbase : physBase = 0xC0000000 := rfl
  have hargv := h.layout_argv
  have hpadded := length_padded ws
  have haligned := padded_aligned ws
  -- where the strings are
  have hstring : ∀ i w, ws[i]? = some w → s.esp + 16 + 4 * ws.length ≤ s.argv i ∧
      s.argv i + (w.length + 1) ≤ physBase ∧ ∀ j, i < j → j < ws.length → s.argv i + (w.length + 1) ≤ s.argv j := by
    intro i w hw
    obtain ⟨hi, -⟩ := List.getElem?_eq_some_iff.mp hw
    have hle := strings_take_le hw hi
    rw [List.take_length] at hle
    rw [h.layout_pointer hi]
    refine ⟨by omega, by omega, fun j hij hj => ?_⟩
    have hnext := strings_take_le hw hij
    rw [h.layout_pointer hj]
    omega
  have hregion : ∀ r ∈ ws.mapIdx (fun i w => (s.argv i, w.length + 1)),
      s.esp + 16 + 4 * ws.length ≤ r.1 ∧ r.1 + r.2 ≤ physBase := by
    intro r hr
    obtain ⟨i, hi, rfl⟩ := List.mem_mapIdx.mp hr
    obtain ⟨hlo, hhi, -⟩ := hstring i _ (List.getElem?_eq_getElem hi)
    exact ⟨hlo, hhi⟩
  refine ⟨by omega, ?_, ?_, fun i w hw => h.layout_string hw (h0 w (List.mem_of_getElem? hw)), h.layout_sentinel,
    ?_, ?_⟩
  · exact h.word (v := 0) (by decide) [] _ rfl
  · exact h.word (by omega) (bytes32 0) _ rfl
  · rw [Stack.regions, hargv]
    have hordered : (ws.mapIdx fun i w => (s.argv i, w.length + 1)).Pairwise Apart := by
      apply List.pairwise_iff_getElem.mpr
      intro i j hi hj hij
      rw [List.length_mapIdx] at hi hj
      rw [List.getElem_mapIdx, List.getElem_mapIdx]
      exact Or.inl ((hstring i _ (List.getElem?_eq_getElem hi)).2.2 j hij hj)
    refine List.Pairwise.cons ?_ (List.Pairwise.cons ?_ (List.Pairwise.cons ?_ (List.Pairwise.cons ?_ hordered)))
    · intro r hr
      left
      simp only [List.mem_cons] at hr
      rcases hr with rfl | rfl | rfl | hr
      · exact le_rfl
      · dsimp only; omega
      · dsimp only; omega
      · exact le_trans (by dsimp only; omega) (hregion r hr).1
    · intro r hr
      left
      simp only [List.mem_cons] at hr
      rcases hr with rfl | rfl | hr
      · exact le_rfl
      · dsimp only; omega
      · exact le_trans (by dsimp only; omega) (hregion r hr).1
    · intro r hr
      left
      rcases List.mem_cons.mp hr with rfl | hr
      · exact le_rfl
      · exact le_trans (by dsimp only; omega) (hregion r hr).1
    · intro r hr
      left
      exact le_trans (by dsimp only; omega) (hregion r hr).1
  · rw [Stack.regions, hargv]
    have hlow := h.base_le
    intro r hr
    simp only [List.mem_cons] at hr
    rcases hr with rfl | rfl | rfl | rfl | hr
    · dsimp only; omega
    · dsimp only; omega
    · dsimp only; omega
    · dsimp only; omega
    · obtain ⟨hlo, hhi⟩ := hregion r hr
      omega

/-! ## `makeup_stack` -/

theorem zero_notMem_of_string {bs w : List UInt8} (h : string bs = .ok w) : 0 ∉ w := by
  induction bs generalizing w with
  | nil => cases h
  | cons b bs ih =>
    rw [CommandLine.string] at h
    split at h
    · cases h
      exact List.not_mem_nil
    · case isFalse hb =>
      cases htail : CommandLine.string bs with
      | error fault =>
        rw [htail] at h
        cases h
      | ok tail =>
        rw [htail] at h
        cases h
        exact fun hmem => (List.mem_cons.mp hmem).elim (fun heq => hb heq.symm) (ih htail)

theorem length_strings (ws : List (List UInt8)) : (strings ws).length = (ws.map fun w => w.length + 1).sum := by
  rw [strings, List.length_flatMap]
  congr 1
  apply List.map_congr_left
  intro w _
  rw [List.length_append, List.length_singleton]

theorem bind_eq_ok {α β : Type} {x : Except Fault α} {f : α → Except Fault β} {b : β} (h : x >>= f = .ok b) :
    ∃ a, x = .ok a ∧ f a = .ok b := by
  cases x with
  | ok a => exact ⟨a, rfl, h⟩
  | error fault => cases h

theorem push32_ok {v : ℕ} (h : push32 s v = .ok s') : physBase - 4096 ≤ s'.esp ∧
    s'.mem.behind s'.esp = bytes32 v ++ s.mem.behind s.esp ∧ s'.esp + 4 = s.esp := by
  obtain ⟨mem, hmem, h⟩ := bind_eq_ok h
  cases h
  cases hputs : s.mem.puts (s.esp - 4) (bytes32 v) with
  | none =>
    rw [hputs] at hmem
    cases hmem
  | some mem' =>
    rw [hputs] at hmem
    cases hmem
    have hbase : physBase = 0xC0000000 := rfl
    have hrange := Region.puts_isSome.mp (Option.isSome_of_eq_some hputs)
    obtain ⟨hlo, -⟩ := hrange.resolve_left (List.cons_ne_nil _ _)
    refine ⟨hlo, ?_, by dsimp only; omega⟩
    rw [Region.behind_puts hputs hlo, length_bytes32, Nat.sub_add_cancel (by omega)]

/-- The second half stores the number of words that it has been given. -/
theorem layOut_argc {argv : Region ℕ 0 256} {mem : Region UInt8 base 1024} (hn : n < 2 ^ 32)
    (h : layOut s argv n mem = .ok s') : s'.word (s'.esp + 4) = n := by
  obtain ⟨⟨argv', tlen, s₁⟩, -, h⟩ := bind_eq_ok h
  obtain ⟨s₂, -, h⟩ := bind_eq_ok h
  obtain ⟨s₃, -, h⟩ := bind_eq_ok h
  obtain ⟨s₄, -, h⟩ := bind_eq_ok h
  obtain ⟨s₅, -, h⟩ := bind_eq_ok h
  obtain ⟨s₆, hargc, hreturn⟩ := bind_eq_ok h
  obtain ⟨hlo, hbehind, -⟩ := push32_ok hargc
  obtain ⟨hlo', hbehind', hesp⟩ := push32_ok hreturn
  have hword : s'.mem.behind (s'.esp + 4) = bytes32 n ++ s₅.mem.behind s₅.esp := by
    rw [Region.behind_add hlo', hbehind', List.drop_left' (length_bytes32 0), hbehind]
  exact word_of_behind (by omega) hn hword

/-- The stack is right if and only if a zero byte follows the command line in the memory and no word is closed in
front of it. -/
theorem makeupStack_laidOut_iff (argv : Region ℕ 0 256) (mem : Region UInt8 base 1024)
    (stack : Region UInt8 (physBase - 4096) 4096) (h0 : 0 ∉ line) (hlen : line.length ≤ 1000)
    (hwords : (words 32 line).length ≤ 200) :
    (∃ s, makeupStack ⟨physBase, stack⟩ argv mem line = .ok s ∧ LaidOut s (words 32 line)) ↔
      0 ∈ mem.cells.drop (line.length + 1) ∧
        closedWords 32 (text (mem.cells.drop (line.length + 1))) = [] := by
  have hcut : closedWords 32 (scratchText mem line) =
      words 32 line ++ closedWords 32 (text (mem.cells.drop (line.length + 1))) := closedWords_append _ _
  have hout := cutWords_outcome argv mem h0 (by omega)
  rw [makeupStack]
  revert hout
  generalize cutWords argv mem line = o
  intro hout
  constructor
  · rintro ⟨s, hs, hlaid⟩
    cases o with
    | error fault => cases hs
    | ok r =>
      obtain ⟨argv', argc, mem'⟩ := r
      obtain ⟨hroom, hzero, hargc, -⟩ := hout
      have hcount := hroom.count
      dsimp only at hargc
      have hargc' := layOut_argc (by omega) hs
      rw [hlaid.argc, hargc, hcut, List.length_append] at hargc'
      exact ⟨hzero, List.length_eq_zero_iff.mp (by omega)⟩
  · rintro ⟨hzero, hclosed⟩
    rw [hclosed, List.append_nil] at hcut
    have hroom : Room 1024 0 (scratchText mem line) := by
      constructor
      · rw [hcut]
        omega
      · exact ClosedWithin.append (by omega) (closedWithin_of_closedWords hclosed)
    cases o with
    | error fault =>
      cases fault with
      | outside array => exact absurd hroom hout
      | page => exact absurd hzero hout.2
    | ok r =>
      obtain ⟨argv', argc, mem'⟩ := r
      obtain ⟨-, -, hargc, hpoints⟩ := hout
      dsimp only at hargc hpoints
      rw [hcut] at hargc hpoints
      have hstrings := length_words 32 line
      rw [← length_strings] at hstrings
      have hpadded : (padded (words 32 line)).length ≤ (strings (words 32 line)).length + 3 := by
        rw [length_padded, wordAlign]
        split <;> omega
      obtain ⟨s, hs, hholds⟩ := layOut_holds stack (by omega) hpoints (by omega)
      refine ⟨s, ?_, hholds.laidOut ?_⟩
      · rw [hargc]
        exact hs
      · intro w hw
        obtain ⟨i, hi, rfl⟩ := List.getElem_of_mem hw
        obtain ⟨p, -, hstring⟩ := hpoints i _ (List.getElem?_eq_getElem hi)
        exact zero_notMem_of_string hstring

/-- The command line `ls` in a zero scratch buffer. -/
theorem makeupStack_laidOut_ls : ∃ s, makeupStack ⟨physBase, .starting [] 0⟩ (.starting [] 0)
    (.starting [] 0 : Region UInt8 0 1024) [108, 115] = .ok s ∧ LaidOut s [[108, 115]] := by
  have h0 : (0 : UInt8) ∉ [108, 115] := by decide
  have hiff := makeupStack_laidOut_iff (.starting [] 0) (.starting [] 0 : Region UInt8 0 1024) (.starting [] 0) h0
    (by decide) (by decide)
  exact hiff.mpr ⟨by decide +kernel, by decide +kernel⟩

/-- The command line `ls` where the scratch buffer has been used for `ls -l ` before. -/
theorem makeupStack_two_arguments : ¬∃ s, makeupStack ⟨physBase, .starting [] 0⟩ (.starting [] 0)
    (.starting [108, 115, 32, 45, 108, 32] 0 : Region UInt8 0 1024) [108, 115] = .ok s ∧
      LaidOut s (words 32 [108, 115]) := by
  rintro ⟨s, hs, hlaid⟩
  have hargc : (cutWords (.starting [] 0) (.starting [108, 115, 32, 45, 108, 32] 0 : Region UInt8 0 1024)
      [108, 115]).map (fun r => r.2.1) = .ok 2 := by decide +kernel
  obtain ⟨⟨argv, argc, mem⟩, hcut, hlayOut⟩ := bind_eq_ok hs
  rw [hcut] at hargc
  obtain rfl : argc = 2 := Except.ok.inj hargc
  have htwo := layOut_argc (by decide) hlayOut
  have hone : s.word (s.esp + 4) = 1 := hlaid.argc
  rw [hone] at htwo
  exact absurd htwo (by decide)

end Pintos.Userprog.CommandLine
