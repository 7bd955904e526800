import Mathlib.Data.List.TakeWhile
import Pintos.Filesys.Filesys
import Pintos.Lib.Strtok

/-!
# Splitting a path

`divide_fn` of `filesys/directory.c` down to the bytes that it stores in the arrays of its callers, with `strtok_r` of
`lib/string.c`.  A path is the list of its characters, without the terminator.

* `divideFnBuffers_stored`: the arrays hold the strings of `divideFn`, and are written up to the terminators and no
  further.
* The leading slash is stored only when `d_token` held a string that is not empty before (`divide_splits_iff`).
* `filesys_create` declares its arrays without room for the terminators (`divide_in_bounds_iff`).
-/

namespace Pintos.Filesys

/-! ## The code -/

/-- `strtok_r (s, "/", &pos)`: the token, and the string at `pos`. -/
def strtokR (s : List UInt8) : Option (List UInt8 × List UInt8) :=
  let s := s.dropWhile fun c => c == slash
  if s = [] then none
  else some (s.takeWhile fun c => c != slash, (s.dropWhile fun c => c != slash).tail)

/-- An array, and the offsets at which bytes have been stored. -/
structure Buffer where
  byte : ℕ → UInt8
  stores : List ℕ

namespace Buffer

/-- `b[i] = c` -/
def set (b : Buffer) (i : ℕ) (c : UInt8) : Buffer := ⟨Function.update b.byte i c, b.stores ++ [i]⟩

/-- `memcpy (b + ofs, src, size of src)` -/
def memcpy (b : Buffer) (ofs : ℕ) (src : List UInt8) : Buffer where
  byte := Bytes.splice b.byte ofs src.length fun i => src.getD i 0
  stores := b.stores ++ (List.range src.length).map fun i => ofs + i

end Buffer

/-- The loop of `divide_fn`, with the rest of the path, `last`, the array `d_token` and `d_temp - d_token`. -/
def divideFnLoop : ℕ → List UInt8 → List UInt8 → Buffer → ℕ → Buffer × ℕ × List UInt8
  | 0, _, last, d, dTemp => (d, dTemp, last)
  | fuel + 1, rest, last, d, dTemp =>
    match strtokR rest with
    | none => (d, dTemp, last)
    | some (chunk, rest) =>
      if last.length ≠ 0 then
        divideFnLoop fuel rest chunk ((d.memcpy dTemp last).set (dTemp + last.length) slash) (dTemp + last.length + 1)
      else divideFnLoop fuel rest chunk d dTemp

/-- `divide_fn` on the arrays `d_token` and `f_token`. -/
def divideFnBuffers (path : List UInt8) (d f : Buffer) : Buffer × Buffer :=
  -- strlen (d_temp)
  let start := if path.head? = some slash ∧ d.byte 0 ≠ 0 then (d.set 0 slash, 1) else (d, 0)
  -- a token has a character at least
  let r := divideFnLoop path.length path [] start.1 start.2
  (r.1.set r.2.1 0, f.memcpy 0 (r.2.2 ++ [0]))

/-- The callers of `divide_fn`. -/
inductive Caller
  | create
  | «open»
  | remove
  deriving DecidableEq

/-- The size of the arrays that a caller declares. -/
def Caller.arraySize (c : Caller) (path : List UInt8) : ℕ :=
  match c with
  | create => path.length
  | «open» | remove => path.length + 1

/-! ## What is to be stored -/

/-- The array holds a string. -/
structure HoldsString (b : ℕ → UInt8) (s : List UInt8) : Prop where
  bytes : Bytes.slice b 0 s.length = s
  terminator : b s.length = 0
  zero_notMem : 0 ∉ s

/-- What a path leads to: `start` is the root or the working directory, and `step` goes on by a component. -/
def resolve {σ : Type} (start : Bool → σ) (step : σ → List UInt8 → σ) (path : List UInt8) : σ :=
  (tokens path).foldl step (start (path.head? == some slash))

/-- **`f_token` holds the last component and `d_token` the others**, absolute if and only if the path is; so resolving
`d_token` and then `f_token` leads to where the path leads. -/
structure Splits (path : List UInt8) (r : Buffer × Buffer) (dToken fToken : List UInt8) : Prop where
  holdsDir : HoldsString r.1.byte dToken
  holdsFile : HoldsString r.2.byte fToken
  last : fToken = (tokens path).getLastD []
  others : tokens dToken = (tokens path).dropLast
  absolute : dToken.head? = some slash ↔ path.head? = some slash
  resolved : ∀ {σ : Type} (start : Bool → σ) (step : σ → List UInt8 → σ), resolve start step path =
    if fToken = [] then resolve start step dToken else step (resolve start step dToken) fToken

/-- Every byte is stored in an array of `n` bytes. -/
def StaysIn (n : ℕ) (r : Buffer × Buffer) : Prop := (∀ i ∈ r.1.stores, i < n) ∧ ∀ i ∈ r.2.stores, i < n

/-! ## Tokens -/

theorem tokensFrom_nil (cur : List UInt8) : tokensFrom cur [] = if cur = [] then [] else [cur] := rfl

theorem tokens_nil : tokens [] = [] := rfl

theorem tokens_slash (s : List UInt8) : tokens (slash :: s) = tokens s := rfl

/-- The rest of a token is read to its end. -/
theorem tokensFrom_append {s : List UInt8} (cur t : List UInt8) (hs : slash ∉ s) :
    tokensFrom cur (s ++ t) = tokensFrom (cur ++ s) t := by
  induction s generalizing cur with
  | nil => rw [List.nil_append, List.append_nil]
  | cons c s ih =>
    have hc : c ≠ slash := fun hc => hs (hc ▸ List.mem_cons_self)
    have hrest : slash ∉ s := fun hmem => hs (List.mem_cons_of_mem c hmem)
    rw [List.cons_append, tokensFrom, if_neg hc, ih _ hrest, List.append_assoc, List.singleton_append]

/-- A token, a slash and what comes behind. -/
theorem tokens_append_slash {s : List UInt8} (t : List UInt8) (hne : s ≠ []) (hs : slash ∉ s) :
    tokens (s ++ slash :: t) = s :: tokens t := by
  unfold tokens
  rw [tokensFrom_append [] _ hs, List.nil_append, tokensFrom, if_pos rfl, if_neg hne]

theorem tokens_of_notMem {s : List UInt8} (hne : s ≠ []) (hs : slash ∉ s) : tokens s = [s] := by
  have h := tokensFrom_append [] [] hs
  rw [List.append_nil, List.nil_append, tokensFrom, if_neg hne] at h
  exact h

/-- The tokens from a place on, with what has been read of the first one. -/
theorem tokensFrom_eq_runsFrom {path l cur : List UInt8} {k : ℕ} {s : Option ℕ} (hl : path.drop k = l)
    (hk : k ≤ path.length) (hs : ∀ i ∈ s, i < k)
    (hcur : cur = s.elim [] fun i => (path.drop i).take (k - i)) :
    tokensFrom cur l =
      (TokenRuns.runsFrom (fun c => c != slash) s k l).map fun t => (path.drop t.1).take (t.2 - t.1) := by
  induction l generalizing cur k s with
  | nil =>
    cases s with
    | none => rw [hcur]; rfl
    | some i =>
      have hik : i < k := hs i rfl
      have hne : cur ≠ [] := by
        rw [hcur, Option.elim_some, ← List.length_pos_iff, List.length_take, List.length_drop]
        omega
      rw [tokensFrom_nil, if_neg hne, TokenRuns.runsFrom, hcur]
      rfl
  | cons c l ih =>
    have hl' := TokenRuns.drop_succ hl
    have hlt : k < path.length := by
      by_contra hge
      rw [List.drop_eq_nil_of_le (Nat.not_lt.mp hge)] at hl
      cases hl
    have hsucc : ∀ i < k, (path.drop i).take (k - i) ++ [c] = (path.drop i).take (k + 1 - i) := by
      intro i hi
      have hget : (path.drop i)[k - i]? = some c := by
        rw [List.getElem?_drop, Nat.add_sub_cancel' hi.le]
        exact TokenRuns.getElem?_of_drop hl
      rw [Nat.succ_sub hi.le, List.take_add_one, hget]
      rfl
    by_cases hc : c = slash
    · have hp : ¬(c != slash) = true := by rw [hc]; decide
      have hrest : tokensFrom [] l = (TokenRuns.runsFrom (fun c => c != slash) none (k + 1) l).map
          fun t => (path.drop t.1).take (t.2 - t.1) :=
        ih (s := none) hl' hlt (fun i hi => absurd hi (Option.not_mem_none i)) rfl
      cases s with
      | none =>
        have hnil : cur = [] := hcur
        rw [tokensFrom, if_pos hc, if_pos hnil, hrest, TokenRuns.runsFrom, if_neg hp]
      | some i =>
        have hik : i < k := hs i rfl
        have hne : cur ≠ [] := by
          rw [hcur, Option.elim_some, ← List.length_pos_iff, List.length_take, List.length_drop]
          omega
        rw [tokensFrom, if_pos hc, if_neg hne, hrest, TokenRuns.runsFrom, if_neg hp, List.map_cons, hcur]
        rfl
    · have hp : (c != slash) = true := by rwa [bne_iff_ne]
      cases s with
      | none =>
        have hstart : cur ++ [c] = (path.drop k).take (k + 1 - k) := by
          rw [hcur, Option.elim_none, Nat.add_sub_cancel_left, hl]
          rfl
        rw [tokensFrom, if_neg hc, TokenRuns.runsFrom, if_pos hp]
        exact ih (s := some k) hl' hlt (fun i hi => by cases hi; exact Nat.lt_succ_self k) hstart
      | some i =>
        have hik : i < k := hs i rfl
        rw [tokensFrom, if_neg hc, TokenRuns.runsFrom, if_pos hp]
        apply ih (s := some i) hl' hlt (fun i' hi' => by cases hi'; exact Nat.lt_succ_of_lt hik)
        rw [hcur]
        exact hsucc i hik

/-- The tokens of a path are its longest runs without a slash, which is what `strtok_r` returns in memory
(`Lib.Strtok.strtokCalls_eq`). -/
theorem tokens_eq_runs (path : List UInt8) :
    tokens path = (TokenRuns.runs (fun c => c != slash) path).map fun t => (path.drop t.1).take (t.2 - t.1) := by
  have hnone : ∀ i ∈ (none : Option ℕ), i < 0 := fun i hi => absurd hi (Option.not_mem_none i)
  exact tokensFrom_eq_runsFrom (s := none) List.drop_zero (Nat.zero_le _) hnone rfl

/-- `strtok_r` at the end of the string. -/
theorem tokens_of_strtokR_none {s : List UInt8} (h : strtokR s = none) : tokens s = [] := by
  induction s with
  | nil => rfl
  | cons c s ih =>
    by_cases hc : c = slash
    · rw [hc, tokens_slash]
      apply ih
      rw [hc] at h
      exact h
    · unfold strtokR at h
      rw [List.dropWhile_cons_of_neg (by simpa using hc)] at h
      cases h

/-- A token of `strtok_r`. -/
structure IsToken (s t r : List UInt8) : Prop where
  tokens : tokens s = t :: tokens r
  ne_nil : t ≠ []
  slash_notMem : slash ∉ t
  length_lt : r.length < s.length

theorem isToken_of_strtokR {s t r : List UInt8} (h : strtokR s = some (t, r)) : IsToken s t r := by
  induction s with
  | nil => cases h
  | cons c s ih =>
    by_cases hc : c = slash
    · rw [hc] at h ⊢
      have hrest := ih h
      have hlt := hrest.length_lt
      exact ⟨hrest.tokens, hrest.ne_nil, hrest.slash_notMem, Nat.lt_succ_of_lt hlt⟩
    · unfold strtokR at h
      rw [List.dropWhile_cons_of_neg (by simpa using hc), if_neg (List.cons_ne_nil c s)] at h
      obtain ⟨htoken, hrest⟩ := Prod.mk.inj (Option.some.inj h)
      have hsplit : t ++ (c :: s).dropWhile (fun c => c != slash) = c :: s := by
        rw [← htoken]
        exact List.takeWhile_append_dropWhile
      have hne : t ≠ [] := by
        rw [← htoken, List.takeWhile_cons_of_pos (by simpa using hc)]
        exact List.cons_ne_nil _ _
      have hslash : slash ∉ t := by
        rw [← htoken]
        intro hmem
        have hp := List.mem_takeWhile_imp hmem
        simp at hp
      cases hd : (c :: s).dropWhile fun c => c != slash with
      | nil =>
        rw [hd, List.append_nil] at hsplit
        rw [hd, List.tail_nil] at hrest
        have htokens : Filesys.tokens (c :: s) = [t] := by rw [← hsplit, tokens_of_notMem hne hslash]
        rw [← hrest]
        exact ⟨htokens, hne, hslash, Nat.succ_pos _⟩
      | cons x tail =>
        have hx : x = slash := by
          have hhead := List.head?_dropWhile_not (fun c => c != slash) (c :: s)
          rw [hd] at hhead
          simpa using hhead
        rw [hd, hx] at hsplit
        rw [hd, List.tail_cons] at hrest
        have htokens : Filesys.tokens (c :: s) = t :: Filesys.tokens tail := by
          rw [← hsplit, tokens_append_slash tail hne hslash]
        have hlen := congrArg List.length hsplit
        rw [List.length_append, List.length_cons] at hlen
        rw [← hrest]
        exact ⟨htokens, hne, hslash, by omega⟩

/-- A token has a character, and no slash. -/
theorem component_of_mem_tokensFrom {cur s t : List UInt8} (hcur : slash ∉ cur) (h : t ∈ tokensFrom cur s) :
    t ≠ [] ∧ slash ∉ t := by
  induction s generalizing cur with
  | nil =>
    rw [tokensFrom_nil] at h
    split at h
    · cases h
    · next hne =>
      rw [List.mem_singleton.mp h]
      exact ⟨hne, hcur⟩
  | cons c s ih =>
    rw [tokensFrom] at h
    split at h
    · split at h
      · exact ih List.not_mem_nil h
      · next hne =>
        rcases List.mem_cons.mp h with heq | hrest
        · rw [heq]
          exact ⟨hne, hcur⟩
        · exact ih List.not_mem_nil hrest
    · next hc =>
      apply ih _ h
      intro hmem
      rcases List.mem_append.mp hmem with hmem | hmem
      · exact hcur hmem
      · exact hc (List.mem_singleton.mp hmem).symm

theorem component_of_mem_tokens {s t : List UInt8} (h : t ∈ tokens s) : t ≠ [] ∧ slash ∉ t :=
  component_of_mem_tokensFrom List.not_mem_nil h

/-- The characters of the tokens, with the slashes: the length of the string. -/
theorem length_flatten_tokensFrom (cur s : List UInt8) :
    (tokensFrom cur s).flatten.length + s.count slash = cur.length + s.length := by
  induction s generalizing cur with
  | nil =>
    rw [tokensFrom_nil]
    split
    · next hnil => rw [hnil]; rfl
    · rw [List.flatten_singleton, List.count_nil, List.length_nil]
  | cons c s ih =>
    rw [tokensFrom, List.length_cons]
    split
    · next hc =>
      have hrest := ih []
      rw [hc, List.count_cons_self]
      split
      · next hnil =>
        rw [hnil]
        rw [List.length_nil] at hrest ⊢
        omega
      · rw [List.flatten_cons, List.length_append]
        rw [List.length_nil] at hrest
        omega
    · next hc =>
      have hrest := ih (cur ++ [c])
      rw [List.length_append, List.length_singleton] at hrest
      rw [List.count_cons_of_ne hc]
      omega

theorem length_flatten_tokens (s : List UInt8) : (tokens s).flatten.length + s.count slash = s.length := by
  have h := length_flatten_tokensFrom [] s
  rwa [List.length_nil, Nat.zero_add] at h

/-- Two tokens have a slash between them. -/
theorem length_tokensFrom_le (cur s : List UInt8) : (tokensFrom cur s).length ≤ s.count slash + 1 := by
  induction s generalizing cur with
  | nil =>
    rw [tokensFrom_nil]
    split
    · exact Nat.zero_le _
    · exact le_rfl
  | cons c s ih =>
    rw [tokensFrom]
    split
    · next hc =>
      have hrest := ih []
      rw [hc, List.count_cons_self]
      split
      · omega
      · rw [List.length_cons]
        omega
    · next hc =>
      rw [List.count_cons_of_ne hc]
      exact ih _

theorem length_tokens_le (s : List UInt8) : (tokens s).length ≤ s.count slash + 1 := length_tokensFrom_le [] s

theorem length_tokens_le_of_head {s : List UInt8} (h : s.head? = some slash) : (tokens s).length ≤ s.count slash := by
  cases s with
  | nil => cases h
  | cons c s =>
    rw [Option.some.inj h, tokens_slash, List.count_cons_self]
    exact length_tokens_le s

theorem mem_of_mem_tokensFrom {cur s t : List UInt8} {c : UInt8} (ht : t ∈ tokensFrom cur s) (hc : c ∈ t) :
    c ∈ cur ∨ c ∈ s := by
  induction s generalizing cur with
  | nil =>
    rw [tokensFrom_nil] at ht
    split at ht
    · cases ht
    · rw [List.mem_singleton.mp ht] at hc
      exact Or.inl hc
  | cons x s ih =>
    have hrest : t ∈ tokensFrom [] s → c ∈ x :: s := fun hmem =>
      List.mem_cons_of_mem x ((ih hmem).resolve_left List.not_mem_nil)
    rw [tokensFrom] at ht
    split at ht
    · split at ht
      · exact Or.inr (hrest ht)
      · rcases List.mem_cons.mp ht with heq | hmem
        · rw [heq] at hc
          exact Or.inl hc
        · exact Or.inr (hrest hmem)
    · rcases ih ht with hmem | hmem
      · rcases List.mem_append.mp hmem with hmem | hmem
        · exact Or.inl hmem
        · rw [List.mem_singleton.mp hmem]
          exact Or.inr List.mem_cons_self
      · exact Or.inr (List.mem_cons_of_mem x hmem)

theorem mem_of_mem_tokens {s t : List UInt8} {c : UInt8} (ht : t ∈ tokens s) (hc : c ∈ t) : c ∈ s :=
  (mem_of_mem_tokensFrom ht hc).resolve_left List.not_mem_nil

/-! ## The strings of `divide_fn` -/

/-- Components, with a slash behind each. -/
def dirString (l : List (List UInt8)) : List UInt8 := l.flatMap fun t => t ++ [slash]

theorem dirString_cons (t : List UInt8) (l : List (List UInt8)) : dirString (t :: l) = t ++ slash :: dirString l := by
  rw [dirString, List.flatMap_cons, List.append_assoc]
  rfl

theorem tokens_dirString {l : List (List UInt8)} (hl : ∀ t ∈ l, t ≠ [] ∧ slash ∉ t) : tokens (dirString l) = l := by
  induction l with
  | nil => rfl
  | cons t l ih =>
    have ht := hl t List.mem_cons_self
    rw [dirString_cons, tokens_append_slash _ ht.1 ht.2, ih fun t ht => hl t (List.mem_cons_of_mem _ ht)]

/-- A directory without a leading slash is relative. -/
theorem head?_dirString {l : List (List UInt8)} (hl : ∀ t ∈ l, t ≠ [] ∧ slash ∉ t) :
    (dirString l).head? ≠ some slash := by
  cases l with
  | nil =>
    intro h
    cases h
  | cons t l =>
    obtain ⟨hne, hslash⟩ := hl t List.mem_cons_self
    rw [dirString_cons]
    cases t with
    | nil => exact absurd rfl hne
    | cons c t =>
      intro h
      exact hslash (Option.some.inj h ▸ List.mem_cons_self)

theorem length_dirString (l : List (List UInt8)) : (dirString l).length = l.flatten.length + l.length := by
  induction l with
  | nil => rfl
  | cons t l ih =>
    rw [dirString_cons, List.flatten_cons, List.length_append, List.length_append, List.length_cons, List.length_cons,
      ih]
    omega

theorem mem_of_mem_dirString {l : List (List UInt8)} {c : UInt8} (h : c ∈ dirString l) :
    c = slash ∨ ∃ t ∈ l, c ∈ t := by
  obtain ⟨t, ht, hc⟩ := List.mem_flatMap.mp h
  rcases List.mem_append.mp hc with hc | hc
  · exact Or.inr ⟨t, ht, hc⟩
  · exact Or.inl (List.mem_singleton.mp hc)

/-- The loop of `divide_fn` holds one token back. -/
theorem divideLoop_eq {last : List UInt8} {l : List (List UInt8)} (d : List UInt8)
    (hl : ∀ t ∈ last :: l, t ≠ []) :
    divideLoop last d l = (d ++ dirString (last :: l).dropLast, (last :: l).getLastD []) := by
  induction l generalizing last d with
  | nil => rw [divideLoop, List.dropLast_singleton, dirString, List.flatMap_nil, List.append_nil]; rfl
  | cons t l ih =>
    have hlast := hl last List.mem_cons_self
    rw [divideLoop, if_neg hlast, ih _ fun t ht => hl t (List.mem_cons_of_mem _ ht), List.dropLast_cons_cons,
      dirString_cons, List.append_assoc, List.append_assoc]
    rfl

/-- The slash that `divide_fn` stores first. -/
def leading (path : List UInt8) (stale : UInt8) : List UInt8 :=
  if path.head? = some slash ∧ stale ≠ 0 then [slash] else []

theorem divideFn_eq (path : List UInt8) (stale : UInt8) :
    divideFn path stale =
      (leading path stale ++ dirString (tokens path).dropLast, (tokens path).getLastD []) := by
  rw [divideFn]
  have hcomponents : ∀ t ∈ tokens path, t ≠ [] := fun t ht => (component_of_mem_tokens ht).1
  cases htokens : tokens path with
  | nil => rw [divideLoop, List.dropLast_nil, dirString, List.flatMap_nil, List.append_nil]; rfl
  | cons t l =>
    rw [htokens] at hcomponents
    rw [divideLoop, if_pos rfl, divideLoop_eq _ hcomponents]
    rfl

/-! ## The arrays -/

namespace Buffer

variable {b : Buffer} {n : ℕ}

theorem mem_stores_set {i j : ℕ} {c : UInt8} : j ∈ (b.set i c).stores ↔ j ∈ b.stores ∨ j = i := by
  rw [set, List.mem_append, List.mem_singleton]

theorem mem_stores_memcpy {ofs j : ℕ} {src : List UInt8} :
    j ∈ (b.memcpy ofs src).stores ↔ j ∈ b.stores ∨ ofs ≤ j ∧ j < ofs + src.length := by
  simp only [memcpy, List.mem_append, List.mem_map, List.mem_range]
  apply or_congr_right
  constructor
  · rintro ⟨i, hi, rfl⟩
    omega
  · rintro ⟨hle, hlt⟩
    exact ⟨j - ofs, by omega, by omega⟩

theorem memcpy_byte (ofs : ℕ) (src : List UInt8) :
    (b.memcpy ofs src).byte = Bytes.splice b.byte ofs src.length fun i => src.getD i 0 := rfl

theorem slice_memcpy (ofs : ℕ) (src : List UInt8) :
    Bytes.slice (b.memcpy ofs src).byte 0 (ofs + src.length) = Bytes.slice b.byte 0 ofs ++ src := by
  rw [Bytes.slice_add]
  congr 1
  · apply Bytes.slice_congr
    intro i hi
    rw [memcpy_byte]
    exact Bytes.splice_outside (Or.inl (by omega))
  · apply List.ext_getElem?
    intro i
    by_cases hi : i < src.length
    · rw [Bytes.slice_get hi, List.getElem?_eq_getElem hi]
      apply congrArg some
      rw [memcpy_byte, Bytes.splice_inside (by omega) (by omega), show 0 + ofs + i - ofs = i by omega]
      simp [hi]
    · rw [List.getElem?_eq_none (by simpa using hi), List.getElem?_eq_none (by omega)]

theorem slice_set (ofs : ℕ) (c : UInt8) :
    Bytes.slice (b.set ofs c).byte 0 (ofs + 1) = Bytes.slice b.byte 0 ofs ++ [c] := by
  rw [Bytes.slice_add]
  congr 1
  · apply Bytes.slice_congr
    intro i hi
    exact Function.update_of_ne (by omega) _ _
  · show [Function.update b.byte ofs c (0 + ofs + 0)] = [c]
    rw [Nat.zero_add, Nat.add_zero, Function.update_self]

end Buffer

/-- The loop writes what `divideLoop` says, one byte behind the other. -/
theorem divideFnLoop_spec {fuel dTemp : ℕ} (rest last : List UInt8) {d : Buffer} (hfuel : rest.length ≤ fuel)
    (hstores : ∀ i ∈ d.stores, i < dTemp) :
    ∃ d' dTemp' last', divideFnLoop fuel rest last d dTemp = (d', dTemp', last') ∧
      divideLoop last (Bytes.slice d.byte 0 dTemp) (tokens rest) = (Bytes.slice d'.byte 0 dTemp', last') ∧
      ∀ i ∈ d'.stores, i < dTemp' := by
  induction fuel generalizing rest last d dTemp with
  | zero =>
    have hnil : rest = [] := List.length_eq_zero_iff.mp (Nat.le_zero.mp hfuel)
    rw [hnil, tokens_nil]
    exact ⟨d, dTemp, last, rfl, rfl, hstores⟩
  | succ fuel ih =>
    unfold divideFnLoop
    cases hs : strtokR rest with
    | none =>
      rw [tokens_of_strtokR_none hs]
      exact ⟨d, dTemp, last, rfl, rfl, hstores⟩
    | some r =>
      obtain ⟨chunk, rest'⟩ := r
      have htoken := isToken_of_strtokR hs
      have hlt := htoken.length_lt
      rw [htoken.tokens, divideLoop]
      dsimp only
      by_cases hlast : last.length ≠ 0
      · have hne : last ≠ [] := List.ne_nil_of_length_pos (Nat.pos_of_ne_zero hlast)
        rw [if_pos hlast, if_neg hne]
        have hslice : Bytes.slice d.byte 0 dTemp ++ last ++ [slash] =
            Bytes.slice ((d.memcpy dTemp last).set (dTemp + last.length) slash).byte 0 (dTemp + last.length + 1) := by
          rw [Buffer.slice_set, Buffer.slice_memcpy]
        rw [hslice]
        apply ih _ _ (by omega)
        intro i hi
        rw [Buffer.mem_stores_set, Buffer.mem_stores_memcpy] at hi
        rcases hi with (hi | hi) | hi
        · have hlo := hstores i hi
          omega
        · omega
        · omega
      · have hnil : last = [] := List.length_eq_zero_iff.mp (not_not.mp hlast)
        rw [if_neg hlast, if_pos hnil]
        exact ih _ _ (by omega) hstores

/-- A string has been stored, with its terminator and no further. -/
structure Stored (b : Buffer) (s : List UInt8) : Prop where
  bytes : Bytes.slice b.byte 0 s.length = s
  terminator : b.byte s.length = 0
  upTo : ∀ i ∈ b.stores, i ≤ s.length
  stored : s.length ∈ b.stores

theorem Stored.holds {b : Buffer} {s : List UInt8} (h : Stored b s) (hz : 0 ∉ s) : HoldsString b.byte s :=
  ⟨h.bytes, h.terminator, hz⟩

theorem Stored.within {b : Buffer} {s : List UInt8} {n : ℕ} (h : Stored b s) :
    (∀ i ∈ b.stores, i < n) ↔ s.length < n := by
  constructor
  · intro hlt
    exact hlt _ h.stored
  · intro hlt i hi
    exact lt_of_le_of_lt (h.upTo i hi) hlt

/-- An array holds one string only. -/
theorem HoldsString.unique {b : ℕ → UInt8} {s s' : List UInt8} (h : HoldsString b s) (h' : HoldsString b s') :
    s = s' := by
  have hle : ∀ {s s' : List UInt8}, HoldsString b s → HoldsString b s' → s'.length ≤ s.length := by
    intro s s' h h'
    by_contra hlt
    have hget : (Bytes.slice b 0 s'.length)[s.length]? = some (b (0 + s.length)) :=
      Bytes.slice_get (Nat.lt_of_not_le hlt)
    rw [h'.bytes] at hget
    rw [Nat.zero_add, h.terminator] at hget
    exact h'.zero_notMem (List.mem_of_getElem? hget)
  have hlen : s.length = s'.length := le_antisymm (hle h' h) (hle h h')
  rw [← h.bytes, ← h'.bytes, hlen]

/-- What `divide_fn` stores. -/
theorem divideFnBuffers_stored (path : List UInt8) (d f : ℕ → UInt8) :
    Stored (divideFnBuffers path ⟨d, []⟩ ⟨f, []⟩).1 (divideFn path (d 0)).1 ∧
      Stored (divideFnBuffers path ⟨d, []⟩ ⟨f, []⟩).2 (divideFn path (d 0)).2 := by
  -- the arrays after the leading slash
  obtain ⟨b, n, hstart, hslice, hstores⟩ : ∃ b n,
      (if path.head? = some slash ∧ d 0 ≠ 0 then ((⟨d, []⟩ : Buffer).set 0 slash, 1) else (⟨d, []⟩, 0)) = (b, n) ∧
      Bytes.slice b.byte 0 n = leading path (d 0) ∧ ∀ i ∈ b.stores, i < n := by
    unfold leading
    split
    · refine ⟨_, _, rfl, ?_, ?_⟩
      · rw [show (1 : ℕ) = 0 + 1 from rfl, Buffer.slice_set]
        rfl
      · intro i hi
        rw [Buffer.mem_stores_set] at hi
        rcases hi with hi | hi
        · cases hi
        · omega
    · refine ⟨_, _, rfl, rfl, ?_⟩
      intro i hi
      cases hi
  obtain ⟨b', n', last, hrun, hdivide, hstores'⟩ := divideFnLoop_spec path [] le_rfl hstores
  have hd : (divideFnBuffers path ⟨d, []⟩ ⟨f, []⟩).1 = b'.set n' 0 := by
    unfold divideFnBuffers
    rw [hstart]
    dsimp only
    rw [hrun]
  have hf : (divideFnBuffers path ⟨d, []⟩ ⟨f, []⟩).2 = (⟨f, []⟩ : Buffer).memcpy 0 (last ++ [0]) := by
    unfold divideFnBuffers
    rw [hstart]
    dsimp only
    rw [hrun]
  have hstrings : divideFn path (d 0) = (Bytes.slice b'.byte 0 n', last) := by
    rw [← hdivide, hslice]
    rfl
  have hcopied := Buffer.slice_memcpy (b := ⟨f, []⟩) 0 (last ++ [0])
  rw [Bytes.slice_zero, List.nil_append, Nat.zero_add, List.length_append, List.length_singleton, Bytes.slice_add,
    Nat.zero_add] at hcopied
  obtain ⟨hbytes, hterminator⟩ := List.append_inj hcopied (by rw [Bytes.slice_length])
  rw [hd, hf, hstrings]
  constructor
  · have hlen : (Bytes.slice b'.byte 0 n').length = n' := Bytes.slice_length _ _ _
    constructor
    · rw [hlen]
      apply Bytes.slice_congr
      intro i hi
      exact Function.update_of_ne (by omega) _ _
    · rw [hlen]
      exact Function.update_self _ _ _
    · intro i hi
      rw [Buffer.mem_stores_set] at hi
      rw [hlen]
      rcases hi with hi | hi
      · have hlt := hstores' i hi
        omega
      · omega
    · rw [Buffer.mem_stores_set]
      exact Or.inr hlen
  · constructor
    · exact hbytes
    · exact List.singleton_inj.mp hterminator
    · intro i hi
      rw [Buffer.mem_stores_memcpy, List.length_append, List.length_singleton] at hi
      rcases hi with hi | hi
      · cases hi
      · show i ≤ last.length
        omega
    · rw [Buffer.mem_stores_memcpy, List.length_append, List.length_singleton]
      show _ ∨ 0 ≤ last.length ∧ last.length < 0 + (last.length + 1)
      omega

/-- `divide_fn` stores strings: those of `divideFn`. -/
theorem divideFnBuffers_holds {path : List UInt8} (hpath : 0 ∉ path) (d f : ℕ → UInt8) :
    HoldsString (divideFnBuffers path ⟨d, []⟩ ⟨f, []⟩).1.byte (divideFn path (d 0)).1 ∧
      HoldsString (divideFnBuffers path ⟨d, []⟩ ⟨f, []⟩).2.byte (divideFn path (d 0)).2 := by
  obtain ⟨hd, hf⟩ := divideFnBuffers_stored path d f
  have htoken : ∀ t ∈ tokens path, (0 : UInt8) ∉ t := fun t ht hz => hpath (mem_of_mem_tokens ht hz)
  constructor
  · apply hd.holds
    rw [divideFn_eq]
    intro hz
    rcases List.mem_append.mp hz with hz | hz
    · unfold leading at hz
      split at hz
      · cases List.mem_singleton.mp hz
      · cases hz
    · rcases mem_of_mem_dirString hz with hz | ⟨t, ht, hz⟩
      · cases hz
      · exact htoken t (List.mem_of_mem_dropLast ht) hz
  · apply hf.holds
    rw [divideFn_eq]
    show (0 : UInt8) ∉ (tokens path).getLastD []
    cases hlast : (tokens path).getLast? with
    | none =>
      rw [List.getLastD_eq_getLast?, hlast]
      exact List.not_mem_nil
    | some t =>
      rw [List.getLastD_eq_getLast?, hlast]
      exact htoken t (List.mem_of_getLast? hlast)

/-! ## The results -/

theorem head?_leading_append {path : List UInt8} {stale : UInt8} {l : List (List UInt8)}
    (hl : ∀ t ∈ l, t ≠ [] ∧ slash ∉ t) :
    (leading path stale ++ dirString l).head? = some slash ↔ path.head? = some slash ∧ stale ≠ 0 := by
  unfold leading
  split
  · next h => exact iff_of_true rfl h
  · next h => exact iff_of_false (head?_dirString hl) h

theorem tokens_leading_append (path : List UInt8) (stale : UInt8) {l : List (List UInt8)}
    (hl : ∀ t ∈ l, t ≠ [] ∧ slash ∉ t) : tokens (leading path stale ++ dirString l) = l := by
  unfold leading
  split
  · exact tokens_dirString hl
  · exact tokens_dirString hl

theorem component_of_mem_dropLast {path t : List UInt8} (h : t ∈ (tokens path).dropLast) : t ≠ [] ∧ slash ∉ t :=
  component_of_mem_tokens (List.mem_of_mem_dropLast h)

/-- A walk over the components, the last one apart. -/
theorem resolve_eq {σ : Type} {start : Bool → σ} {step : σ → List UInt8 → σ} {path dToken : List UInt8}
    (hothers : tokens dToken = (tokens path).dropLast)
    (habsolute : dToken.head? = some slash ↔ path.head? = some slash) :
    resolve start step path =
      if (tokens path).getLastD [] = [] then resolve start step dToken
      else step (resolve start step dToken) ((tokens path).getLastD []) := by
  have hstart : (dToken.head? == some slash) = (path.head? == some slash) := by
    rw [Bool.eq_iff_iff, beq_iff_eq, beq_iff_eq]
    exact habsolute
  unfold resolve
  rw [hothers, hstart]
  cases hlast : (tokens path).getLast? with
  | none =>
    rw [List.getLast?_eq_none_iff] at hlast
    rw [hlast]
    rfl
  | some t =>
    have hne : t ≠ [] := (component_of_mem_tokens (List.mem_of_getLast? hlast)).1
    obtain ⟨l, hl⟩ := List.getLast?_eq_some_iff.mp hlast
    rw [hl, List.dropLast_concat, List.getLastD_concat, if_neg hne, List.foldl_append]
    rfl

/-- **The path is split as intended if and only if it is relative or `d_token` held a string that is not empty.** -/
theorem divide_splits_iff (path : List UInt8) (d f : ℕ → UInt8) (hpath : 0 ∉ path) :
    (∃ dToken fToken, Splits path (divideFnBuffers path ⟨d, []⟩ ⟨f, []⟩) dToken fToken) ↔
      (path.head? = some slash → d 0 ≠ 0) := by
  obtain ⟨hd, hf⟩ := divideFnBuffers_holds hpath d f
  rw [divideFn_eq] at hd hf
  have hcomponents : ∀ t ∈ (tokens path).dropLast, t ≠ [] ∧ slash ∉ t := fun t => component_of_mem_dropLast
  constructor
  · rintro ⟨dToken, fToken, hsplits⟩ hhead
    have heq := hsplits.holdsDir.unique hd
    have habsolute := hsplits.absolute.mpr hhead
    rw [heq, head?_leading_append hcomponents] at habsolute
    exact habsolute.2
  · intro hcond
    have hothers := tokens_leading_append path (d 0) hcomponents
    have habsolute : (leading path (d 0) ++ dirString (tokens path).dropLast).head? = some slash ↔
        path.head? = some slash := by
      rw [head?_leading_append hcomponents]
      exact and_iff_left_of_imp hcond
    exact ⟨_, _, hd, hf, rfl, hothers, habsolute, fun start step => resolve_eq hothers habsolute⟩

/-- `"/a/b"` with a string in `d_token`. -/
theorem divide_splits_iff_absolute :
    ∃ dToken fToken, Splits [slash, 97, slash, 98]
      (divideFnBuffers [slash, 97, slash, 98] ⟨fun _ => 255, []⟩ ⟨fun _ => 0, []⟩) dToken fToken :=
  (divide_splits_iff [slash, 97, slash, 98] (fun _ => 255) (fun _ => 0) (by decide)).mpr fun _ => by decide

/-- `"/a"` with a zero in `d_token`: the directory becomes the working directory. -/
theorem divide_loses_slash :
    ¬∃ dToken fToken, Splits [slash, 97] (divideFnBuffers [slash, 97] ⟨fun _ => 0, []⟩ ⟨fun _ => 0, []⟩)
      dToken fToken := by
  rintro ⟨dToken, fToken, hsplits⟩
  have hempty : HoldsString (divideFnBuffers [slash, 97] ⟨fun _ => 0, []⟩ ⟨fun _ => 0, []⟩).1.byte [] :=
    ⟨rfl, by decide, List.not_mem_nil⟩
  have habsolute := hsplits.absolute.mpr rfl
  rw [hsplits.holdsDir.unique hempty] at habsolute
  cases habsolute

/-- The two strings fit into the path, with the slashes. -/
theorem length_divideFn (path : List UInt8) (stale : UInt8) :
    (divideFn path stale).1.length + (divideFn path stale).2.length ≤ path.length := by
  rw [divideFn_eq, List.length_append, length_dirString]
  have hchars := length_flatten_tokens path
  have hcount := length_tokens_le path
  -- a leading slash has no token in front of it
  have hleading : (leading path stale).length + (tokens path).length ≤ path.count slash + 1 := by
    unfold leading
    split
    · next h =>
      have hhead := length_tokens_le_of_head h.1
      rw [List.length_singleton]
      omega
    · rw [List.length_nil]
      omega
  cases hlast : (tokens path).getLast? with
  | none =>
    rw [List.getLast?_eq_none_iff] at hlast
    have hpath : (leading path stale).length ≤ path.length := by
      cases path with
      | nil => exact Nat.zero_le _
      | cons c s =>
        unfold leading
        split
        · rw [List.length_singleton, List.length_cons]
          omega
        · exact Nat.zero_le _
    rw [hlast]
    exact hpath
  | some t =>
    obtain ⟨l, hl⟩ := List.getLast?_eq_some_iff.mp hlast
    rw [hl, List.flatten_append, List.flatten_singleton, List.length_append] at hchars
    rw [hl, List.length_append, List.length_singleton] at hleading
    rw [hl, List.dropLast_concat, List.getLastD_concat]
    show _ + t.length ≤ _
    omega

/-- A slash takes room that the last component does not. -/
theorem length_file_lt_iff (path : List UInt8) (stale : UInt8) :
    (divideFn path stale).2.length < path.length ↔ slash ∈ path := by
  have hsum := length_divideFn path stale
  rw [divideFn_eq] at hsum ⊢
  constructor
  · intro hlt
    by_contra hmem
    have hsingle : (tokens path).getLastD [] = path := by
      by_cases hnil : path = []
      · rw [hnil]
        rfl
      · rw [tokens_of_notMem hnil hmem]
        rfl
    rw [hsingle] at hlt
    exact lt_irrefl _ hlt
  · intro hmem
    have hchars := length_flatten_tokens path
    have hcount := List.count_pos_iff.mpr hmem
    show ((tokens path).getLastD []).length < path.length
    cases hlast : (tokens path).getLast? with
    | none =>
      rw [List.getLastD_eq_getLast?, hlast]
      exact List.length_pos_of_mem hmem
    | some t =>
      obtain ⟨l, hl⟩ := List.getLast?_eq_some_iff.mp hlast
      rw [hl, List.flatten_append, List.flatten_singleton, List.length_append] at hchars
      rw [hl, List.getLastD_concat]
      omega

/-- The directory fits with its terminator, unless it is all of the path. -/
theorem length_dir_lt_iff {path : List UInt8} {stale : UInt8} (hmem : slash ∈ path) :
    (divideFn path stale).1.length < path.length ↔ (path = [slash] → stale = 0) := by
  have hsum := length_divideFn path stale
  have hpos := List.length_pos_of_mem hmem
  rw [divideFn_eq] at hsum ⊢
  cases htokens : tokens path with
  | nil =>
    show (leading path stale ++ []).length < path.length ↔ _
    rw [List.append_nil]
    unfold leading
    split
    · next h =>
      rw [List.length_singleton]
      constructor
      · intro hlt heq
        rw [heq] at hlt
        exact absurd hlt (lt_irrefl 1)
      · intro hcond
        by_contra hle
        obtain ⟨c, hc⟩ := List.length_eq_one_iff.mp (show path.length = 1 by omega)
        rw [hc] at hmem hcond
        rw [List.mem_singleton.mp hmem] at hcond
        exact h.2 (hcond rfl)
    · next h =>
      constructor
      · intro _ heq
        by_contra hne
        exact h ⟨by rw [heq]; rfl, hne⟩
      · intro _
        exact hpos
  | cons t l =>
    obtain ⟨last, hlast⟩ : ∃ last, (t :: l).getLast? = some last := ⟨_, List.getLast?_cons⟩
    have hne : last ≠ [] := by
      rw [← htokens] at hlast
      exact (component_of_mem_tokens (List.mem_of_getLast? hlast)).1
    have hlastD : (t :: l).getLastD [] = last := by
      rw [List.getLastD_eq_getLast?, hlast]
      rfl
    rw [htokens, hlastD] at hsum
    have hlen := List.length_pos_iff.mpr hne
    apply iff_of_true
    · show (leading path stale ++ dirString (t :: l).dropLast).length < path.length
      have hle : (leading path stale ++ dirString (t :: l).dropLast).length + last.length ≤ path.length := hsum
      omega
    · intro heq
      rw [heq] at htokens
      cases htokens

/-- **`divide_fn` stays in the arrays of `filesys_open` and `filesys_remove`.  It stays in those of `filesys_create` if
and only if the path has a slash and is not the slash alone, or is that and `d_token` held the empty string.** -/
theorem divide_in_bounds_iff (c : Caller) (path : List UInt8) (d f : ℕ → UInt8) :
    StaysIn (c.arraySize path) (divideFnBuffers path ⟨d, []⟩ ⟨f, []⟩) ↔
      (c = Caller.create → slash ∈ path ∧ (path = [slash] → d 0 = 0)) := by
  obtain ⟨hd, hf⟩ := divideFnBuffers_stored path d f
  have hsum := length_divideFn path (d 0)
  unfold StaysIn
  rw [hd.within, hf.within]
  cases c with
  | create =>
    show _ < path.length ∧ _ < path.length ↔ _
    rw [length_file_lt_iff]
    constructor
    · intro h _
      exact ⟨h.2, (length_dir_lt_iff h.2).mp h.1⟩
    · intro h
      obtain ⟨hmem, hroot⟩ := h rfl
      exact ⟨(length_dir_lt_iff hmem).mpr hroot, hmem⟩
  | «open» | remove =>
    show _ < path.length + 1 ∧ _ < path.length + 1 ↔ _
    apply iff_of_true
    · exact ⟨by omega, by omega⟩
    · intro h
      cases h

/-- `filesys_create ("a")`: two bytes go into an array of one. -/
theorem divide_out_of_bounds :
    ¬StaysIn (Caller.create.arraySize [97]) (divideFnBuffers [97] ⟨fun _ => 0, []⟩ ⟨fun _ => 0, []⟩) := by
  intro h
  have hlt : 1 < 1 := h.2 1 (by decide)
  exact absurd hlt (lt_irrefl 1)

end Pintos.Filesys
