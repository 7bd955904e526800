import Pintos.Library.Rc4
import Mathlib.Data.BitVec
import Mathlib.Data.FinEnum

/-!
# Random bytes

`lib/random.c`.  However the bytes are asked for, they are the stream of the last seed, or of seed zero, one piece after the
other (`random_correct`).
-/

namespace Pintos.Lib.Random

open Rc4

/-- `s`, `s_i`, `s_j` and `inited` -/
structure Prng where
  s : BitVec 8 → BitVec 8
  sI : BitVec 8
  sJ : BitVec 8
  inited : Bool

/-- Static variables are zero. -/
def boot : Prng := ⟨fun _ => 0, 0, 0, false⟩

/-- `swap_byte` -/
def swapByte (s : BitVec 8 → BitVec 8) (a b : BitVec 8) : BitVec 8 → BitVec 8 :=
  let t := s a
  Function.update (Function.update s a (s b)) b t

/-- `seedp` -/
def seedp (seed : BitVec 32) (k : ℕ) : BitVec 8 := seed.extractLsb' (8 * k) 8

/-- The body of the second loop of `random_init`, with `s` and `j`. -/
def mix (seed : BitVec 32) (x : (BitVec 8 → BitVec 8) × BitVec 8) (i : ℕ) : (BitVec 8 → BitVec 8) × BitVec 8 :=
  let j := x.2 + (x.1 (BitVec.ofNat 8 i) + seedp seed (i % 4))
  (swapByte x.1 (BitVec.ofNat 8 i) j, j)

/-- `random_init` -/
def randomInit (seed : BitVec 32) (x : Prng) : Prng :=
  let s := (List.range 256).foldl (fun s i => Function.update s (BitVec.ofNat 8 i) (BitVec.ofNat 8 i)) x.s
  { s := ((List.range 256).foldl (mix seed) (s, 0)).1, sI := 0, sJ := 0, inited := true }

/-- The loop of `random_bytes`. -/
def randomLoop : ℕ → Prng → List (BitVec 8) × Prng
  | 0, x => ([], x)
  | size + 1, x =>
    let i := x.sI + 1
    let j := x.sJ + x.s i
    let s := swapByte x.s i j
    let k := s i + s j
    let rest := randomLoop size { x with s := s, sI := i, sJ := j }
    (s k :: rest.1, rest.2)

/-- `random_bytes` -/
def randomBytes (size : ℕ) (x : Prng) : List (BitVec 8) × Prng :=
  randomLoop size (if x.inited then x else randomInit 0 x)

/-- `random_ulong` -/
def randomUlong (x : Prng) : BitVec 32 × Prng :=
  let (bytes, x) := randomBytes 4 x
  (bytes.getD 3 0 ++ bytes.getD 2 0 ++ bytes.getD 1 0 ++ bytes.getD 0 0, x)

/-! ## Calls -/

inductive Call
  | init (seed : BitVec 32)
  | bytes (size : ℕ)
  | ulong

inductive Result
  | void
  | bytes (buf : List (BitVec 8))
  | ulong (ul : BitVec 32)
  deriving DecidableEq

def call (x : Prng) : Call → Result × Prng
  | .init seed => (.void, randomInit seed x)
  | .bytes size => (.bytes (randomBytes size x).1, (randomBytes size x).2)
  | .ulong => (.ulong (randomUlong x).1, (randomUlong x).2)

def calls (x : Prng) : List Call → List Result × Prng
  | [] => ([], x)
  | c :: cs => ((call x c).1 :: (calls (call x c).2 cs).1, (calls (call x c).2 cs).2)

/-! ## What they are for -/

/-- The register with which the bytes of a seed begin: the seed is a key of four bytes. -/
def first (seed : BitVec 32) : Register (BitVec 8) :=
  start ((List.range 256).map fun i => (BitVec.ofNat 8 i, seedp seed (i % 4)))

/-- The bytes of a seed. -/
def bytesOf (seed : BitVec 32) : ℕ → BitVec 8 := Rc4.stream 1 (first seed)

/-- A place in the bytes of a seed. -/
structure Position where
  seed : BitVec 32
  pos : ℕ

namespace Position

/-- The next bytes. -/
def take (p : Position) (size : ℕ) : List (BitVec 8) := (List.range size).map fun k => bytesOf p.seed (p.pos + k)

def call (p : Position) : Call → Result × Position
  | .init seed => (.void, ⟨seed, 0⟩)
  | .bytes size => (.bytes (p.take size), ⟨p.seed, p.pos + size⟩)
  | .ulong =>
    (.ulong (bytesOf p.seed (p.pos + 3) ++ bytesOf p.seed (p.pos + 2) ++ bytesOf p.seed (p.pos + 1) ++
      bytesOf p.seed p.pos), ⟨p.seed, p.pos + 4⟩)

def calls (p : Position) : List Call → List Result
  | [] => []
  | c :: cs => (p.call c).1 :: (p.call c).2.calls cs

end Position

variable {s : BitVec 8 → BitVec 8} {x : Prng} {y : Register (BitVec 8)} {p : Position} {n : ℕ} {a b : BitVec 8}
  {seed : BitVec 32}

/-! ## Swapping -/

theorem swapByte_eq (f : Equiv.Perm (BitVec 8)) (a b : BitVec 8) : swapByte f a b = ⇑(f * Equiv.swap a b) := by
  funext k
  simp only [swapByte, Equiv.Perm.mul_apply, Function.update_apply, Equiv.swap_apply_def]
  by_cases hb : k = b
  · by_cases ha : k = a
    · subst ha
      subst hb
      simp
    · simp [hb]
      intro hab
      rw [hab]
  · by_cases ha : k = a
    · simp [ha]
    · simp [ha, hb]

/-! ## The key -/

/-- The places below `n` that the first loop has been at. -/
theorem fill_eq (s : BitVec 8 → BitVec 8) (n : ℕ) (a : BitVec 8) (ha : a.toNat < n) :
    (List.range n).foldl (fun s i => Function.update s (BitVec.ofNat 8 i) (BitVec.ofNat 8 i)) s a = a := by
  induction n with
  | zero => exact absurd ha (Nat.not_lt_zero _)
  | succ n ih =>
    rw [List.range_succ, List.foldl_append, List.foldl_cons, List.foldl_nil, Function.update_apply]
    split
    · next heq => exact heq.symm
    · next hne =>
      apply ih
      have hne' : a.toNat ≠ n := by
        intro heq
        apply hne
        rw [← heq, BitVec.ofNat_toNat, BitVec.setWidth_eq]
      omega

theorem foldl_mix (f : Equiv.Perm (BitVec 8)) (j : BitVec 8) (is : List ℕ) :
    (is.foldl (mix seed) (⇑f, j)).1 = ⇑((is.map fun i => (BitVec.ofNat 8 i, seedp seed (i % 4))).foldl stir (f, j)).1 := by
  induction is generalizing f j with
  | nil => rfl
  | cons i is ih =>
    rw [List.foldl_cons, List.map_cons, List.foldl_cons, mix, swapByte_eq]
    exact ih _ _

/-- The variables hold the register. -/
structure Holds (x : Prng) (y : Register (BitVec 8)) : Prop where
  inited : x.inited = true
  s : x.s = y.s
  i : x.sI = y.i
  j : x.sJ = y.j

theorem holds_randomInit (seed : BitVec 32) (x : Prng) : Holds (randomInit seed x) (first seed) := by
  have hfill : (List.range 256).foldl (fun s i => Function.update s (BitVec.ofNat 8 i) (BitVec.ofNat 8 i)) x.s =
      ⇑(1 : Equiv.Perm (BitVec 8)) := by
    funext a
    have ha : a.toNat < 256 := a.isLt
    rw [Equiv.Perm.one_apply, fill_eq x.s 256 a ha]
  refine ⟨rfl, ?_, rfl, rfl⟩
  simp only [randomInit, first, start]
  rw [hfill, foldl_mix]

/-! ## The bytes -/

theorem holds_step (h : Holds x y) :
    Holds { x with s := swapByte x.s (x.sI + 1) (x.sJ + x.s (x.sI + 1)), sI := x.sI + 1, sJ := x.sJ + x.s (x.sI + 1) }
      (advance 1 y) := by
  obtain ⟨hinited, hs, hi, hj⟩ := h
  refine ⟨hinited, ?_, ?_, ?_⟩
  · simp only [advance]
    rw [hs, hi, hj, swapByte_eq]
  · simp only [advance]
    rw [hi]
  · simp only [advance]
    rw [hs, hi, hj]

theorem randomLoop_spec (h : Holds x y) (n : ℕ) :
    (randomLoop n x).1 = (List.range n).map (Rc4.stream 1 y) ∧ Holds (randomLoop n x).2 ((advance 1)^[n] y) := by
  induction n generalizing x y with
  | zero => exact ⟨rfl, h⟩
  | succ n ih =>
    have hstep := holds_step h
    obtain ⟨hbytes, hholds⟩ := ih hstep
    have hout : output (advance 1 y) = swapByte x.s (x.sI + 1) (x.sJ + x.s (x.sI + 1))
        (swapByte x.s (x.sI + 1) (x.sJ + x.s (x.sI + 1)) (x.sI + 1) +
          swapByte x.s (x.sI + 1) (x.sJ + x.s (x.sI + 1)) (x.sJ + x.s (x.sI + 1))) := by
      unfold output
      rw [← hstep.s, ← hstep.i, ← hstep.j]
    refine ⟨?_, hholds⟩
    rw [randomLoop, List.range_succ_eq_map, List.map_cons, List.map_map]
    simp only
    rw [hbytes, ← hout]
    rfl

theorem Holds.unique {x' : Prng} (h : Holds x y) (h' : Holds x' y) : x = x' := by
  cases x
  cases x'
  simp only [Prng.mk.injEq]
  exact ⟨h.s.trans h'.s.symm, h.i.trans h'.i.symm, h.j.trans h'.j.symm, h.inited.trans h'.inited.symm⟩

/-- The register at a place. -/
def Position.register (p : Position) : Register (BitVec 8) := (advance 1)^[p.pos] (first p.seed)

theorem Position.register_add (p : Position) (n : ℕ) :
    (advance 1)^[n] p.register = Position.register ⟨p.seed, p.pos + n⟩ := by
  unfold Position.register
  rw [← Function.iterate_add_apply, Nat.add_comm]

theorem Position.take_eq (p : Position) (n : ℕ) : p.take n = (List.range n).map (Rc4.stream 1 p.register) := by
  refine List.map_congr_left fun k _ => ?_
  unfold bytesOf Position.register
  rw [stream_iterate]

/-- The variables are at a place; nothing has been asked for before the first seed. -/
def At (x : Prng) (p : Position) : Prop := x.inited = false ∧ p = ⟨0, 0⟩ ∨ Holds x p.register

theorem randomBytes_spec (h : At x p) (n : ℕ) :
    (randomBytes n x).1 = p.take n ∧ Holds (randomBytes n x).2 (Position.register ⟨p.seed, p.pos + n⟩) := by
  have hready : Holds (if x.inited then x else randomInit 0 x) p.register := by
    rcases h with ⟨hno, rfl⟩ | hholds
    · rw [if_neg (by simp [hno])]
      exact holds_randomInit 0 x
    · rw [if_pos hholds.inited]
      exact hholds
  obtain ⟨hbytes, hholds⟩ := randomLoop_spec hready n
  rw [Position.register_add] at hholds
  exact ⟨hbytes.trans (p.take_eq n).symm, hholds⟩

theorem call_spec (h : At x p) (c : Call) : (call x c).1 = (p.call c).1 ∧ At (call x c).2 (p.call c).2 := by
  cases c with
  | init seed => exact ⟨rfl, .inr (holds_randomInit seed x)⟩
  | bytes size =>
    obtain ⟨hbytes, hholds⟩ := randomBytes_spec h size
    exact ⟨congrArg Result.bytes hbytes, .inr hholds⟩
  | ulong =>
    obtain ⟨hbytes, hholds⟩ := randomBytes_spec h 4
    refine ⟨?_, .inr hholds⟩
    simp only [call, Position.call, randomUlong]
    rw [hbytes]
    simp [Position.take, List.range_succ]

theorem calls_spec (h : At x p) (cs : List Call) :
    (calls x cs).1 = p.calls cs ∧ ∃ p', At (calls x cs).2 p' := by
  induction cs generalizing x p with
  | nil => exact ⟨rfl, p, h⟩
  | cons c cs ih =>
    obtain ⟨hresult, hat⟩ := call_spec h c
    obtain ⟨hresults, hend⟩ := ih hat
    refine ⟨?_, hend⟩
    rw [calls, Position.calls, hresult, hresults]

/-- **The calls are given the bytes of the last seed, one piece after the other.**  `s` stays a permutation, its places never
come to where a short cycle begins, and from each state the generator comes back to it. -/
theorem random_correct (cs : List Call) :
    (calls boot cs).1 = Position.calls ⟨0, 0⟩ cs ∧ ((calls boot cs).2.inited = true →
      Function.Bijective (calls boot cs).2.s ∧
      ¬((calls boot cs).2.sJ = (calls boot cs).2.sI + 1 ∧ (calls boot cs).2.s (calls boot cs).2.sJ = 1) ∧
      ∃ n, 0 < n ∧ (randomBytes n (calls boot cs).2).2 = (calls boot cs).2) := by
  obtain ⟨hresults, p, hat⟩ := calls_spec (x := boot) (.inl ⟨rfl, rfl⟩) cs
  refine ⟨hresults, fun hinited => ?_⟩
  generalize (calls boot cs).2 = x at *
  rcases hat with ⟨hno, _⟩ | hholds
  · exact absurd (hno.symm.trans hinited) (by simp)
  · refine ⟨?_, ?_, ?_⟩
    · rw [hholds.s]
      exact p.register.s.bijective
    · rw [hholds.s, hholds.i, hholds.j]
      intro hfinney
      exact start_not_finney (by decide) _ (finney_iterate.mp hfinney)
    · obtain ⟨n, hn, hperiod⟩ := exists_period (u := 1) p.register
      have hback := (randomBytes_spec (.inr hholds) n).2
      rw [← Position.register_add, hperiod] at hback
      exact ⟨n, hn, hback.unique hholds⟩

end Pintos.Lib.Random
