import Mathlib.Data.Finset.Card
import Mathlib.Data.Nat.Bitwise
import Mathlib.Order.Defs.Unbundled
import Pintos.Library.Trace
import Pintos.Lib.ListSurgery

/-!
# The hash table

`lib/kernel/hash.c`: an array of bucket lists, which `rehash` replaces by another one when the number of elements
calls for it and `malloc` has the memory.  The buckets are lists on the links of their elements, and `rehash` takes
each element out of the list it is walking.

* `Means` is the table as a set with at most one element of each equivalence class.
* `Good`: what a table is at any time between two calls.
* `hash_refines_set`: every run of calls returns, keeps the table good, and has the results of the set.
-/

namespace Pintos.Lib

variable {A T : Type} [DecidableEq A] [DecidableEq T]

/-! ## The code -/

/-- `struct hash`, with the links of the buckets and the elements; `buckets` is the address of the array. -/
structure Hash (A T : Type) where
  elemCnt : ℕ
  bucketCnt : ℕ
  buckets : A
  links : Links (A × ℕ) T

/-- `turn_off_least_1bit` -/
def turnOffLeast1bit (x : ℕ) : ℕ := x &&& (x - 1)

/-- `is_power_of_2` -/
def isPowerOf2 (x : ℕ) : Bool := x != 0 && turnOffLeast1bit x == 0

/-- `while (!is_power_of_2 (new_bucket_cnt))` -/
def powerLoop : ℕ → ℕ → Option ℕ
  | 0, _ => none
  | fuel + 1, cnt => if isPowerOf2 cnt then some cnt else powerLoop fuel (turnOffLeast1bit cnt)

/-- The number of buckets that `rehash` wants. -/
def newBucketCnt (fuel elemCnt : ℕ) : Option ℕ :=
  let cnt := elemCnt / 2
  powerLoop fuel (if cnt < 4 then 4 else cnt)

/-- `list_init` of the first buckets of an array. -/
def initBuckets (a : A) : ℕ → Links (A × ℕ) T → Links (A × ℕ) T
  | 0, m => m
  | i + 1, m => (initBuckets a i m).listInit (a, i)

/-- `hash_init` where `malloc` has returned `a`. -/
def hashInit (a : A) (m : Links (A × ℕ) T) : Hash A T where
  elemCnt := 0
  bucketCnt := 4
  buckets := a
  links := initBuckets a 4 m

/-- The loop of `find_elem`. -/
def findElemLoop (less : T → T → Bool) (m : Links (A × ℕ) T) (bucket : A × ℕ) (e : T) :
    ℕ → ListElem (A × ℕ) T → Option (Option T)
  | 0, _ => none
  | fuel + 1, i =>
    if i = .tail bucket then some none
    else match i with
      | .item hi => if !less hi e && !less e hi then some (some hi)
        else (m.listNext i).bind (findElemLoop less m bucket e fuel)
      | _ => none

namespace Hash

/-- `find_bucket` -/
def findBucket (hash : T → ℕ) (h : Hash A T) (e : T) : A × ℕ := (h.buckets, hash e &&& (h.bucketCnt - 1))

/-- `find_elem` -/
def findElem (less : T → T → Bool) (fuel : ℕ) (h : Hash A T) (bucket : A × ℕ) (e : T) : Option (Option T) :=
  (h.links.next (.head bucket)).bind (findElemLoop less h.links bucket e fuel)

/-- `insert_elem` -/
def insertElem (h : Hash A T) (bucket : A × ℕ) (e : T) : Option (Hash A T) :=
  (h.links.listPushFront bucket (.item e)).map fun m => { h with elemCnt := h.elemCnt + 1, links := m }

/-- `remove_elem` -/
def removeElem (h : Hash A T) (e : T) : Option (Hash A T) :=
  (h.links.listRemove (.item e)).map fun r => { h with elemCnt := h.elemCnt - 1, links := r.2 }

/-- The loop of `rehash` over the elements of an old bucket. -/
def moveBucket (hash : T → ℕ) (old : A × ℕ) : ℕ → ListElem (A × ℕ) T → Hash A T → Option (Hash A T)
  | 0, _, _ => none
  | fuel + 1, elem, h =>
    if elem = .tail old then some h
    else match elem with
      | .item e => do
        let next ← h.links.listNext elem
        let (_, m) ← h.links.listRemove elem
        let m ← m.listPushFront (h.findBucket hash e) elem
        moveBucket hash old fuel next { h with links := m }
      | _ => none

/-- The loop over the old buckets. -/
def moveBuckets (hash : T → ℕ) (old : A) (fuel : ℕ) : ℕ → Hash A T → Option (Hash A T)
  | 0, h => some h
  | i + 1, h => do
    let h ← moveBuckets hash old fuel i h
    let elem ← h.links.next (.head (old, i))
    moveBucket hash (old, i) fuel elem h

/-- `rehash` from the call of `malloc` on, which returns `malloc`. -/
def replaceBuckets (hash : T → ℕ) (fuel : ℕ) (malloc : Option A) (cnt : ℕ) (h : Hash A T) : Option (Hash A T) :=
  match malloc with
  | none => some h
  | some new => moveBuckets hash h.buckets fuel h.bucketCnt
      { h with buckets := new, bucketCnt := cnt, links := initBuckets new cnt h.links }

/-- `rehash`; `malloc` is what the call of it returns, if it is made. -/
def rehash (hash : T → ℕ) (fuel : ℕ) (malloc : Option A) (h : Hash A T) : Option (Hash A T) :=
  (newBucketCnt fuel h.elemCnt).bind fun cnt =>
    if cnt = h.bucketCnt then some h else h.replaceBuckets hash fuel malloc cnt

variable (hash : T → ℕ) (less : T → T → Bool) (fuel : ℕ) (malloc : Option A) (h : Hash A T)

/-- `hash_insert` -/
def hashInsert (new : T) : Option (Option T × Hash A T) := do
  let bucket := h.findBucket hash new
  let old ← h.findElem less fuel bucket new
  let h ← (match old with
    | none => h.insertElem bucket new
    | some _ => some h)
  let h ← h.rehash hash fuel malloc
  return (old, h)

/-- `hash_replace` -/
def hashReplace (new : T) : Option (Option T × Hash A T) := do
  let bucket := h.findBucket hash new
  let old ← h.findElem less fuel bucket new
  let h ← (match old with
    | some old => h.removeElem old
    | none => some h)
  let h ← h.insertElem bucket new
  let h ← h.rehash hash fuel malloc
  return (old, h)

/-- `hash_find` -/
def hashFind (e : T) : Option (Option T × Hash A T) :=
  (h.findElem less fuel (h.findBucket hash e) e).map fun found => (found, h)

/-- `hash_delete` -/
def hashDelete (e : T) : Option (Option T × Hash A T) := do
  let found ← h.findElem less fuel (h.findBucket hash e) e
  match found with
  | some old => do
    let h ← h.removeElem old
    let h ← h.rehash hash fuel malloc
    return (found, h)
  | none => return (found, h)

end Hash

/-- A call. -/
inductive HashOp (T : Type)
  | insert (new : T)
  | replace (new : T)
  | find (e : T)
  | delete (e : T)

/-- A call on the table. -/
def HashOp.exec (hash : T → ℕ) (less : T → T → Bool) (fuel : ℕ) (malloc : Option A) (h : Hash A T) :
    HashOp T → Option (Option T × Hash A T)
  | .insert new => h.hashInsert hash less fuel malloc new
  | .replace new => h.hashReplace hash less fuel malloc new
  | .find e => h.hashFind hash less fuel e
  | .delete e => h.hashDelete hash less fuel malloc e

/-- A sequence of calls; `malloc n a` is what `malloc` returns in the call with the number `n` when the buckets are
at `a`. -/
def HashOp.execs (hash : T → ℕ) (less : T → T → Bool) (fuel : ℕ) (malloc : ℕ → A → Option A) :
    ℕ → Hash A T → List (HashOp T) → Option (List (Option T) × Hash A T)
  | _, h, [] => some ([], h)
  | n, h, op :: ops =>
    (op.exec hash less fuel (malloc n h.buckets) h).bind fun r =>
      (HashOp.execs hash less fuel malloc (n + 1) r.2 ops).map fun rs => (r.1 :: rs.1, rs.2)

/-! ## The set -/

/-- `less` has neither before the other. -/
def Equivalent (less : T → T → Bool) (x y : T) : Prop := ¬less x y ∧ ¬less y x

/-- **What a call does to the set of elements, and what it returns.** -/
inductive SetMeans (less : T → T → Bool) (S : Finset T) : HashOp T × Option T → Finset T → Prop
  | insertNew {e : T} (hno : ∀ x ∈ S, ¬Equivalent less x e) : SetMeans less S (.insert e, none) (insert e S)
  | insertOld {e x : T} (hx : x ∈ S) (he : Equivalent less x e) : SetMeans less S (.insert e, some x) S
  | replaceNew {e : T} (hno : ∀ x ∈ S, ¬Equivalent less x e) : SetMeans less S (.replace e, none) (insert e S)
  | replaceOld {e x : T} (hx : x ∈ S) (he : Equivalent less x e) :
      SetMeans less S (.replace e, some x) (insert e (S.erase x))
  | findNone {e : T} (hno : ∀ x ∈ S, ¬Equivalent less x e) : SetMeans less S (.find e, none) S
  | findSome {e x : T} (hx : x ∈ S) (he : Equivalent less x e) : SetMeans less S (.find e, some x) S
  | deleteNone {e : T} (hno : ∀ x ∈ S, ¬Equivalent less x e) : SetMeans less S (.delete e, none) S
  | deleteSome {e x : T} (hx : x ∈ S) (he : Equivalent less x e) : SetMeans less S (.delete e, some x) (S.erase x)

namespace Hash

/-- The bucket lists. -/
def bucketSet (h : Hash A T) : Set (A × ℕ) := {q | q.1 = h.buckets ∧ q.2 < h.bucketCnt}

/-- **A table that holds `S`**: the elements stand in the buckets that their hashes select, they are counted, and no two
of them are equivalent. -/
structure Good (hash : T → ℕ) (less : T → T → Bool) (h : Hash A T) (S : Finset T) : Prop where
  power : ∃ k, 2 ≤ k ∧ h.bucketCnt = 2 ^ k
  buckets : ∃ f, h.links.Holds h.bucketSet f ∧ Placed f S (h.findBucket hash)
  count : h.elemCnt = S.card
  unique : ∀ x ∈ S, ∀ y ∈ S, Equivalent less x y → x = y

end Hash

/-! ## Numbers -/

theorem turnOffLeast1bit_lt {x : ℕ} (hx : 0 < x) : turnOffLeast1bit x < x := by
  have hle : x &&& (x - 1) ≤ x - 1 := Nat.and_le_right
  unfold turnOffLeast1bit
  omega

/-- The highest bit stays, unless it is the only one. -/
theorem le_turnOffLeast1bit {x k : ℕ} (hlo : 2 ^ k < x) (hhi : x < 2 ^ (k + 1)) : 2 ^ k ≤ turnOffLeast1bit x := by
  have hbit : x.testBit k = true := Nat.testBit_of_two_pow_le_and_two_pow_add_one_gt hlo.le hhi
  have hbit' : (x - 1).testBit k = true := by
    apply Nat.testBit_of_two_pow_le_and_two_pow_add_one_gt <;> omega
  apply Nat.ge_two_pow_of_testBit
  unfold turnOffLeast1bit
  rw [Nat.testBit_and, hbit, hbit']
  rfl

theorem turnOffLeast1bit_two_pow (k : ℕ) : turnOffLeast1bit (2 ^ k) = 0 := by
  unfold turnOffLeast1bit
  rw [Nat.and_two_pow_sub_one_eq_mod, Nat.mod_self]

/-- The loop turns all bits off but the highest. -/
theorem powerLoop_eq {k fuel cnt : ℕ} (hlo : 2 ^ k ≤ cnt) (hhi : cnt < 2 ^ (k + 1)) (hfuel : cnt < fuel) :
    powerLoop fuel cnt = some (2 ^ k) := by
  induction fuel generalizing cnt with
  | zero => exact absurd hfuel (Nat.not_lt_zero _)
  | succ fuel ih =>
    have hpos : 0 < cnt := (Nat.two_pow_pos k).trans_le hlo
    unfold powerLoop
    rcases Nat.eq_or_lt_of_le hlo with heq | hlt
    · subst heq
      have hpower : isPowerOf2 (2 ^ k) = true := by
        simp [isPowerOf2, turnOffLeast1bit_two_pow]
      rw [if_pos hpower]
    · have hle := le_turnOffLeast1bit hlt hhi
      have hless := turnOffLeast1bit_lt hpos
      have hpower : ¬isPowerOf2 cnt = true := by
        have hne : turnOffLeast1bit cnt ≠ 0 := ((Nat.two_pow_pos k).trans_le hle).ne'
        simp [isPowerOf2, hne]
      rw [if_neg hpower]
      exact ih hle (hless.trans hhi) (by omega)

theorem newBucketCnt_eq (elemCnt : ℕ) : ∃ k, 2 ≤ k ∧ ∀ fuel, elemCnt + 4 < fuel →
    newBucketCnt fuel elemCnt = some (2 ^ k) := by
  have hfour : 4 ≤ if elemCnt / 2 < 4 then 4 else elemCnt / 2 := by
    split <;> omega
  refine ⟨Nat.log2 (if elemCnt / 2 < 4 then 4 else elemCnt / 2), ?_, ?_⟩
  · rw [Nat.le_log2 (by omega)]
    exact hfour
  · intro fuel hfuel
    apply powerLoop_eq
    · exact Nat.log2_self_le (by omega)
    · exact Nat.lt_log2_self
    · split <;> omega

/-! ## Buckets -/

variable {hash : T → ℕ} {less : T → T → Bool} {m : Links (A × ℕ) T} {lists : Set (A × ℕ)} {f : A × ℕ → List T}
  {S : Finset T} {place : T → A × ℕ} {old bucket : A × ℕ} {h : Hash A T} {e x : T} {l r : List T}

theorem initBuckets_holds {a : A} {n : ℕ} (hm : m.Holds lists f) (hf : ∀ i, f (a, i) = []) :
    (initBuckets a n m).Holds (lists ∪ {q | q.1 = a ∧ q.2 < n}) f := by
  induction n with
  | zero =>
    have hset : lists ∪ {q : A × ℕ | q.1 = a ∧ q.2 < 0} = lists := by
      simp
    rw [hset]
    exact hm
  | succ n ih =>
    have hset : lists ∪ {q : A × ℕ | q.1 = a ∧ q.2 < n + 1} = insert (a, n) (lists ∪ {q | q.1 = a ∧ q.2 < n}) := by
      ext ⟨b, i⟩
      simp only [Set.mem_union, Set.mem_ofPred_eq, Set.mem_insert_iff, Prod.mk.injEq, Nat.lt_succ_iff_lt_or_eq]
      tauto
    rw [hset]
    exact ih.listInit (hf n)

/-- The walk of `find_elem`. -/
theorem findElemLoop_eq (hm : m.Holds lists f) (hb : bucket ∈ lists) (hf : f bucket = l ++ r) {fuel : ℕ}
    (hfuel : r.length < fuel) :
    findElemLoop less m bucket e fuel (firstOf bucket r) = some (r.find? fun hi => !less hi e && !less e hi) := by
  induction r generalizing l fuel with
  | nil =>
    cases fuel with
    | zero => exact absurd hfuel (Nat.not_lt_zero _)
    | succ fuel => exact if_pos rfl
  | cons hi r ih =>
    cases fuel with
    | zero => exact absurd hfuel (Nat.not_lt_zero _)
    | succ fuel =>
      have hnext := hm.listNext hb hf
      rw [List.append_cons] at hf
      have hrest := ih hf (Nat.lt_of_succ_lt_succ hfuel)
      rw [List.find?_cons]
      unfold findElemLoop firstOf
      rw [if_neg (by simp)]
      dsimp only
      split
      · rename_i heq
        rw [heq]
      · rename_i heq
        rw [Bool.not_eq_true] at heq
        rw [heq, hnext]
        exact hrest

namespace Hash

theorem findElem_eq (hm : h.links.Holds lists f) (hb : bucket ∈ lists) {fuel : ℕ}
    (hfuel : (f bucket).length < fuel) :
    h.findElem less fuel bucket e = some ((f bucket).find? fun hi => !less hi e && !less e hi) := by
  have hbegin : h.links.next (.head bucket) = some (firstOf bucket (f bucket)) :=
    (hm.neighbours hb (List.nil_append _).symm).1
  unfold findElem
  rw [hbegin]
  exact findElemLoop_eq hm hb (List.nil_append _).symm hfuel

end Hash

/-! ## The move -/

namespace Hash

/-- The walk over an old bucket: each element is taken out of it and comes into the bucket that its hash selects. -/
theorem moveBucket_spec (hm : m.Holds lists f) (hp : Placed f S place) (hold : old ∈ lists)
    (hnew : ∀ e ∈ S, h.findBucket hash e ∈ lists) (hne : ∀ e, h.findBucket hash e ≠ old) :
    ∃ m' f', (∀ fuel, (f old).length < fuel →
        moveBucket hash old fuel (firstOf old (f old)) { h with links := m } = some { h with links := m' }) ∧
      m'.Holds lists f' ∧ Placed f' S fun e => if place e = old then h.findBucket hash e else place e := by
  generalize hf : f old = ts
  induction ts generalizing m f place with
  | nil =>
    refine ⟨m, f, ?_, hm, ?_⟩
    · intro fuel hfuel
      cases fuel with
      | zero => exact absurd hfuel (Nat.not_lt_zero _)
      | succ fuel => exact if_pos rfl
    · apply hp.congr
      intro e he
      have hplace : place e ≠ old := by
        intro heq
        have hmem := (hp.mem old e).mpr ⟨he, heq⟩
        rw [hf] at hmem
        cases hmem
      exact if_neg hplace
  | cons e ts ih =>
    have hf₀ : f old = [] ++ e :: ts := hf
    have he := (hp.mem old e).mp (hf ▸ List.mem_cons_self)
    have hnext := hm.listNext hold hf₀
    obtain ⟨m₁, hremove, hm₁, hd₁⟩ := hm.listRemove hp.disjointLists hold hf₀
    have hno : ∀ q, e ∉ Function.update f old ([] ++ ts) q := by
      intro q hmem
      have hperm : (f old).Perm (e :: ([] ++ ts)) := by
        rw [hf]
        exact List.Perm.refl _
      exact hp.disjointLists.not_mem_pop hperm q hmem
    obtain ⟨m₂, hpush, hm₂, -⟩ := hm₁.listPushFront hd₁ (hnew e he.1) hno
    have hp₂ := hp.move hf₀ (hne e)
    rw [Function.update_of_ne (hne e)] at hm₂
    have hf₂ : Function.update (Function.update f old ([] ++ ts)) (h.findBucket hash e)
        (e :: f (h.findBucket hash e)) old = ts := by
      rw [Function.update_of_ne (hne e).symm, Function.update_self]
      rfl
    obtain ⟨m', f', hrun, hm', hp'⟩ := ih hm₂ hp₂ hf₂
    refine ⟨m', f', ?_, hm', ?_⟩
    · intro fuel hfuel
      cases fuel with
      | zero => exact absurd hfuel (Nat.not_lt_zero _)
      | succ fuel =>
        have hbucket : findBucket hash { h with links := m } e = h.findBucket hash e := rfl
        unfold moveBucket firstOf
        rw [if_neg (by simp)]
        simp only [hnext, hremove, hbucket, hpush, Option.bind_eq_bind, Option.bind_some]
        exact hrun fuel (Nat.lt_of_succ_lt_succ hfuel)
    · apply hp'.congr
      intro u _
      by_cases hu : u = e
      · subst hu
        rw [Function.update_self, if_neg (hne u), if_pos he.2]
      · rw [Function.update_of_ne hu]

/-- The walk over the old buckets. -/
theorem moveBuckets_spec {a : A} {i : ℕ} (hm : m.Holds lists f) (hp : Placed f S place)
    (hold : ∀ j < i, (a, j) ∈ lists) (hnew : ∀ e ∈ S, h.findBucket hash e ∈ lists) (hne : h.buckets ≠ a)
    (hplace : ∀ e ∈ S, (place e).1 = a) :
    ∃ m' f' N, (∀ fuel, N ≤ fuel → moveBuckets hash a fuel i { h with links := m } = some { h with links := m' }) ∧
      m'.Holds lists f' ∧ Placed f' S fun e => if (place e).2 < i then h.findBucket hash e else place e := by
  induction i with
  | zero =>
    refine ⟨m, f, 0, fun _ _ => rfl, hm, ?_⟩
    apply hp.congr
    intro e _
    exact if_neg (Nat.not_lt_zero _)
  | succ i ih =>
    obtain ⟨m₁, f₁, N, hrun₁, hm₁, hp₁⟩ := ih fun j hj => hold j (Nat.lt_succ_of_lt hj)
    have hi := hold i (Nat.lt_succ_self i)
    have hnold : ∀ e, h.findBucket hash e ≠ (a, i) := fun e heq => hne (congrArg Prod.fst heq)
    obtain ⟨m', f', hrun, hm', hp'⟩ := moveBucket_spec hm₁ hp₁ hi hnew hnold
    have hbegin : m₁.next (.head (a, i)) = some (firstOf (a, i) (f₁ (a, i))) :=
      (hm₁.neighbours hi (List.nil_append _).symm).1
    refine ⟨m', f', max N ((f₁ (a, i)).length + 1), ?_, hm', ?_⟩
    · intro fuel hfuel
      unfold moveBuckets
      rw [hrun₁ fuel ((le_max_left _ _).trans hfuel)]
      simp only [Option.bind_eq_bind, Option.bind_some, hbegin]
      exact hrun fuel ((le_max_right _ _).trans hfuel)
    · apply hp'.congr
      intro e he
      by_cases hlt : (place e).2 < i
      · rw [if_pos (Nat.lt_succ_of_lt hlt), if_pos hlt, ite_self]
      · rw [if_neg hlt]
        have hiff : place e = (a, i) ↔ (place e).2 < i + 1 := by
          rw [Prod.ext_iff]
          have ha := hplace e he
          constructor
          · intro ⟨_, h2⟩
            exact h2.trans_lt (Nat.lt_succ_self i)
          · intro h2
            exact ⟨ha, by omega⟩
        simp only [hiff]

omit [DecidableEq A] [DecidableEq T] in
theorem findBucket_mem (h : Hash A T) (hpos : 0 < h.bucketCnt) (e : T) : h.findBucket hash e ∈ h.bucketSet := by
  have hle : hash e &&& (h.bucketCnt - 1) ≤ h.bucketCnt - 1 := Nat.and_le_right
  refine ⟨rfl, ?_⟩
  show hash e &&& (h.bucketCnt - 1) < h.bucketCnt
  omega

omit [DecidableEq A] in
theorem Good.pos {h : Hash A T} (hg : h.Good hash less S) : 0 < h.bucketCnt := by
  obtain ⟨k, -, hk⟩ := hg.power
  rw [hk]
  exact Nat.two_pow_pos k

/-- **`rehash` keeps the elements**, with the memory for a new array and without it. -/
theorem Good.rehash {malloc : Option A} (hg : h.Good hash less S) (hmalloc : malloc ≠ some h.buckets) :
    ∃ h' N, (∀ fuel, N ≤ fuel → h.rehash hash fuel malloc = some h') ∧ h'.Good hash less S := by
  obtain ⟨k, hk, hcnt⟩ := newBucketCnt_eq h.elemCnt
  have hunfold : ∀ fuel, h.elemCnt + 4 < fuel → h.rehash hash fuel malloc =
      if 2 ^ k = h.bucketCnt then some h else h.replaceBuckets hash fuel malloc (2 ^ k) := by
    intro fuel hfuel
    unfold Hash.rehash
    rw [hcnt fuel hfuel]
    rfl
  by_cases hsame : 2 ^ k = h.bucketCnt
  · refine ⟨h, h.elemCnt + 5, ?_, hg⟩
    intro fuel hfuel
    rw [hunfold fuel (by omega), if_pos hsame]
  · cases malloc with
    | none =>
      refine ⟨h, h.elemCnt + 5, ?_, hg⟩
      intro fuel hfuel
      rw [hunfold fuel (by omega), if_neg hsame]
      rfl
    | some new =>
      have hne : new ≠ h.buckets := fun heq => hmalloc (congrArg some heq)
      obtain ⟨f, hm, hp⟩ := hg.buckets
      have hempty : ∀ i, f (new, i) = [] := by
        intro i
        apply List.eq_nil_iff_forall_not_mem.mpr
        intro e he
        exact hne (congrArg Prod.fst ((hp.mem (new, i) e).mp he).2).symm
      have hm₀ := initBuckets_holds (n := 2 ^ k) hm hempty
      set h₀ : Hash A T := { h with buckets := new, bucketCnt := 2 ^ k, links := initBuckets new (2 ^ k) h.links }
      have hlists : h₀.bucketSet ⊆ h.bucketSet ∪ {q | q.1 = new ∧ q.2 < 2 ^ k} := Set.subset_union_right
      have hold : ∀ j < h.bucketCnt, (h.buckets, j) ∈ h.bucketSet ∪ {q | q.1 = new ∧ q.2 < 2 ^ k} :=
        fun j hj => .inl ⟨rfl, hj⟩
      have hnew : ∀ e ∈ S, h₀.findBucket hash e ∈ h.bucketSet ∪ {q | q.1 = new ∧ q.2 < 2 ^ k} :=
        fun e _ => hlists (h₀.findBucket_mem (Nat.two_pow_pos k) e)
      obtain ⟨m', f', N, hrun, hm', hp'⟩ := moveBuckets_spec hm₀ hp hold hnew hne fun _ _ => rfl
      refine ⟨{ h₀ with links := m' }, max N (h.elemCnt + 5), ?_, ⟨k, hk, rfl⟩, ⟨f', ?_, ?_⟩, hg.count, hg.unique⟩
      · intro fuel hfuel
        rw [hunfold fuel (by omega), if_neg hsame]
        exact hrun fuel ((le_max_left _ _).trans hfuel)
      · intro q hq
        exact hm' q (hlists hq)
      · apply hp'.congr
        intro e _
        exact (if_pos (h.findBucket_mem hg.pos e).2).symm

end Hash

/-! ## The calls -/

namespace Hash

theorem Good.insertElem (hg : h.Good hash less S) (hno : ∀ x ∈ S, ¬Equivalent less x e) (he : e ∉ S) :
    ∃ h', h.insertElem (h.findBucket hash e) e = some h' ∧ h'.buckets = h.buckets ∧
      h'.Good hash less (insert e S) := by
  obtain ⟨f, hm, hp⟩ := hg.buckets
  obtain ⟨m', hpush, hm', -⟩ := hm.listPushFront hp.disjointLists (h.findBucket_mem hg.pos e) (hp.not_mem he)
  refine ⟨{ h with elemCnt := h.elemCnt + 1, links := m' }, ?_, rfl, hg.power, ⟨_, hm', hp.insert he⟩, ?_, ?_⟩
  · unfold Hash.insertElem
    rw [hpush]
    rfl
  · rw [Finset.card_insert_of_notMem he, ← hg.count]
  · intro x hx y hy hxy
    rcases Finset.mem_insert.mp hx with hxe | hx <;> rcases Finset.mem_insert.mp hy with hye | hy
    · rw [hxe, hye]
    · rw [hxe] at hxy
      exact absurd ⟨hxy.2, hxy.1⟩ (hno y hy)
    · rw [hye] at hxy
      exact absurd hxy (hno x hx)
    · exact hg.unique x hx y hy hxy

theorem Good.removeElem (hg : h.Good hash less S) (hx : x ∈ S) :
    ∃ h', h.removeElem x = some h' ∧ h'.buckets = h.buckets ∧ (∀ e, h'.findBucket hash e = h.findBucket hash e) ∧
      h'.Good hash less (S.erase x) := by
  obtain ⟨f, hm, hp⟩ := hg.buckets
  obtain ⟨l, r, hf⟩ := List.append_of_mem ((hp.mem _ x).mpr ⟨hx, rfl⟩)
  obtain ⟨m', hremove, hm', -⟩ := hm.listRemove hp.disjointLists (h.findBucket_mem hg.pos x) hf
  refine ⟨{ h with elemCnt := h.elemCnt - 1, links := m' }, ?_, rfl, fun _ => rfl, hg.power,
    ⟨_, hm', hp.erase hf⟩, ?_, ?_⟩
  · unfold Hash.removeElem
    rw [hremove]
    rfl
  · rw [Finset.card_erase_of_mem hx, ← hg.count]
  · intro y hy z hz
    exact hg.unique y (Finset.mem_of_mem_erase hy) z (Finset.mem_of_mem_erase hz)

/-- **`find_elem` in the bucket of an element finds an equivalent one if the table has one**: equivalent elements have
the same hash. -/
theorem Good.findElem (hg : h.Good hash less S) (hhash : ∀ x y, Equivalent less x y → hash x = hash y) (e : T) :
    ∃ r N, (∀ fuel, N ≤ fuel → h.findElem less fuel (h.findBucket hash e) e = some r) ∧
      (r = none ∧ (∀ x ∈ S, ¬Equivalent less x e) ∨ ∃ x ∈ S, r = some x ∧ Equivalent less x e) := by
  obtain ⟨f, hm, hp⟩ := hg.buckets
  refine ⟨_, (f (h.findBucket hash e)).length + 1, fun fuel hfuel =>
    findElem_eq hm (h.findBucket_mem hg.pos e) hfuel, ?_⟩
  cases hfind : (f (h.findBucket hash e)).find? fun hi => !less hi e && !less e hi with
  | none =>
    left
    refine ⟨rfl, ?_⟩
    intro x hx hxe
    rw [List.find?_eq_none] at hfind
    have hplace : h.findBucket hash x = h.findBucket hash e := by
      unfold findBucket
      rw [hhash x e hxe]
    apply hfind x ((hp.mem _ x).mpr ⟨hx, hplace⟩)
    simpa [Equivalent] using hxe
  | some x =>
    right
    have hmem := (hp.mem _ x).mp (List.mem_of_find?_eq_some hfind)
    have hxe := List.find?_some hfind
    refine ⟨x, hmem.1, rfl, ?_⟩
    simpa [Equivalent] using hxe

end Hash

variable [IsStrictWeakOrder T fun a b => less a b = true]

omit [DecidableEq T] in
theorem equivalent_trans {x y z : T} (hxy : Equivalent less x y) (hyz : Equivalent less y z) : Equivalent less x z :=
  @IsStrictWeakOrder.incomp_trans T (fun a b => less a b = true) _ x y z hxy hyz

omit [DecidableEq T] in
theorem equivalent_refl (x : T) : Equivalent less x x :=
  ⟨irrefl_of (fun a b => less a b = true) x, irrefl_of (fun a b => less a b = true) x⟩

/-- One call: it returns what the set has, and the table holds what the set becomes. -/
theorem exec_refines {malloc : Option A} (hg : h.Good hash less S)
    (hhash : ∀ x y, Equivalent less x y → hash x = hash y) (hmalloc : malloc ≠ some h.buckets) (op : HashOp T) :
    ∃ r h' S' N, (∀ fuel, N ≤ fuel → op.exec hash less fuel malloc h = some (r, h')) ∧
      SetMeans less S (op, r) S' ∧ h'.Good hash less S' := by
  have hnew : ∀ e, (∀ x ∈ S, ¬Equivalent less x e) → e ∉ S := fun e hno he => hno e he (equivalent_refl e)
  cases op with
  | insert e =>
    obtain ⟨_, N₁, hfind, ⟨rfl, hno⟩ | ⟨x, hx, rfl, hxe⟩⟩ := hg.findElem hhash e
    · obtain ⟨h₁, hins, hb, hg₁⟩ := hg.insertElem hno (hnew e hno)
      obtain ⟨h', N₂, hre, hg'⟩ := hg₁.rehash (hb ▸ hmalloc)
      refine ⟨none, h', insert e S, max N₁ N₂, ?_, .insertNew hno, hg'⟩
      intro fuel hfuel
      simp only [HashOp.exec, Hash.hashInsert, hfind fuel ((le_max_left _ _).trans hfuel), hins,
        hre fuel ((le_max_right _ _).trans hfuel), Option.bind_eq_bind, Option.bind_some, Option.pure_def]
    · obtain ⟨h', N₂, hre, hg'⟩ := hg.rehash hmalloc
      refine ⟨some x, h', S, max N₁ N₂, ?_, .insertOld hx hxe, hg'⟩
      intro fuel hfuel
      simp only [HashOp.exec, Hash.hashInsert, hfind fuel ((le_max_left _ _).trans hfuel),
        hre fuel ((le_max_right _ _).trans hfuel), Option.bind_eq_bind, Option.bind_some, Option.pure_def]
  | replace e =>
    obtain ⟨_, N₁, hfind, ⟨rfl, hno⟩ | ⟨x, hx, rfl, hxe⟩⟩ := hg.findElem hhash e
    · obtain ⟨h₁, hins, hb, hg₁⟩ := hg.insertElem hno (hnew e hno)
      obtain ⟨h', N₂, hre, hg'⟩ := hg₁.rehash (hb ▸ hmalloc)
      refine ⟨none, h', insert e S, max N₁ N₂, ?_, .replaceNew hno, hg'⟩
      intro fuel hfuel
      simp only [HashOp.exec, Hash.hashReplace, hfind fuel ((le_max_left _ _).trans hfuel), hins,
        hre fuel ((le_max_right _ _).trans hfuel), Option.bind_eq_bind, Option.bind_some, Option.pure_def]
    · -- whatever is equivalent to the new element is equivalent to the old one, which has gone
      have hno : ∀ y ∈ S.erase x, ¬Equivalent less y e := by
        intro y hy hye
        have hyx : y = x := hg.unique y (Finset.mem_of_mem_erase hy) x hx (equivalent_trans hye ⟨hxe.2, hxe.1⟩)
        exact Finset.ne_of_mem_erase hy hyx
      have he : e ∉ S.erase x := fun he => hno e he (equivalent_refl e)
      obtain ⟨h₁, hrem, hb₁, hbucket, hg₁⟩ := hg.removeElem hx
      obtain ⟨h₂, hins, hb₂, hg₂⟩ := hg₁.insertElem hno he
      rw [hbucket] at hins
      obtain ⟨h', N₂, hre, hg'⟩ := hg₂.rehash (hb₂ ▸ hb₁ ▸ hmalloc)
      refine ⟨some x, h', insert e (S.erase x), max N₁ N₂, ?_, .replaceOld hx hxe, hg'⟩
      intro fuel hfuel
      simp only [HashOp.exec, Hash.hashReplace, hfind fuel ((le_max_left _ _).trans hfuel), hrem, hins,
        hre fuel ((le_max_right _ _).trans hfuel), Option.bind_eq_bind, Option.bind_some, Option.pure_def]
  | find e =>
    obtain ⟨_, N, hfind, ⟨rfl, hno⟩ | ⟨x, hx, rfl, hxe⟩⟩ := hg.findElem hhash e
    · refine ⟨none, h, S, N, ?_, .findNone hno, hg⟩
      intro fuel hfuel
      simp only [HashOp.exec, Hash.hashFind, hfind fuel hfuel, Option.map_some]
    · refine ⟨some x, h, S, N, ?_, .findSome hx hxe, hg⟩
      intro fuel hfuel
      simp only [HashOp.exec, Hash.hashFind, hfind fuel hfuel, Option.map_some]
  | delete e =>
    obtain ⟨_, N₁, hfind, ⟨rfl, hno⟩ | ⟨x, hx, rfl, hxe⟩⟩ := hg.findElem hhash e
    · refine ⟨none, h, S, N₁, ?_, .deleteNone hno, hg⟩
      intro fuel hfuel
      simp only [HashOp.exec, Hash.hashDelete, hfind fuel hfuel, Option.bind_eq_bind, Option.bind_some, Option.pure_def]
    · obtain ⟨h₁, hrem, hb, -, hg₁⟩ := hg.removeElem hx
      obtain ⟨h', N₂, hre, hg'⟩ := hg₁.rehash (hb ▸ hmalloc)
      refine ⟨some x, h', S.erase x, max N₁ N₂, ?_, .deleteSome hx hxe, hg'⟩
      intro fuel hfuel
      simp only [HashOp.exec, Hash.hashDelete, hfind fuel ((le_max_left _ _).trans hfuel), hrem,
        hre fuel ((le_max_right _ _).trans hfuel), Option.bind_eq_bind, Option.bind_some, Option.pure_def]

/-- **Every run of calls on a table returns the results of the set**, whatever `malloc` returns, and leaves the table
with the elements of the set. -/
theorem execs_refine {malloc : ℕ → A → Option A} (hhash : ∀ x y, Equivalent less x y → hash x = hash y)
    (hmalloc : ∀ n a, malloc n a ≠ some a) (ops : List (HashOp T)) (n : ℕ) (hg : h.Good hash less S) :
    ∃ rs h' S' N, (∀ fuel, N ≤ fuel → HashOp.execs hash less fuel malloc n h ops = some (rs, h')) ∧
      rs.length = ops.length ∧ Trace (SetMeans less) S (ops.zip rs) S' ∧ h'.Good hash less S' := by
  induction ops generalizing n h S with
  | nil => exact ⟨[], h, S, 0, fun _ _ => rfl, rfl, .nil S, hg⟩
  | cons op ops ih =>
    obtain ⟨r, h₁, S₁, N₁, hrun₁, hmeans, hg₁⟩ := exec_refines hg hhash (hmalloc n h.buckets) op
    obtain ⟨rs, h', S', N₂, hrun₂, hlen, htrace, hg'⟩ := ih (n + 1) hg₁
    refine ⟨r :: rs, h', S', max N₁ N₂, ?_, congrArg (· + 1) hlen, .cons hmeans htrace, hg'⟩
    intro fuel hfuel
    unfold HashOp.execs
    rw [hrun₁ fuel ((le_max_left _ _).trans hfuel), Option.bind_some,
      hrun₂ fuel ((le_max_right _ _).trans hfuel)]
    rfl

omit [IsStrictWeakOrder T fun a b => less a b = true] in
/-- `hash_init` makes an empty table. -/
theorem hashInit_good (a : A) (m : Links (A × ℕ) T) : (hashInit a m).Good hash less ∅ := by
  refine ⟨⟨2, le_rfl, rfl⟩, ⟨fun _ => [], ?_, ⟨fun _ => List.nodup_nil, by simp⟩⟩, rfl, by simp⟩
  have hnone : m.Holds ∅ fun _ => [] := fun q hq => hq.elim
  intro q hq
  exact initBuckets_holds (n := 4) hnone (fun _ => rfl) q (.inr hq)

/-- **A hash table is a set with at most one element of each equivalence class**: every sequence of calls after
`hash_init` returns the results of the set, and leaves a good table with its elements, whichever of the allocations
fail. -/
theorem hash_refines_set (hhash : ∀ x y, Equivalent less x y → hash x = hash y) (malloc : ℕ → A → Option A)
    (hmalloc : ∀ n a, malloc n a ≠ some a) (a : A) (m : Links (A × ℕ) T) (ops : List (HashOp T)) :
    ∃ rs h' S' N, (∀ fuel, N ≤ fuel → HashOp.execs hash less fuel malloc 0 (hashInit a m) ops = some (rs, h')) ∧
      rs.length = ops.length ∧ Trace (SetMeans less) ∅ (ops.zip rs) S' ∧ h'.Good hash less S' :=
  execs_refine hhash hmalloc ops 0 (hashInit_good a m)

/-- A table of numbers that are equivalent when they differ in the last digit only. -/
theorem hash_refines_set_digits : ∃ rs h' S' N,
    (∀ fuel, N ≤ fuel → HashOp.execs (· / 10) (fun a b : ℕ => decide (a / 10 < b / 10)) fuel (fun _ a => some (a + 1)) 0
      (hashInit 0 ⟨fun _ => none, fun _ => none⟩) [.insert 11, .replace 12, .delete 13] = some (rs, h')) ∧
    rs.length = 3 ∧
    Trace (SetMeans fun a b : ℕ => decide (a / 10 < b / 10)) ∅ ([.insert 11, .replace 12, .delete 13].zip rs) S' ∧
    h'.Good (· / 10) (fun a b : ℕ => decide (a / 10 < b / 10)) S' := by
  have horder : IsStrictWeakOrder ℕ fun a b => decide (a / 10 < b / 10) = true := {
    irrefl := by simp
    trans := by
      intro a b c
      simp only [decide_eq_true_eq]
      omega
    incomp_trans := by
      intro a b c
      simp only [decide_eq_true_eq]
      omega }
  apply hash_refines_set _ _ (by simp)
  intro x y hxy
  simp only [Equivalent, decide_eq_true_eq] at hxy
  show x / 10 = y / 10
  omega

example : (HashOp.execs (· / 10) (fun a b : ℕ => decide (a / 10 < b / 10)) 30 (fun _ a => some (a + 1)) 0
    (hashInit 0 ⟨fun _ => none, fun _ => none⟩)
    [.insert 11, .insert 12, .replace 13, .find 14, .delete 15, .find 16]).map Prod.fst =
      some [none, some 11, some 11, some 13, some 13, none] := by
  decide +kernel

end Pintos.Lib
