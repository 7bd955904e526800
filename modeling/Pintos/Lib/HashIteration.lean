import Pintos.Lib.Hash

/-!
# Walking through a hash table

`hash_first`, `hash_next` and `hash_apply` of `lib/kernel/hash.c`.  The iterator starts on the head of the first
bucket list, as if it were an element, and goes on to the next bucket when it comes to the tail of one.

* `At`: the iterator stands in front of the elements that are still to come; `At.hashNext` is one call.
* `Ahead`: what is left of the links for `hash_apply` while the elements behind it are unlinked or their memory is
  used for something else; `Ahead.exec` is one call of the action.
* `hash_iteration_complete`: both walks see every element once, in the same order.
-/

namespace Pintos.Lib

variable {A T : Type} [DecidableEq A] [DecidableEq T]

/-! ## The code -/

/-- `struct hash_iterator` of a table; `bucket` is the index of the bucket. -/
structure HashIterator (A T : Type) where
  bucket : ℕ
  elem : Option (ListElem (A × ℕ) T)

/-- What `action` does with the element that it is given: it takes it out of its list or does not, and then the memory
of the elements in `freed` may hold anything. -/
structure HashAction (A T : Type) where
  unlink : Bool
  freed : T → Bool
  memory : Links (A × ℕ) T

/-- The elements that `action` has been called with, and whose memory is used for something else. -/
def HashAction.reused (c : HashAction A T) (called : List T) : ListElem (A × ℕ) T → Bool
  | .item u => decide (u ∈ called) && c.freed u
  | _ => false

/-- The call of `action` with `t`; `called` are all elements that it has been called with, `t` among them. -/
def HashAction.exec (c : HashAction A T) (called : List T) (t : T) (m : Links (A × ℕ) T) :
    Option (Links (A × ℕ) T) := do
  let m ← if c.unlink then (m.listRemove (.item t)).map Prod.snd else some m
  return {
    next := fun e => if c.reused called e then c.memory.next e else m.next e
    prev := fun e => if c.reused called e then c.memory.prev e else m.prev e }

namespace Hash

/-- `hash_first` -/
def hashFirst (h : Hash A T) : HashIterator A T := ⟨0, some (.head (h.buckets, 0))⟩

/-- The loop of `hash_next`. -/
def hashNextLoop (h : Hash A T) : ℕ → ℕ → ListElem (A × ℕ) T → Option (HashIterator A T)
  | 0, _, _ => none
  | fuel + 1, bucket, elem =>
    if elem = .tail (h.buckets, bucket) then
      -- `if (++i->bucket >= i->hash->buckets + i->hash->bucket_cnt)`
      if h.bucketCnt ≤ bucket + 1 then some ⟨bucket + 1, none⟩
      else (h.links.next (.head (h.buckets, bucket + 1))).bind (hashNextLoop h fuel (bucket + 1))
    else some ⟨bucket, some elem⟩

/-- `hash_next`; it returns the element of the iterator. -/
def hashNext (fuel : ℕ) (h : Hash A T) (i : HashIterator A T) : Option (HashIterator A T) :=
  i.elem.bind fun elem => (h.links.listNext elem).bind (hashNextLoop h fuel i.bucket)

/-- What repeated calls of `hash_next` return until one of them returns `NULL`. -/
def iterate (fuel : ℕ) (h : Hash A T) : ℕ → HashIterator A T → Option (List (ListElem (A × ℕ) T))
  | 0, _ => none
  | n + 1, i => (h.hashNext fuel i).bind fun i =>
    match i.elem with
    | none => some []
    | some elem => (iterate fuel h n i).map (elem :: ·)

/-- The loop of `hash_apply` over a bucket.  `action` is given the elements that it has been called with before; the
walk keeps them and the links. -/
def applyBucket (action : List T → T → HashAction A T) (bucket : A × ℕ) :
    ℕ → ListElem (A × ℕ) T → List T × Links (A × ℕ) T → Option (List T × Links (A × ℕ) T)
  | 0, _, _ => none
  | fuel + 1, elem, (called, m) =>
    if elem = .tail bucket then some (called, m)
    else match elem with
      | .item e => do
        let next ← m.listNext elem
        let m ← (action called e).exec (called ++ [e]) e m
        applyBucket action bucket fuel next (called ++ [e], m)
      | _ => none

/-- The loop over the buckets. -/
def applyBuckets (action : List T → T → HashAction A T) (fuel : ℕ) (h : Hash A T) :
    ℕ → Option (List T × Links (A × ℕ) T)
  | 0 => some ([], h.links)
  | i + 1 => do
    let (called, m) ← applyBuckets action fuel h i
    let elem ← m.next (.head (h.buckets, i))
    applyBucket action (h.buckets, i) fuel elem (called, m)

/-- `hash_apply`: the elements that `action` is called with, and the links that it leaves. -/
def hashApply (action : List T → T → HashAction A T) (fuel : ℕ) (h : Hash A T) : Option (List T × Links (A × ℕ) T) :=
  applyBuckets action fuel h h.bucketCnt

end Hash

/-! ## The elements in the order of the walk -/

variable {hash : T → ℕ} {less : T → T → Bool} {h : Hash A T} {S : Finset T} {f : A × ℕ → List T}
  {m m' : Links (A × ℕ) T} {a : A} {b k : ℕ} {t : T} {ts l r called : List T} {q q' : A × ℕ}

/-- The elements of `k` buckets from the one with index `b` on. -/
def bucketElems (f : A × ℕ → List T) (a : A) (b k : ℕ) : List T := (List.range' b k).flatMap fun i => f (a, i)

omit [DecidableEq A] [DecidableEq T] in
@[simp] theorem bucketElems_zero : bucketElems f a b 0 = [] := rfl

omit [DecidableEq A] [DecidableEq T] in
theorem bucketElems_succ : bucketElems f a b (k + 1) = f (a, b) ++ bucketElems f a (b + 1) k := by
  rw [bucketElems, List.range'_succ, List.flatMap_cons, bucketElems]

omit [DecidableEq A] [DecidableEq T] in
theorem bucketElems_concat : bucketElems f a b (k + 1) = bucketElems f a b k ++ f (a, b + k) := by
  rw [bucketElems, List.range'_concat, List.flatMap_append, Nat.one_mul, bucketElems]
  exact congrArg _ (List.flatMap_singleton _ _)

omit [DecidableEq A] [DecidableEq T] in
theorem bucketElems_add (j : ℕ) : bucketElems f a b (j + k) = bucketElems f a b j ++ bucketElems f a (b + j) k := by
  rw [bucketElems, ← List.range'_append_1, List.flatMap_append, bucketElems, bucketElems]

omit [DecidableEq A] [DecidableEq T] in
theorem mem_bucketElems : t ∈ bucketElems f a b k ↔ ∃ i, b ≤ i ∧ i < b + k ∧ t ∈ f (a, i) := by
  simp only [bucketElems, List.mem_flatMap, List.mem_range'_1, and_assoc]

omit [DecidableEq A] [DecidableEq T] in
/-- No element stands in two buckets, or twice in one. -/
theorem nodup_bucketElems (hd : DisjointLists f) : (bucketElems f a b k).Nodup := by
  apply List.nodup_flatMap.mpr
  constructor
  · intro i _
    exact hd.nodup (a, i)
  · apply List.Pairwise.imp _ (List.nodup_range' (s := b) (n := k))
    intro i j hij t ht ht'
    exact hij (congrArg Prod.snd (hd.disjoint (a, i) (a, j) t ht ht'))

omit [DecidableEq A] in
/-- The elements of a table are those of its buckets. -/
theorem mem_bucketElems_iff (hp : Placed f S (h.findBucket hash)) (hpos : 0 < h.bucketCnt) :
    t ∈ bucketElems f h.buckets 0 h.bucketCnt ↔ t ∈ S := by
  rw [mem_bucketElems]
  constructor
  · intro hmem
    obtain ⟨i, -, -, ht⟩ := hmem
    exact ((hp.mem _ t).mp ht).1
  · intro ht
    have hbucket : h.findBucket hash t ∈ h.bucketSet := h.findBucket_mem hpos t
    have hlt := hbucket.2
    exact ⟨(h.findBucket hash t).2, Nat.zero_le _, by omega, (hp.mem _ t).mpr ⟨ht, rfl⟩⟩

/-! ## The iterator -/

namespace Hash

omit [DecidableEq A] [DecidableEq T] in
/-- `list_next` of the head or an element. -/
theorem listNext_lastOf {lists : Set (A × ℕ)} (hm : m.Holds lists f) (hq : q ∈ lists) (hf : f q = l ++ r) :
    m.listNext (lastOf q l) = some (firstOf q r) := by
  cases l using List.reverseRecOn with
  | nil =>
    have hnext := (hm.neighbours hq hf).1
    have hprev := (hm q hq).1
    change m.next (.head q) = _ at hnext
    show m.listNext (.head q) = _
    unfold Links.listNext Links.isHead
    rw [hprev, hnext]
    rfl
  | append_singleton l t =>
    rw [Links.lastOf_append rfl]
    apply hm.listNext hq (l := l)
    rw [hf, List.append_assoc]
    rfl

/-- The iterator stands on the head or an element of its bucket; behind it come `ts`, the rest of the bucket and the
later buckets. -/
structure At (h : Hash A T) (f : A × ℕ → List T) (i : HashIterator A T) (ts : List T) : Prop where
  bucket : i.bucket < h.bucketCnt
  elem : ∃ l r, f (h.buckets, i.bucket) = l ++ r ∧ i.elem = some (lastOf (h.buckets, i.bucket) l) ∧
    ts = r ++ bucketElems f h.buckets (i.bucket + 1) (h.bucketCnt - (i.bucket + 1))

omit [DecidableEq A] [DecidableEq T] in
theorem at_hashFirst (hpos : 0 < h.bucketCnt) : h.At f h.hashFirst (bucketElems f h.buckets 0 h.bucketCnt) := by
  refine ⟨hpos, [], f (h.buckets, 0), rfl, rfl, ?_⟩
  obtain ⟨n, hn⟩ := Nat.exists_eq_succ_of_ne_zero hpos.ne'
  rw [hn, bucketElems_succ]
  rfl

/-- What a call of `hash_next` makes of the iterator when `ts` are to come: it stands on the first of them. -/
def Advanced (h : Hash A T) (f : A × ℕ → List T) (i : HashIterator A T) : List T → Prop
  | [] => i.elem = none
  | t :: ts => i.elem = some (.item t) ∧ h.At f i ts

/-- The loop of `hash_next` passes the buckets that are at their end. -/
theorem hashNextLoop_spec (hm : h.links.Holds h.bucketSet f) {b : ℕ} (hb : b < h.bucketCnt)
    (hf : f (h.buckets, b) = l ++ r) {fuel : ℕ} (hfuel : h.bucketCnt - b < fuel) :
    ∃ i, h.hashNextLoop fuel b (firstOf (h.buckets, b) r) = some i ∧
      h.Advanced f i (r ++ bucketElems f h.buckets (b + 1) (h.bucketCnt - (b + 1))) := by
  induction fuel generalizing b l r with
  | zero => exact absurd hfuel (Nat.not_lt_zero _)
  | succ fuel ih =>
    cases r with
    | cons t r =>
      have hsplit : f (h.buckets, b) = (l ++ [t]) ++ r := by
        rw [hf, List.append_cons]
      have hlast : lastOf (h.buckets, b) (l ++ [t]) = .item t := Links.lastOf_append rfl
      refine ⟨⟨b, some (.item t)⟩, if_neg (by simp [firstOf]), rfl, hb, l ++ [t], r, hsplit, ?_, rfl⟩
      rw [hlast]
    | nil =>
      unfold hashNextLoop firstOf
      rw [if_pos rfl, List.nil_append]
      by_cases hlast : h.bucketCnt ≤ b + 1
      · rw [if_pos hlast, Nat.sub_eq_zero_of_le hlast]
        exact ⟨_, rfl, rfl⟩
      · have hb1 : b + 1 < h.bucketCnt := by omega
        have hbegin : h.links.next (.head (h.buckets, b + 1)) =
            some (firstOf (h.buckets, b + 1) (f (h.buckets, b + 1))) :=
          (hm.neighbours ⟨rfl, hb1⟩ (List.nil_append _).symm).1
        have hcnt : h.bucketCnt - (b + 1) = h.bucketCnt - (b + 1 + 1) + 1 := by omega
        rw [if_neg hlast, hbegin, hcnt, bucketElems_succ]
        exact ih hb1 (List.nil_append _).symm (by omega)

/-- **A call of `hash_next`** returns the first of the elements that are to come, or `NULL`. -/
theorem At.hashNext {i : HashIterator A T} (hi : h.At f i ts) (hm : h.links.Holds h.bucketSet f) {fuel : ℕ}
    (hfuel : h.bucketCnt < fuel) :
    ∃ i', h.hashNext fuel i = some i' ∧ h.Advanced f i' ts := by
  obtain ⟨l, r, hf, helem, hts⟩ := hi.elem
  have hnext := listNext_lastOf hm ⟨rfl, hi.bucket⟩ hf
  unfold Hash.hashNext
  rw [helem, Option.bind_some, hnext, Option.bind_some, hts]
  exact hashNextLoop_spec hm hi.bucket hf (by omega)

theorem At.iterate {i : HashIterator A T} (hi : h.At f i ts) (hm : h.links.Holds h.bucketSet f) {fuel n : ℕ}
    (hfuel : h.bucketCnt < fuel) (hn : ts.length < n) : h.iterate fuel n i = some (ts.map .item) := by
  induction ts generalizing i n with
  | nil =>
    obtain ⟨n, rfl⟩ := Nat.exists_eq_succ_of_ne_zero (Nat.ne_zero_of_lt hn)
    obtain ⟨i', hnext, hnone⟩ := hi.hashNext hm hfuel
    unfold Hash.iterate
    rw [hnext, Option.bind_some, hnone]
    rfl
  | cons t ts ih =>
    obtain ⟨n, rfl⟩ := Nat.exists_eq_succ_of_ne_zero (Nat.ne_zero_of_lt hn)
    obtain ⟨i', hnext, hsome, hi'⟩ := hi.hashNext hm hfuel
    unfold Hash.iterate
    rw [hnext, Option.bind_some, hsome]
    show (Hash.iterate fuel h n i').map _ = _
    rw [ih hi' (Nat.lt_of_succ_lt_succ hn)]
    rfl

end Hash

/-! ## The action and what lies ahead of it -/

omit [DecidableEq A] in
theorem reused_eq_false {c : HashAction A T} {e : ListElem (A × ℕ) T} (h : ∀ u ∈ called, e ≠ .item u) :
    c.reused called e = false := by
  cases e with
  | head q => rfl
  | tail q => rfl
  | item u =>
    have hu : u ∉ called := fun hmem => h u hmem rfl
    simp [HashAction.reused, hu]

/-- What a call of the action leaves as it was: the links of the elements that it was not called with, but for the
ones to and from the neighbours of the element that it was given. -/
theorem HashAction.exec_frame (c : HashAction A T) (called : List T) {p n : ListElem (A × ℕ) T}
    (hprev : m.prev (.item t) = some p) (hnext : m.next (.item t) = some n) :
    ∃ m', c.exec called t m = some m' ∧
      (∀ e, e ≠ p → (∀ u ∈ called, e ≠ .item u) → m'.next e = m.next e) ∧
      (∀ e, e ≠ n → (∀ u ∈ called, e ≠ .item u) → m'.prev e = m.prev e) ∧
      ((∀ u ∈ called, n ≠ .item u) → m'.prev n = m.prev n ∨ m'.prev n = some p) := by
  unfold HashAction.exec
  cases hunlink : c.unlink with
  | false =>
    refine ⟨_, rfl, ?_, ?_, ?_⟩
    · intro e _ hcalled
      show (if c.reused called e then _ else _) = _
      rw [reused_eq_false hcalled]
      rfl
    · intro e _ hcalled
      show (if c.reused called e then _ else _) = _
      rw [reused_eq_false hcalled]
      rfl
    · intro hcalled
      apply Or.inl
      show (if c.reused called n then _ else _) = _
      rw [reused_eq_false hcalled]
      rfl
  | true =>
    have hremove : (m.listRemove (.item t)).map Prod.snd =
        some ⟨Function.update m.next p (some n), Function.update m.prev n (some p)⟩ := by
      unfold Links.listRemove
      rw [hprev, hnext]
      rfl
    simp only [if_true, hremove]
    refine ⟨_, rfl, ?_, ?_, ?_⟩
    · intro e hne hcalled
      show (if c.reused called e then _ else Function.update m.next p (some n) e) = _
      rw [reused_eq_false hcalled]
      exact Function.update_of_ne hne _ _
    · intro e hne hcalled
      show (if c.reused called e then _ else Function.update m.prev n (some p) e) = _
      rw [reused_eq_false hcalled]
      exact Function.update_of_ne hne _ _
    · intro hcalled
      apply Or.inr
      show (if c.reused called n then _ else Function.update m.prev n (some p) n) = _
      rw [reused_eq_false hcalled]
      exact Function.update_self ..

/-- What `hash_apply` still needs of the links when it has called the action with `called`: the rest `ts` of the bucket
`q` and the later buckets. -/
structure Ahead (m : Links (A × ℕ) T) (f : A × ℕ → List T) (called : List T) (q : A × ℕ) (ts : List T)
    (later : Set (A × ℕ)) : Prop where
  linked : m.Linked (back q ts)
  prev : ∃ p, m.prev (firstOf q ts) = some p ∧ (p = .head q ∨ ∃ u ∈ called, p = .item u)
  links : ∀ q' ∈ later, m.Linked (Links.elems q' (f q'))
  nodup : (called ++ ts).Nodup
  apart : ∀ q' ∈ later, q' ≠ q ∧ ∀ t ∈ f q', t ∉ called ++ ts

variable {later : Set (A × ℕ)}

omit [DecidableEq A] [DecidableEq T] in
/-- The links between two neighbours ahead. -/
theorem Ahead.next_item (h : Ahead m f called q (t :: ts) later) : m.next (.item t) = some (firstOf q ts) := by
  have hlinked := h.linked
  cases ts with
  | nil => exact hlinked.1
  | cons u ts => exact hlinked.1

omit [DecidableEq A] [DecidableEq T] in
theorem Ahead.prev_item (h : Ahead m f called q (t :: ts) later) : m.prev (firstOf q ts) = some (.item t) := by
  have hlinked := h.linked
  cases ts with
  | nil => exact hlinked.2.1
  | cons u ts => exact hlinked.2.1

omit [DecidableEq A] [DecidableEq T] in
theorem Ahead.listNext (h : Ahead m f called q (t :: ts) later) : m.listNext (.item t) = some (firstOf q ts) := by
  obtain ⟨p, hp, -⟩ := h.prev
  change m.prev (.item t) = _ at hp
  unfold Links.listNext Links.isInterior
  rw [hp, h.next_item]
  simp

/-- An element that is not one of `called`, and not the head of `q`. -/
def Clear (q : A × ℕ) (called : List T) (e : ListElem (A × ℕ) T) : Prop := e ≠ .head q ∧ ∀ u ∈ called, e ≠ .item u

omit [DecidableEq A] [DecidableEq T] in
theorem Ahead.nodup_step (h : Ahead m f called q (t :: ts) later) : (called ++ [t] ++ ts).Nodup := by
  rw [← List.append_cons]
  exact h.nodup

omit [DecidableEq A] [DecidableEq T] in
theorem Ahead.clear_back (h : Ahead m f called q (t :: ts) later) : ∀ e ∈ back q ts, Clear q (called ++ [t]) e := by
  intro e he
  rcases Links.mem_items.mp he with ⟨v, hv, rfl⟩ | rfl
  · refine ⟨by simp, ?_⟩
    intro u hu heq
    exact (List.nodup_append.mp h.nodup_step).2.2 u hu v hv (ListElem.item.inj heq).symm
  · exact ⟨by simp, fun u _ => by simp⟩

omit [DecidableEq A] [DecidableEq T] in
theorem Ahead.clear_elems (h : Ahead m f called q (t :: ts) later) (hq : q' ∈ later) :
    ∀ e ∈ Links.elems q' (f q'), Clear q (called ++ [t]) e ∧ e ≠ firstOf q ts := by
  intro e he
  obtain ⟨hne, hapart⟩ := h.apart q' hq
  have hback : e ∉ back q ts := by
    intro hmem
    rcases Links.mem_items.mp hmem with ⟨v, hv, rfl⟩ | rfl
    · rcases mem_elems.mp he with heq | ⟨w, hw, heq⟩ | heq
      · cases heq
      · cases heq
        exact hapart v hw (List.mem_append_right _ (List.mem_cons_of_mem _ hv))
      · cases heq
    · rcases mem_elems.mp he with heq | ⟨w, -, heq⟩ | heq
      · cases heq
      · cases heq
      · exact hne (ListElem.tail.inj heq).symm
  refine ⟨?_, fun heq => hback (heq ▸ List.mem_of_mem_head? firstOf_mem)⟩
  rcases mem_elems.mp he with rfl | ⟨v, hv, rfl⟩ | rfl
  · exact ⟨fun heq => hne (ListElem.head.inj heq), fun u _ => by simp⟩
  · refine ⟨by simp, ?_⟩
    intro u hu heq
    apply hapart v hv
    rw [List.append_cons, ListElem.item.inj heq]
    exact List.mem_append_left _ hu
  · exact ⟨by simp, fun u _ => by simp⟩

/-- **A call of the action** leaves what lies ahead. -/
theorem Ahead.exec (h : Ahead m f called q (t :: ts) later) (c : HashAction A T) :
    ∃ m', c.exec (called ++ [t]) t m = some m' ∧ Ahead m' f (called ++ [t]) q ts later := by
  obtain ⟨p, hp, hwhere⟩ := h.prev
  obtain ⟨m', hrun, hnext, hprev, hfirst⟩ := c.exec_frame (called ++ [t]) hp h.next_item
  -- the element in front of `t` is behind the walk
  have hp_ne : ∀ e, Clear q (called ++ [t]) e → e ≠ p := by
    intro e he heq
    rcases hwhere with hhead | ⟨u, hu, hitem⟩
    · exact he.1 (heq.trans hhead)
    · exact he.2 u (List.mem_append_left _ hu) (heq.trans hitem)
  have hfirst_mem : firstOf q ts ∈ back q ts := List.mem_of_mem_head? firstOf_mem
  have hback_nodup : (back q ts).Nodup := Links.nodup_items q (List.nodup_append.mp h.nodup_step).2.1
  refine ⟨m', hrun, ?_, ?_, ?_, h.nodup_step, ?_⟩
  · have hrest : m.Linked (back q ts) := Links.linked_iff.mpr (Links.linked_iff.mp h.linked).tail
    apply hrest.transport
    · intro e he
      exact hnext e (hp_ne e (h.clear_back e he)) (h.clear_back e he).2
    · intro e he
      have hne : e ≠ firstOf q ts := by
        rintro rfl
        exact notMem_tail hback_nodup firstOf_mem he
      exact hprev e hne (h.clear_back e (List.mem_of_mem_tail he)).2
  · rcases hfirst (h.clear_back _ hfirst_mem).2 with hsame | hpast
    · exact ⟨.item t, hsame.trans h.prev_item, .inr ⟨t, List.mem_append_right _ List.mem_cons_self, rfl⟩⟩
    · refine ⟨p, hpast, hwhere.imp_right ?_⟩
      intro hitem
      obtain ⟨u, hu, hpu⟩ := hitem
      exact ⟨u, List.mem_append_left _ hu, hpu⟩
  · intro q' hq'
    apply (h.links q' hq').transport
    · intro e he
      obtain ⟨hclear, -⟩ := h.clear_elems hq' e he
      exact hnext e (hp_ne e hclear) hclear.2
    · intro e he
      obtain ⟨hclear, hne⟩ := h.clear_elems hq' e (List.mem_of_mem_tail he)
      exact hprev e hne hclear.2
  · intro q' hq'
    rw [← List.append_cons]
    exact h.apart q' hq'

namespace Hash

variable (action : List T → T → HashAction A T)

/-- The walk over a bucket calls the action with each of its elements. -/
theorem applyBucket_eq (h : Ahead m f called q ts later) {fuel : ℕ} (hfuel : ts.length < fuel) :
    ∃ m', applyBucket action q fuel (firstOf q ts) (called, m) = some (called ++ ts, m') ∧
      ∀ q' ∈ later, m'.Linked (Links.elems q' (f q')) := by
  induction ts generalizing m called fuel with
  | nil =>
    obtain ⟨fuel, rfl⟩ := Nat.exists_eq_succ_of_ne_zero (Nat.ne_zero_of_lt hfuel)
    refine ⟨m, ?_, h.links⟩
    rw [List.append_nil]
    exact if_pos rfl
  | cons t ts ih =>
    obtain ⟨fuel, rfl⟩ := Nat.exists_eq_succ_of_ne_zero (Nat.ne_zero_of_lt hfuel)
    obtain ⟨m₁, hrun, h₁⟩ := h.exec (action called t)
    obtain ⟨m', hrest, hlater⟩ := ih h₁ (Nat.lt_of_succ_lt_succ hfuel)
    refine ⟨m', ?_, hlater⟩
    unfold applyBucket firstOf
    rw [if_neg (by simp), List.append_cons, ← hrest]
    simp only [h.listNext, hrun, Option.bind_eq_bind, Option.bind_some]

/-- The walk over the first buckets; the later ones are as they were. -/
theorem applyBuckets_eq (hm : h.links.Holds h.bucketSet f) (hd : DisjointLists f) {fuel i : ℕ} (hi : i ≤ h.bucketCnt)
    (hfuel : ∀ q, (f q).length < fuel) :
    ∃ m', applyBuckets action fuel h i = some (bucketElems f h.buckets 0 i, m') ∧
      ∀ j, i ≤ j → j < h.bucketCnt → m'.Linked (Links.elems (h.buckets, j) (f (h.buckets, j))) := by
  induction i with
  | zero => exact ⟨h.links, rfl, fun j _ hj => (hm (h.buckets, j) ⟨rfl, hj⟩).2.2⟩
  | succ i ih =>
    obtain ⟨m₁, hrun, hlinked⟩ := ih (by omega)
    have hbucket := hlinked i le_rfl hi
    have hneighbours := hbucket
    rw [show f (h.buckets, i) = [] ++ f (h.buckets, i) from rfl, elems_append] at hneighbours
    obtain ⟨-, hback, hlink⟩ := Links.linked_append.mp hneighbours
    have hbegin : m₁.Neighbours (.head (h.buckets, i)) (firstOf (h.buckets, i) (f (h.buckets, i))) :=
      hlink _ lastOf_mem _ firstOf_mem
    have hnodup := nodup_bucketElems (a := h.buckets) (b := 0) (k := i + 1) hd
    rw [bucketElems_concat, Nat.zero_add] at hnodup
    have hahead : Ahead m₁ f (bucketElems f h.buckets 0 i) (h.buckets, i) (f (h.buckets, i))
        {q | q.1 = h.buckets ∧ i < q.2 ∧ q.2 < h.bucketCnt} := by
      refine ⟨hback, ⟨_, hbegin.2, .inl rfl⟩, ?_, hnodup, ?_⟩
      · intro q hq
        obtain ⟨a, j⟩ := q
        obtain ⟨ha, hlt, hcnt⟩ := hq
        cases ha
        exact hlinked j (Nat.le_of_lt hlt) hcnt
      · intro q hq
        refine ⟨fun heq => hq.2.1.ne (congrArg Prod.snd heq).symm, ?_⟩
        intro t ht hmem
        have hconcat : t ∈ bucketElems f h.buckets 0 (i + 1) := by
          rw [bucketElems_concat, Nat.zero_add]
          exact hmem
        obtain ⟨k, -, hk, htk⟩ := mem_bucketElems.mp hconcat
        have hqk := congrArg Prod.snd (hd.disjoint q (h.buckets, k) t ht htk)
        have hlt : i < q.2 := hq.2.1
        change q.2 = k at hqk
        omega
    obtain ⟨m', happly, hlater⟩ := applyBucket_eq action hahead (hfuel _)
    refine ⟨m', ?_, ?_⟩
    · unfold applyBuckets
      rw [hrun, bucketElems_concat, Nat.zero_add]
      simp only [Option.bind_eq_bind, Option.bind_some, hbegin.1]
      exact happly
    · intro j hij hj
      exact hlater (h.buckets, j) ⟨rfl, hij, hj⟩

omit [DecidableEq A] in
/-- No bucket is longer than the table has elements. -/
theorem Good.length_le (hp : Placed f S (h.findBucket hash)) (q : A × ℕ) : (f q).length ≤ S.card := by
  rw [← List.toFinset_card_of_nodup (hp.nodup q)]
  apply Finset.card_le_card
  intro t ht
  exact ((hp.mem q t).mp (List.mem_toFinset.mp ht)).1

/-! ## The result -/

/-- **Iteration is complete**: the calls of `hash_next` after `hash_first` return every element once and then `NULL`, and
`hash_apply` calls its action with the same elements in the same order, whatever of them the action unlinks or frees. -/
theorem hash_iteration_complete (hg : h.Good hash less S) :
    ∃ ts N, ts.Nodup ∧ (∀ t, t ∈ ts ↔ t ∈ S) ∧ ∀ fuel, N ≤ fuel →
      h.iterate fuel fuel h.hashFirst = some (ts.map .item) ∧
      ∀ action, ∃ m', h.hashApply action fuel = some (ts, m') := by
  obtain ⟨f, hm, hp⟩ := hg.buckets
  have hmem : ∀ t, t ∈ bucketElems f h.buckets 0 h.bucketCnt ↔ t ∈ S := fun t => mem_bucketElems_iff hp hg.pos
  have hnodup : (bucketElems f h.buckets 0 h.bucketCnt).Nodup := nodup_bucketElems hp.disjointLists
  refine ⟨bucketElems f h.buckets 0 h.bucketCnt,
    (bucketElems f h.buckets 0 h.bucketCnt).length + S.card + h.bucketCnt + 1, hnodup, hmem, ?_⟩
  intro fuel hfuel
  constructor
  · exact (at_hashFirst hg.pos).iterate hm (by omega) (by omega)
  · intro action
    have hlen : ∀ q, (f q).length < fuel := fun q => (Good.length_le hp q).trans_lt (by omega)
    obtain ⟨m', hrun, -⟩ := applyBuckets_eq action hm hp.disjointLists le_rfl hlen
    exact ⟨m', hrun⟩

/-- A table of numbers with any elements. -/
theorem exists_good (S : Finset ℕ) : ∃ h : Hash ℕ ℕ, h.Good id (fun a b => decide (a < b)) S := by
  induction S using Finset.induction with
  | empty => exact ⟨hashInit 0 ⟨fun _ => none, fun _ => none⟩, hashInit_good 0 _⟩
  | insert e S he ih =>
    obtain ⟨h, hg⟩ := ih
    have hno : ∀ x ∈ S, ¬Equivalent (fun a b => decide (a < b)) x e := by
      intro x hx heq
      simp only [Equivalent, decide_eq_true_eq, not_lt] at heq
      exact he (le_antisymm heq.2 heq.1 ▸ hx)
    obtain ⟨h', -, -, hg'⟩ := hg.insertElem hno he
    exact ⟨h', hg'⟩

/-- Three numbers, two of them in one bucket; two buckets are empty. -/
theorem hash_iteration_complete_three : ∃ (h : Hash ℕ ℕ) (ts : List ℕ) (N : ℕ), ts.Nodup ∧
    (∀ t, t ∈ ts ↔ t ∈ ({9, 5, 3} : Finset ℕ)) ∧ ∀ fuel, N ≤ fuel →
      h.iterate fuel fuel h.hashFirst = some (ts.map .item) ∧
      ∀ action, ∃ m', h.hashApply action fuel = some (ts, m') := by
  obtain ⟨h, hg⟩ := exists_good {9, 5, 3}
  exact ⟨h, hash_iteration_complete hg⟩

end Hash

end Pintos.Lib
