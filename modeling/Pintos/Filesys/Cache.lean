import Mathlib.Tactic

/-!
# The buffer cache

`filesys/cache.c`: 64 write-back slots in front of the file system device.  A hit is served from its
slot; a miss takes an invalid slot, or the clock's victim after its data has been written back, and
fills it from the device.  The clock hand starts at slot 0 on every miss.

The sector contents are a type parameter `D`: the cache copies them and never looks inside.

* `Coherent` is the invariant: no sector in two valid slots, clean slots equal to the device.
* `view` is the array of sectors a client sees.  `bufferCacheRead` returns `view` and keeps it,
  `bufferCacheWrite` changes it at one sector, `bufferCacheTerminate` makes the device equal to it.
* `CoherentCache` packs the invariant with the state; its `read` and `write` are total.
-/

namespace Pintos.Filesys.Cache

/-- `NUM_CACHE` -/
abbrev numCache : ℕ := 64

instance numCacheNeZero : NeZero numCache := ⟨by decide⟩

/-- `struct buffer_cache_entry` -/
structure BufferCacheEntry (D : Type) where
  validBit : Bool
  diskSector : ℕ
  buffer : D
  dirtyBit : Bool
  referBit : Bool

/-- The static array `cache`, the lock `bc_lock` as the calling thread sees it, and the device. -/
structure BufferCache (D : Type) where
  cache : Fin numCache → BufferCacheEntry D
  bcLock : Bool
  disk : ℕ → D

/-- Why a call does not return: `exit (-1)`, a failed assertion, or a loop that never leaves. -/
inductive CacheStop
  | exit
  | assertion
  | diverges
  deriving DecidableEq, Repr

variable {D : Type}

/-! ## The code -/

/-- Assignment to one slot. -/
def BufferCache.set (c : BufferCache D) (i : Fin numCache) (e : BufferCacheEntry D) :
    BufferCache D :=
  { c with cache := Function.update c.cache i e }

def bufferCacheInit (c : BufferCache D) : BufferCache D :=
  { c with bcLock := false, cache := fun i => { c.cache i with validBit := false } }

def lockAcquire (c : BufferCache D) : Except CacheStop (BufferCache D) :=
  if c.bcLock then .error .assertion else .ok { c with bcLock := true }

def lockRelease (c : BufferCache D) : Except CacheStop (BufferCache D) :=
  if c.bcLock then .ok { c with bcLock := false } else .error .assertion

/-- `buffer_cache_lookup`: the first valid slot that holds the sector. -/
def bufferCacheLookup (c : BufferCache D) (sector : ℕ) : Option (Fin numCache) :=
  (List.finRange numCache).find? fun i =>
    (c.cache i).validBit && decide ((c.cache i).diskSector = sector)

def bufferCacheFlushEntry (c : BufferCache D) (i : Fin numCache) :
    Except CacheStop (BufferCache D) :=
  if c.bcLock = false then .error .exit
  else if (c.cache i).validBit = false then .error .exit
  else if (c.cache i).dirtyBit then
    .ok { c.set i { c.cache i with dirtyBit := false } with
      disk := Function.update c.disk (c.cache i).diskSector (c.cache i).buffer }
  else .ok c

/-- The `for(;;)` of `buffer_cache_select_victim`, with the write-back and the invalidation of the
slot it breaks at. -/
def selectVictimLoop : ℕ → BufferCache D → Fin numCache → Except CacheStop (Fin numCache × BufferCache D)
  | 0, _, _ => .error .diverges
  | fuel + 1, c, cindex =>
    if (c.cache cindex).validBit = false then .ok (cindex, c)
    else if (c.cache cindex).referBit then
      selectVictimLoop fuel (c.set cindex { c.cache cindex with referBit := false }) (cindex + 1)
    else do
      let c ← if (c.cache cindex).dirtyBit then bufferCacheFlushEntry c cindex else pure c
      .ok (cindex, c.set cindex { c.cache cindex with validBit := false })

/-- One pass clears at most `numCache` reference bits, so one step more always leaves the loop
(`selectVictimLoop_ok`). -/
def bufferCacheSelectVictim (c : BufferCache D) : Except CacheStop (Fin numCache × BufferCache D) :=
  if c.bcLock = false then .error .exit else selectVictimLoop (numCache + 1) c 0

/-- The miss path that `buffer_cache_read` and `buffer_cache_write` share: take a slot and fill it
from the device. -/
def lookupOrFill (c : BufferCache D) (sector : ℕ) : Except CacheStop (Fin numCache × BufferCache D) :=
  match bufferCacheLookup c sector with
  | some i => .ok (i, c)
  | none => do
    let (i, c) ← bufferCacheSelectVictim c
    if (c.cache i).validBit then .error .assertion
    else .ok (i, c.set i { c.cache i with
      dirtyBit := false, validBit := true, diskSector := sector, buffer := c.disk sector })

def bufferCacheRead (c : BufferCache D) (sector : ℕ) : Except CacheStop (D × BufferCache D) := do
  let c ← lockAcquire c
  let (i, c) ← lookupOrFill c sector
  let c := c.set i { c.cache i with referBit := true }
  let target := (c.cache i).buffer
  let c ← lockRelease c
  .ok (target, c)

def bufferCacheWrite (c : BufferCache D) (sector : ℕ) (source : D) :
    Except CacheStop (BufferCache D) := do
  let c ← lockAcquire c
  let (i, c) ← lookupOrFill c sector
  let c := c.set i { c.cache i with referBit := true, dirtyBit := true, buffer := source }
  lockRelease c

/-- The flush loop of `buffer_cache_terminate` over the slots of a list. -/
def flushAll : List (Fin numCache) → BufferCache D → Except CacheStop (BufferCache D)
  | [], c => .ok c
  | i :: is, c =>
    if (c.cache i).validBit then do
      let c ← bufferCacheFlushEntry c i
      flushAll is c
    else flushAll is c

def bufferCacheTerminate (c : BufferCache D) : Except CacheStop (BufferCache D) := do
  let c ← lockAcquire c
  let c ← flushAll (List.finRange numCache) c
  lockRelease c

/-! ## The invariant and the view -/

/-- No sector sits in two valid slots, and a clean slot equals the device. -/
structure Coherent (c : BufferCache D) : Prop where
  unique : ∀ i j, (c.cache i).validBit → (c.cache j).validBit →
    (c.cache i).diskSector = (c.cache j).diskSector → i = j
  clean : ∀ i, (c.cache i).validBit → (c.cache i).dirtyBit = false →
    (c.cache i).buffer = c.disk (c.cache i).diskSector

/-- The contents of a sector as a client sees them: the slot's copy, else the device's. -/
def view (c : BufferCache D) (sector : ℕ) : D :=
  match bufferCacheLookup c sector with
  | some i => (c.cache i).buffer
  | none => c.disk sector

theorem lookup_some {c : BufferCache D} {s : ℕ} {i : Fin numCache}
    (h : bufferCacheLookup c s = some i) : (c.cache i).validBit ∧ (c.cache i).diskSector = s := by
  simpa using List.find?_some h

theorem lookup_none {c : BufferCache D} {s : ℕ} (h : bufferCacheLookup c s = none) (i : Fin numCache)
    (hi : (c.cache i).validBit) : (c.cache i).diskSector ≠ s := by
  simpa [hi] using List.find?_eq_none.mp h i (List.mem_finRange i)

/-- In a coherent cache the view of a cached sector is its slot, whichever slot that is. -/
theorem view_of_valid {c : BufferCache D} (hc : Coherent c) {i : Fin numCache}
    (hi : (c.cache i).validBit) : view c (c.cache i).diskSector = (c.cache i).buffer := by
  unfold view
  cases h : bufferCacheLookup c (c.cache i).diskSector with
  | none => exact absurd rfl (lookup_none h i hi)
  | some j =>
    obtain ⟨hj, hs⟩ := lookup_some h
    obtain rfl := hc.unique j i hj hi hs
    rfl

theorem view_of_uncached {c : BufferCache D} {s : ℕ}
    (h : ∀ i, (c.cache i).validBit → (c.cache i).diskSector ≠ s) : view c s = c.disk s := by
  unfold view
  cases hl : bufferCacheLookup c s with
  | none => rfl
  | some i => exact absurd (lookup_some hl).2 (h i (lookup_some hl).1)

/-- **The view is determined by the slots and the device alone.**  To show what a client sees after
a change it is enough to look at the valid slots and at the sectors no slot holds. -/
theorem view_eq {c : BufferCache D} (hc : Coherent c) {f : ℕ → D}
    (hslot : ∀ i, (c.cache i).validBit → (c.cache i).buffer = f (c.cache i).diskSector)
    (hdisk : ∀ s, (∀ i, (c.cache i).validBit → (c.cache i).diskSector ≠ s) → c.disk s = f s) :
    view c = f := by
  funext s
  by_cases h : ∃ i, (c.cache i).validBit ∧ (c.cache i).diskSector = s
  · obtain ⟨i, hi, rfl⟩ := h
    rw [view_of_valid hc hi, hslot i hi]
  · rw [view_of_uncached (fun i hi hs => h ⟨i, hi, hs⟩)]
    exact hdisk s fun i hi hs => h ⟨i, hi, hs⟩

@[simp] theorem set_same (c : BufferCache D) (i : Fin numCache) (e : BufferCacheEntry D) :
    (c.set i e).cache i = e := by simp [BufferCache.set]

@[simp] theorem set_ne (c : BufferCache D) {i j : Fin numCache} (e : BufferCacheEntry D)
    (h : j ≠ i) : (c.set i e).cache j = c.cache j := by simp [BufferCache.set, h]

@[simp] theorem set_disk (c : BufferCache D) (i : Fin numCache) (e : BufferCacheEntry D) :
    (c.set i e).disk = c.disk := rfl

@[simp] theorem set_lock (c : BufferCache D) (i : Fin numCache) (e : BufferCacheEntry D) :
    (c.set i e).bcLock = c.bcLock := rfl

/-- What every step of the victim search keeps: coherence, the view, who holds the lock, and that
no slot takes up a sector. -/
structure Same (c c' : BufferCache D) : Prop where
  coherent : Coherent c'
  view : view c' = view c
  lock : c'.bcLock = c.bcLock
  held : ∀ j, (c'.cache j).validBit → (c.cache j).validBit ∧
    (c'.cache j).diskSector = (c.cache j).diskSector

theorem Same.refl {c : BufferCache D} (h : Coherent c) : Same c c :=
  ⟨h, rfl, rfl, fun _ hj => ⟨hj, rfl⟩⟩

theorem Same.trans {a b c : BufferCache D} (h₁ : Same a b) (h₂ : Same b c) : Same a c where
  coherent := h₂.coherent
  view := h₂.view.trans h₁.view
  lock := h₂.lock.trans h₁.lock
  held j hj := by
    obtain ⟨hb, hbc⟩ := h₂.held j hj
    obtain ⟨ha, hab⟩ := h₁.held j hb
    exact ⟨ha, hbc.trans hab⟩

/-- Two slots that agree on everything a client can see. -/
theorem Same.of_set {c : BufferCache D} (hc : Coherent c) {i : Fin numCache}
    {e : BufferCacheEntry D} (hv : e.validBit = (c.cache i).validBit)
    (hs : e.diskSector = (c.cache i).diskSector) (hb : e.buffer = (c.cache i).buffer)
    (hd : e.dirtyBit = (c.cache i).dirtyBit) : Same c (c.set i e) := by
  have hslot : ∀ j, ((c.set i e).cache j).validBit = (c.cache j).validBit ∧
      ((c.set i e).cache j).diskSector = (c.cache j).diskSector ∧
      ((c.set i e).cache j).buffer = (c.cache j).buffer ∧
      ((c.set i e).cache j).dirtyBit = (c.cache j).dirtyBit := by
    intro j
    by_cases h : j = i
    · subst h; simp [hv, hs, hb, hd]
    · simp [h]
  have hcoh : Coherent (c.set i e) := by
    refine ⟨fun j k hj hk hjk => ?_, fun j hj hdj => ?_⟩
    · rw [(hslot j).1] at hj
      rw [(hslot k).1] at hk
      rw [(hslot j).2.1, (hslot k).2.1] at hjk
      exact hc.unique j k hj hk hjk
    · rw [(hslot j).1] at hj
      rw [(hslot j).2.2.2] at hdj
      rw [(hslot j).2.2.1, (hslot j).2.1]
      exact hc.clean j hj hdj
  refine ⟨hcoh, view_eq hcoh (fun j hj => ?_) (fun s h => ?_), rfl, fun j hj => ?_⟩
  · rw [(hslot j).1] at hj
    rw [(hslot j).2.2.1, (hslot j).2.1]
    exact (view_of_valid hc hj).symm
  · rw [set_disk, view_of_uncached]
    intro j hj
    rw [← (hslot j).2.1]
    exact h j (by rw [(hslot j).1]; exact hj)
  · rw [(hslot j).1] at hj
    exact ⟨hj, (hslot j).2.1⟩

/-- Writing a slot back keeps the view and leaves the slot clean. -/
theorem flushEntry_ok {c : BufferCache D} (hc : Coherent c) (hl : c.bcLock = true)
    {i : Fin numCache} (hi : (c.cache i).validBit = true) :
    ∃ c', bufferCacheFlushEntry c i = .ok c' ∧ Same c c' ∧
      c'.cache i = { c.cache i with dirtyBit := false } ∧
      (∀ j, j ≠ i → c'.cache j = c.cache j) := by
  by_cases hd : (c.cache i).dirtyBit = true
  · let c' : BufferCache D := { c.set i { c.cache i with dirtyBit := false } with
      disk := Function.update c.disk (c.cache i).diskSector (c.cache i).buffer }
    have hsame : c'.cache i = { c.cache i with dirtyBit := false } := set_same _ _ _
    have hne : ∀ j, j ≠ i → c'.cache j = c.cache j := fun j h => set_ne _ _ h
    -- the device moves only at the sector of slot `i`, and no other valid slot holds that sector
    have hdisk : ∀ s, s ≠ (c.cache i).diskSector → c'.disk s = c.disk s := fun s h =>
      Function.update_of_ne h _ _
    have hat : c'.disk (c.cache i).diskSector = (c.cache i).buffer := Function.update_self _ _ _
    have hother : ∀ j, j ≠ i → (c.cache j).validBit → (c.cache j).diskSector ≠ (c.cache i).diskSector :=
      fun j hj hv hs => hj (hc.unique j i hv hi hs)
    have hcoh : Coherent c' := by
      refine ⟨fun j k hj hk hjk => ?_, fun j hj hdj => ?_⟩
      · by_cases hji : j = i <;> by_cases hki : k = i
        · rw [hji, hki]
        · subst hji
          rw [hsame, hne k hki] at hjk
          rw [hne k hki] at hk
          exact absurd hjk.symm (hother k hki hk)
        · subst hki
          rw [hsame, hne j hji] at hjk
          rw [hne j hji] at hj
          exact absurd hjk (hother j hji hj)
        · rw [hne j hji] at hj hjk
          rw [hne k hki] at hk hjk
          exact hc.unique j k hj hk hjk
      · by_cases hji : j = i
        · subst hji
          rw [hsame]
          exact hat.symm
        · rw [hne j hji] at hj hdj ⊢
          rw [hdisk _ (hother j hji hj)]
          exact hc.clean j hj hdj
    have hheld : ∀ j, (c'.cache j).validBit → (c.cache j).validBit ∧
        (c'.cache j).diskSector = (c.cache j).diskSector := by
      intro j hj
      by_cases hji : j = i
      · subst hji
        rw [hsame] at hj ⊢
        exact ⟨hj, rfl⟩
      · rw [hne j hji] at hj ⊢
        exact ⟨hj, rfl⟩
    refine ⟨c', by simp [bufferCacheFlushEntry, hl, hi, hd, c'], ⟨hcoh, ?_, rfl, hheld⟩, hsame, hne⟩
    refine view_eq hcoh (fun j hj => ?_) (fun s h => ?_)
    · by_cases hji : j = i
      · subst hji
        rw [hsame]
        exact (view_of_valid hc hi).symm
      · rw [hne j hji] at hj ⊢
        exact (view_of_valid hc hj).symm
    · have hsi : s ≠ (c.cache i).diskSector := by
        have := h i (by rw [hsame]; exact hi)
        rw [hsame] at this
        exact this.symm
      rw [hdisk s hsi]
      refine (view_of_uncached fun j hj => ?_).symm
      by_cases hji : j = i
      · rw [hji]; exact hsi.symm
      · have := h j (by rw [hne j hji]; exact hj)
        rwa [hne j hji] at this
  · rw [Bool.not_eq_true] at hd
    refine ⟨c, by simp [bufferCacheFlushEntry, hl, hi, hd], Same.refl hc, ?_, fun _ _ => rfl⟩
    rw [← hd]

/-- Dropping a clean slot keeps the view: its data is on the device. -/
theorem invalidate_same {c : BufferCache D} (hc : Coherent c) {i : Fin numCache}
    (hi : (c.cache i).validBit = true) (hd : (c.cache i).dirtyBit = false) :
    Same c (c.set i { c.cache i with validBit := false }) := by
  set c' := c.set i { c.cache i with validBit := false } with hc'
  have hslot : ∀ j, (c'.cache j).validBit → j ≠ i ∧ c'.cache j = c.cache j := by
    intro j hj
    by_cases h : j = i
    · subst h; simp [hc'] at hj
    · exact ⟨h, set_ne _ _ h⟩
  have hcoh : Coherent c' := by
    refine ⟨fun j k hj hk hjk => ?_, fun j hj hdj => ?_⟩
    · have ej := (hslot j hj).2
      have ek := (hslot k hk).2
      rw [ej] at hj hjk
      rw [ek] at hk hjk
      exact hc.unique j k hj hk hjk
    · have ej := (hslot j hj).2
      rw [ej] at hj hdj ⊢
      exact hc.clean j hj hdj
  refine ⟨hcoh, view_eq hcoh (fun j hj => ?_) (fun s h => ?_), rfl, fun j hj => ?_⟩
  · have ej := (hslot j hj).2
    rw [ej] at hj ⊢
    exact (view_of_valid hc hj).symm
  · rw [hc', set_disk]
    by_cases hs : (c.cache i).diskSector = s
    · subst hs
      rw [view_of_valid hc hi]
      exact (hc.clean i hi hd).symm
    · rw [view_of_uncached]
      intro j hj
      by_cases hji : j = i
      · rwa [hji]
      · have hjs := h j (by rw [hc', set_ne _ _ hji]; exact hj)
        rwa [hc', set_ne _ _ hji] at hjs
  · have ej := (hslot j hj).2
    rw [ej] at hj ⊢
    exact ⟨hj, rfl⟩

/-! ## The clock -/

/-- The slots the hand has passed in its current sweep, all of them valid and unreferenced. -/
def Passed (c : BufferCache D) (k : ℕ) : Prop :=
  ∀ j : Fin numCache, j.val < k → (c.cache j).validBit = true ∧ (c.cache j).referBit = false

/-- From slot `k` on, with `numCache + 1 - k` steps left, the loop finds a victim: a slot it may not
take has had its reference bit cleared, so the second visit of slot 0 takes it at the latest. -/
theorem selectVictimLoop_ok (n : ℕ) : ∀ (k : ℕ) (c : BufferCache D) (i : Fin numCache),
    Coherent c → c.bcLock = true → k + n = numCache + 1 → 0 < n → Passed c k →
    i.val = k % numCache →
    ∃ i' c', selectVictimLoop n c i = .ok (i', c') ∧ Same c c' ∧ (c'.cache i').validBit = false := by
  induction n with
  | zero => intro k c i _ _ _ h; omega
  | succ n ih =>
    intro k c i hc hl hk _ hpass hi
    rw [selectVictimLoop]
    by_cases hv : (c.cache i).validBit = false
    · exact ⟨i, c, by rw [if_pos hv], Same.refl hc, hv⟩
    rw [if_neg hv]
    rw [Bool.not_eq_false] at hv
    by_cases hr : (c.cache i).referBit = true
    · rw [if_pos hr]
      -- slot `i` had not been passed, so the sweep is not over
      have hk64 : k < numCache := by
        by_contra hge
        have hk' : k = numCache := by omega
        have hi0 : i.val = 0 := by simpa [hk'] using hi
        have := (hpass i (by omega)).2
        simp [hr] at this
      have hik : i.val = k := by rw [hi]; exact Nat.mod_eq_of_lt hk64
      set c₁ := c.set i { c.cache i with referBit := false } with hc₁
      have hsame : Same c c₁ := Same.of_set hc rfl rfl rfl rfl
      have hpass₁ : Passed c₁ (k + 1) := by
        intro j hj
        by_cases hji : j = i
        · subst hji; simpa [hc₁] using hv
        · have : j.val ≠ i.val := fun h => hji (Fin.ext h)
          rw [hc₁, set_ne _ _ hji]
          exact hpass j (by omega)
      have hnext : (i + 1).val = (k + 1) % numCache := by
        rw [Fin.val_add, hik]
        rfl
      have hn : 0 < n := by omega
      obtain ⟨i', c', hrun, hs, hinv⟩ :=
        ih (k + 1) c₁ (i + 1) hsame.coherent (hsame.lock.trans hl) (by omega) hn hpass₁ hnext
      exact ⟨i', c', hrun, hsame.trans hs, hinv⟩
    · rw [if_neg hr]
      by_cases hd : (c.cache i).dirtyBit = true
      · obtain ⟨c₁, hflush, hsame, hci, _⟩ := flushEntry_ok hc hl hv
        have hs₂ : Same c₁ (c₁.set i { c₁.cache i with validBit := false }) :=
          invalidate_same hsame.coherent (by rw [hci]; exact hv) (by rw [hci])
        exact ⟨i, _, by rw [if_pos hd, hflush]; rfl, hsame.trans hs₂, by simp⟩
      · rw [Bool.not_eq_true] at hd
        exact ⟨i, _, by rw [hd]; rfl, invalidate_same hc hv hd, by simp⟩

theorem selectVictim_ok {c : BufferCache D} (hc : Coherent c) (hl : c.bcLock = true) :
    ∃ i c', bufferCacheSelectVictim c = .ok (i, c') ∧ Same c c' ∧ (c'.cache i).validBit = false := by
  obtain ⟨i, c', hrun, hsame, hinv⟩ := selectVictimLoop_ok (numCache + 1) 0 c 0 hc hl rfl
    (by decide) (fun j hj => by omega) rfl
  exact ⟨i, c', by rw [bufferCacheSelectVictim, if_neg (by simp [hl])]; exact hrun, hsame, hinv⟩

/-! ## Lookup, read and write -/

/-- After `lookupOrFill` the sector sits in the returned slot and the view is what it was. -/
theorem lookupOrFill_ok {c : BufferCache D} (hc : Coherent c) (hl : c.bcLock = true) (s : ℕ) :
    ∃ i c', lookupOrFill c s = .ok (i, c') ∧ Coherent c' ∧ view c' = view c ∧ c'.bcLock = true ∧
      (c'.cache i).validBit = true ∧ (c'.cache i).diskSector = s := by
  unfold lookupOrFill
  cases hlook : bufferCacheLookup c s with
  | some i => exact ⟨i, c, rfl, hc, rfl, hl, (lookup_some hlook).1, (lookup_some hlook).2⟩
  | none =>
    obtain ⟨i, c₁, hsel, hsame, hinv⟩ := selectVictim_ok hc hl
    set c₂ := c₁.set i { c₁.cache i with
      dirtyBit := false, validBit := true, diskSector := s, buffer := c₁.disk s } with hc₂
    have hrun : (do
        let (i, c) ← bufferCacheSelectVictim c
        if (c.cache i).validBit then Except.error CacheStop.assertion
        else Except.ok (i, c.set i { c.cache i with
          dirtyBit := false, validBit := true, diskSector := s, buffer := c.disk s })) =
        Except.ok (i, c₂) := by
      rw [hsel, hc₂]
      show (if (c₁.cache i).validBit = true then _ else _) = _
      rw [hinv]
      rfl
    have hsi : c₂.cache i = ⟨true, s, c₁.disk s, false, (c₁.cache i).referBit⟩ := set_same _ _ _
    have hne : ∀ j, j ≠ i → c₂.cache j = c₁.cache j := fun j h => set_ne _ _ h
    -- a miss stays a miss while the victim is searched
    have hmiss : ∀ j, (c₁.cache j).validBit → (c₁.cache j).diskSector ≠ s := by
      intro j hj
      obtain ⟨hj₀, hjs⟩ := hsame.held j hj
      rw [hjs]
      exact lookup_none hlook j hj₀
    have hcoh : Coherent c₂ := by
      refine ⟨fun j k hj hk hjk => ?_, fun j hj hdj => ?_⟩
      · by_cases hji : j = i <;> by_cases hki : k = i
        · rw [hji, hki]
        · rw [hji, hsi, hne k hki] at hjk
          rw [hne k hki] at hk
          exact absurd hjk.symm (hmiss k hk)
        · rw [hki, hsi, hne j hji] at hjk
          rw [hne j hji] at hj
          exact absurd hjk (hmiss j hj)
        · rw [hne j hji] at hj hjk
          rw [hne k hki] at hk hjk
          exact hsame.coherent.unique j k hj hk hjk
      · by_cases hji : j = i
        · rw [hji, hsi]
          rfl
        · rw [hne j hji] at hj hdj ⊢
          exact hsame.coherent.clean j hj hdj
    have hview : view c₂ = view c₁ := by
      refine view_eq hcoh (fun j hj => ?_) (fun s' h => ?_)
      · by_cases hji : j = i
        · rw [hji, hsi]
          exact (view_of_uncached hmiss).symm
        · rw [hne j hji] at hj ⊢
          exact (view_of_valid hsame.coherent hj).symm
      · rw [hc₂, set_disk, view_of_uncached]
        intro j hj
        by_cases hji : j = i
        · rw [hji, hinv] at hj
          exact absurd hj (by decide)
        · have hjs := h j (by rw [hne j hji]; exact hj)
          rwa [hne j hji] at hjs
    exact ⟨i, c₂, hrun, hcoh, hview.trans hsame.view, hsame.lock.trans hl, by rw [hsi], by rw [hsi]⟩

/-- Taking and dropping the lock changes nothing a client sees. -/
theorem coherent_lock {c : BufferCache D} (hc : Coherent c) (b : Bool) :
    Coherent { c with bcLock := b } := ⟨hc.unique, hc.clean⟩

theorem view_lock (c : BufferCache D) (b : Bool) : view { c with bcLock := b } = view c := rfl

theorem lockAcquire_ok {c : BufferCache D} (hl : c.bcLock = false) :
    lockAcquire c = .ok { c with bcLock := true } := by simp [lockAcquire, hl]

theorem lockRelease_ok {c : BufferCache D} (hl : c.bcLock = true) :
    lockRelease c = .ok { c with bcLock := false } := by simp [lockRelease, hl]

theorem ok_bind {ε α β : Type} (a : α) (f : α → Except ε β) : (Except.ok a >>= f) = f a := rfl

/-- **A read returns the view and keeps it.** -/
theorem bufferCacheRead_ok {c : BufferCache D} (hc : Coherent c) (hl : c.bcLock = false) (s : ℕ) :
    ∃ c', bufferCacheRead c s = .ok (view c s, c') ∧ Coherent c' ∧ view c' = view c ∧
      c'.bcLock = false := by
  obtain ⟨i, c₁, hfill, hcoh, hview, hl₁, hv, hs⟩ :=
    lookupOrFill_ok (coherent_lock hc true) rfl s
  replace hview : view c₁ = view c := hview
  have hsame : Same c₁ (c₁.set i { c₁.cache i with referBit := true }) :=
    Same.of_set hcoh rfl rfl rfl rfl
  refine ⟨{ c₁.set i { c₁.cache i with referBit := true } with bcLock := false }, ?_,
    coherent_lock hsame.coherent false, hsame.view.trans hview, rfl⟩
  have hbuf : (c₁.cache i).buffer = view c s := by
    rw [← hview, ← hs]
    exact (view_of_valid hcoh hv).symm
  simp only [bufferCacheRead, lockAcquire_ok hl, hfill, ok_bind, set_same, hbuf]
  rw [lockRelease_ok (by exact hl₁), ok_bind]

/-- **A write changes the view at its sector and nowhere else.** -/
theorem bufferCacheWrite_ok {c : BufferCache D} (hc : Coherent c) (hl : c.bcLock = false) (s : ℕ)
    (d : D) :
    ∃ c', bufferCacheWrite c s d = .ok c' ∧ Coherent c' ∧ view c' = Function.update (view c) s d ∧
      c'.bcLock = false := by
  obtain ⟨i, c₁, hfill, hcoh, hview, hl₁, hv, hs⟩ :=
    lookupOrFill_ok (coherent_lock hc true) rfl s
  replace hview : view c₁ = view c := hview
  set e : BufferCacheEntry D := { c₁.cache i with referBit := true, dirtyBit := true, buffer := d }
    with he
  have hne : ∀ j, j ≠ i → (c₁.set i e).cache j = c₁.cache j := fun j h => set_ne _ _ h
  have hsec : ∀ j, ((c₁.set i e).cache j).diskSector = (c₁.cache j).diskSector ∧
      ((c₁.set i e).cache j).validBit = (c₁.cache j).validBit := by
    intro j
    by_cases h : j = i
    · subst h; simp [he]
    · simp [h]
  have hcoh' : Coherent (c₁.set i e) := by
    refine ⟨fun j k hj hk hjk => ?_, fun j hj hdj => ?_⟩
    · rw [(hsec j).1, (hsec k).1] at hjk
      rw [(hsec j).2] at hj
      rw [(hsec k).2] at hk
      exact hcoh.unique j k hj hk hjk
    · by_cases hji : j = i
      · subst hji; simp [he] at hdj
      · rw [hne j hji] at hj hdj ⊢
        exact hcoh.clean j hj hdj
  refine ⟨{ c₁.set i e with bcLock := false }, ?_, coherent_lock hcoh' false, ?_, rfl⟩
  · simp only [bufferCacheWrite, lockAcquire_ok hl, hfill, ok_bind]
    exact lockRelease_ok hl₁
  · rw [view_lock]
    refine view_eq hcoh' (fun j hj => ?_) (fun s' h => ?_)
    · by_cases hji : j = i
      · rw [hji, set_same, he]
        show d = Function.update (view c) s d (c₁.cache i).diskSector
        rw [hs, Function.update_self]
      · rw [hne j hji] at hj ⊢
        have hjs : (c₁.cache j).diskSector ≠ s := fun h =>
          hji (hcoh.unique j i hj hv (h.trans hs.symm))
        rw [Function.update_of_ne hjs, ← hview]
        exact (view_of_valid hcoh hj).symm
    · have hs' : s' ≠ s := by
        have hi := h i (by rw [(hsec i).2]; exact hv)
        rw [(hsec i).1, hs] at hi
        exact hi.symm
      rw [Function.update_of_ne hs', ← hview, set_disk, view_of_uncached]
      intro j hj
      rw [← (hsec j).1]
      exact h j (by rw [(hsec j).2]; exact hj)

/-! ## The final flush -/

/-- Flushing the slots of a list leaves each of them clean. -/
theorem flushAll_ok (is : List (Fin numCache)) : ∀ {c : BufferCache D}, Coherent c →
    c.bcLock = true →
    ∃ c', flushAll is c = .ok c' ∧ Same c c' ∧
      (∀ j, (c'.cache j).validBit = (c.cache j).validBit) ∧
      (∀ j, (c.cache j).dirtyBit = false ∨ j ∈ is → (c'.cache j).validBit →
        (c'.cache j).dirtyBit = false) := by
  induction is with
  | nil =>
    intro c hc _
    exact ⟨c, rfl, Same.refl hc, fun _ => rfl, fun j h _ => by simpa using h⟩
  | cons i is ih =>
    intro c hc hl
    rw [flushAll]
    by_cases hv : (c.cache i).validBit = true
    · obtain ⟨c₁, hflush, hsame, hci, hcj⟩ := flushEntry_ok hc hl hv
      obtain ⟨c', hrun, hsame', hvalid, hclean⟩ := ih hsame.coherent (hsame.lock.trans hl)
      have hv₁ : ∀ j, (c₁.cache j).validBit = (c.cache j).validBit := by
        intro j
        by_cases h : j = i
        · rw [h, hci]
        · rw [hcj j h]
      refine ⟨c', by rw [if_pos hv, hflush]; exact hrun, hsame.trans hsame',
        fun j => (hvalid j).trans (hv₁ j), fun j hj => hclean j ?_⟩
      by_cases h : j = i
      · exact .inl (by rw [h, hci])
      · rw [hcj j h]
        simpa [h] using hj
    · obtain ⟨c', hrun, hsame', hvalid, hclean⟩ := ih hc hl
      refine ⟨c', by rw [if_neg hv]; exact hrun, hsame', hvalid, fun j hj hvj => ?_⟩
      by_cases h : j = i
      · rw [hvalid j, h] at hvj
        exact absurd hvj hv
      · exact hclean j (by simpa [h] using hj) hvj

/-- **After the final flush the device holds the view.** -/
theorem bufferCacheTerminate_ok {c : BufferCache D} (hc : Coherent c) (hl : c.bcLock = false) :
    ∃ c', bufferCacheTerminate c = .ok c' ∧ Coherent c' ∧ c'.disk = view c ∧ view c' = view c ∧
      c'.bcLock = false := by
  obtain ⟨c₁, hrun, hsame, _, hclean⟩ :=
    flushAll_ok (List.finRange numCache) (coherent_lock hc true) rfl
  have hview : view c₁ = view c := hsame.view
  have hdisk : view c₁ = c₁.disk :=
    view_eq hsame.coherent
      (fun i hi => hsame.coherent.clean i hi (hclean i (.inr (List.mem_finRange i)) hi))
      (fun _ _ => rfl)
  refine ⟨{ c₁ with bcLock := false }, ?_, coherent_lock hsame.coherent false, ?_, hview, rfl⟩
  · simp only [bufferCacheTerminate, lockAcquire_ok hl, hrun, ok_bind]
    exact lockRelease_ok hsame.lock
  · rw [← hview, hdisk]

/-- Initialisation makes any memory a coherent cache whose view is the device. -/
theorem bufferCacheInit_coherent (c : BufferCache D) :
    Coherent (bufferCacheInit c) ∧ view (bufferCacheInit c) = c.disk := by
  have hinv : ∀ i, ((bufferCacheInit c).cache i).validBit = false := fun _ => rfl
  refine ⟨⟨fun i _ hi => ?_, fun i hi => ?_⟩, funext fun s => view_of_uncached fun i hi => ?_⟩ <;>
  · rw [hinv i] at hi
    exact absurd hi (by decide)

/-! ## Runs -/

/-- A client call. -/
inductive CacheOp (D : Type)
  | read (sector : ℕ)
  | write (sector : ℕ) (data : D)

/-- One call: the data a read returns, and the cache afterwards. -/
def CacheOp.exec (c : BufferCache D) : CacheOp D → Except CacheStop (Option D × BufferCache D)
  | .read s => do
    let (d, c) ← bufferCacheRead c s
    .ok (some d, c)
  | .write s d => do
    let c ← bufferCacheWrite c s d
    .ok (none, c)

/-- A sequence of calls: what each returned, and the cache at the end. -/
def runOps : List (CacheOp D) → BufferCache D → Except CacheStop (List (Option D) × BufferCache D)
  | [], c => .ok ([], c)
  | op :: ops, c => do
    let (r, c) ← op.exec c
    let (rs, c) ← runOps ops c
    .ok (r :: rs, c)

/-- The specification: the data of the last write to `s` in a sequence of calls. -/
def lastWrite (s : ℕ) : List (CacheOp D) → Option D
  | [] => none
  | .read _ :: ops => lastWrite s ops
  | .write t d :: ops => (lastWrite s ops).or (if t = s then some d else none)

/-- The specification: what sector `s` holds after a sequence of calls on the disk `image`. -/
def latest (image : ℕ → D) (ops : List (CacheOp D)) (s : ℕ) : D :=
  (lastWrite s ops).getD (image s)

/-- What the call in position `k` has to return. -/
def expected (image : ℕ → D) (ops : List (CacheOp D)) (k : ℕ) : Option D :=
  match ops[k]? with
  | some (.read s) => some (latest image (ops.take k) s)
  | _ => none

theorem latest_read (image : ℕ → D) (t : ℕ) (ops : List (CacheOp D)) :
    latest image (.read t :: ops) = latest image ops := rfl

theorem latest_write (image : ℕ → D) (t : ℕ) (d : D) (ops : List (CacheOp D)) :
    latest image (.write t d :: ops) = latest (Function.update image t d) ops := by
  funext s
  unfold latest
  rw [lastWrite]
  by_cases h : t = s
  · subst h; cases lastWrite t ops <;> simp
  · cases lastWrite s ops <;> simp [h, Ne.symm h]

/-- Every call of a run returns what `expected` says, and the run ends in the view `latest`. -/
theorem runOps_ok (ops : List (CacheOp D)) : ∀ {c : BufferCache D}, Coherent c → c.bcLock = false →
    ∃ rs c', runOps ops c = .ok (rs, c') ∧ Coherent c' ∧ c'.bcLock = false ∧
      rs.length = ops.length ∧ (∀ k, k < ops.length → rs[k]? = some (expected (view c) ops k)) ∧
      view c' = latest (view c) ops := by
  induction ops with
  | nil => exact fun {c} hc hl => ⟨[], c, rfl, hc, hl, rfl, fun k hk => absurd hk (by simp), rfl⟩
  | cons op ops ih =>
    intro c hc hl
    cases op with
    | read s =>
      obtain ⟨c₁, hread, hc₁, hv₁, hl₁⟩ := bufferCacheRead_ok hc hl s
      obtain ⟨rs, c', hrun, hc', hl', hlen, hrs, hv'⟩ := ih hc₁ hl₁
      refine ⟨some (view c s) :: rs, c', ?_, hc', hl', by simp [hlen], fun k hk => ?_, ?_⟩
      · simp [runOps, CacheOp.exec, hread, hrun, bind, Except.bind]
      · cases k with
        | zero => simp [expected, latest, lastWrite]
        | succ k =>
          rw [List.getElem?_cons_succ, hrs k (by simpa using hk), hv₁]
          simp only [expected, List.getElem?_cons_succ, List.take_succ_cons, latest_read]
      · rw [hv', hv₁, latest_read]
    | write s d =>
      obtain ⟨c₁, hwrite, hc₁, hv₁, hl₁⟩ := bufferCacheWrite_ok hc hl s d
      obtain ⟨rs, c', hrun, hc', hl', hlen, hrs, hv'⟩ := ih hc₁ hl₁
      refine ⟨none :: rs, c', ?_, hc', hl', by simp [hlen], fun k hk => ?_, ?_⟩
      · simp [runOps, CacheOp.exec, hwrite, hrun, bind, Except.bind]
      · cases k with
        | zero => simp [expected]
        | succ k =>
          rw [List.getElem?_cons_succ, hrs k (by simpa using hk), hv₁]
          simp only [expected, List.getElem?_cons_succ, List.take_succ_cons, latest_write]
      · rw [hv', hv₁, latest_write]

/-- **The buffer cache is coherent.**  From any memory contents at `buffer_cache_init` and any disk,
every finite sequence of reads and writes runs to its end; each read returns the latest data written
to its sector before it, or what the disk held at first; and `buffer_cache_terminate` leaves on the
disk the latest data of every written sector and the first contents of every other. -/
theorem bufferCache_refines_array (c₀ : BufferCache D) (ops : List (CacheOp D)) :
    ∃ rs c c', runOps ops (bufferCacheInit c₀) = .ok (rs, c) ∧ bufferCacheTerminate c = .ok c' ∧
      rs.length = ops.length ∧ (∀ k, k < ops.length → rs[k]? = some (expected c₀.disk ops k)) ∧
      ∀ s, c'.disk s = latest c₀.disk ops s := by
  obtain ⟨hcoh, hview⟩ := bufferCacheInit_coherent c₀
  obtain ⟨rs, c, hrun, hc, hl, hlen, hrs, hv⟩ := runOps_ok ops hcoh rfl
  obtain ⟨c', hterm, _, hdisk, _, _⟩ := bufferCacheTerminate_ok hc hl
  rw [hview] at hrs hv
  exact ⟨rs, c, c', hrun, hterm, hlen, hrs, fun s => by rw [hdisk, hv]⟩

/-! ## Caches that carry their invariant -/

/-- A coherent cache that no thread is inside of. -/
structure CoherentCache (D : Type) where
  toCache : BufferCache D
  coherent : Coherent toCache
  unlocked : toCache.bcLock = false

namespace CoherentCache

/-- The sectors a client of the cache sees. -/
def contents (c : CoherentCache D) : ℕ → D := view c.toCache

/-- `buffer_cache_init` in front of a disk. -/
def init (c : BufferCache D) : CoherentCache D :=
  ⟨bufferCacheInit c, (bufferCacheInit_coherent c).1, rfl⟩

theorem contents_init (c : BufferCache D) : (init c).contents = c.disk :=
  (bufferCacheInit_coherent c).2

theorem read_spec (c : CoherentCache D) {s : ℕ} {r : D × BufferCache D}
    (h : bufferCacheRead c.toCache s = .ok r) : Coherent r.2 ∧ r.2.bcLock = false ∧
      r.1 = c.contents s ∧ view r.2 = c.contents := by
  obtain ⟨c₁, hrun, hc, hv, hl⟩ := bufferCacheRead_ok c.coherent c.unlocked s
  rw [hrun] at h
  obtain rfl := Except.ok.inj h
  exact ⟨hc, hl, rfl, hv⟩

theorem write_spec (c : CoherentCache D) {s : ℕ} {d : D} {c' : BufferCache D}
    (h : bufferCacheWrite c.toCache s d = .ok c') : Coherent c' ∧ c'.bcLock = false ∧
      view c' = Function.update c.contents s d := by
  obtain ⟨c₁, hrun, hc, hv, hl⟩ := bufferCacheWrite_ok c.coherent c.unlocked s d
  rw [hrun] at h
  obtain rfl := Except.ok.inj h
  exact ⟨hc, hl, hv⟩

/-- `buffer_cache_read` on a cache that keeps its invariant always returns. -/
def read (c : CoherentCache D) (s : ℕ) : D × CoherentCache D :=
  match h : bufferCacheRead c.toCache s with
  | .ok r => (r.1, ⟨r.2, (read_spec c h).1, (read_spec c h).2.1⟩)
  | .error _ => (c.contents s, c)

/-- `buffer_cache_write` on a cache that keeps its invariant always returns. -/
def write (c : CoherentCache D) (s : ℕ) (d : D) : CoherentCache D :=
  match h : bufferCacheWrite c.toCache s d with
  | .ok c' => ⟨c', (write_spec c h).1, (write_spec c h).2.1⟩
  | .error _ => c

/-- `buffer_cache_terminate`: the disk it leaves. -/
def terminate (c : CoherentCache D) : ℕ → D :=
  match bufferCacheTerminate c.toCache with
  | .ok c' => c'.disk
  | .error _ => c.toCache.disk

theorem read_eq (c : CoherentCache D) (s : ℕ) :
    (c.read s).1 = c.contents s ∧ (c.read s).2.contents = c.contents := by
  unfold read
  split
  · rename_i r h
    exact ⟨(read_spec c h).2.2.1, (read_spec c h).2.2.2⟩
  · exact ⟨rfl, rfl⟩

theorem write_eq (c : CoherentCache D) (s : ℕ) (d : D) :
    (c.write s d).contents = Function.update c.contents s d := by
  unfold write
  split
  · rename_i c' h
    exact (write_spec c h).2.2
  · rename_i e h
    obtain ⟨c₁, hrun, _⟩ := bufferCacheWrite_ok c.coherent c.unlocked s d
    rw [hrun] at h
    exact absurd h (by simp)

theorem terminate_eq (c : CoherentCache D) : c.terminate = c.contents := by
  obtain ⟨c', hrun, _, hdisk, _⟩ := bufferCacheTerminate_ok c.coherent c.unlocked
  rw [terminate, hrun]
  exact hdisk

end CoherentCache

end Pintos.Filesys.Cache
