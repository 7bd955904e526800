import Pintos.Filesys.Cache

/-!
# What the clock evicts

`buffer_cache_select_victim` leaves its loop in every state (`selectVictim_ends`).  Its hand starts at slot 0 on every
miss, so it stops at the first slot that is free or has not been referenced since the hand last passed.  A miss is
served by a free slot if and only if every entry in front of the first free slot is referenced
(`takesFree_iff_reachesFree`).
-/

namespace Pintos.Filesys.Cache

variable {D : Type} {c c' : BufferCache D}

/-! ## What is to be shown -/

/-- The sector of a call. -/
def CacheOp.sector : CacheOp D → ℕ
  | .read s => s
  | .write s _ => s

/-- The call misses, and there is an invalid entry. -/
def MissesWithRoom (c : BufferCache D) (op : CacheOp D) : Prop :=
  bufferCacheLookup c op.sector = none ∧ ∃ i, (c.cache i).validBit = false

/-- The sector is put into an entry that was invalid; every valid entry stays, and none is written back. -/
structure TakesFree (c : BufferCache D) (sector : ℕ) (c' : BufferCache D) : Prop where
  free : ∃ i, (c.cache i).validBit = false ∧ (c'.cache i).validBit = true ∧ (c'.cache i).diskSector = sector
  kept : ∀ j, (c.cache j).validBit = true → (c'.cache j).validBit = true ∧
    (c'.cache j).diskSector = (c.cache j).diskSector ∧ (c'.cache j).buffer = (c.cache j).buffer ∧
    (c'.cache j).dirtyBit = (c.cache j).dirtyBit
  disk : c'.disk = c.disk

/-- Every entry in front of the first invalid one is referenced. -/
def ReachesFree (c : BufferCache D) : Prop :=
  ∀ i, (∀ j ≤ i, (c.cache j).validBit = true) → (c.cache i).referBit = true

/-- Every call of a run, from the state before it to the state after it, satisfies `P`. -/
def EachCall (P : BufferCache D → CacheOp D → BufferCache D → Prop) : List (CacheOp D) → BufferCache D → Prop
  | [], _ => True
  | op :: ops, c => ∀ r c', op.exec c = .ok (r, c') → P c op c' ∧ EachCall P ops c'

/-- A run from `buffer_cache_init` whose misses use the free slots first; and the search for a victim ends in every
state, in a slot or in `exit (-1)` where the lock is not held. -/
structure EvictsOnlyWhenFull (c₀ : BufferCache D) (ops : List (CacheOp D)) : Prop where
  runs : ∃ rs c, runOps ops (bufferCacheInit c₀) = .ok (rs, c)
  misses : EachCall (fun c op c' => MissesWithRoom c op → TakesFree c op.sector c') ops (bufferCacheInit c₀)
  ends : ∀ c : BufferCache D, if c.bcLock then ∃ r, bufferCacheSelectVictim c = .ok r
    else bufferCacheSelectVictim c = .error .exit

/-! ## The hand -/

/-- The slot the hand is at after `m` steps. -/
def slot (m : ℕ) : Fin numCache := Fin.ofNat numCache m

theorem slot_val {m : ℕ} (hm : m < numCache) : (slot m).val = m := Nat.mod_eq_of_lt hm

theorem slot_of_val (i : Fin numCache) : slot i.val = i := Fin.ext (slot_val i.isLt)

theorem slot_succ (m : ℕ) : slot m + 1 = slot (m + 1) := by
  apply Fin.ext
  rw [Fin.val_add]
  exact (Nat.add_mod m 1 numCache).symm

/-- The hand goes over the entry. -/
def Goes (c : BufferCache D) (i : Fin numCache) : Prop := (c.cache i).validBit = true ∧ (c.cache i).referBit = true

/-- The first `m` entries with the reference bit cleared. -/
def cleared (c : BufferCache D) (m : ℕ) : BufferCache D :=
  { c with cache := fun i => if i.val < m then { c.cache i with referBit := false } else c.cache i }

theorem cleared_zero (c : BufferCache D) : cleared c 0 = c := rfl

theorem cleared_of_lt {i : Fin numCache} {m : ℕ} (h : i.val < m) :
    (cleared c m).cache i = { c.cache i with referBit := false } := if_pos h

theorem cleared_of_le {i : Fin numCache} {m : ℕ} (h : m ≤ i.val) : (cleared c m).cache i = c.cache i :=
  if_neg (Nat.not_lt.mpr h)

theorem cleared_succ {m : ℕ} (hm : m < numCache) :
    (cleared c m).set (slot m) { (cleared c m).cache (slot m) with referBit := false } = cleared c (m + 1) := by
  have hval := slot_val hm
  have hcache : Function.update (cleared c m).cache (slot m)
      { (cleared c m).cache (slot m) with referBit := false } = (cleared c (m + 1)).cache := by
    funext i
    by_cases hi : i = slot m
    · rw [hi, Function.update_self, cleared_of_le (by omega), cleared_of_lt (by omega)]
    · have hne : i.val ≠ m := fun h => hi (Fin.ext (h.trans hval.symm))
      rw [Function.update_of_ne hi]
      by_cases hlt : i.val < m
      · rw [cleared_of_lt hlt, cleared_of_lt (by omega)]
      · rw [cleared_of_le (by omega), cleared_of_le (by omega)]
  unfold BufferCache.set
  rw [hcache]
  rfl

/-- What the hand does to an entry that it goes over. -/
theorem selectVictimLoop_goes {n : ℕ} {i : Fin numCache} (h : Goes c i) :
    selectVictimLoop (n + 1) c i = selectVictimLoop n (c.set i { c.cache i with referBit := false }) (i + 1) := by
  rw [selectVictimLoop, if_neg (by rw [h.1]; decide), if_pos h.2]

/-- The first pass of the hand. -/
theorem selectVictimLoop_pass {m : ℕ} (n : ℕ) (hm : m ≤ numCache)
    (h : ∀ i : Fin numCache, i.val < m → Goes c i) :
    selectVictimLoop (n + m) c 0 = selectVictimLoop n (cleared c m) (slot m) := by
  induction m generalizing n with
  | zero => rfl
  | succ m ih =>
    have hrest : ∀ i : Fin numCache, i.val < m → Goes c i := fun i hi => h i (Nat.lt_succ_of_lt hi)
    have hgoes : Goes (cleared c m) (slot m) := by
      have hval := slot_val hm
      unfold Goes
      rw [cleared_of_le (by omega)]
      exact h (slot m) (by omega)
    rw [show n + (m + 1) = (n + 1) + m by omega, ih (n + 1) (by omega) hrest, selectVictimLoop_goes hgoes,
      cleared_succ hm, slot_succ]

/-- The hand stops at a free slot, and leaves it as it is. -/
theorem selectVictimLoop_free {n : ℕ} {i : Fin numCache} (h : (c.cache i).validBit = false) :
    selectVictimLoop (n + 1) c i = .ok (i, c) := by
  rw [selectVictimLoop, if_pos h]

/-- The hand stops at an entry that is not referenced, and evicts it. -/
theorem selectVictimLoop_evicts {n : ℕ} {i : Fin numCache} (hlock : c.bcLock = true)
    (hvalid : (c.cache i).validBit = true) (hrefer : (c.cache i).referBit = false) :
    ∃ c', selectVictimLoop (n + 1) c i = .ok (i, c') ∧ (c'.cache i).validBit = false ∧ c'.bcLock = true := by
  rw [selectVictimLoop, if_neg (by rw [hvalid]; decide), if_neg (by rw [hrefer]; decide)]
  by_cases hdirty : (c.cache i).dirtyBit = true
  · rw [if_pos hdirty]
    unfold bufferCacheFlushEntry
    rw [if_neg (by rw [hlock]; decide), if_neg (by rw [hvalid]; decide), if_pos hdirty]
    exact ⟨_, rfl, by rw [set_same], hlock⟩
  · rw [if_neg hdirty]
    exact ⟨_, rfl, by rw [set_same], hlock⟩

/-- Where the hand stops on its first pass. -/
theorem exists_stop {i : Fin numCache} (h : ¬Goes c i) :
    ∃ m, ¬Goes c m ∧ ∀ j : Fin numCache, j.val < m.val → Goes c j := by
  classical
  have hex : ∃ k, ∃ hk : k < numCache, ¬Goes c ⟨k, hk⟩ := ⟨i.val, i.isLt, h⟩
  obtain ⟨hk, hstop⟩ := Nat.find_spec hex
  apply Exists.intro ⟨Nat.find hex, hk⟩
  constructor
  · exact hstop
  · intro j hj
    by_contra hgoes
    exact Nat.find_min hex hj ⟨j.isLt, hgoes⟩

/-- The search comes to the slot at which the hand stops. -/
theorem selectVictim_stop {m : Fin numCache} (hlock : c.bcLock = true)
    (hgoes : ∀ j : Fin numCache, j.val < m.val → Goes c j) :
    ∃ n, bufferCacheSelectVictim c = selectVictimLoop (n + 1) (cleared c m.val) m := by
  have hm := m.isLt
  apply Exists.intro (numCache - m.val)
  unfold bufferCacheSelectVictim
  rw [if_neg (by rw [hlock]; decide)]
  have hpass := selectVictimLoop_pass (numCache - m.val + 1) (Nat.le_of_lt hm) hgoes
  rw [slot_of_val, show numCache - m.val + 1 + m.val = numCache + 1 by omega] at hpass
  exact hpass

/-- **The search for a victim ends.** -/
theorem selectVictim_ends (hlock : c.bcLock = true) : ∃ r, bufferCacheSelectVictim c = .ok r := by
  by_cases hall : ∀ i, Goes c i
  · -- the hand comes back to slot 0, which it has cleared
    have hpass := selectVictimLoop_pass 1 (le_refl numCache) fun i _ => hall i
    have hslot : (cleared c numCache).cache (slot numCache) = { c.cache (slot numCache) with referBit := false } :=
      cleared_of_lt (slot numCache).isLt
    obtain ⟨c', hrun, _⟩ := selectVictimLoop_evicts (c := cleared c numCache) (n := 0) (i := slot numCache) hlock
      (by rw [hslot]; exact (hall _).1) (by rw [hslot])
    unfold bufferCacheSelectVictim
    rw [if_neg (by rw [hlock]; decide), Nat.add_comm, hpass]
    exact ⟨_, hrun⟩
  · obtain ⟨i, hi⟩ := not_forall.mp hall
    obtain ⟨m, hstop, hgoes⟩ := exists_stop hi
    obtain ⟨n, hrun⟩ := selectVictim_stop hlock hgoes
    have hslot : (cleared c m.val).cache m = c.cache m := cleared_of_le (le_refl _)
    rw [hrun]
    cases hvalid : (c.cache m).validBit with
    | false => exact ⟨_, selectVictimLoop_free (by rw [hslot]; exact hvalid)⟩
    | true =>
      have hrefer : (c.cache m).referBit = false := by
        rw [← Bool.not_eq_true]
        exact fun hr => hstop ⟨hvalid, hr⟩
      obtain ⟨c', hevict, _⟩ := selectVictimLoop_evicts (c := cleared c m.val) (n := n) (i := m) hlock
        (by rw [hslot]; exact hvalid) (by rw [hslot]; exact hrefer)
      exact ⟨_, hevict⟩

/-! ## A call that misses -/

/-- What the victim is filled with. -/
theorem lookupOrFill_miss {s : ℕ} {r : Fin numCache × BufferCache D} (hmiss : bufferCacheLookup c s = none)
    (hrun : lookupOrFill c s = .ok r) :
    ∃ c₁, bufferCacheSelectVictim c = .ok (r.1, c₁) ∧
      r.2 = c₁.set r.1 { c₁.cache r.1 with
        dirtyBit := false, validBit := true, diskSector := s, buffer := c₁.disk s } := by
  unfold lookupOrFill at hrun
  rw [hmiss] at hrun
  cases hsel : bufferCacheSelectVictim c with
  | error e =>
    simp only [hsel] at hrun
    cases hrun
  | ok v =>
    simp only [hsel, ok_bind] at hrun
    split at hrun
    · cases hrun
    · cases hrun
      exact ⟨v.2, rfl, rfl⟩

/-- The state that a call leaves: the sector is in the victim's slot, and the other slots and the device are as the
search for the victim left them. -/
structure Fills (c₁ : BufferCache D) (i : Fin numCache) (sector : ℕ) (c' : BufferCache D) : Prop where
  valid : (c'.cache i).validBit = true
  sector : (c'.cache i).diskSector = sector
  others : ∀ j, j ≠ i → c'.cache j = c₁.cache j
  disk : c'.disk = c₁.disk

/-- A call changes the entry of its sector, behind the lookup. -/
theorem exec_entry {op : CacheOp D} {r : Option D} (hlock : c.bcLock = false) (hexec : op.exec c = .ok (r, c')) :
    ∃ i c₂ e, lookupOrFill { c with bcLock := true } op.sector = .ok (i, c₂) ∧
      e.validBit = (c₂.cache i).validBit ∧ e.diskSector = (c₂.cache i).diskSector ∧
      c'.cache = (c₂.set i e).cache ∧ c'.disk = c₂.disk ∧ c'.bcLock = false := by
  cases op with
  | read s =>
    simp only [CacheOp.exec, bufferCacheRead, lockAcquire_ok hlock, ok_bind] at hexec
    cases hfill : lookupOrFill { c with bcLock := true } s with
    | error e =>
      rw [hfill] at hexec
      cases hexec
    | ok v =>
      cases hheld : v.2.bcLock with
      | false =>
        simp only [hfill, ok_bind, lockRelease, set_lock, hheld] at hexec
        cases hexec
      | true =>
        simp only [hfill, ok_bind, lockRelease, set_lock, hheld, if_true] at hexec
        have hc := (Prod.mk.inj (Except.ok.inj hexec)).2
        exact ⟨v.1, v.2, { v.2.cache v.1 with referBit := true }, hfill, rfl, rfl, by rw [← hc], by rw [← hc]; rfl,
          by rw [← hc]⟩
  | write s d =>
    simp only [CacheOp.exec, bufferCacheWrite, lockAcquire_ok hlock, ok_bind] at hexec
    cases hfill : lookupOrFill { c with bcLock := true } s with
    | error e =>
      rw [hfill] at hexec
      cases hexec
    | ok v =>
      cases hheld : v.2.bcLock with
      | false =>
        simp only [hfill, ok_bind, lockRelease, set_lock, hheld] at hexec
        cases hexec
      | true =>
        simp only [hfill, ok_bind, lockRelease, set_lock, hheld, if_true] at hexec
        have hc := (Prod.mk.inj (Except.ok.inj hexec)).2
        exact ⟨v.1, v.2, { v.2.cache v.1 with referBit := true, dirtyBit := true, buffer := d }, hfill, rfl, rfl,
          by rw [← hc], by rw [← hc]; rfl, by rw [← hc]⟩

theorem exec_miss {op : CacheOp D} {r : Option D} (hlock : c.bcLock = false)
    (hmiss : bufferCacheLookup c op.sector = none)
    (hexec : op.exec c = .ok (r, c')) :
    ∃ i c₁, bufferCacheSelectVictim { c with bcLock := true } = .ok (i, c₁) ∧ Fills c₁ i op.sector c' := by
  obtain ⟨i, c₂, e, hfill, hvalid, hsector, hcache, hdisk, _⟩ := exec_entry hlock hexec
  have hmiss' : bufferCacheLookup { c with bcLock := true } op.sector = none := hmiss
  obtain ⟨c₁, hsel, hc₂⟩ := lookupOrFill_miss hmiss' hfill
  dsimp only at hsel hc₂
  rw [hc₂, set_same] at hvalid hsector
  rw [hc₂] at hcache hdisk
  have hi : c'.cache i = e := by rw [hcache, set_same]
  refine ⟨i, c₁, hsel, ?_⟩
  constructor
  · rw [hi, hvalid]
  · rw [hi, hsector]
  · intro j hj
    rw [hcache, set_ne _ _ hj, set_ne _ _ hj]
  · rw [hdisk, set_disk]

/-- **A miss takes a free slot if and only if the hand reaches one.** -/
theorem takesFree_iff_reachesFree {op : CacheOp D} {r : Option D} (hlock : c.bcLock = false)
    (hroom : MissesWithRoom c op) (hexec : op.exec c = .ok (r, c')) : TakesFree c op.sector c' ↔ ReachesFree c := by
  obtain ⟨hmiss, i, hi⟩ := hroom
  obtain ⟨v, c₁, hsel, hfills⟩ := exec_miss hlock hmiss hexec
  have hnot : ¬Goes c i := fun h => absurd h.1 (by rw [hi]; decide)
  obtain ⟨m, hstop, hgoes⟩ := exists_stop hnot
  obtain ⟨n, hrun⟩ := selectVictim_stop (c := { c with bcLock := true }) rfl hgoes
  have hslot : (cleared { c with bcLock := true } m.val).cache m = c.cache m := cleared_of_le (le_refl _)
  rw [hrun] at hsel
  cases hvalid : (c.cache m).validBit with
  | false =>
    -- the hand stops at the first free slot
    rw [selectVictimLoop_free (by rw [hslot]; exact hvalid)] at hsel
    obtain ⟨hm, hc₁⟩ := Prod.mk.inj (Except.ok.inj hsel)
    rw [← hm, ← hc₁] at hfills
    apply iff_of_true
    · constructor
      · exact ⟨m, hvalid, hfills.valid, hfills.sector⟩
      · intro j hj
        have hne : j ≠ m := by
          intro h
          rw [h, hvalid] at hj
          cases hj
        rw [hfills.others j hne]
        by_cases hlt : j.val < m.val
        · rw [cleared_of_lt hlt]
          exact ⟨hj, rfl, rfl, rfl⟩
        · rw [cleared_of_le (Nat.le_of_not_lt hlt)]
          exact ⟨hj, rfl, rfl, rfl⟩
      · exact hfills.disk
    · intro k hk
      have hlt : k.val < m.val := by
        by_contra hle
        have hmvalid := hk m (Nat.le_of_not_lt hle)
        rw [hvalid] at hmvalid
        cases hmvalid
      exact (hgoes k hlt).2
  | true =>
    -- the hand stops at an entry that is not referenced, which holds another sector
    have hrefer : (c.cache m).referBit = false := by
      rw [← Bool.not_eq_true]
      exact fun hr => hstop ⟨hvalid, hr⟩
    obtain ⟨c₂, hevict, _⟩ := selectVictimLoop_evicts (c := cleared { c with bcLock := true } m.val) (n := n) (i := m)
      rfl (by rw [hslot]; exact hvalid) (by rw [hslot]; exact hrefer)
    rw [hevict] at hsel
    obtain ⟨hm, hc₁⟩ := Prod.mk.inj (Except.ok.inj hsel)
    rw [← hm, ← hc₁] at hfills
    apply iff_of_false
    · intro htakes
      have hsame := (htakes.kept m hvalid).2.1
      rw [hfills.sector] at hsame
      exact lookup_none hmiss m hvalid hsame.symm
    · intro hreaches
      have hbefore : ∀ j ≤ m, (c.cache j).validBit = true := by
        intro j hj
        rcases Nat.lt_or_eq_of_le hj with hlt | heq
        · exact (hgoes j hlt).1
        · rw [Fin.ext heq]
          exact hvalid
      have hmrefer := hreaches m hbefore
      rw [hrefer] at hmrefer
      cases hmrefer

/-! ## Runs -/

/-- Properties that agree on every call agree on a run. -/
theorem eachCall_congr {P Q : BufferCache D → CacheOp D → BufferCache D → Prop} {ops : List (CacheOp D)}
    (hlock : c.bcLock = false)
    (h : ∀ (c c' : BufferCache D) (op : CacheOp D) (r : Option D), c.bcLock = false → op.exec c = .ok (r, c') →
      (P c op c' ↔ Q c op c')) :
    EachCall P ops c ↔ EachCall Q ops c := by
  induction ops generalizing c with
  | nil => exact Iff.rfl
  | cons op ops ih =>
    apply forall_congr'
    intro r
    apply forall_congr'
    intro c'
    apply forall_congr'
    intro hexec
    obtain ⟨_, _, _, _, _, _, _, _, hlock'⟩ := exec_entry hlock hexec
    rw [h c c' op r hlock hexec, ih hlock']

/-- **Misses use the free slots first if and only if at each of them every entry in front of the first invalid one is
referenced.** -/
theorem evictsOnlyWhenFull_iff (c₀ : BufferCache D) (ops : List (CacheOp D)) :
    EvictsOnlyWhenFull c₀ ops ↔
      EachCall (fun c op _ => MissesWithRoom c op → ReachesFree c) ops (bufferCacheInit c₀) := by
  have hiff : EachCall (fun c op c' => MissesWithRoom c op → TakesFree c op.sector c') ops (bufferCacheInit c₀) ↔
      EachCall (fun c op _ => MissesWithRoom c op → ReachesFree c) ops (bufferCacheInit c₀) := by
    apply eachCall_congr rfl
    intro c c' op r hlock hexec
    apply forall_congr'
    intro hroom
    exact takesFree_iff_reachesFree hlock hroom hexec
  constructor
  · intro h
    exact hiff.mp h.misses
  · intro h
    constructor
    · obtain ⟨rs, c, hrun, _⟩ := runOps_ok ops (bufferCacheInit_coherent c₀).1 rfl
      exact ⟨rs, c, hrun⟩
    · exact hiff.mpr h
    · intro c
      split
      · next hlock => exact selectVictim_ends hlock
      · next hlock =>
        unfold bufferCacheSelectVictim
        rw [if_pos (Bool.not_eq_true _ ▸ hlock)]

/-- Reads of three sectors: the third evicts the first, with 62 slots free. -/
theorem evicts_with_room :
    ¬EvictsOnlyWhenFull (D := Unit) ⟨fun _ => ⟨false, 0, (), false, false⟩, false, fun _ => ()⟩
      [.read 1, .read 2, .read 3] := by
  intro h
  have h1 := h.misses _ _ rfl
  have h2 := h1.2 _ _ rfl
  have h3 := (h2.2 _ _ rfl).1 ⟨by decide, 2, rfl⟩
  have hsame := (h3.kept 0 rfl).2.1
  exact absurd hsame (by decide)

end Pintos.Filesys.Cache
