import Pintos.Filesys.InodeLayer

/-!
# Deferred deletion

An inode that is removed while it is open keeps its sectors until the last handle is closed; then they
are given back, each once.  The runs are those of the calls that create, open, remove and close inodes,
from a freshly formatted file system.  In these runs no write fails half-way, so the pages in memory are
those on the disk and every inode has exactly the sectors that its blocks need (`Settled`).
-/

namespace Pintos.Filesys

open PtrForest

variable {P : Policy} {w w' : World} {live live' : Set ℕ} {p s : ℕ} {i : Inode}

/-- `t` is the header, a data sector or an index sector of the inode in sector `s`. -/
def Owns (w : World) (s t : ℕ) : Prop :=
  t = s ∨ ∃ k π, Node pageShape k π ∧ sec w.disk ((page w s).word k) π = t ∧ t ≠ 0

/-- No inode has pointers in memory only, or (the free map file apart, which is never deleted) sectors
that it does not need. -/
structure Settled (w : World) (live : Set ℕ) : Prop where
  clean : ∀ s ∈ live, page w s = header w s
  needed : ∀ s ∈ live, s ≠ 0 → ∀ k π, Node pageShape k π → sec w.disk ((page w s).word k) π ≠ 0 →
    NeededNode (bytesToSectors (page w s).length).toNat k π

theorem Settled.subset (h : Settled w live) (hsub : live' ⊆ live) : Settled w live' :=
  ⟨fun s hs => h.clean s (hsub hs), fun s hs => h.needed s (hsub hs)⟩

theorem Settled.same (h : Settled w live) (hs : Same live w w') : Settled w' live := by
  refine ⟨fun s hl => ?_, fun s hl h0 k π hn hne => ?_⟩
  · rw [hs.page s hl, hs.header hl, h.clean s hl]
  · rw [hs.page s hl] at hne ⊢
    rw [hs.sec s hl k π hn] at hne
    exact h.needed s hl h0 k π hn hne

theorem Settled.insert (h : Settled w live) (hpage : page w s = w.disk s) (h0 : s ≠ 0)
    (hneeded : ∀ k π, Node pageShape k π → sec w.disk ((w.disk s).word k) π ≠ 0 →
      NeededNode (bytesToSectors (InodeDisk.length (w.disk s))).toNat k π) :
    Settled w (insert s live) := by
  refine ⟨?_, ?_⟩
  · rintro t (rfl | ht)
    · rw [hpage]
      exact (if_neg h0).symm
    · exact h.clean t ht
  · rintro t (rfl | ht)
    · rw [hpage]
      exact fun _ => hneeded
    · exact h.needed t ht

theorem Same.owns (h : Same live w w') (hs : s ∈ live) (t : ℕ) : Owns w' s t ↔ Owns w s t := by
  refine or_congr_right ⟨?_, ?_⟩
  · rintro ⟨k, π, hn, heq, h0⟩
    rw [h.page s hs, h.sec s hs k π hn] at heq
    exact ⟨k, π, hn, heq, h0⟩
  · rintro ⟨k, π, hn, heq, h0⟩
    exact ⟨k, π, hn, by rw [h.page s hs, h.sec s hs k π hn, heq], h0⟩

theorem InodeOk.owns_allocated (h : InodeOk w live) (hs : s ∈ live) {t : ℕ} (ht : Owns w s t) :
    Allocated w t := by
  refine h.owned_allocated ?_
  rcases ht with rfl | ⟨k, π, hn, heq, h0⟩
  · exact .inl hs
  · exact .inr ⟨s, hs, k, π, hn, heq, h0⟩

/-- The sectors that `inode_delete` gives back are all the inode has. -/
theorem InodeOk.sectors_iff (h : InodeOk w live) (hset : Settled w live) (hi : w.mem.heap p = some i)
    (hz : i.sector ≠ 0) (t : ℕ) : i.Sectors w.disk t ↔ Owns w i.sector t := by
  have hs := h.openLive p i hi
  have hpage := page_of_open h.mem hi
  refine or_congr_right ⟨fun hneed => ?_, ?_⟩
  · rw [← hpage] at hneed
    exact h.needed_node hs hneed
  · rintro ⟨k, π, hn, rfl, h0⟩
    have hneed := hset.needed _ hs hz k π hn h0
    rw [hpage] at hneed ⊢
    exact ⟨k, π, hneed, rfl⟩

/-- Dropping the page of a settled inode from memory changes nothing. -/
theorem Settled.dropInode (hset : Settled w live) (h : InodeOk w live) (hi : w.mem.heap p = some i)
    (h0 : i.sector ≠ 0) : Same live w (dropInode w p) := by
  refine ⟨fun s _ => ?_, fun _ _ _ _ _ => rfl, fun _ _ _ _ => rfl, fun _ _ _ => rfl⟩
  by_cases hs : s = i.sector
  · rw [hs, page_dropInode_self h.mem hi, hset.clean _ (h.openLive p i hi)]
    exact (if_neg h0).symm
  · exact page_dropInode_other h.mem hi hs

namespace Layer

variable {σ σ' : Layer}

/-- The calls that create, open, remove and close inodes. -/
def Handles : Call → Prop
  | .write _ _ _ _ => False
  | _ => True

/-- What a call leaves of the inodes that are still there afterwards. -/
theorem Ok.same (h : σ.Ok) (hset : Settled σ.world σ.live) {c : Call} (hh : Handles c) {a : c.Res}
    (hd : σ.Does c a w') : Same (σ.live ∩ (σ.after c a w').live) σ.world w' := by
  cases c with
  | allocate =>
    cases a with
    | none =>
      obtain rfl : w' = σ.world := hd
      exact .refl _ _
    | some s =>
      have hs : Handed σ.live σ.world s w' := hd
      exact (hs.step.same h.inodes).subset Set.inter_subset_left
  | create s len isDir =>
    cases a with
    | false => exact (show Reserving σ.live σ.world w' from hd).same.subset Set.inter_subset_left
    | true =>
      exact (show Created σ.live σ.world s len isDir w' from hd).same.subset Set.inter_subset_left
  | «open» s =>
    obtain ⟨p, rfl, ho⟩ := hd
    exact ho.same.subset Set.inter_subset_left
  | reopen p =>
    obtain ⟨rfl, i, hi, ho⟩ := hd
    exact ho.same.subset Set.inter_subset_left
  | remove p =>
    obtain ⟨i, hi, _, hsame, _⟩ := hd
    exact hsame.subset Set.inter_subset_left
  | close p =>
    obtain ⟨i, hi, hcase⟩ := hd
    have hc := h.count p i hi
    rcases hcase with ⟨hmore, rfl⟩ | ⟨_, h0, _, rfl⟩ | ⟨hone, h0, hrem, hdel⟩
    · obtain ⟨_, hsame⟩ : InodeOk (setInode σ.world p { i with openCnt := i.openCnt - 1 }) σ.live ∧
          Same σ.live σ.world _ := h.inodes.setInode hi rfl (by show 0 < i.openCnt - 1; omega) rfl rfl
      exact hsame.subset Set.inter_subset_left
    · exact (hset.dropInode h.inodes hi h0).subset Set.inter_subset_left
    · refine hdel.same.subset ?_
      have hlive : (σ.after (.close p) () w').live = σ.live \ {i.sector} := by
        show σ.liveAfterClose p = _
        rw [liveAfterClose, hi]
        exact if_pos ⟨hrem, hone⟩
      rw [hlive]
      exact Set.inter_subset_right
  | write p buffer size offset => exact hh.elim

/-- Every call but a successful `inode_create` leaves `live` as it is or smaller. -/
theorem after_live {c : Call} {a : c.Res} :
    (σ.after c a w').live ⊆ σ.live ∨ ∃ s len isDir, c = .create s len isDir ∧ HEq a true := by
  cases c with
  | allocate => cases a <;> exact .inl subset_rfl
  | create s len isDir =>
    cases a with
    | false => exact .inl subset_rfl
    | true => exact .inr ⟨s, len, isDir, rfl, HEq.rfl⟩
  | «open» s => cases a <;> exact .inl subset_rfl
  | reopen p => cases a <;> exact .inl subset_rfl
  | remove p => exact .inl subset_rfl
  | close p =>
    refine .inl ?_
    show σ.liveAfterClose p ⊆ σ.live
    unfold liveAfterClose
    split
    · split
      · exact Set.sdiff_subset
      · exact subset_rfl
    · exact subset_rfl
  | write p buffer size offset => exact .inl subset_rfl

/-- The pages stay settled. -/
theorem Ok.settled (h : σ.Ok) (hset : Settled σ.world σ.live) {c : Call} (hc : σ.Enabled c)
    (hh : Handles c) {a : c.Res} (hd : σ.Does c a w') : Settled w' (σ.after c a w').live := by
  rcases (after_live : (σ.after c a w').live ⊆ σ.live ∨ _) with hsub | ⟨s, len, isDir, rfl, ha⟩
  · have hsame := h.same hset hh hd
    rw [Set.inter_eq_self_of_subset_right hsub] at hsame
    exact (hset.subset hsub).same hsame
  · obtain rfl : a = true := eq_of_heq ha
    have hcr : Created σ.live σ.world s len isDir w' := hd
    have hno := (h.spare s hc.1).2
    refine (hset.same hcr.same).insert (page_of_closed (hcr.ok.mem.openInode_eq_none.mpr ?_)) ?_ ?_
    · rintro q j hj rfl
      rw [hcr.heap] at hj
      exact hno (.inl (h.inodes.openLive q j hj))
    · rintro rfl
      exact hno (.inl h.inodes.zero)
    · rw [hcr.page.length]
      exact hcr.page.needed

/-! ### Removing -/

/-- The inode in sector `s` has been removed while it is open. -/
def Removed (σ : Layer) (s : ℕ) : Prop :=
  ∃ p i, σ.world.mem.heap p = some i ∧ i.sector = s ∧ i.removed = true

/-- The call removes the inode in sector `s`. -/
def Removes (σ : Layer) (c : Call) (s : ℕ) : Prop :=
  ∃ p i, c = .remove p ∧ σ.world.mem.heap p = some i ∧ i.sector = s

/-- The in-memory inodes after a call are those before, up to their counts, and one that is new. -/
theorem removed_after {c : Call} {a : c.Res} (hd : σ.Does c a w')
    (hnot : ¬σ.Removes c s) (hs : (σ.after c a w').Removed s) : σ.Removed s := by
  obtain ⟨q, j, hj, hjs, hrem⟩ := hs
  rw [after_world] at hj
  have hsame : w'.mem.heap = σ.world.mem.heap → σ.Removed s := fun heap =>
    ⟨q, j, heap ▸ hj, hjs, hrem⟩
  have hopened : ∀ {t r}, Opened σ.live σ.world t r w' → w'.mem.heap q = some j → σ.Removed s := by
    intro t r ho hj
    rcases ho.inode with ⟨i, hi, _, rfl⟩ | ⟨_, _, rfl⟩
    · rcases setInode_heap.mp hj with ⟨rfl, rfl⟩ | ⟨_, hj⟩
      · exact ⟨q, i, hi, hjs, hrem⟩
      · exact ⟨q, j, hj, hjs, hrem⟩
    · have hj' : Function.update σ.world.mem.heap σ.world.mem.next
          (some ⟨t, 1, false, 0, σ.world.disk t⟩) q = some j := hj
      by_cases hq : q = σ.world.mem.next
      · rw [hq, Function.update_self] at hj'
        rw [← Option.some.inj hj'] at hrem
        exact absurd hrem (by simp)
      · rw [Function.update_of_ne hq] at hj'
        exact ⟨q, j, hj', hjs, hrem⟩
  cases c with
  | allocate =>
    cases a with
    | none =>
      obtain rfl : w' = σ.world := hd
      exact hsame rfl
    | some t => exact hsame (show Handed σ.live σ.world t w' from hd).step.heap
  | create t len isDir =>
    cases a with
    | false => exact hsame (show Reserving σ.live σ.world w' from hd).heap
    | true => exact hsame (show Created σ.live σ.world t len isDir w' from hd).heap
  | «open» t =>
    obtain ⟨p, rfl, ho⟩ := hd
    exact hopened ho hj
  | reopen p =>
    obtain ⟨rfl, i, hi, ho⟩ := hd
    exact hopened ho hj
  | remove p =>
    obtain ⟨i, hi, _, _, rfl⟩ := hd
    rcases setInode_heap.mp hj with ⟨rfl, rfl⟩ | ⟨_, hj⟩
    · exact absurd ⟨q, i, rfl, hi, hjs⟩ hnot
    · exact ⟨q, j, hj, hjs, hrem⟩
  | close p =>
    obtain ⟨i, hi, ⟨_, rfl⟩ | ⟨_, _, _, rfl⟩ | ⟨_, _, _, hdel⟩⟩ := hd
    · rcases setInode_heap.mp hj with ⟨rfl, rfl⟩ | ⟨_, hj⟩
      · exact ⟨q, i, hi, hjs, hrem⟩
      · exact ⟨q, j, hj, hjs, hrem⟩
    · exact ⟨q, j, (dropInode_heap.mp hj).2, hjs, hrem⟩
    · have hj' : w'.mem.heap q = some j := hj
      rw [hdel.step.heap] at hj'
      exact ⟨q, j, (dropInode_heap.mp hj').2, hjs, hrem⟩
  | write p buffer size offset =>
    obtain ⟨i, d, hi, hw⟩ := hd
    have hheap : w'.mem.heap = setPage σ.world.mem.heap p i d := by
      rcases hw with ⟨_, hw⟩ | ⟨_, hw⟩
      · exact hw.heap
      · exact hw.heap
    have hj' : w'.mem.heap q = some j := hj
    rw [hheap] at hj'
    by_cases hq : q = p
    · subst hq
      rw [setPage, Function.update_self] at hj'
      rw [← Option.some.inj hj'] at hjs hrem
      exact ⟨q, i, hi, hjs, hrem⟩
    · rw [setPage, Function.update_of_ne hq] at hj'
      exact ⟨q, j, hj', hjs, hrem⟩

/-- An inode that has not been removed is not deleted. -/
theorem live_after {c : Call} {a : c.Res} (hs : s ∈ σ.live) (hnot : ¬σ.Removed s) :
    s ∈ (σ.after c a w').live := by
  cases c with
  | allocate => cases a <;> exact hs
  | create t len isDir =>
    cases a with
    | false => exact hs
    | true => exact .inr hs
  | «open» t => cases a <;> exact hs
  | reopen p => cases a <;> exact hs
  | remove p => exact hs
  | close p =>
    show s ∈ σ.liveAfterClose p
    unfold liveAfterClose
    split
    · next i hi =>
      split
      · next hrem =>
        refine ⟨hs, ?_⟩
        rintro rfl
        exact hnot ⟨p, i, hi, rfl, hrem.1⟩
      · exact hs
    · exact hs
  | write p buffer size offset => exact hs

/-! ### Runs -/

/-- A freshly formatted file system, before any call. -/
structure Started (P : Policy) (σ : Layer) : Prop where
  formatted : ∃ w₀, Blank w₀ ∧ Runs P (filesysInit true) w₀ (.ok ()) σ.world
  live : σ.live = {1, 0}
  spare : σ.spare = ∅
  handles : ∀ p, σ.handles p = 0

theorem Started.world (hP : P.NoFail) (h : Started P σ) : Formatted P σ.world := by
  obtain ⟨w₀, hb, hr⟩ := h.formatted
  exact wp_iff_runs.mp (wp_filesysInit_format hP hb) _ _ hr

theorem Started.ok (hP : P.NoFail) (h : Started P σ) : σ.Ok := by
  have hf := (h.world hP).rest
  obtain ⟨f, i, hfile, hi⟩ := hf.ok.fmFile
  refine ⟨by rw [h.live]; exact hf.ok, by rw [h.spare]; exact fun s hs => hs.elim, fun p j hj => ?_,
    fun p hp => ?_, fun p j hj => ?_⟩
  · have hj' := hf.only p j hj
    have hfp : f.inode = p := by
      refine hf.ok.mem.inj _ _ i j hi.heap hj ?_
      rw [hi.sector, hj']
    rw [hj', held, h.handles, ownHandle, hfile, Option.map_some, hfp, if_pos rfl]
    rfl
  · rw [held, h.handles, ownHandle, hfile, if_neg]
    rintro heq
    have hfp : f.inode = p := Option.some.inj heq
    rw [← hfp, hi.heap] at hp
    exact absurd hp (by simp)
  · rw [hf.only p j hj]

theorem Started.settled (hP : P.NoFail) (h : Started P σ) : Settled σ.world σ.live := by
  have hf := h.world hP
  rw [h.live]
  refine ⟨fun s _ => ?_, ?_⟩
  · rw [hf.rest.page_eq s]
    unfold header
    split
    · next hz => rw [hf.rest.page_eq 0, hz]
    · rfl
  · rintro s (rfl | rfl) h0 k π hn hne
    · rw [hf.rest.page_eq 1] at hne ⊢
      have hroot := hf.root
      have hone : (bytesToSectors 320).toNat = 1 := by decide
      rw [hroot.length, hone]
      exact hroot.needed k π hn hne
    · exact absurd rfl h0

/-- One of the calls that create, open, remove and close inodes. -/
def HandleStep (P : Policy) (σ : Layer) (c : Call) (σ' : Layer) : Prop := Handles c ∧ Step P σ c σ'

/-- What holds in all runs of these calls. -/
structure Sound (σ : Layer) : Prop where
  ok : σ.Ok
  settled : Settled σ.world σ.live

theorem Sound.step (hP : P.NoFail) (h : σ.Sound) {c : Call} (hs : HandleStep P σ c σ') : σ'.Sound := by
  obtain ⟨hh, hs⟩ := hs
  refine ⟨h.ok.step hP hs, ?_⟩
  cases hs with
  | returns enabled runs =>
    rw [after_world]
    exact h.ok.settled h.settled enabled hh (wp_iff_runs.mp (h.ok.does hP enabled) _ _ runs)
  | exits enabled runs =>
    obtain ⟨_, _, hr⟩ := wp_iff_runs.mp (h.ok.does hP enabled) _ _ runs
    exact h.settled.same hr.same

/-- A call that does not remove an inode leaves it its sectors. -/
theorem Sound.keeps (hP : P.NoFail) (h : σ.Sound) {c : Call} (hs : HandleStep P σ c σ')
    (hlive : s ∈ σ.live) (hrem : ¬σ.Removed s) (hnot : ¬σ.Removes c s) :
    s ∈ σ'.live ∧ ¬σ'.Removed s ∧ ∀ t, Owns σ'.world s t ↔ Owns σ.world s t := by
  obtain ⟨hh, hs⟩ := hs
  cases hs with
  | @returns a w' enabled runs =>
    have hd : σ.Does c a w' := wp_iff_runs.mp (h.ok.does hP enabled) _ _ runs
    have hlive' : s ∈ (σ.after c a w').live := live_after hlive hrem
    refine ⟨hlive', fun hr => hrem (removed_after hd hnot hr), fun t => ?_⟩
    rw [after_world]
    exact (h.ok.same h.settled hh hd).owns ⟨hlive, hlive'⟩ t
  | exits enabled runs =>
    obtain ⟨_, _, hr⟩ := wp_iff_runs.mp (h.ok.does hP enabled) _ _ runs
    refine ⟨hlive, fun hr' => hrem ?_, hr.same.owns hlive⟩
    obtain ⟨q, j, hj, hrest⟩ := hr'
    exact ⟨q, j, hr.heap ▸ hj, hrest⟩

/-- What deferred deletion promises at a state and of its next call. -/
structure DeletionDeferred (P : Policy) (σ : Layer) : Prop where
  /-- Two inodes in memory never have one sector. -/
  distinct : σ.world.mem.openInodes.Nodup ∧ ∀ p ∈ σ.world.mem.openInodes,
    ∀ q ∈ σ.world.mem.openInodes, ∀ i j, σ.world.mem.heap p = some i →
      σ.world.mem.heap q = some j → i.sector = j.sector → p = q
  /-- A handle is on an inode in memory, which counts its handles. -/
  counted : ∀ p, 0 < σ.handles p → p ∈ σ.world.mem.openInodes ∧
    ∃ i, σ.world.mem.heap p = some i ∧ i.openCnt = σ.held p
  /-- Opening a sector gives the inode that its other handles are on. -/
  shared : ∀ s ∈ σ.live, ∀ r w', Runs P (inodeOpen s) σ.world r w' → ∃ p, r = .ok (some p) ∧
    ∀ q i, 0 < σ.handles q → σ.world.mem.heap q = some i → i.sector = s → p = q
  /-- The sectors of an open inode, removed or not, are allocated. -/
  kept : ∀ p i, 0 < σ.handles p → σ.world.mem.heap p = some i →
    ∀ t, Owns σ.world i.sector t → Allocated σ.world t
  /-- A close returns.  The last one of a removed inode gives back its sectors and no others, and any
  other close gives back none. -/
  released : ∀ p i, 0 < σ.handles p → σ.world.mem.heap p = some i → ∀ r w',
    Runs P (inodeClose (some p)) σ.world r w' → r = .ok () ∧ ∀ t, Allocated w' t ↔
      Allocated σ.world t ∧ ¬(σ.held p = 1 ∧ i.removed = true ∧ Owns σ.world i.sector t)
  /-- No call but a close gives back a sector. -/
  only : ∀ c : Call, Handles c → σ.Enabled c → (∀ p, c ≠ .close p) → ∀ r w',
    Runs P c.run σ.world r w' → ∀ t, Allocated σ.world t → Allocated w' t
  /-- No call fails an assertion, touches freed memory or stops otherwise; creating an inode that is too
  long ends the process. -/
  safe : ∀ c : Call, Handles c → σ.Enabled c → ∀ e w', Runs P c.run σ.world (.error e) w' →
    e = .exit (-1) ∧ TooLong c

theorem Sound.deferred (hP : P.NoFail) (h : σ.Sound) : DeletionDeferred P σ := by
  have hmem := h.ok.inodes.mem
  have hruns : ∀ {c : Call} {a : c.Res} {w' : World}, σ.Enabled c → Runs P c.run σ.world (.ok a) w' →
      σ.Does c a w' := fun hc hr => wp_iff_runs.mp (h.ok.does hP hc) _ _ hr
  have hstops : ∀ {c : Call} {e : Stop} {w' : World}, σ.Enabled c → Runs P c.run σ.world (.error e) w' →
      e = .exit (-1) ∧ TooLong c ∧ Reserving σ.live σ.world w' := fun hc hr =>
    wp_iff_runs.mp (h.ok.does hP hc) _ _ hr
  refine ⟨⟨hmem.nodup, fun p _ q _ i j hi hj hs => hmem.inj p q i j hi hj hs⟩, fun p hp => ?_,
    fun s hs r w' hr => ?_, fun p i hp hi t ht => ?_, fun p i hp hi r w' hr => ?_,
    fun c hh hc hclose r w' hr t ht => ?_, fun c _ hc e w' hr => ?_⟩
  · obtain ⟨i, hi⟩ := h.ok.openInode hp
    exact ⟨(hmem.listed p).mpr ⟨i, hi⟩, i, hi, h.ok.count p i hi⟩
  · cases r with
    | error e => exact (hstops (c := .open s) hs hr).2.1.elim
    | ok a =>
      obtain ⟨p, rfl, ho⟩ := hruns (c := .open s) hs hr
      refine ⟨p, rfl, fun q i _ hi hsec => ?_⟩
      rcases ho.inode with ⟨j, hj, hjs, _⟩ | ⟨hno, _, _⟩
      · exact hmem.inj p q j i hj hi (hjs.trans hsec.symm)
      · rw [← hsec, hmem.openInode_of_heap hi] at hno
        exact absurd hno (by simp)
  · exact h.ok.inodes.owns_allocated (h.ok.inodes.openLive p i hi) ht
  · cases r with
    | error e => exact (hstops (c := .close p) hp hr).2.1.elim
    | ok a =>
      obtain ⟨j, hj, hcase⟩ := hruns (c := .close p) hp hr
      obtain rfl : i = j := Option.some.inj (hi.symm.trans hj)
      refine ⟨rfl, fun t => ?_⟩
      rcases hcase with ⟨hmore, rfl⟩ | ⟨_, _, hrem, rfl⟩ | ⟨hone, h0, hrem, hdel⟩
      · show Allocated σ.world t ↔ _
        have : σ.held p ≠ 1 := by omega
        simp [this]
      · show Allocated σ.world t ↔ _
        simp [hrem]
      · rw [hdel.allocated t, h.ok.inodes.sectors_iff h.settled hi h0]
        simp [hone, hrem]
  · cases r with
    | error e => exact (hstops hc hr).2.2.keep.mono t ht
    | ok a =>
      have hd := hruns hc hr
      cases c with
      | allocate =>
        cases a with
        | none =>
          obtain rfl : w' = σ.world := hd
          exact ht
        | some s => exact ((show Handed σ.live σ.world s w' from hd).alloc t).mpr (.inl ht)
      | create s len isDir =>
        cases a with
        | false => exact (show Reserving σ.live σ.world w' from hd).keep.mono t ht
        | true => exact (show Created σ.live σ.world s len isDir w' from hd).keep.mono t ht
      | «open» s =>
        obtain ⟨p, rfl, ho⟩ := hd
        rcases ho.inode with ⟨i, _, _, rfl⟩ | ⟨_, _, rfl⟩ <;> exact ht
      | reopen p =>
        obtain ⟨rfl, i, _, ho⟩ := hd
        rcases ho.inode with ⟨i, _, _, rfl⟩ | ⟨_, _, rfl⟩ <;> exact ht
      | remove p =>
        obtain ⟨i, _, _, _, rfl⟩ := hd
        exact ht
      | close p => exact absurd rfl (hclose p)
      | write p buffer size offset => exact hh.elim
  · exact ⟨(hstops hc hr).1, (hstops hc hr).2.1⟩

theorem Started.sound {σ₀ : Layer} {cs : List Call} (h₀ : Started .memory σ₀)
    (h : Trace (HandleStep .memory) σ₀ cs σ) : σ.Sound :=
  h.invariant (I := Sound) (fun _ _ _ hI hs => hI.step Policy.memory_noFail hs)
    ⟨h₀.ok Policy.memory_noFail, h₀.settled Policy.memory_noFail⟩

/-- **Deferred deletion.**  In every run of calls that create, open, remove and close inodes, from a
freshly formatted file system and with memory for every allocation: no two inodes in memory have one
sector, all handles on a sector are on one inode, a removed inode keeps its sectors until its last
handle is closed and then loses exactly these, nothing fails, and an inode that no call of a further
run removes keeps its sectors. -/
theorem deletion_deferred {σ₀ : Layer} {cs : List Call} (h₀ : Started .memory σ₀)
    (h : Trace (HandleStep .memory) σ₀ cs σ) :
    DeletionDeferred .memory σ ∧
      ∀ s ∈ σ.live, ¬σ.Removed s → ∀ cs' σ',
        Trace (fun a c b => HandleStep .memory a c b ∧ ¬a.Removes c s) σ cs' σ' →
        s ∈ σ'.live ∧ ∀ t, Owns σ.world s t → Owns σ'.world s t ∧ Allocated σ'.world t := by
  have hP := Policy.memory_noFail
  have hsound : σ.Sound := h₀.sound h
  refine ⟨hsound.deferred hP, fun s hs hrem cs' σ' h' => ?_⟩
  have hrun := h'.relates
    (I := fun a : Layer => a.Sound ∧ s ∈ a.live ∧ ¬a.Removed s)
    (R := fun a b : Layer => b.Sound ∧ s ∈ b.live ∧ ∀ t, Owns b.world s t ↔ Owns a.world s t)
    (fun a ha => ⟨ha.1, ha.2.1, fun _ => Iff.rfl⟩)
    (fun a b c hab hbc => ⟨hbc.1, hbc.2.1, fun t => (hbc.2.2 t).trans (hab.2.2 t)⟩)
    (fun a c b ha hb => by
      obtain ⟨hlive, hr, howns⟩ := ha.1.keeps hP hb.1 ha.2.1 ha.2.2 hb.2
      have hb' := ha.1.step hP hb.1
      exact ⟨⟨hb', hlive, hr⟩, hb', hlive, howns⟩) ⟨hsound, hs, hrem⟩
  obtain ⟨hsound', hlive, howns⟩ := hrun
  exact ⟨hlive, fun t ht => ⟨(howns t).mpr ht,
    hsound'.ok.inodes.owns_allocated hlive ((howns t).mpr ht)⟩⟩

/-- The books of a freshly formatted device. -/
def started16 : Layer := ⟨formatted16, {1, 0}, ∅, fun _ => 0⟩

theorem started16_started : Started .memory started16 :=
  ⟨⟨_, newMachine_blank (by decide) (by decide), runs_formatted16⟩, rfl, rfl, fun _ => rfl⟩

/-- The state after a call that returns `a`, with memory for every allocation. -/
def next (σ : Layer) (c : Call) (a : c.Res) : Layer :=
  σ.after c a (runArray c.run plainEnv σ.world).2.2

theorem HandleStep.plain (σ : Layer) {c : Call} {a : c.Res} (hh : Handles c) (hc : σ.Enabled c)
    (h : (runArray c.run plainEnv σ.world).1 = .ok a) : HandleStep .memory σ c (σ.next c a) :=
  ⟨hh, .returns hc (runs_plain _ _ h)⟩

/-- The state after an inode has been created and opened. -/
def opened : Layer :=
  ((started16.next .allocate (some 4)).next (.create 4 600 false) true).next (.open 4) (some 3)

/-- What the calls return, one after the other. -/
theorem answers :
    (runArray (Call.run .allocate) plainEnv started16.world).1 = .ok (some 4) ∧
    (runArray (Call.run (.create 4 600 false)) plainEnv (started16.next .allocate (some 4)).world).1 = .ok true ∧
    (runArray (Call.run (.open 4)) plainEnv
      ((started16.next .allocate (some 4)).next (.create 4 600 false) true).world).1 = .ok (some 3) ∧
    (runArray (Call.run (.remove 3)) plainEnv opened.world).1 = .ok () ∧
    (runArray (Call.run (.close 3)) plainEnv (opened.next (.remove 3) ()).world).1 = .ok () := by
  decide +kernel

theorem trace_opened :
    Trace (HandleStep .memory) started16 [.allocate, .create 4 600 false, .open 4] opened :=
  .cons (.plain _ trivial trivial answers.1)
    (.cons (.plain _ trivial ⟨Set.mem_insert 4 ∅, by decide, by decide⟩ answers.2.1)
      (.single (.plain _ trivial (Set.mem_insert 4 _) answers.2.2.1)))

/-- The run that creates, opens, removes and closes an inode. -/
theorem deletion_deferred_sample : ∃ σ, Trace (HandleStep .memory) started16
    [.allocate, .create 4 600 false, .open 4, .remove 3, .close 3] σ ∧ DeletionDeferred .memory σ := by
  have h₄ : HandleStep .memory opened (.remove 3) (opened.next (.remove 3) ()) :=
    .plain _ trivial Nat.one_pos answers.2.2.2.1
  have h₅ : HandleStep .memory (opened.next (.remove 3) ()) (.close 3)
      ((opened.next (.remove 3) ()).next (.close 3) ()) := .plain _ trivial Nat.one_pos answers.2.2.2.2
  have hrun := trace_opened.append (.cons h₄ (.single h₅))
  exact ⟨_, hrun, (deletion_deferred started16_started hrun).1⟩

/-- The sector of an inode that is never removed: `inode_create` on the root directory's sector takes
its data sector away. -/
theorem inodeCreate_on_live : ∃ w, Runs .memory (inodeCreate 1 0 false) formatted16 (.ok true) w ∧
    Owns formatted16 1 3 ∧ ¬Owns w 1 3 := by
  have hcreate : (runArray (inodeCreate 1 0 false) plainEnv formatted16).1 = .ok true ∧
      (page formatted16 1).word 2 = 3 ∧
      ∀ k, k < 125 → (page (runArray (inodeCreate 1 0 false) plainEnv formatted16).2.2 1).word k = 0 := by
    decide +kernel
  obtain ⟨hok, hroot, hwords⟩ := hcreate
  refine ⟨_, runs_plain _ _ hok, .inr ⟨2, [], ⟨by decide, by decide, by simp⟩, hroot, by decide⟩, ?_⟩
  rintro (h | ⟨k, π, hn, heq, h0⟩)
  · exact absurd h (by decide)
  · rw [hwords k hn.root, sec_zero] at heq
    exact absurd heq (by decide)

end Layer

end Pintos.Filesys
