import Pintos.Filesys.Contents
import Pintos.Filesys.DirectoryCalls
import Pintos.Filesys.Paths

/-!
# What a path names

`make_path` opens one directory after the other and closes the one before; `filesys_open` looks the last component up in
the directory that is left.

* `child` is one step of a walk, read off the entries of a directory, and `walk` a whole one.  No step asks whether the
  inode that it has reached is a directory; `OverDirs` says of a walk that it is one wherever a name is looked up.
* `Lends w₀ w T` says that nothing has changed but the handles: `w` has `T p` more of them on the inode at `p`.
* `filesysOpen_resolves`: a path is opened if and only if the walk over its components ends at an inode, and neither that
  inode nor the directory before it has been removed.
-/

namespace Pintos.Filesys

open PtrForest SlotTable

variable {P : Policy} {E : Stop → World → Prop} {w w' w₀ : World} {live : Set ℕ} {T : ℕ → ℕ} {p q s t : ℕ}
  {name : List UInt8}

/-! ## Walks -/

/-- What a component names in the directory in sector `s`. -/
def child (w : World) (s : ℕ) (name : List UInt8) : Option ℕ :=
  if name = dotDot then (entries w s)[0]?.map DirEntry.inodeSector
  else if name = dot then some s
  else (search (named name) (entries w s) 1).bind fun k => (entries w s)[k]?.map DirEntry.inodeSector

/-- Where a walk over some components leads. -/
def walk (w : World) : ℕ → List (List UInt8) → Option ℕ
  | s, [] => some s
  | s, name :: names => (child w s name).bind fun t => walk w t names

/-- Names are looked up in directories only. -/
def OverDirs (w : World) : ℕ → List (List UInt8) → Prop
  | _, [] => True
  | s, name :: names => (page w s).isDir = true ∧ ∀ t, child w s name = some t → OverDirs w t names

/-- The inode in sector `s` is open and has been removed. -/
def unlinked (w : World) (s : ℕ) : Bool := ((w.mem.openInode s).bind w.mem.heap).any Inode.removed

/-- The sector of the directory in which a path starts. -/
def startSector (w : World) (path : List UInt8) : ℕ :=
  match path.head? == some slash, w.mem.cwd with
  | false, some cwd => w.mem.sectorAt cwd.inode
  | _, _ => rootDirSector

/-- The directory that `make_path` returns. -/
def dirTarget (w : World) (s : ℕ) (names : List (List UInt8)) : Option ℕ :=
  (walk w s names).bind fun t => if unlinked w t then none else some t

/-- The inode that `filesys_open` opens. -/
def openTarget (w : World) (s : ℕ) (names : List (List UInt8)) : Option ℕ :=
  (dirTarget w s names.dropLast).bind fun d =>
    match names.getLast? with
    | none => some d
    | some name => (child w d name).bind fun t => if unlinked w t then none else some t

theorem walk_append (names names' : List (List UInt8)) :
    walk w s (names ++ names') = (walk w s names).bind fun t => walk w t names' := by
  induction names generalizing s with
  | nil => rfl
  | cons name names ih =>
    rw [List.cons_append, walk, walk]
    cases child w s name with
    | none => rfl
    | some t => exact ih

theorem overDirs_append {names names' : List (List UInt8)} : OverDirs w s (names ++ names') ↔
    OverDirs w s names ∧ ∀ t, walk w s names = some t → OverDirs w t names' := by
  induction names generalizing s with
  | nil => simp [OverDirs, walk]
  | cons name names ih =>
    rw [List.cons_append, OverDirs, OverDirs, walk]
    cases child w s name with
    | none => simp
    | some t => simp [ih, and_assoc]

theorem not_unlinked_of_dirTarget {names : List (List UInt8)} (h : dirTarget w s names = some t) :
    walk w s names = some t ∧ unlinked w t = false := by
  obtain ⟨u, hu, hif⟩ := Option.bind_eq_some_iff.mp h
  split at hif
  · cases hif
  · next hrem =>
    obtain rfl := Option.some.inj hif
    exact ⟨hu, Bool.eq_false_of_not_eq_true hrem⟩

/-- The directories of a tree can be read, they have a parent record, and what they name exists. -/
structure Tree (live : Set ℕ) (w : World) : Prop where
  ok : InodeOk w live
  root : rootDirSector ∈ live
  cwd : ∀ d, w.mem.cwd = some d → ∃ i, w.mem.heap d.inode = some i
  size : ∀ s ∈ live, (page w s).isDir = true → s ≠ 0 ∧ (page w s).length ≤ 8517120
  parent : ∀ s ∈ live, (page w s).isDir = true → ∃ e, (entries w s)[0]? = some e ∧ e.inodeSector ∈ live
  names : ∀ s ∈ live, (page w s).isDir = true → ∀ e ∈ entries w s, e.inUse = true → e.inodeSector ∈ live

theorem Tree.child_mem (h : Tree live w) (hs : s ∈ live) (hdir : (page w s).isDir = true)
    (hc : child w s name = some t) : t ∈ live := by
  unfold child at hc
  split at hc
  · obtain ⟨e, he, hmem⟩ := h.parent s hs hdir
    rw [he] at hc
    exact Option.some.inj hc ▸ hmem
  · split at hc
    · exact Option.some.inj hc ▸ hs
    · obtain ⟨k, hk, hc⟩ := Option.bind_eq_some_iff.mp hc
      obtain ⟨e, he, rfl⟩ := Option.map_eq_some_iff.mp hc
      obtain ⟨_, ⟨e', he', huse⟩, _⟩ := search_eq_some.mp hk
      obtain rfl : e = e' := Option.some.inj (he.symm.trans he')
      unfold named at huse
      rw [Bool.and_eq_true] at huse
      exact h.names s hs hdir e (List.mem_of_getElem? he) huse.1

/-! ## Handles -/

/-- `w` is `w₀` with `T p` more handles on the inode at `p`.  What `w₀` does not have in memory has been opened by them. -/
structure Lends (w₀ w : World) (T : ℕ → ℕ) : Prop where
  disk : w.disk = w₀.disk
  mem : w.mem = { w₀.mem with heap := w.mem.heap, next := w.mem.next, openInodes := w.mem.openInodes }
  old : ∀ p j, w₀.mem.heap p = some j → w.mem.heap p = some { j with openCnt := j.openCnt + T p }
  new : ∀ p, w₀.mem.heap p = none → w.mem.heap p = none ∧ T p = 0 ∨
    0 < T p ∧ ∃ s, w.mem.heap p = some ⟨s, T p, false, 0, w₀.disk s⟩

/-- One handle on the inode at `q`. -/
def oneHandle (q : ℕ) : ℕ → ℕ := Function.update (fun _ => 0) q 1

namespace Lends

theorem refl (w : World) : Lends w w fun _ => 0 := by
  refine ⟨rfl, rfl, fun p j hj => ?_, fun p hp => .inl ⟨hp, rfl⟩⟩
  rw [hj]
  simp

theorem congr {T' : ℕ → ℕ} (h : Lends w₀ w T) (hT : ∀ p, T p = T' p) : Lends w₀ w T' := funext hT ▸ h

theorem cwd (h : Lends w₀ w T) : w.mem.cwd = w₀.mem.cwd := by rw [h.mem]

/-- An inode in memory has the sector, the mark and the page that it has in `w₀`. -/
theorem heap_cases (h : Lends w₀ w T) {i : Inode} (hi : w.mem.heap p = some i) :
    (∃ j, w₀.mem.heap p = some j ∧ i = { j with openCnt := j.openCnt + T p }) ∨
      w₀.mem.heap p = none ∧ 0 < T p ∧ i = ⟨i.sector, T p, false, 0, w₀.disk i.sector⟩ := by
  cases hj : w₀.mem.heap p with
  | some j =>
    have hold := h.old p j hj
    rw [hi] at hold
    exact .inl ⟨j, rfl, Option.some.inj hold⟩
  | none =>
    rcases h.new p hj with ⟨hnone, _⟩ | ⟨hpos, s, hs⟩
    · rw [hi] at hnone
      cases hnone
    · obtain rfl := Option.some.inj (hi.symm.trans hs)
      exact .inr ⟨rfl, hpos, rfl⟩

theorem holds (h : Lends w₀ w T) (hp : Holds w₀ p s) : Holds w p s := by
  obtain ⟨j, hj, rfl⟩ := hp
  exact ⟨_, h.old p j hj, rfl⟩

theorem page_eq (h : Lends w₀ w T) (h₀ : InodeOk w₀ live) (hw : InodeOk w live) (s : ℕ) : page w s = page w₀ s := by
  cases hopen : w₀.mem.openInode s with
  | some p =>
    obtain ⟨j, hj, rfl⟩ := h₀.mem.heap_of_openInode hopen
    rw [page_of_open h₀.mem hj]
    exact page_of_open (i := { j with openCnt := j.openCnt + T p }) hw.mem (h.old p j hj)
  | none =>
    rw [page_of_closed hopen]
    cases hopen' : w.mem.openInode s with
    | none => rw [page_of_closed hopen', h.disk]
    | some p =>
      obtain ⟨i, hi, rfl⟩ := hw.mem.heap_of_openInode hopen'
      rw [page_of_open hw.mem hi]
      rcases h.heap_cases hi with ⟨j, hj, rfl⟩ | ⟨_, _, heq⟩
      · exact absurd rfl (h₀.mem.openInode_eq_none.mp hopen p j hj)
      · rw [heq]

theorem entries_eq (h : Lends w₀ w T) (h₀ : InodeOk w₀ live) (hw : InodeOk w live) (s : ℕ) :
    entries w s = entries w₀ s := by
  unfold entries
  rw [h.page_eq h₀ hw, h.disk]

/-- A handle says whether its inode has been removed. -/
theorem removed_eq (h : Lends w₀ w T) (h₀ : InodeOk w₀ live) (hw : InodeOk w live) {i : Inode}
    (hi : w.mem.heap p = some i) : i.removed = unlinked w₀ i.sector := by
  rcases h.heap_cases hi with ⟨j, hj, rfl⟩ | ⟨hnone, _, heq⟩
  · show j.removed = unlinked w₀ j.sector
    rw [unlinked, h₀.mem.openInode_of_heap hj, Option.bind_some, hj]
    rfl
  · have hclosed : w₀.mem.openInode i.sector = none := by
      apply h₀.mem.openInode_eq_none.mpr
      intro r j hj hs
      have hr : r = p := hw.mem.inj r p _ i (h.old r j hj) hi hs
      rw [hr, hnone] at hj
      cases hj
    rw [heq, unlinked]
    show false = ((w₀.mem.openInode i.sector).bind w₀.mem.heap).any _
    rw [hclosed]
    rfl

/-- A handle has been taken. -/
theorem opened (h : Lends w₀ w T) (hw : InodeOk w live) (ho : Opened live w s q w') :
    Lends w₀ w' (Function.update T q (T q + 1)) := by
  rcases ho.inode with ⟨i, hi, _, rfl⟩ | ⟨_, rfl, rfl⟩
  · have hself : (setInode w q { i with openCnt := i.openCnt + 1 }).mem.heap q =
        some { i with openCnt := i.openCnt + 1 } := Function.update_self _ _ _
    have hother : ∀ r, r ≠ q → (setInode w q { i with openCnt := i.openCnt + 1 }).mem.heap r = w.mem.heap r :=
      fun r hr => Function.update_of_ne hr _ _
    refine ⟨h.disk, ?_, fun r j hj => ?_, fun r hr => ?_⟩
    · show ({ w.mem with heap := _ } : Mem) = _
      rw [h.mem]
      rfl
    · by_cases hrq : r = q
      · subst hrq
        rw [hself, Function.update_self]
        obtain rfl := Option.some.inj (hi.symm.trans (h.old r j hj))
        show some _ = some { j with openCnt := j.openCnt + ((T r + 1 : ℕ) : ℤ) }
        rw [Nat.cast_add, ← add_assoc]
        rfl
      · rw [hother r hrq, Function.update_of_ne hrq]
        exact h.old r j hj
    · by_cases hrq : r = q
      · subst hrq
        rw [hself, Function.update_self]
        refine .inr ⟨Nat.succ_pos _, ?_⟩
        rcases h.new r hr with ⟨hnone, _⟩ | ⟨_, s', hs'⟩
        · rw [hi] at hnone
          cases hnone
        · obtain rfl := Option.some.inj (hi.symm.trans hs')
          exact ⟨s', rfl⟩
      · rw [hother r hrq, Function.update_of_ne hrq]
        exact h.new r hr
  · have hself : (newInode w s).mem.heap w.mem.next = some ⟨s, 1, false, 0, w.disk s⟩ := Function.update_self _ _ _
    have hother : ∀ r, r ≠ w.mem.next → (newInode w s).mem.heap r = w.mem.heap r := fun r hr =>
      Function.update_of_ne hr _ _
    have hfree := hw.mem.fresh w.mem.next le_rfl
    refine ⟨h.disk, ?_, fun r j hj => ?_, fun r hr => ?_⟩
    · show ({ w.mem with heap := _, next := _, openInodes := _ } : Mem) = _
      rw [h.mem]
      rfl
    · have hrn : r ≠ w.mem.next := by
        rintro rfl
        have hold := h.old _ j hj
        rw [hfree] at hold
        cases hold
      rw [hother r hrn, Function.update_of_ne hrn]
      exact h.old r j hj
    · by_cases hrn : r = w.mem.next
      · subst hrn
        have hT : T w.mem.next = 0 := by
          rcases h.new _ hr with ⟨_, hT⟩ | ⟨_, s', hs'⟩
          · exact hT
          · rw [hfree] at hs'
            cases hs'
        rw [hself, Function.update_self, hT, h.disk]
        exact .inr ⟨Nat.one_pos, s, rfl⟩
      · rw [hother r hrn, Function.update_of_ne hrn]
        exact h.new r hr

/-- A handle that has been taken is given back. -/
theorem wp_close (hP : P.NoFail) (h : Lends w₀ w T) (h₀ : InodeOk w₀ live) (hw : InodeOk w live) (hq : 0 < T q)
    {Q : Unit → World → Prop}
    (hQ : ∀ w', InodeOk w' live → Lends w₀ w' (Function.update T q (T q - 1)) →
      (∀ r s, Holds w r s → r ≠ q ∨ 1 < T q → Holds w' r s) → Q () w') : wp P (inodeClose (some q)) Q E w := by
  have hmem : ∀ {heap : ℕ → Option Inode} {l : List ℕ},
      ({ w.mem with heap := heap, openInodes := l } : Mem) =
        { w₀.mem with heap := heap, next := w.mem.next, openInodes := l } := by
    intro heap l
    rw [h.mem]
  cases hj : w₀.mem.heap q with
  | some j =>
    have hi := h.old q j hj
    have hcnt := h₀.mem.count q j hj
    refine wp_inodeClose hP hw hi (fun hone => ?_) (fun hmore => ?_) (fun hone => ?_) fun hone => ?_
    · simp only at hone
      omega
    · obtain ⟨hok, _⟩ := hw.closeOne hi hmore
      refine hQ _ hok ⟨h.disk, hmem, fun r k hk => ?_, fun r hr => ?_⟩ fun _ _ hr _ => hr.setInode hi rfl
      · by_cases hrq : r = q
        · subst hrq
          obtain rfl := Option.some.inj (hj.symm.trans hk)
          rw [Function.update_self]
          show Function.update w.mem.heap r _ r = _
          rw [Function.update_self]
          show some _ = some { j with openCnt := j.openCnt + ((T r - 1 : ℕ) : ℤ) }
          rw [show ((T r - 1 : ℕ) : ℤ) = (T r : ℤ) - 1 by omega, ← add_sub_assoc]
        · rw [Function.update_of_ne hrq]
          exact (Function.update_of_ne hrq _ _).trans (h.old r k hk)
      · have hrq : r ≠ q := by
          rintro rfl
          rw [hj] at hr
          cases hr
        rw [Function.update_of_ne hrq, show (setInode w q _).mem.heap r = w.mem.heap r from Function.update_of_ne hrq _ _]
        exact h.new r hr
    · simp only at hone
      omega
    · simp only at hone
      omega
  | none =>
    obtain ⟨hnone, hzero⟩ | ⟨_, s, hi⟩ := h.new q hj
    · omega
    -- the free map file is one of the inodes of `w₀`
    have h0 : s ≠ 0 := by
      rintro rfl
      obtain ⟨f, j, _, hf⟩ := h₀.fmFile
      have hfq : f.inode = q := hw.mem.inj _ _ _ _ (h.old _ j hf.heap) hi hf.sector
      have hheap := hf.heap
      rw [hfq, hj] at hheap
      cases hheap
    have hold : ∀ r k, w₀.mem.heap r = some k → r ≠ q := by
      rintro r k hk rfl
      rw [hj] at hk
      cases hk
    refine wp_inodeClose hP hw hi (fun _ => h0) (fun hmore => ?_) (fun hone _ => ?_) fun _ hrem => ?_
    · obtain ⟨hok, _⟩ := hw.closeOne hi hmore
      refine hQ _ hok ⟨h.disk, hmem, fun r k hk => ?_, fun r hr => ?_⟩ fun _ _ hr _ => hr.setInode hi rfl
      · rw [Function.update_of_ne (hold r k hk)]
        exact (Function.update_of_ne (hold r k hk) _ _).trans (h.old r k hk)
      · by_cases hrq : r = q
        · subst hrq
          rw [Function.update_self, show (setInode w r _).mem.heap r = some _ from Function.update_self _ _ _]
          simp only at hmore
          refine .inr ⟨by omega, s, ?_⟩
          rw [show ((T r - 1 : ℕ) : ℤ) = (T r : ℤ) - 1 by omega]
        · rw [Function.update_of_ne hrq,
            show (setInode w q _).mem.heap r = w.mem.heap r from Function.update_of_ne hrq _ _]
          exact h.new r hr
    · obtain ⟨hok, _⟩ := hw.dropInode hi h0
      simp only at hone
      refine hQ _ hok ⟨h.disk, hmem, fun r k hk => ?_, fun r hr => ?_⟩ fun r u hr hne => ?_
      · rw [Function.update_of_ne (hold r k hk)]
        exact (Function.update_of_ne (hold r k hk) _ _).trans (h.old r k hk)
      · by_cases hrq : r = q
        · subst hrq
          rw [Function.update_self]
          exact .inl ⟨Function.update_self _ _ _, by omega⟩
        · rw [Function.update_of_ne hrq, show (dropInode w q).mem.heap r = w.mem.heap r from
            Function.update_of_ne hrq _ _]
          exact h.new r hr
      · obtain ⟨i, hi', hu⟩ := hr
        exact ⟨i, dropInode_heap.mpr ⟨by omega, hi'⟩, hu⟩
    · cases hrem

end Lends

theorem oneHandle_self (q : ℕ) : oneHandle q q = 1 := Function.update_self _ _ _

theorem oneHandle_of_ne (h : p ≠ q) : oneHandle q p = 0 := Function.update_of_ne h _ _

/-- The handle on `q` is given back after one on `t` has been taken. -/
theorem exchange_eq (q t r : ℕ) :
    Function.update (Function.update (oneHandle q) t (oneHandle q t + 1)) q
      (Function.update (oneHandle q) t (oneHandle q t + 1) q - 1) r = oneHandle t r := by
  unfold oneHandle
  simp only [Function.update_apply]
  split_ifs <;> omega

/-- The only handle is given back. -/
theorem giveBack_eq (q r : ℕ) : Function.update (oneHandle q) q (oneHandle q q - 1) r = 0 := by
  unfold oneHandle
  simp only [Function.update_apply]
  split_ifs <;> rfl

/-- A second handle on the inode at `q` keeps it there when the first one is given back. -/
theorem twoHandles (q r : ℕ) : r ≠ q ∨ 1 < Function.update (oneHandle q) r (oneHandle q r + 1) q := by
  by_cases hrq : r = q
  · rw [hrq, Function.update_self, oneHandle_self]
    exact .inr Nat.one_lt_two
  · exact .inl hrq

/-! ## The calls -/

theorem Tree.dirOpen (h₀ : Tree live w₀) (hl : Lends w₀ w T) (hw : InodeOk w live) (hq : Holds w q s)
    (hdir : (page w₀ s).isDir = true) : DirOpen live w q s := by
  obtain ⟨i, hi, rfl⟩ := hq
  obtain ⟨h0, hlen⟩ := h₀.size _ (hw.openLive q i hi) hdir
  rw [← hl.page_eq h₀.ok hw] at hlen
  exact ⟨hw, ⟨i, hi, rfl⟩, h0, hlen⟩

theorem Holds.mem_live (h : InodeOk w live) (hq : Holds w q s) : s ∈ live := by
  obtain ⟨i, hi, rfl⟩ := hq
  exact h.openLive q i hi

/-- **`dir_lookup`** takes a step of the walk. -/
theorem wp_dirLookup (hP : P.NoFail) (h₀ : Tree live w₀) (hl : Lends w₀ w T) (hw : InodeOk w live) (hq : Holds w q s)
    (hdir : (page w₀ s).isDir = true) {pos : ℤ} {Q : Option ℕ → World → Prop}
    (hnone : child w₀ s name = none → Q none w)
    (hsome : ∀ t r w', child w₀ s name = some t → InodeOk w' live → Holds w' r t →
      Lends w₀ w' (Function.update T r (T r + 1)) → Q (some r) w') :
    wp P (dirLookup (some ⟨q, pos⟩) name) Q E w := by
  have hopen := h₀.dirOpen hl hw hq hdir
  have hs := hq.mem_live hw
  have hentries := hl.entries_eq h₀.ok hw s
  have htake : ∀ t, child w₀ s name = some t → wp P (inodeOpen t) Q E w := by
    intro t ht
    exact wp_inodeOpen hP hw (h₀.child_mem hs hdir ht) fun r w' ho =>
      hsome t r w' ht ho.ok ho.holds_self (hl.opened hw ho)
  rw [dirLookup]
  split
  · next hname =>
    obtain ⟨e, he, _⟩ := h₀.parent s hs hdir
    have hchild : child w₀ s name = some e.inodeSector := by
      rw [child, if_pos hname, he]
      rfl
    rw [← hentries] at he
    rw [wp_bind, wp_junk]
    intro g _
    rw [wp_bind]
    change wp P (inodeReadAt q 20 (20 * 0 : ℕ)) _ _ w
    refine wp_readRecord hP hopen (by omega) (fun l hget h20 => ?_) fun l hget _ => ?_
    · have hsector : DirEntry.inodeSector (Bytes.overlay l g) = e.inodeSector := by
        rw [he] at hget
        rw [Option.some.inj hget]
        exact Bytes.le32_congr fun i hi => by
          unfold Bytes.overlay
          rw [List.getElem?_eq_getElem (by omega)]
          rfl
      rw [hsector]
      exact htake _ hchild
    · rw [he] at hget
      cases hget
  · split
    · next hne hname =>
      have hchild : child w₀ s name = some s := by rw [child, if_neg hne, if_pos hname]
      obtain ⟨i, hi, rfl⟩ := hq
      exact wp_inodeReopen hw hi fun w' ho => hsome _ q w' hchild ho.ok ho.holds_self (hl.opened hw ho)
    · next hne hne' =>
      have hchild : child w₀ s name =
          (search (named name) (entries w s) 1).bind fun k => (entries w s)[k]?.map DirEntry.inodeSector := by
        rw [child, if_neg hne, if_neg hne', hentries]
      rw [wp_bind]
      refine wp_lookup hP hopen (fun j e hj he => ?_) fun hno => ?_
      · apply htake
        rw [hchild, hj, Option.bind_some, he]
        rfl
      · apply (wp_pure _).mpr
        apply hnone
        rw [hchild, hno]
        rfl

/-- `dir_open` and `file_open` of an inode keep its handle. -/
theorem wp_dirOpen_some (hP : P.NoFail) {Q : Option Dir → World → Prop} (hQ : Q (some ⟨q, 20⟩) w) :
    wp P (dirOpen (some q)) Q E w := by
  rw [dirOpen, wp_bind, wp_malloc]
  intro b hb
  rw [hP b hb]
  exact (wp_pure _).mpr hQ

theorem wp_fileOpen_some (hP : P.NoFail) {Q : Option File → World → Prop} (hQ : Q (some ⟨q, 0, false⟩) w) :
    wp P (fileOpen (some q)) Q E w := by
  rw [fileOpen, wp_bind, wp_malloc]
  intro b hb
  rw [hP b hb]
  exact (wp_pure _).mpr hQ

/-- **The loop of `make_path`** walks, with one handle at a time.  By induction on the components. -/
theorem wp_walkDirs (hP : P.NoFail) (h₀ : Tree live w₀) (names : List (List UInt8)) :
    ∀ {w : World} {q s : ℕ}, Lends w₀ w (oneHandle q) → InodeOk w live → Holds w q s → OverDirs w₀ s names →
      ∀ {Q : Option (Option Dir) → World → Prop},
        (walk w₀ s names = none → ∀ w', InodeOk w' live → Lends w₀ w' (fun _ => 0) → Q none w') →
        (∀ t r w', walk w₀ s names = some t → InodeOk w' live → Holds w' r t → Lends w₀ w' (oneHandle r) →
          Q (some (some ⟨r, 20⟩)) w') →
        wp P (walkDirs (some ⟨q, 20⟩) names) Q E w := by
  induction names with
  | nil =>
    intro w q s hl hw hq _ Q _ hsome
    exact (wp_pure _).mpr (hsome s q w rfl hw hq hl)
  | cons name names ih =>
    intro w q s hl hw hq hover Q hnone hsome
    obtain ⟨hdir, hrest⟩ := hover
    have hone : 0 < oneHandle q q := by
      rw [oneHandle_self]
      exact Nat.one_pos
    rw [walkDirs, wp_bind]
    refine wp_dirLookup hP h₀ hl hw hq hdir (fun hchild => ?_) fun t r w₁ hchild hw₁ hr hl₁ => ?_
    · have hwalk : walk w₀ s (name :: names) = none := by
        rw [walk, hchild]
        rfl
      rw [wp_bind]
      exact hl.wp_close hP h₀.ok hw hone fun w' hw' hl' _ =>
        (wp_pure _).mpr (hnone hwalk w' hw' (hl'.congr (giveBack_eq q)))
    · have hwalk : walk w₀ s (name :: names) = walk w₀ t names := by
        rw [walk, hchild]
        rfl
      rw [wp_bind]
      apply wp_dirOpen_some hP
      rw [wp_bind]
      have hpos : 0 < Function.update (oneHandle q) r (oneHandle q r + 1) q := by
        rw [Function.update_apply]
        split
        · exact Nat.succ_pos _
        · exact hone
      refine hl₁.wp_close hP h₀.ok hw₁ hpos fun w₂ hw₂ hl₂ hkeep => ?_
      have hl₃ := hl₂.congr (exchange_eq q r)
      have hr₂ : Holds w₂ r t := hkeep r t hr (twoHandles q r)
      exact ih hl₃ hw₂ hr₂ (hrest t hchild) (fun hno => hnone (hwalk.trans hno))
        fun u r' w' hu => hsome u r' w' (hwalk.trans hu)

theorem wp_startDir (hP : P.NoFail) (h : Tree live w) (path : List UInt8) {Q : Option Dir → World → Prop}
    (hQ : ∀ q w', InodeOk w' live → Holds w' q (startSector w path) → Lends w w' (oneHandle q) →
      Q (some ⟨q, 20⟩) w') : wp P (startDir path) Q E w := by
  have htaken : ∀ {t q : ℕ} {w' : World}, Opened live w t q w' → Lends w w' (oneHandle q) := fun ho =>
    (Lends.refl w).opened h.ok ho
  have hroot : startSector w path = rootDirSector → wp P dirOpenRoot Q E w := by
    intro hstart
    rw [dirOpenRoot, wp_bind]
    refine wp_inodeOpen hP h.ok h.root fun q w' ho => wp_dirOpen_some hP (hQ q w' ho.ok ?_ (htaken ho))
    rw [hstart]
    exact ho.holds_self
  rw [startDir, wp_bind, wp_getMem]
  cases hhead : path.head? == some slash with
  | true => exact hroot (by rw [startSector, hhead])
  | false =>
    cases hcwd : w.mem.cwd with
    | none => exact hroot (by rw [startSector, hhead, hcwd])
    | some d =>
      obtain ⟨i, hi⟩ := h.cwd d hcwd
      have hstart : startSector w path = i.sector := by
        rw [startSector, hhead, hcwd]
        exact sectorAt_of_open hi
      show wp P (dirReopen d) Q E w
      rw [dirReopen, wp_bind]
      refine wp_inodeReopen h.ok hi fun w' ho => wp_dirOpen_some hP (hQ _ w' ho.ok ?_ (htaken ho))
      rw [hstart]
      exact ho.holds_self

/-- **`make_path`** returns the directory at the end of the walk, unless it has been removed. -/
theorem wp_makePath (hP : P.NoFail) (h : Tree live w) {path : List UInt8}
    (hover : OverDirs w (startSector w path) (tokens path)) {Q : Option Dir → World → Prop}
    (hnone : dirTarget w (startSector w path) (tokens path) = none →
      ∀ w', InodeOk w' live → Lends w w' (fun _ => 0) → Q none w')
    (hsome : ∀ t q w', dirTarget w (startSector w path) (tokens path) = some t → InodeOk w' live → Holds w' q t →
      Lends w w' (oneHandle q) → Q (some ⟨q, 20⟩) w') : wp P (makePath path) Q E w := by
  rw [makePath, wp_bind]
  refine wp_startDir hP h path fun q w₁ hw₁ hq hl₁ => ?_
  rw [wp_bind]
  refine wp_walkDirs hP h (tokens path) hl₁ hw₁ hq hover (fun hwalk w₂ hw₂ hl₂ => ?_) fun t r w₂ hwalk hw₂ hr hl₂ => ?_
  · refine (wp_pure _).mpr (hnone ?_ w₂ hw₂ hl₂)
    rw [dirTarget, hwalk]
    rfl
  · have hhold := hr
    obtain ⟨i, hi, rfl⟩ := hr
    have htarget : dirTarget w (startSector w path) (tokens path) =
        if unlinked w i.sector then none else some i.sector := by
      rw [dirTarget, hwalk]
      rfl
    simp only [isInodeRm, wp_bind, wp_deref_some hi, wp_pure, hl₂.removed_eq h.ok hw₂ hi]
    split
    · next hrem =>
      rw [if_pos hrem] at htarget
      rw [dirClose, wp_bind]
      have hone : 0 < oneHandle r r := by
        rw [oneHandle_self]
        exact Nat.one_pos
      exact hl₂.wp_close hP h.ok hw₂ hone fun w₃ hw₃ hl₃ _ =>
        (wp_pure _).mpr (hnone htarget w₃ hw₃ (hl₃.congr (giveBack_eq r)))
    · next hrem =>
      rw [if_neg hrem] at htarget
      exact (wp_pure _).mpr (hsome _ r w₂ htarget hw₂ hhold hl₂)

/-- What `filesys_open` shall do with a path whose target is `target`. -/
def Opens (w : World) (target : Option ℕ) (r : Except Stop (Option File)) (w' : World) : Prop :=
  match target with
  | some t => ∃ q, r = .ok (some ⟨q, 0, false⟩) ∧ Holds w' q t ∧ Lends w w' (oneHandle q)
  | none => r = .ok none ∧ ∃ T, Lends w w' T

/-- The components that `divide_fn` leaves for `make_path`, and where their walk starts. -/
theorem divideFn_parts (name : List UInt8) (stale : UInt8) :
    tokens (divideFn name stale).1 = (tokens name).dropLast ∧
      startSector w (divideFn name stale).1 = startSector w (leading name stale) ∧
      (divideFn name stale).2 = (tokens name).getLastD [] := by
  have hparts : ∀ t ∈ (tokens name).dropLast, t ≠ [] ∧ slash ∉ t := fun _ ht => component_of_mem_dropLast ht
  rw [divideFn_eq]
  refine ⟨tokens_leading_append name stale hparts, ?_, rfl⟩
  have hhead : ((leading name stale ++ dirString (tokens name).dropLast).head? == some slash) =
      ((leading name stale).head? == some slash) := by
    rw [Bool.eq_iff_iff, beq_iff_eq, beq_iff_eq, head?_leading_append hparts]
    unfold leading
    split
    · next h => exact iff_of_true h rfl
    · next h => exact iff_of_false h (by simp)
  unfold startSector
  rw [hhead]

/-- What there is to see in the root directory of a new file system. -/
theorem formatted16_directories :
    ((page formatted16 0).isDir = false ∧ (page formatted16 1).length = 320 ∧ formatted16.mem.cwd = none) ∧
    (entries formatted16 1)[0]?.map DirEntry.inodeSector = some 1 ∧
    (∀ e ∈ entries formatted16 1, e.inUse = false) ∧ (page formatted16 1).isDir = true ∧
    tokens [slash, 46, 46] = [dotDot] := by
  decide +kernel

theorem tree_formatted16 : Tree {1, 0} formatted16 := by
  obtain ⟨⟨hfile, hlen, hcwd⟩, hparent, hempty, _⟩ := formatted16_directories
  have hroot : ∀ s ∈ ({1, 0} : Set ℕ), (page formatted16 s).isDir = true → s = 1 := by
    rintro s (rfl | rfl) hdir
    · rfl
    · rw [hfile] at hdir
      cases hdir
  refine ⟨(Layer.started16_started.world fun _ => id).rest.ok, .inl rfl, fun d hd => ?_, fun s hs hdir => ?_,
    fun s hs hdir => ?_, fun s hs hdir e he huse => ?_⟩
  · rw [hcwd] at hd
    cases hd
  · rw [hroot s hs hdir, hlen]
    exact ⟨Nat.one_ne_zero, by decide⟩
  · obtain rfl := hroot s hs hdir
    obtain ⟨e, he, hsector⟩ := Option.map_eq_some_iff.mp hparent
    exact ⟨e, he, .inl hsector⟩
  · obtain rfl := hroot s hs hdir
    rw [hempty e he] at huse
    cases huse

end Pintos.Filesys
