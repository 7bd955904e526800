import Pintos.Library.Trace
import Pintos.Filesys.Mount

/-!
# The inode layer as a transition system

The callers of `filesys/inode.c` hold sectors that the free map has handed out and that shall become
headers (`spare`), and handles on open inodes (`handles`); the sectors in `live` have been made inodes
by `inode_create`.  A `Call` is one function call, `Layer.Enabled` says when the callers may make it,
and `Layer.after` keeps the books.  A call either returns or ends the process that made it, and the
others go on (`Layer.Step`).

`Layer.Ok` is the invariant: the inodes are well formed, the spare sectors belong to none of them, and
the count of every inode in memory is the number of its handles.
-/

namespace Pintos.Filesys

open PtrForest

variable {P : Policy}

/-- The inode layer together with what its callers have in their hands. -/
structure Layer where
  world : World
  live : Set ℕ
  spare : Set ℕ
  handles : ℕ → ℕ

inductive Call
  | allocate
  | create (sector : ℕ) (length : ℤ) (isDir : Bool)
  | open (sector : ℕ)
  | reopen (p : ℕ)
  | remove (p : ℕ)
  | close (p : ℕ)
  | write (p : ℕ) (buffer : ℕ → UInt8) (size offset : ℕ)

abbrev Call.Res : Call → Type
  | .allocate => Option ℕ
  | .create _ _ _ => Bool
  | .open _ => Option ℕ
  | .reopen _ => Option ℕ
  | .remove _ => Unit
  | .close _ => Unit
  | .write _ _ _ _ => ℤ

def Call.run : (c : Call) → Fs c.Res
  | .allocate => freeMapAllocate 1
  | .create s len isDir => inodeCreate s len isDir
  | .open s => inodeOpen s
  | .reopen p => inodeReopen (some p)
  | .remove p => inodeRemove p
  | .close p => inodeClose (some p)
  | .write p buffer size offset => inodeWriteAt p buffer size offset

namespace Layer

/-- The callers create an inode in a sector they have been handed out, open inodes that exist, and use
and close the handles they have. -/
def Enabled (σ : Layer) : Call → Prop
  | .allocate => True
  | .create s len _ => s ∈ σ.spare ∧ 0 ≤ len ∧ len < 2 ^ 31
  | .open s => s ∈ σ.live
  | .reopen p => 0 < σ.handles p
  | .remove p => 0 < σ.handles p
  | .close p => 0 < σ.handles p
  | .write p _ size offset => 0 < σ.handles p ∧ 0 < size ∧ offset + size ≤ 8517120 ∧
      ∀ i, σ.world.mem.heap p = some i → i.sector ≠ 0 ∧ i.data.length ≤ 8517120

/-- The file system's own handle, on the free map file. -/
def ownHandle (m : Mem) (p : ℕ) : ℕ := if m.freeMapFile.map File.inode = some p then 1 else 0

/-- The number of handles on the inode at `p`. -/
def held (σ : Layer) (p : ℕ) : ℕ := σ.handles p + ownHandle σ.world.mem p

def take (σ : Layer) (w : World) : Option ℕ → Layer
  | some p => { σ with world := w, handles := Function.update σ.handles p (σ.handles p + 1) }
  | none => { σ with world := w }

/-- Closing the last handle of a removed inode takes it out of `live`. -/
def liveAfterClose (σ : Layer) (p : ℕ) : Set ℕ :=
  match σ.world.mem.heap p with
  | some i => if i.removed = true ∧ σ.held p = 1 then σ.live \ {i.sector} else σ.live
  | none => σ.live

/-- The books after a call has returned. -/
def after (σ : Layer) : (c : Call) → c.Res → World → Layer
  | .allocate, some s, w => { σ with world := w, spare := insert s σ.spare }
  | .allocate, none, w => { σ with world := w }
  | .create s _ _, true, w => { σ with world := w, live := insert s σ.live, spare := σ.spare \ {s} }
  | .create _ _ _, false, w => { σ with world := w }
  | .open _, r, w => σ.take w r
  | .reopen _, r, w => σ.take w r
  | .remove _, _, w => { σ with world := w }
  | .close p, _, w =>
    { σ with
      world := w
      live := σ.liveAfterClose p
      handles := Function.update σ.handles p (σ.handles p - 1) }
  | .write _ _ _ _, _, w => { σ with world := w }

@[simp] theorem after_world (σ : Layer) (c : Call) (a : c.Res) (w : World) :
    (σ.after c a w).world = w := by
  cases c <;> first | rfl | (cases a <;> rfl)

/-- One call: it returns, or the process exits. -/
inductive Step (P : Policy) (σ : Layer) (c : Call) : Layer → Prop
  | returns {a : c.Res} {w : World} (enabled : σ.Enabled c) (runs : Runs P c.run σ.world (.ok a) w) :
      Step P σ c (σ.after c a w)
  | exits {status : ℤ} {w : World} (enabled : σ.Enabled c)
      (runs : Runs P c.run σ.world (.error (.exit status)) w) : Step P σ c { σ with world := w }

/-- The invariant. -/
structure Ok (σ : Layer) : Prop where
  inodes : InodeOk σ.world σ.live
  spare : ∀ s ∈ σ.spare, Allocated σ.world s ∧ ¬Owned σ.world σ.live s
  count : ∀ p i, σ.world.mem.heap p = some i → i.openCnt = σ.held p
  free : ∀ p, σ.world.mem.heap p = none → σ.held p = 0
  allow : ∀ p i, σ.world.mem.heap p = some i → i.denyWriteCnt = 0

variable {σ σ' : Layer} {w' : World} {p : ℕ} {i : Inode}

theorem Ok.openInode (h : σ.Ok) (hp : 0 < σ.handles p) : ∃ i, σ.world.mem.heap p = some i := by
  cases hi : σ.world.mem.heap p with
  | some i => exact ⟨i, rfl⟩
  | none =>
    have := h.free p hi
    unfold held at this
    omega

/-- A step that changes neither the handles nor the in-memory inodes, apart from one of them. -/
theorem Ok.of_heap (h : σ.Ok) {live spare : Set ℕ} (hok : InodeOk w' live)
    (hspare : ∀ s ∈ spare, Allocated w' s ∧ ¬Owned w' live s)
    (hfile : w'.mem.freeMapFile = σ.world.mem.freeMapFile)
    (hheap : ∀ q i', w'.mem.heap q = some i' → ∃ i, σ.world.mem.heap q = some i ∧
      i'.openCnt = i.openCnt ∧ i'.denyWriteCnt = i.denyWriteCnt)
    (hnone : ∀ q, w'.mem.heap q = none → σ.world.mem.heap q = none) :
    Ok { σ with world := w', live := live, spare := spare } := by
  have hheld : ∀ q, held { σ with world := w', live := live, spare := spare } q = σ.held q := fun q => by
    show σ.handles q + ownHandle w'.mem q = _
    unfold ownHandle
    rw [hfile]
    rfl
  refine ⟨hok, hspare, fun q i' hi' => ?_, fun q hq => ?_, fun q i' hi' => ?_⟩
  · obtain ⟨i, hi, hc, _⟩ := hheap q i' hi'
    rw [hheld, hc, h.count q i hi]
  · rw [hheld]
    exact h.free q (hnone q hq)
  · obtain ⟨i, hi, _, hd⟩ := hheap q i' hi'
    rw [hd, h.allow q i hi]

theorem Ok.of_same_heap (h : σ.Ok) {live spare : Set ℕ} (hok : InodeOk w' live)
    (hspare : ∀ s ∈ spare, Allocated w' s ∧ ¬Owned w' live s)
    (hfile : w'.mem.freeMapFile = σ.world.mem.freeMapFile) (hheap : w'.mem.heap = σ.world.mem.heap) :
    Ok { σ with world := w', live := live, spare := spare } :=
  h.of_heap hok hspare hfile (fun _ i' hi' => ⟨i', hheap ▸ hi', rfl, rfl⟩) fun _ hq => hheap ▸ hq

/-! ### What a call does -/

/-- What a call has done when it returns. -/
def Does (σ : Layer) : (c : Call) → c.Res → World → Prop
  | .allocate, some s, w' => Handed σ.live σ.world s w'
  | .allocate, none, w' => w' = σ.world
  | .create s len isDir, true, w' => Created σ.live σ.world s len isDir w'
  | .create _ _ _, false, w' => Reserving σ.live σ.world w'
  | .open s, r, w' => ∃ p, r = some p ∧ Opened σ.live σ.world s p w'
  | .reopen p, r, w' => r = some p ∧ ∃ i, σ.world.mem.heap p = some i ∧
      Opened σ.live σ.world i.sector p w'
  | .remove p, _, w' => ∃ i, σ.world.mem.heap p = some i ∧ InodeOk w' σ.live ∧
      Same σ.live σ.world w' ∧ w' = setInode σ.world p { i with removed := true }
  | .close p, _, w' => ∃ i, σ.world.mem.heap p = some i ∧
      (1 < σ.held p ∧ w' = setInode σ.world p { i with openCnt := i.openCnt - 1 } ∨
        σ.held p = 1 ∧ i.sector ≠ 0 ∧ i.removed = false ∧ w' = dropInode σ.world p ∨
        σ.held p = 1 ∧ i.sector ≠ 0 ∧ i.removed = true ∧ Deleted σ.live p i σ.world w')
  | .write p buffer size offset, r, w' => ∃ i d, σ.world.mem.heap p = some i ∧
      (r = size ∧ Wrote σ.live p i offset size buffer σ.world w' d ∨
        r = 0 ∧ NotWrote σ.live p i offset size σ.world w' d)

/-- The last handle of a caller is not the one on the free map file. -/
theorem Ok.sector_ne_zero (h : σ.Ok) (hp : 0 < σ.handles p) (hi : σ.world.mem.heap p = some i)
    (hone : σ.held p = 1) : i.sector ≠ 0 := by
  intro hz
  obtain ⟨f, j, hf, hj⟩ := h.inodes.fmFile
  have heq : f.inode = p := h.inodes.mem.inj _ _ j i hj.heap hi (hj.sector.trans hz.symm)
  unfold held ownHandle at hone
  rw [hf, Option.map_some, heq, if_pos rfl] at hone
  omega

/-- Creating an inode longer than the blocks of a page can be. -/
def TooLong : Call → Prop
  | .create _ len _ => 8517120 < len
  | _ => False

/-- **Every call does what it shall**, or ends the process while it reserves sectors for an inode that
is too long. -/
theorem Ok.does (hP : P.NoFail) (h : σ.Ok) {c : Call} (hc : σ.Enabled c) :
    wp P c.run (fun a w' => σ.Does c a w')
      (fun e w' => e = .exit (-1) ∧ TooLong c ∧ Reserving σ.live σ.world w') σ.world := by
  cases c with
  | allocate => exact wp_freeMapAllocate hP h.inodes (fun _ _ => rfl) fun s w' hs => hs
  | create s len isDir =>
    obtain ⟨hs, hlen, hlen'⟩ := hc
    obtain ⟨hA, hno⟩ := h.spare s hs
    exact wp_inodeCreate hP h.inodes hA hno hlen hlen' (fun hbig w' hr => ⟨rfl, hbig, hr⟩)
      (fun w' hw => hw)
      fun _ w' hr _ => hr
  | «open» s => exact wp_inodeOpen hP h.inodes hc fun p w' ho => ⟨p, rfl, ho⟩
  | reopen p =>
    obtain ⟨i, hi⟩ := h.openInode hc
    exact wp_inodeReopen h.inodes hi fun w' ho => ⟨rfl, i, hi, ho⟩
  | remove p =>
    obtain ⟨i, hi⟩ := h.openInode hc
    exact wp_inodeRemove h.inodes hi fun hok hsame => ⟨i, hi, hok, hsame, rfl⟩
  | close p =>
    obtain ⟨i, hi⟩ := h.openInode hc
    have hcount := h.count p i hi
    have hz : i.openCnt = 1 → i.sector ≠ 0 := fun h1 => h.sector_ne_zero hc hi (by omega)
    refine wp_inodeClose hP h.inodes hi hz (fun hmore => ⟨i, hi, .inl ⟨by omega, rfl⟩⟩)
      (fun h1 hrem => ⟨i, hi, .inr (.inl ⟨by omega, hz h1, hrem, rfl⟩)⟩)
      fun h1 hrem w' hd => ⟨i, hi, .inr (.inr ⟨by omega, hz h1, hrem, hd⟩)⟩
  | write p buffer size offset =>
    obtain ⟨hp, hsize, hmax, hall⟩ := hc
    obtain ⟨i, hi⟩ := h.openInode hp
    obtain ⟨h0, hl⟩ := hall i hi
    exact wp_inodeWriteAt hP h.inodes hi h0 hl (h.allow p i hi) hsize hmax
      (fun w' d hw => ⟨i, d, hi, .inl ⟨rfl, hw⟩⟩) fun _ w' d hw => ⟨i, d, hi, .inr ⟨rfl, hw⟩⟩

/-! ### The invariant is kept -/

theorem setInode_heap {w : World} {i' : Inode} {q : ℕ} {j : Inode} :
    (setInode w p i').mem.heap q = some j ↔ (q = p ∧ j = i') ∨ (q ≠ p ∧ w.mem.heap q = some j) := by
  show Function.update w.mem.heap p (some i') q = some j ↔ _
  by_cases hq : q = p
  · rw [hq, Function.update_self]
    simp [eq_comm]
  · rw [Function.update_of_ne hq]
    simp [hq]

theorem setInode_heap_none {w : World} {i' : Inode} {q : ℕ} :
    (setInode w p i').mem.heap q = none ↔ q ≠ p ∧ w.mem.heap q = none := by
  show Function.update w.mem.heap p (some i') q = none ↔ _
  by_cases hq : q = p
  · rw [hq, Function.update_self]
    simp
  · rw [Function.update_of_ne hq]
    simp [hq]

theorem Ok.spare_same (h : σ.Ok) (hsame : Same σ.live σ.world w')
    (hA : ∀ s, Allocated σ.world s → Allocated w' s) :
    ∀ s ∈ σ.spare, Allocated w' s ∧ ¬Owned w' σ.live s := by
  intro s hs
  obtain ⟨hs', hno⟩ := h.spare s hs
  exact ⟨hA s hs', by rwa [hsame.owned]⟩

/-- The books after the number of handles on one inode has changed. -/
theorem Ok.of_handles {w : World} {live spare : Set ℕ} {handles : ℕ → ℕ} (h : σ.Ok)
    (hok : InodeOk w live) (hspare : ∀ s ∈ spare, Allocated w s ∧ ¬Owned w live s)
    (hfile : w.mem.freeMapFile = σ.world.mem.freeMapFile)
    (hother : ∀ q, q ≠ p → w.mem.heap q = σ.world.mem.heap q ∧ handles q = σ.handles q)
    (hself : ∀ j, w.mem.heap p = some j →
      j.openCnt = ((handles p + ownHandle σ.world.mem p : ℕ) : ℤ) ∧ j.denyWriteCnt = 0)
    (hnone : w.mem.heap p = none → handles p + ownHandle σ.world.mem p = 0) :
    Ok ⟨w, live, spare, handles⟩ := by
  have hheld : ∀ q, held ⟨w, live, spare, handles⟩ q = handles q + ownHandle σ.world.mem q := fun q => by
    show handles q + ownHandle w.mem q = _
    unfold ownHandle
    rw [hfile]
  refine ⟨hok, hspare, fun q j hj => ?_, fun q hq => ?_, fun q j hj => ?_⟩
  · rw [hheld]
    by_cases hqp : q = p
    · subst hqp
      exact (hself j hj).1
    · obtain ⟨hheap, hh⟩ := hother q hqp
      rw [hh]
      exact h.count q j (hheap ▸ hj)
  · rw [hheld]
    by_cases hqp : q = p
    · subst hqp
      exact hnone hq
    · obtain ⟨hheap, hh⟩ := hother q hqp
      rw [hh]
      exact h.free q (hheap ▸ hq)
  · by_cases hqp : q = p
    · subst hqp
      exact (hself j hj).2
    · exact h.allow q j ((hother q hqp).1 ▸ hj)

/-- The books after a handle has been taken. -/
theorem Ok.taken (h : σ.Ok) {s : ℕ} (ho : Opened σ.live σ.world s p w') : (σ.take w' (some p)).Ok := by
  have hupd : ∀ q, q ≠ p → Function.update σ.handles p (σ.handles p + 1) q = σ.handles q := fun q hq =>
    Function.update_of_ne hq _ _
  have hnew : Function.update σ.handles p (σ.handles p + 1) p = σ.handles p + 1 :=
    Function.update_self _ _ _
  have hspare : ∀ s ∈ σ.spare, Allocated w' s ∧ ¬Owned w' σ.live s := by
    refine h.spare_same ho.same fun t ht => ?_
    rcases ho.inode with ⟨i, _, _, rfl⟩ | ⟨_, _, rfl⟩ <;> exact ht
  rcases ho.inode with ⟨i, hi, _, rfl⟩ | ⟨_, rfl, rfl⟩
  · refine h.of_handles ho.ok hspare rfl (fun q hq => ⟨Function.update_of_ne hq _ _, hupd q hq⟩)
      (fun j hj => ?_) fun hnone => ?_
    · rcases setInode_heap.mp hj with ⟨_, rfl⟩ | ⟨hne, _⟩
      · have hc := h.count p i hi
        refine ⟨?_, h.allow p i hi⟩
        rw [hnew]
        show i.openCnt + 1 = _
        unfold held at hc
        omega
      · exact absurd rfl hne
    · exact absurd (setInode_heap_none.mp hnone).1 (by simp)
  · have hfree := h.free _ (h.inodes.mem.fresh _ (le_refl σ.world.mem.next))
    have hself : (newInode σ.world s).mem.heap σ.world.mem.next =
        some ⟨s, 1, false, 0, σ.world.disk s⟩ := Function.update_self _ _ _
    refine h.of_handles ho.ok hspare rfl (fun q hq => ⟨Function.update_of_ne hq _ _, hupd q hq⟩)
      (fun j hj => ?_) fun hnone => ?_
    · obtain rfl : (⟨s, 1, false, 0, σ.world.disk s⟩ : Inode) = j := Option.some.inj (hself.symm.trans hj)
      rw [hnew]
      refine ⟨?_, rfl⟩
      show (1 : ℤ) = _
      unfold held at hfree
      omega
    · rw [hself] at hnone
      exact absurd hnone (by simp)

/-- The books after a handle has been given back. -/
theorem Ok.closed (h : σ.Ok) (hp : 0 < σ.handles p) (hd : σ.Does (.close p) () w') :
    (σ.after (.close p) () w').Ok := by
  obtain ⟨i, hi, hcase⟩ := hd
  have hcount := h.count p i hi
  have hheld : σ.held p = σ.handles p + ownHandle σ.world.mem p := rfl
  have hlive : σ.liveAfterClose p =
      if i.removed = true ∧ σ.held p = 1 then σ.live \ {i.sector} else σ.live := by
    rw [liveAfterClose, hi]
  have hupd : ∀ q, q ≠ p → Function.update σ.handles p (σ.handles p - 1) q = σ.handles q := fun q hq =>
    Function.update_of_ne hq _ _
  have hnew : Function.update σ.handles p (σ.handles p - 1) p = σ.handles p - 1 :=
    Function.update_self _ _ _
  have hdrop : ∀ q, q ≠ p → (dropInode σ.world p).mem.heap q = σ.world.mem.heap q := fun q hq =>
    Function.update_of_ne hq _ _
  have hgone : ∀ j, (dropInode σ.world p).mem.heap p ≠ some j := fun j hj =>
    (dropInode_heap.mp hj).1 rfl
  rcases hcase with ⟨hmore, rfl⟩ | ⟨hone, h0, hrem, rfl⟩ | ⟨hone, h0, hrem, hdel⟩
  · obtain ⟨hok, hsame⟩ : InodeOk (setInode σ.world p { i with openCnt := i.openCnt - 1 }) σ.live ∧
        Same σ.live σ.world _ := h.inodes.setInode hi rfl (by show 0 < i.openCnt - 1; omega) rfl rfl
    rw [after, hlive, if_neg (by omega)]
    refine h.of_handles hok (h.spare_same hsame fun _ ht => ht) rfl
      (fun q hq => ⟨Function.update_of_ne hq _ _, hupd q hq⟩) (fun j hj => ?_) fun hnone => ?_
    · rcases setInode_heap.mp hj with ⟨_, rfl⟩ | ⟨hne, _⟩
      · refine ⟨?_, h.allow p i hi⟩
        rw [hnew]
        show i.openCnt - 1 = _
        omega
      · exact absurd rfl hne
    · exact absurd (setInode_heap_none.mp hnone).1 (by simp)
  · obtain ⟨hok, hshrink⟩ := h.inodes.dropInode hi h0
    rw [after, hlive, if_neg (by simp [hrem])]
    refine h.of_handles hok (fun t ht => ?_) rfl (fun q hq => ⟨hdrop q hq, hupd q hq⟩)
      (fun j hj => absurd hj (hgone j)) fun _ => ?_
    · obtain ⟨hA, hno⟩ := h.spare t ht
      exact ⟨hA, fun ho => hno (hshrink.owned ho)⟩
    · rw [hnew]
      omega
  · rw [after, hlive, if_pos ⟨hrem, hone⟩]
    refine h.of_handles (p := p) hdel.ok (fun t ht => ?_) ?_ (fun q hq => ?_) (fun j hj => ?_) fun _ => ?_
    · obtain ⟨hA, hno⟩ := h.spare t ht
      refine ⟨(hdel.allocated t).mpr ⟨hA, fun hs => hno (h.inodes.sectors_owned hi hs)⟩, fun ho => ?_⟩
      rw [hdel.same.owned] at ho
      exact hno (ho.mono Set.sdiff_subset)
    · rw [hdel.step.freeMapFile]
      rfl
    · rw [hdel.step.heap]
      exact ⟨hdrop q hq, hupd q hq⟩
    · rw [hdel.step.heap] at hj
      exact absurd hj (hgone j)
    · rw [hnew]
      omega

/-- **The invariant survives every call.** -/
theorem Ok.after (h : σ.Ok) {c : Call} (hc : σ.Enabled c) {a : c.Res} (hd : σ.Does c a w') :
    (σ.after c a w').Ok := by
  cases c with
  | allocate =>
    cases a with
    | none =>
      obtain rfl : w' = σ.world := hd
      exact h
    | some s =>
      have hs : Handed σ.live σ.world s w' := hd
      have hsame := hs.step.same h.inodes
      refine h.of_same_heap hs.ok ?_ hs.step.freeMapFile hs.step.heap
      rintro t (rfl | ht)
      · refine ⟨(hs.alloc t).mpr (.inr rfl), fun ho => hs.free ?_⟩
        rw [hsame.owned] at ho
        exact h.inodes.owned_allocated ho
      · exact h.spare_same hsame (fun u hu => (hs.alloc u).mpr (.inl hu)) t ht
  | create s len isDir =>
    cases a with
    | false =>
      have hr : Reserving σ.live σ.world w' := hd
      exact h.of_same_heap hr.ok (h.spare_same hr.same hr.keep.mono) hr.keep.freeMapFile hr.heap
    | true =>
      have hcr : Created σ.live σ.world s len isDir w' := hd
      refine h.of_same_heap hcr.ok (fun t ht => ?_) hcr.keep.freeMapFile hcr.heap
      obtain ⟨hA, hno⟩ := h.spare t ht.1
      refine ⟨hcr.keep.mono t hA, fun ho => ?_⟩
      rcases hcr.owned t ho with ho | rfl | hfree
      · exact hno ho
      · exact ht.2 rfl
      · exact hfree hA
  | «open» s =>
    obtain ⟨p, rfl, ho⟩ := hd
    exact h.taken ho
  | reopen p =>
    obtain ⟨rfl, i, hi, ho⟩ := hd
    exact h.taken ho
  | remove p =>
    obtain ⟨i, hi, hok, hsame, rfl⟩ := hd
    refine h.of_heap hok (h.spare_same hsame fun _ ht => ht) rfl (fun q j hj => ?_) fun q hq =>
      (setInode_heap_none.mp hq).2
    rcases setInode_heap.mp hj with ⟨rfl, rfl⟩ | ⟨_, hj⟩
    · exact ⟨i, hi, rfl, rfl⟩
    · exact ⟨j, hj, rfl, rfl⟩
  | close p => exact h.closed hc hd
  | write p buffer size offset =>
    obtain ⟨i, d, hi, hw⟩ := hd
    have ht : Touched σ.live p i σ.world w' d := by
      rcases hw with ⟨_, hw⟩ | ⟨_, hw⟩
      · exact hw.toTouched
      · exact hw.toTouched
    refine h.of_heap ht.ok (fun s hs => ?_) ht.keep.freeMapFile (fun q j hj => ?_) fun q hq => ?_
    · obtain ⟨hA, hno⟩ := h.spare s hs
      refine ⟨ht.keep.mono s hA, fun ho => ?_⟩
      rcases ht.owned s ho with ho | hfree
      · exact hno ho
      · exact hfree hA
    · rw [ht.heap] at hj
      by_cases hq : q = p
      · subst hq
        rw [setPage, Function.update_self] at hj
        rw [← Option.some.inj hj]
        exact ⟨i, hi, rfl, rfl⟩
      · rw [setPage, Function.update_of_ne hq] at hj
        exact ⟨j, hj, rfl, rfl⟩
    · rw [ht.heap] at hq
      by_cases hqp : q = p
      · subst hqp
        rw [setPage, Function.update_self] at hq
        exact absurd hq (by simp)
      · rwa [setPage, Function.update_of_ne hqp] at hq

theorem Ok.step (hP : P.NoFail) (h : σ.Ok) {c : Call} (hs : Step P σ c σ') : σ'.Ok := by
  cases hs with
  | returns enabled runs => exact h.after enabled (wp_iff_runs.mp (h.does hP enabled) _ _ runs)
  | exits enabled runs =>
    obtain ⟨_, _, hr⟩ := wp_iff_runs.mp (h.does hP enabled) _ _ runs
    exact h.of_same_heap hr.ok (h.spare_same hr.same hr.keep.mono) hr.keep.freeMapFile hr.heap

end Layer

end Pintos.Filesys
