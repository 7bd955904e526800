import Pintos.Filesys.Steady

/-!
# References to inodes

A reference to an inode passes from function to function: `dir_open` and `file_open` take one over,
`dir_lookup` and `make_path` hand one out, `inode_close` drops one.  References are counted here in
multisets of addresses.  `Holders` are those that are held while a call runs, by open files, open
directories, working directories and the free map; `Counts H T m` says that the counts of openers in `m`
are the numbers of references in `H` and of the references `T` that the call itself has.

`Handles H T p κ` is the accounting of a function: called with the references `T`, it returns with the
references `κ` of its result, touches no freed inode, and leaves the references of `H` intact even where
it does not return.
-/

namespace Pintos.Filesys

variable {α β : Type}

/-- The references held while a call runs, where the kernel keeps two of them, and the size of the device.
`stray` are inodes that a call which did not return may have left with no reference. -/
structure Holders where
  refs : Multiset ℕ
  freeMapFile : Option File
  cwd : Option Dir
  fsSize : ℕ
  stray : Set ℕ

/-- The file of the free map is held. -/
def Anchored (H : Holders) : Prop := ∀ f, H.freeMapFile = some f → f.inode ∈ H.refs

/-- The counts of openers are the references of `H` and `T`. -/
structure Counts (H : Holders) (T : Multiset ℕ) (m : Mem) : Prop where
  count : ∀ p i, m.heap p = some i → i.openCnt = (H.refs + T).count p
  gone : ∀ p, m.heap p = none → p ∉ H.refs + T
  used : ∀ p i, m.heap p = some i → p ∈ H.refs + T ∨ p ∈ H.stray
  fresh : ∀ p, m.next ≤ p → m.heap p = none
  listed : ∀ p ∈ m.openInodes, p ∈ H.refs + T
  nodup : m.openInodes.Nodup
  freeMapFile : m.freeMapFile = H.freeMapFile
  cwd : m.cwd = H.cwd
  fsSize : m.fsSize = H.fsSize

/-- After a call that did not return: the references of `H` are as they were. -/
def Left (H : Holders) (e : Stop) (w : World) : Prop :=
  e ≠ .useAfterFree ∧ ∃ T, Counts { H with stray := Set.univ } T w.mem

/-- The function turns the references `T` into those of its result. -/
def Handles (H : Holders) (T : Multiset ℕ) (p : Fs α) (κ : α → Multiset ℕ) : Prop :=
  ∀ w : World, Counts H T w.mem → wp .any p (fun a w' => Counts H (κ a) w'.mem) (Left H) w

/-! ## The invariant -/

namespace Counts

variable {H : Holders} {T : Multiset ℕ} {m m' : Mem}

theorem live (h : Counts H T m) {p : ℕ} (hp : p ∈ H.refs + T) : Live m p := by
  cases hi : m.heap p with
  | none => exact absurd hp (h.gone p hi)
  | some i => exact ⟨i, hi⟩

theorem freeMapLive (h : Counts H T m) (hH : Anchored H) : FreeMapLive m := fun f hf =>
  h.live (Multiset.mem_add.mpr (.inl (hH f (h.freeMapFile.symm.trans hf))))

theorem steady (h : Counts H T m) (hs : Steady m m') : Counts H T m' where
  count p i hi := by
    obtain ⟨j, hj, hhead⟩ := hs.back hi
    rw [← h.count p j hj]
    exact congrArg (·.2.1) hhead
  gone p hp := h.gone p ((hs.none_iff p).mp hp)
  used p i hi := by
    obtain ⟨j, hj, _⟩ := hs.back hi
    exact h.used p j hj
  fresh p hp := (hs.none_iff p).mpr (h.fresh p (hs.next ▸ hp))
  listed p hp := h.listed p (hs.openInodes ▸ hp)
  nodup := hs.openInodes ▸ h.nodup
  freeMapFile := hs.freeMapFile.trans h.freeMapFile
  cwd := hs.cwd.trans h.cwd
  fsSize := hs.fsSize.trans h.fsSize

/-- The same references, shared out between the holders and the call in another way. -/
theorem repack (h : Counts H T m) {H' : Holders} {T' : Multiset ℕ} (href : H'.refs + T' = H.refs + T)
    (hstray : H'.stray = H.stray) (hheap : m'.heap = m.heap) (hnext : m'.next = m.next)
    (hopen : m'.openInodes = m.openInodes) (hfile : m'.freeMapFile = H'.freeMapFile)
    (hcwd : m'.cwd = H'.cwd) (hsize : m'.fsSize = H'.fsSize) : Counts H' T' m' where
  count p i hi := by
    rw [href]
    exact h.count p i (hheap ▸ hi)
  gone p hp := by
    rw [href]
    exact h.gone p (hheap ▸ hp)
  used p i hi := by
    rw [href, hstray]
    exact h.used p i (hheap ▸ hi)
  fresh p hp := by
    rw [hheap]
    exact h.fresh p (hnext ▸ hp)
  listed p hp := by
    rw [href]
    exact h.listed p (hopen ▸ hp)
  nodup := hopen ▸ h.nodup
  freeMapFile := hfile
  cwd := hcwd
  fsSize := hsize

theorem stray_mono {S : Set ℕ} (h : Counts H T m) (hS : H.stray ⊆ S) :
    Counts { H with stray := S } T m :=
  { h with used := fun p i hi => (h.used p i hi).imp_right fun hp => hS hp }

theorem left (h : Counts H T m) {e : Stop} (he : e ≠ .useAfterFree) {w : World} (hw : w.mem = m) :
    Left H e w := ⟨he, T, hw ▸ h.stray_mono (Set.subset_univ _)⟩


/-- The references to one inode change, and its count with them. -/
theorem setInode (h : Counts H T m) {T' : Multiset ℕ} {p : ℕ} {i v : Inode} {l : List ℕ}
    (hi : m.heap p = some i) (hother : ∀ q ≠ p, (H.refs + T').count q = (H.refs + T).count q)
    (hcount : v.openCnt = (H.refs + T').count p)
    (hl : ∀ q ∈ l, q ∈ m.openInodes) (hn : l.Nodup) (hp : p ∈ l → p ∈ H.refs + T') :
    Counts { H with stray := insert p H.stray } T'
      { m with heap := Function.update m.heap p (some v), openInodes := l } where
  count q j hj := by
    dsimp only at hj ⊢
    by_cases hq : q = p
    · subst hq
      rw [Function.update_self] at hj
      cases hj
      exact hcount
    · rw [Function.update_of_ne hq] at hj
      rw [hother q hq]
      exact h.count q j hj
  gone q hq := by
    dsimp only at hq ⊢
    have hne : q ≠ p := fun hqp => by
      rw [hqp, Function.update_self] at hq
      cases hq
    rw [Function.update_of_ne hne] at hq
    rw [← Multiset.count_eq_zero, hother q hne, Multiset.count_eq_zero]
    exact h.gone q hq
  used q j hj := by
    dsimp only at hj ⊢
    by_cases hq : q = p
    · exact .inr (.inl hq)
    · rw [Function.update_of_ne hq] at hj
      refine (h.used q j hj).imp (fun hmem => ?_) .inr
      rw [← Multiset.count_pos, hother q hq]
      exact Multiset.count_pos.mpr hmem
  fresh q hq := by
    dsimp only at hq ⊢
    have hne : q ≠ p := fun hqp => by
      have hnone := h.fresh q hq
      rw [hqp, hi] at hnone
      cases hnone
    rw [Function.update_of_ne hne]
    exact h.fresh q hq
  listed q hq := by
    by_cases hqp : q = p
    · subst hqp
      exact hp hq
    · rw [← Multiset.count_pos, hother q hqp]
      exact Multiset.count_pos.mpr (h.listed q (hl q hq))
  nodup := hn
  freeMapFile := h.freeMapFile
  cwd := h.cwd
  fsSize := h.fsSize

/-- No stray inode is left where each of them has a reference. -/
theorem unstray (h : Counts H T m) {S : Set ℕ}
    (hS : ∀ p ∈ H.stray, Live m p → p ∈ H.refs + T ∨ p ∈ S) : Counts { H with stray := S } T m :=
  { h with used := fun p i hi => (h.used p i hi).elim .inl fun hp => hS p hp ⟨i, hi⟩ }

/-- The last reference to an inode has been dropped, and it is freed. -/
theorem free {p : ℕ} (h : Counts { H with stray := insert p H.stray } T m) (hp : p ∉ H.refs + T) :
    Counts H T { m with heap := Function.update m.heap p none } where
  count q j hj := by
    dsimp only at hj
    have hne : q ≠ p := fun hqp => by
      rw [hqp, Function.update_self] at hj
      cases hj
    rw [Function.update_of_ne hne] at hj
    exact h.count q j hj
  gone q hq := by
    dsimp only at hq
    by_cases hqp : q = p
    · rw [hqp]
      exact hp
    · rw [Function.update_of_ne hqp] at hq
      exact h.gone q hq
  used q j hj := by
    dsimp only at hj
    have hne : q ≠ p := fun hqp => by
      rw [hqp, Function.update_self] at hj
      cases hj
    rw [Function.update_of_ne hne] at hj
    exact (h.used q j hj).imp_right fun hq => hq.resolve_left hne
  fresh q hq := by
    dsimp only at hq ⊢
    by_cases hqp : q = p
    · rw [hqp, Function.update_self]
    · rw [Function.update_of_ne hqp]
      exact h.fresh q hq
  listed := h.listed
  nodup := h.nodup
  freeMapFile := h.freeMapFile
  cwd := h.cwd
  fsSize := h.fsSize

/-- A new inode gets its first reference. -/
theorem alloc (h : Counts H T m) {i : Inode} (hcount : i.openCnt = 1) :
    Counts H (m.next ::ₘ T) { m with
      heap := Function.update m.heap m.next (some i)
      next := m.next + 1
      openInodes := m.next :: m.openInodes } := by
  have hnone := h.fresh m.next le_rfl
  have hnew := h.gone _ hnone
  have hne : ∀ q j, m.heap q = some j → q ≠ m.next := fun q j hj hq => by
    rw [hq, hnone] at hj
    cases hj
  refine ⟨fun q j hj => ?_, fun q hq => ?_, fun q j hj => ?_, fun q hq => ?_, fun q hq => ?_, ?_,
    h.freeMapFile, h.cwd, h.fsSize⟩
  · dsimp only at hj
    by_cases hq : q = m.next
    · subst hq
      rw [Function.update_self] at hj
      cases hj
      rw [hcount, Multiset.add_cons, Multiset.count_cons_self, Multiset.count_eq_zero.mpr hnew]
      rfl
    · rw [Function.update_of_ne hq] at hj
      rw [Multiset.add_cons, Multiset.count_cons_of_ne hq]
      exact h.count q j hj
  · dsimp only at hq
    have hqn : q ≠ m.next := fun hqn => by
      rw [hqn, Function.update_self] at hq
      cases hq
    rw [Function.update_of_ne hqn] at hq
    rw [Multiset.add_cons, Multiset.mem_cons]
    exact fun hor => hor.elim hqn (h.gone q hq)
  · dsimp only at hj
    rw [Multiset.add_cons, Multiset.mem_cons]
    by_cases hq : q = m.next
    · exact .inl (.inl hq)
    · rw [Function.update_of_ne hq] at hj
      exact (h.used q j hj).imp_left .inr
  · dsimp only at hq ⊢
    rw [Function.update_of_ne (by omega)]
    exact h.fresh q (by omega)
  · rw [Multiset.add_cons, Multiset.mem_cons]
    exact (List.mem_cons.mp hq).imp_right (h.listed q)
  · exact List.nodup_cons.mpr ⟨fun hmem => hnew (h.listed _ hmem), h.nodup⟩

end Counts

namespace Handles

variable {H : Holders} {T T' : Multiset ℕ} {p : Fs α} {κ : α → Multiset ℕ}

theorem ret {a : α} (h : κ a = T) : Handles H T (.ret a) κ := fun _ hw => (wp_ret a).mpr (h ▸ hw)

theorem stop {e : Stop} (h : e ≠ .useAfterFree) : Handles H T (.stop e : Fs α) κ := fun _ hw =>
  (wp_stop e).mpr (hw.left h rfl)

theorem bind {p : Fs β} {f : β → Fs α} {ρ : β → Multiset ℕ} (hp : Handles H T p ρ)
    (hf : ∀ b, Handles H (ρ b) (f b) κ) : Handles H T (p >>= f) κ := fun w hw =>
  wp_seq (hp w hw) fun b w' h => hf b w' h

/-- A function that opens and closes nothing. -/
theorem still (h : ∀ m, Counts H T m → Still m p) : Handles H T p fun _ => T := fun w hw =>
  wp_mono (h w.mem hw w (.refl _)) (fun _ _ hs => hw.steady hs) fun _ _ he =>
    (hw.steady he.2).left he.1 rfl

theorem getMem {f : Mem → Fs α} (h : ∀ m, Counts H T m → Handles H T (f m) κ) :
    Handles H T (getMem >>= f) κ := fun w hw =>
  (wp_bind _ _).mpr (wp_getMem.mpr (h w.mem hw w hw))

theorem malloc : Handles H T malloc fun _ => T := .still fun _ _ => .malloc

theorem junk : Handles H T junk fun _ => T := .still fun _ _ => .junk

end Handles

/-- The reference behind a pointer to an inode. -/
def refTo : Option ℕ → Multiset ℕ
  | none => 0
  | some p => {p}

/-- The reference of a `struct dir`. -/
def dirRef (d : Option Dir) : Multiset ℕ := refTo (d.map Dir.inode)

/-- The reference of a `struct file`. -/
def fileRef (f : Option File) : Multiset ℕ := refTo (f.map File.inode)

@[simp] theorem refTo_none : refTo none = 0 := rfl

@[simp] theorem refTo_some (p : ℕ) : refTo (some p) = {p} := rfl

@[simp] theorem dirRef_none : dirRef none = 0 := rfl

@[simp] theorem dirRef_some (d : Dir) : dirRef (some d) = {d.inode} := rfl

@[simp] theorem fileRef_none : fileRef none = 0 := rfl

@[simp] theorem fileRef_some (f : File) : fileRef (some f) = {f.inode} := rfl

/-! ## Opening and closing inodes -/

section Inodes

variable {H : Holders} {T : Multiset ℕ}

theorem Handles.inodeReopen {p : ℕ} (hp : p ∈ H.refs + T) :
    Handles H T (inodeReopen (some p)) fun r => T + refTo r := fun w hw => by
  obtain ⟨i, hi⟩ := hw.live hp
  rw [Filesys.inodeReopen, wp_bind, wp_deref_some hi, wp_bind, wp_assign]
  simp only [hi, wp_pure]
  have hmem : p ∈ H.refs + (T + {p}) := by
    rw [← add_assoc]
    exact Multiset.mem_add.mpr (.inl hp)
  have hset := hw.setInode (v := { i with openCnt := i.openCnt + 1 }) hi
    (fun q hq => by rw [← add_assoc, Multiset.count_add, Multiset.count_singleton, if_neg hq, add_zero])
    (by
      rw [← add_assoc, Multiset.count_add, Multiset.count_singleton_self, Nat.cast_add, ← hw.count p i hi]
      rfl) (fun q hq => hq) hw.nodup fun _ => hmem
  exact hset.unstray fun q hq _ => hq.imp_left fun (hqp : q = p) => hqp ▸ hmem

theorem wp_findOpen_listed {w : World} {E : Stop → World → Prop} (sector : ℕ) : ∀ {l : List ℕ},
    (∀ p ∈ l, Live w.mem p) →
    wp .any (findOpen sector l) (fun r w' => w' = w ∧ ∀ p, r = some p → p ∈ l) E w
  | [], _ => (wp_pure _).mpr ⟨rfl, nofun⟩
  | p :: ps, h => by
    obtain ⟨i, hi⟩ := h p List.mem_cons_self
    rw [findOpen, wp_bind, wp_deref_some hi]
    split
    · refine (wp_pure _).mpr ⟨rfl, fun q hq => ?_⟩
      rw [← Option.some.inj hq]
      exact List.mem_cons_self
    · refine wp_mono_ret (wp_findOpen_listed sector fun q hq => h q (List.mem_cons_of_mem _ hq)) ?_
      rintro r w' ⟨rfl, hr⟩
      exact ⟨rfl, fun q hq => List.mem_cons_of_mem _ (hr q hq)⟩

theorem Handles.inodeOpen (sector : ℕ) :
    Handles H T (inodeOpen sector) fun r => T + refTo r := fun w hw => by
  rw [Filesys.inodeOpen, wp_bind, wp_getMem]
  refine wp_seq (wp_findOpen_listed sector fun p hp => hw.live (hw.listed p hp)) ?_
  rintro r w ⟨rfl, hr⟩
  cases r with
  | some p => exact Handles.inodeReopen (hw.listed p (hr p rfl)) w hw
  | none =>
    refine (wp_bind _ _).mpr (wp_malloc.mpr fun allocated _ => ?_)
    cases allocated with
    | false => exact (wp_pure _).mpr (by simpa using hw)
    | true =>
      rw [if_pos rfl, wp_bind, wp_bufferCacheRead]
      split
      · rw [wp_bind, wp_getMem, wp_bind, wp_setMem, wp_pure]
        have h := hw.alloc (i := ⟨sector, 1, false, 0, w.disk sector⟩) rfl
        rwa [← Multiset.singleton_add, add_comm] at h
      · exact hw.left (e := .panic) nofun rfl

/-- The end of `inode_close`, behind the check that no opener is left. -/
def releaseInode (p : ℕ) (i : Inode) : Fs Unit := do
  if i.removed then
    freeMapRelease i.sector 1
    let _ ← inodeDelete p
  let m ← getMem
  setMem { m with heap := Function.update m.heap p none }

theorem wp_releaseInode {p : ℕ} (i : Inode) {w : World}
    (hw : Counts { H with stray := insert p H.stray } T w.mem) (hp : p ∉ H.refs + T)
    (hlive : Live w.mem p) (hfm : FreeMapLive w.mem) :
    wp .any (releaseInode p i) (fun _ w' => Counts H T w'.mem) (Left H) w := by
  have hleft : ∀ {e : Stop} {w' : World}, e ≠ .useAfterFree ∧ Steady w.mem w'.mem → Left H e w' :=
    fun he => ⟨he.1, T, (hw.steady he.2).stray_mono (Set.subset_univ _)⟩
  have hend : ∀ w', Steady w.mem w'.mem → wp .any (do
      let m ← getMem
      setMem { m with heap := Function.update m.heap p none })
      (fun _ w' => Counts H T w'.mem) (Left H) w' := fun w' hs => by
    rw [wp_bind, wp_getMem, wp_setMem]
    exact (hw.steady hs).free hp
  unfold releaseInode
  split
  · refine (wp_bind _ _).mpr (wp_mono (Still.freeMapRelease hfm _ _ w (.refl _)) (fun _ w₁ h₁ => ?_)
      fun _ _ he => hleft he)
    refine (wp_bind _ _).mpr (wp_mono (Still.inodeDelete hfm hlive w₁ h₁) (fun _ w₂ h₂ => ?_)
      fun _ _ he => hleft he)
    exact hend w₂ h₂
  · exact hend w (.refl _)

/-- `inode_close`.  The inode of the free map may be the one that is freed. -/
theorem wp_inodeClose_counts {p : ℕ} {w : World} (hw : Counts H (T + {p}) w.mem) (hfm : FreeMapLive w.mem) :
    wp .any (inodeClose (some p)) (fun _ w' => Counts H T w'.mem) (Left H) w := by
  have hmem : p ∈ H.refs + (T + {p}) := by simp
  obtain ⟨i, hi⟩ := hw.live hmem
  have hcnt : i.openCnt - 1 = (H.refs + T).count p := by
    rw [hw.count p i hi, ← add_assoc, Multiset.count_add, Multiset.count_singleton_self, Nat.cast_add]
    exact Int.add_sub_cancel _ _
  have hother : ∀ q ≠ p, (H.refs + T).count q = (H.refs + (T + {p})).count q := fun q hq => by
    rw [← add_assoc, Multiset.count_add _ _ {p}, Multiset.count_singleton, if_neg hq, add_zero]
  have hset := fun (l : List ℕ) => hw.setInode (v := { i with openCnt := i.openCnt - 1 }) (l := l) hi
    hother hcnt
  rw [Filesys.inodeClose, wp_bind, wp_deref_some hi, wp_bind, wp_assign]
  simp only [hi]
  split
  · rename_i hzero
    have hp : p ∉ H.refs + T := by
      rw [← Multiset.count_eq_zero]
      exact_mod_cast hcnt.symm.trans hzero
    have hlive : ∀ q, Live w.mem q →
        ∃ j, Function.update w.mem.heap p (some { i with openCnt := i.openCnt - 1 }) q = some j :=
      fun q ⟨j, hj⟩ => by
        by_cases hq : q = p
        · exact ⟨_, by rw [hq, Function.update_self]⟩
        · exact ⟨j, by rw [Function.update_of_ne hq, hj]⟩
    rw [wp_bind, wp_getMem, wp_bind, wp_setMem]
    exact wp_releaseInode i (hset _ (fun q hq => List.mem_of_mem_erase hq) (hw.nodup.erase p) fun hm =>
      absurd hm hw.nodup.not_mem_erase) hp (hlive p ⟨i, hi⟩) fun f hf => hlive _ (hfm f hf)
  · rename_i hzero
    have hp : p ∈ H.refs + T := by
      rw [← Multiset.count_pos, Nat.pos_iff_ne_zero]
      exact fun h0 => hzero (by rw [hcnt, h0]; rfl)
    rw [wp_pure]
    exact (hset _ (fun q hq => hq) hw.nodup fun _ => hp).unstray fun q hq _ =>
      hq.imp_left fun (hqp : q = p) => hqp ▸ hp

theorem Handles.inodeClose (hH : Anchored H) (r : Option ℕ) :
    Handles H (T + refTo r) (inodeClose r) fun _ => T := by
  cases r with
  | none => exact .ret (by simp)
  | some p => exact fun w hw => wp_inodeClose_counts hw (hw.freeMapLive hH)

end Inodes

/-! ## Files and directories -/

section Directories

variable {H : Holders} {T : Multiset ℕ} (hH : Anchored H)

theorem Handles.isInodeRm {p : ℕ} (hp : p ∈ H.refs + T) : Handles H T (isInodeRm p) fun _ => T :=
  .still fun _ hm => .bind (.deref (hm.live hp)) fun _ => .ret _

theorem Handles.isInodeDir {p : ℕ} (hp : p ∈ H.refs + T) : Handles H T (isInodeDir p) fun _ => T :=
  .still fun _ hm => .bind (.deref (hm.live hp)) fun _ => .ret _

/-- `file_close`, also of the file of the free map. -/
theorem wp_fileClose_counts {f : File} {w : World} (hw : Counts H (T + {f.inode}) w.mem)
    (hfm : FreeMapLive w.mem) :
    wp .any (fileClose (some f)) (fun _ w' => Counts H T w'.mem) (Left H) w := by
  have hf : f.inode ∈ H.refs + (T + {f.inode}) := by simp
  rw [fileClose, fileAllowWrite]
  split
  · rw [Prog.bind_bind, wp_bind]
    refine wp_mono (Still.inodeAllowWrite (hw.live hf) w (.refl _)) (fun _ w₁ hs => ?_) fun _ _ he =>
      (hw.steady he.2).left he.1 rfl
    exact wp_inodeClose_counts (hw.steady hs) fun f' hf' =>
      hs.live (hfm f' (hs.freeMapFile.symm.trans hf'))
  · exact wp_inodeClose_counts hw hfm

include hH

theorem Handles.dirOpen (r : Option ℕ) :
    Handles H (T + refTo r) (dirOpen r) fun d => T + dirRef d := by
  refine .bind .malloc fun allocated => ?_
  have hclose : Handles H (T + refTo r) (do
      Filesys.inodeClose r
      return none) fun d => T + dirRef d := .bind (.inodeClose hH r) fun _ => .ret (add_zero T)
  cases r with
  | none => exact hclose
  | some p =>
    cases allocated with
    | false => exact hclose
    | true => exact .ret rfl

theorem Handles.fileOpen (r : Option ℕ) :
    Handles H (T + refTo r) (fileOpen r) fun f => T + fileRef f := by
  refine .bind .malloc fun allocated => ?_
  have hclose : Handles H (T + refTo r) (do
      Filesys.inodeClose r
      return none) fun f => T + fileRef f := .bind (.inodeClose hH r) fun _ => .ret (add_zero T)
  cases r with
  | none => exact hclose
  | some p =>
    cases allocated with
    | false => exact hclose
    | true => exact .ret rfl

theorem Handles.fileClose (f : Option File) : Handles H (T + fileRef f) (fileClose f) fun _ => T := by
  cases f with
  | none => exact .ret (add_zero T).symm
  | some f => exact fun w hw => wp_fileClose_counts hw (hw.freeMapLive hH)

theorem Handles.dirClose (d : Option Dir) : Handles H (T + dirRef d) (dirClose d) fun _ => T := by
  cases d with
  | none => exact .ret (add_zero T).symm
  | some d => exact .inodeClose hH (some d.inode)

theorem Handles.dirOpenRoot : Handles H T dirOpenRoot fun d => T + dirRef d :=
  .bind (.inodeOpen _) fun r => .dirOpen hH r

theorem Handles.dirReopen {d : Dir} (hd : d.inode ∈ H.refs + T) :
    Handles H T (dirReopen d) fun d => T + dirRef d :=
  .bind (.inodeReopen hd) fun r => .dirOpen hH r

omit hH in
theorem Handles.dirLookup {d : Dir} (hd : d.inode ∈ H.refs + T) (name : List UInt8) :
    Handles H T (dirLookup (some d) name) fun r => T + refTo r := by
  rw [Pintos.Filesys.dirLookup]
  split
  · refine .bind .junk fun e => .bind (.still fun _ hm => .inodeReadAt (hm.live hd) _ _) fun l => ?_
    exact .inodeOpen _
  split
  · exact .inodeReopen hd
  · refine .bind (.still fun _ hm => .lookup (hm.live hd) name) fun r => ?_
    cases r with
    | none => exact .ret (add_zero T)
    | some e => exact .inodeOpen _

/-! ## Paths -/

theorem Handles.startDir (hcwd : ∀ d, H.cwd = some d → d.inode ∈ H.refs) (path : List UInt8) :
    Handles H T (startDir path) fun d => T + dirRef d := by
  refine .getMem fun m hm => ?_
  split
  · rename_i cwd _ hc
    exact .dirReopen hH (Multiset.mem_add.mpr (.inl (hcwd cwd (hm.cwd.symm.trans hc))))
  · exact .dirOpenRoot hH

/-- The reference that `walk_dirs` hands out: none where the walk has failed. -/
def walkRef : Option (Option Dir) → Multiset ℕ
  | none => 0
  | some d => dirRef d

theorem Handles.walkDirs (chunks : List (List UInt8)) : ∀ (d : Option Dir),
    Handles H (T + dirRef d) (walkDirs d chunks) fun r => T + walkRef r := by
  induction chunks with
  | nil => exact fun d => .ret rfl
  | cons chunk chunks ih =>
    intro d
    cases d with
    | none => exact .stop nofun
    | some d =>
      have hd : d.inode ∈ H.refs + (T + {d.inode}) := by simp
      refine .bind (.dirLookup hd chunk) fun r => ?_
      have hclose : ∀ (U : Multiset ℕ) (x : Option (Option Dir)), walkRef x = 0 → U = T + {d.inode} →
          Handles H U (do
            Filesys.dirClose (some d)
            return x) fun r => T + walkRef r := fun U x hx hU => by
        subst hU
        exact .bind (.dirClose hH (some d)) fun _ => .ret (by rw [hx, add_zero])
      cases r with
      | none => exact hclose _ none rfl (add_zero _)
      | some p =>
        refine .bind (.dirOpen hH (some p)) fun dnext => ?_
        cases dnext with
        | none => exact hclose _ none rfl (add_zero _)
        | some dnext =>
          have hswap : T + {d.inode} + dirRef (some dnext) =
              T + dirRef (some dnext) + dirRef (some d) := add_right_comm _ _ _
          dsimp only
          rw [hswap]
          exact .bind (.dirClose hH (some d)) fun _ => ih (some dnext)

theorem Handles.makePath (hcwd : ∀ d, H.cwd = some d → d.inode ∈ H.refs) (path : List UInt8) :
    Handles H T (makePath path) fun d => T + dirRef d := by
  refine .bind (.startDir hH hcwd path) fun d => .bind (.walkDirs hH _ d) fun r => ?_
  cases r with
  | none => exact .ret rfl
  | some r =>
    cases r with
    | none => exact .stop nofun
    | some d =>
      have hd : d.inode ∈ H.refs + (T + {d.inode}) := by simp
      refine .bind (.isInodeRm hd) fun removed => ?_
      split
      · exact .bind (.dirClose hH (some d)) fun _ => .ret (add_zero T)
      · exact .ret rfl

end Directories

/-! ## The calls -/

/-- `filesys_open` up to the inode: `none` where the path leads nowhere. -/
def findInode (name : List UInt8) : Fs (Option ℕ) := do
  if name = [] then
    return none
  else
    let stale ← junk
    let (dToken, fToken) := divideFn name (stale 0)
    match ← makePath dToken with
    | none => return none
    | some d =>
      if fToken ≠ [] then do
        let inode ← dirLookup (some d) fToken
        dirClose (some d)
        return inode
      else return some d.inode

theorem filesysOpen_eq (name : List UInt8) : filesysOpen name = (do
    match ← findInode name with
    | none => return none
    | some p => if ← isInodeRm p then return none else fileOpen (some p)) := by
  unfold filesysOpen findInode
  split
  · rfl
  · rw [Prog.bind_bind]
    refine congrArg _ (funext fun stale => ?_)
    dsimp only
    rw [Prog.bind_bind]
    refine congrArg _ (funext fun dir => ?_)
    cases dir with
    | none => rfl
    | some d =>
      dsimp only
      split
      · refine Eq.trans ?_ (Prog.bind_bind _ _ _).symm
        exact congrArg _ (funext fun inode => (Prog.bind_bind _ _ _).symm)
      · rfl

section Calls

variable {H : Holders} {T : Multiset ℕ} (hH : Anchored H)
  (hcwd : ∀ d, H.cwd = some d → d.inode ∈ H.refs)

include hH hcwd

theorem Handles.findInode (name : List UInt8) :
    Handles H T (findInode name) fun r => T + refTo r := by
  have hlast : ∀ (d : Dir) (fToken : List UInt8), Handles H (T + dirRef (some d)) (
      if fToken ≠ [] then do
        let inode ← Filesys.dirLookup (some d) fToken
        Filesys.dirClose (some d)
        return inode
      else return some d.inode) fun r => T + refTo r := fun d fToken => by
    split
    · have hd : d.inode ∈ H.refs + (T + {d.inode}) := by simp
      refine .bind (.dirLookup hd fToken) fun r => ?_
      rw [add_right_comm]
      exact .bind (.dirClose hH (some d)) fun _ => .ret rfl
    · exact .ret rfl
  unfold Pintos.Filesys.findInode
  split
  · exact .ret (add_zero T)
  refine .bind .junk fun stale => .bind (.makePath hH hcwd _) fun d => ?_
  cases d with
  | none => exact .ret rfl
  | some d => exact hlast d _

/-- `filesys_open`: a call that finds a removed inode keeps its reference. -/
theorem wp_filesysOpen (name : List UInt8) {w : World} (hw : Counts H T w.mem) :
    wp .any (filesysOpen name) (fun r w' => ∃ lost, (r.isSome → lost = 0) ∧
      Counts H (T + fileRef r + lost) w'.mem) (Left H) w := by
  rw [filesysOpen_eq]
  refine wp_seq (Handles.findInode hH hcwd name w hw) fun r w₁ h₁ => ?_
  cases r with
  | none => exact (wp_pure _).mpr ⟨0, fun _ => rfl, by simpa using h₁⟩
  | some p =>
    refine wp_seq (Handles.isInodeRm (by simp) w₁ h₁) fun removed w₂ h₂ => ?_
    split
    · exact (wp_pure _).mpr ⟨{p}, nofun, by simpa using h₂⟩
    · refine wp_mono_ret (Handles.fileOpen hH (some p) w₂ h₂) fun f w₃ h₃ => ⟨0, fun _ => rfl, ?_⟩
      rwa [add_zero]

end Calls

end Pintos.Filesys
