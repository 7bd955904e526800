import Pintos.Filesys.InodeWrite
import Pintos.Filesys.References
import Pintos.Library.Trace

/-!
# Denying writes

`file_deny_write` marks an open file and counts in its inode that it has done so; `file_allow_write` and `file_close`
take that back.  In every run of the calls of `filesys/file.c` that open and close files and deny and allow writes the
count of an inode is the number of its files that are marked.

Open files have no names here: two that are alike need not be told apart.
-/

namespace Pintos.Filesys

open Multiset (countP)

/-- `file_reopen` -/
def fileReopen (f : File) : Fs (Option File) := do
  let inode ← inodeReopen (some f.inode)
  fileOpen inode

/-- The inodes in memory are denied to writers so often. -/
def Denied (D : ℕ → ℤ) (m : Mem) : Prop := ∀ p i, m.heap p = some i → i.denyWriteCnt = D p

variable {D : ℕ → ℤ} {m : Mem} {w : World} {p : ℕ} {i v : Inode}

/-! ## Single calls -/

theorem Denied.set (h : Denied D m) (d : ℤ) (hv : v.denyWriteCnt = d) :
    Denied (Function.update D p d) { m with heap := Function.update m.heap p (some v) } := by
  intro q j hj
  dsimp only at hj
  by_cases hq : q = p
  · subst hq
    rw [Function.update_self] at hj ⊢
    rw [← Option.some.inj hj, hv]
  · rw [Function.update_of_ne hq] at hj ⊢
    exact h q j hj

theorem Denied.set_same (h : Denied D m) (hv : v.denyWriteCnt = D p) :
    Denied D { m with heap := Function.update m.heap p (some v) } := by
  have hset := h.set (p := p) (D p) hv
  rwa [Function.update_eq_self] at hset

theorem Denied.free (h : Denied D m) : Denied D { m with heap := Function.update m.heap p none } := by
  intro q j hj
  dsimp only at hj
  by_cases hq : q = p
  · rw [hq, Function.update_self] at hj
    cases hj
  · rw [Function.update_of_ne hq] at hj
    exact h q j hj

instance (m : Mem) (D : ℕ → ℤ) : DataFree fun m' => Steady m m' ∧ Denied D m' where
  freeMap b h := ⟨h.1.setFreeMap b, h.2⟩
  data d hi h := by
    have hdeny := h.2 _ _ hi
    exact ⟨h.1.setInode hi rfl, h.2.set_same hdeny⟩

section Inodes

variable {H : Holders} {T : Multiset ℕ}

theorem wp_releaseInode_denied (hw : Denied D w.mem) (hlive : Live w.mem p) (hfm : FreeMapLive w.mem) :
    wp .any (releaseInode p i) (fun _ w' => Denied D w'.mem) (fun _ _ => True) w := by
  have hfm' : FreeMapLiveIn fun m' => Steady w.mem m' ∧ Denied D m' := fun _ f hm hfile _ hm' =>
    hfm.steady _ f hm.1 hfile _ hm'.1
  have hp' : LiveIn (fun m' => Steady w.mem m' ∧ Denied D m') p := fun _ hm => hm.1.live hlive
  have hend : ∀ w', Steady w.mem w'.mem ∧ Denied D w'.mem → wp .any (do
      let m ← getMem
      setMem { m with heap := Function.update m.heap p none })
      (fun _ w' => Denied D w'.mem) (fun _ _ => True) w' := by
    intro w' hw'
    rw [wp_bind, wp_getMem, wp_setMem]
    exact hw'.2.free
  have hstart : Steady w.mem w.mem ∧ Denied D w.mem := ⟨.refl _, hw⟩
  unfold releaseInode
  split
  · refine (wp_bind _ _).mpr (wp_mono (Preserves.freeMapRelease hfm' _ _ w hstart) (fun _ w₁ h₁ => ?_)
      fun _ _ _ => trivial)
    exact (wp_bind _ _).mpr (wp_mono (Preserves.inodeDelete hfm' hp' w₁ h₁) (fun _ w₂ h₂ => hend w₂ h₂)
      fun _ _ _ => trivial)
  · exact hend w hstart

theorem wp_inodeClose_denied {r : Option ℕ} (hc : Counts H (T + refTo r) w.mem) (hfm : FreeMapLive w.mem)
    (hw : Denied D w.mem) : wp .any (inodeClose r) (fun _ w' => Denied D w'.mem) (fun _ _ => True) w := by
  cases r with
  | none => exact (wp_pure _).mpr hw
  | some p =>
    obtain ⟨i, hi⟩ := hc.live (p := p) (by simp)
    have hset : Denied D { w.mem with
        heap := Function.update w.mem.heap p (some { i with openCnt := i.openCnt - 1 }) } := hw.set_same (hw p i hi)
    have hlive : ∀ q, Live w.mem q →
        ∃ j, Function.update w.mem.heap p (some { i with openCnt := i.openCnt - 1 }) q = some j := by
      intro q ⟨j, hj⟩
      by_cases hq : q = p
      · exact ⟨_, by rw [hq, Function.update_self]⟩
      · exact ⟨j, by rw [Function.update_of_ne hq, hj]⟩
    rw [inodeClose, wp_bind, wp_deref_some hi, wp_bind, wp_assign]
    simp only [hi]
    split
    · rw [wp_bind, wp_getMem, wp_bind, wp_setMem]
      exact wp_releaseInode_denied (i := i) hset (hlive p ⟨i, hi⟩) fun f hf => hlive _ (hfm f hf)
    · exact (wp_pure _).mpr hset

theorem wp_inodeReopen_denied (hi : w.mem.heap p = some i) (hw : Denied D w.mem) :
    wp .any (inodeReopen (some p)) (fun _ w' => Denied D w'.mem) (fun _ _ => True) w := by
  rw [inodeReopen, wp_bind, wp_deref_some hi, wp_bind, wp_assign]
  simp only [hi, wp_pure]
  exact hw.set_same (hw p i hi)

/-- A new inode is denied to nobody. -/
theorem wp_inodeOpen_denied (hc : Counts H T w.mem) (hnew : D w.mem.next = 0) (hw : Denied D w.mem) (sector : ℕ) :
    wp .any (inodeOpen sector) (fun _ w' => Denied D w'.mem) (fun _ _ => True) w := by
  rw [inodeOpen, wp_bind, wp_getMem]
  apply wp_seq (wp_findOpen_listed sector fun p hp => hc.live (hc.listed p hp))
  rintro r w ⟨rfl, hr⟩
  cases r with
  | some p =>
    obtain ⟨i, hi⟩ := hc.live (hc.listed p (hr p rfl))
    exact wp_inodeReopen_denied hi hw
  | none =>
    apply (wp_bind _ _).mpr (wp_malloc.mpr _)
    intro allocated _
    cases allocated with
    | false => exact (wp_pure _).mpr hw
    | true =>
      rw [if_pos rfl, wp_bind, wp_bufferCacheRead]
      split
      · rw [wp_bind, wp_getMem, wp_bind, wp_setMem, wp_pure]
        exact hw.set_same (v := ⟨sector, 1, false, 0, w.disk sector⟩) hnew.symm
      · trivial

theorem wp_fileOpen_denied {r : Option ℕ} (hc : Counts H (T + refTo r) w.mem) (hfm : FreeMapLive w.mem)
    (hw : Denied D w.mem) : wp .any (fileOpen r)
      (fun f w' => Denied D w'.mem ∧ ∀ g ∈ f, g.denyWrite = false) (fun _ _ => True) w := by
  have hclose : wp .any (do
      inodeClose r
      return none) (fun (f : Option File) w' => Denied D w'.mem ∧ ∀ g ∈ f, g.denyWrite = false) (fun _ _ => True) w :=
    wp_seq (wp_inodeClose_denied hc hfm hw) fun _ _ h => (wp_pure _).mpr ⟨h, nofun⟩
  rw [fileOpen]
  apply (wp_bind _ _).mpr (wp_malloc.mpr _)
  intro allocated _
  cases r with
  | none => exact hclose
  | some p =>
    cases allocated with
    | false => exact hclose
    | true =>
      refine (wp_pure _).mpr ⟨hw, ?_⟩
      rintro g ⟨⟩
      rfl

theorem Still.fileDenyWrite {f : File} (hf : Live m f.inode) : Still m (fileDenyWrite f) := by
  unfold Pintos.Filesys.fileDenyWrite
  split
  · exact .bind (.inodeDenyWrite hf) fun _ => .ret _
  · exact .ret _

/-- `file_deny_write`, with room for one more opener that denies. -/
theorem wp_fileDenyWrite {P : Policy} {f : File} (hi : w.mem.heap f.inode = some i) (hw : Denied D w.mem)
    (hroom : f.denyWrite = false → D f.inode + 1 ≤ i.openCnt) : wp P (fileDenyWrite f)
      (fun g w' => g = { f with denyWrite := true } ∧
        Denied (if f.denyWrite then D else Function.update D f.inode (D f.inode + 1)) w'.mem)
      (fun _ _ => False) w := by
  have hdeny := hw _ _ hi
  rw [fileDenyWrite]
  cases hf : f.denyWrite with
  | false =>
    simp only [Bool.not_false, if_true, inodeDenyWrite, wp_bind, wp_deref_some hi, wp_assign, hi]
    rw [hdeny, if_pos (hroom hf), wp_pure, wp_pure]
    exact ⟨rfl, hw.set _ rfl⟩
  | true =>
    rw [Bool.not_true, if_neg Bool.false_ne_true, wp_pure]
    refine ⟨?_, hw⟩
    rw [← hf]

theorem wp_fileAllowWrite {P : Policy} {f : File} (hi : w.mem.heap f.inode = some i) (hw : Denied D w.mem)
    (hroom : f.denyWrite = true → 0 < D f.inode ∧ D f.inode ≤ i.openCnt) : wp P (fileAllowWrite f)
      (fun g w' => g = { f with denyWrite := false } ∧
        Denied (if f.denyWrite then Function.update D f.inode (D f.inode - 1) else D) w'.mem)
      (fun _ _ => False) w := by
  have hdeny := hw _ _ hi
  rw [fileAllowWrite]
  cases hf : f.denyWrite with
  | false =>
    rw [if_neg Bool.false_ne_true, wp_pure]
    refine ⟨?_, hw⟩
    rw [← hf]
  | true =>
    have hroom' : 0 < i.denyWriteCnt ∧ i.denyWriteCnt ≤ i.openCnt := by
      rw [hdeny]
      exact hroom hf
    simp only [if_true, inodeAllowWrite, wp_bind, wp_deref_some hi]
    rw [if_pos hroom', wp_assign]
    simp only [hi, wp_pure]
    refine ⟨trivial, hw.set _ ?_⟩
    rw [hdeny]

end Inodes

/-! ## Runs -/

/-- How many of the files deny writes to the inode. -/
def deniers (files : Multiset File) (p : ℕ) : ℕ := countP (fun f => f.inode = p ∧ f.denyWrite = true) files

variable {files : Multiset File} {f : File}

theorem deniers_cons (files : Multiset File) (hf : f.denyWrite = true) :
    (fun p => (deniers (f ::ₘ files) p : ℤ)) =
      Function.update (fun p => (deniers files p : ℤ)) f.inode (deniers files f.inode + 1) := by
  funext p
  unfold deniers
  by_cases hp : p = f.inode
  · subst hp
    rw [Function.update_self, Multiset.countP_cons_of_pos _ ⟨rfl, hf⟩, Nat.cast_add, Nat.cast_one]
  · rw [Function.update_of_ne hp, Multiset.countP_cons_of_neg _ fun h => hp h.1.symm]

theorem deniers_cons_of_not (files : Multiset File) (hf : f.denyWrite = false) :
    deniers (f ::ₘ files) = deniers files := by
  funext p
  apply Multiset.countP_cons_of_neg
  rw [hf]
  exact fun h => Bool.false_ne_true h.2

theorem deniers_le (files : Multiset File) (p : ℕ) : deniers files p ≤ (files.map File.inode).count p := by
  rw [Multiset.count_map, deniers, Multiset.countP_eq_card_filter]
  apply Multiset.card_le_card
  apply Multiset.monotone_filter_right
  intro f hf
  exact hf.1.symm

theorem deniers_pos : 0 < deniers files p ↔ ∃ f ∈ files, f.inode = p ∧ f.denyWrite = true := Multiset.countP_pos

/-- What `file_open` returns, if not a null pointer. -/
def opened : Option File → Multiset File
  | none => 0
  | some f => {f}

/-- The open files, the references to inodes that are held to open others, and what the files are on. -/
structure OpenFiles where
  world : World
  held : Multiset ℕ
  files : Multiset File

/-- The calls, each on a file that is open. -/
inductive FileCall
  /-- `inode_open`, of which `file_open` gets its inodes. -/
  | inode (sector : ℕ)
  | open (inode : Option ℕ)
  | reopen (f : File)
  | deny (f : File)
  | allow (f : File)
  | close (f : File)

/-- A call that returns.  An allocation may fail. -/
inductive FileStep (σ : OpenFiles) : FileCall → OpenFiles → Prop
  | inode {sector : ℕ} {r : Option ℕ} {w : World} (hrun : Runs .any (inodeOpen sector) σ.world (.ok r) w) :
      FileStep σ (.inode sector) ⟨w, σ.held + refTo r, σ.files⟩
  | open {r : Option ℕ} {held : Multiset ℕ} {g : Option File} {w : World} (hheld : σ.held = held + refTo r)
      (hrun : Runs .any (fileOpen r) σ.world (.ok g) w) :
      FileStep σ (.open r) ⟨w, held, σ.files + opened g⟩
  | reopen {f : File} {g : Option File} {w : World} (hf : f ∈ σ.files)
      (hrun : Runs .any (fileReopen f) σ.world (.ok g) w) :
      FileStep σ (.reopen f) ⟨w, σ.held, σ.files + opened g⟩
  | deny {f g : File} {files : Multiset File} {w : World} (hf : σ.files = f ::ₘ files)
      (hrun : Runs .any (fileDenyWrite f) σ.world (.ok g) w) :
      FileStep σ (.deny f) ⟨w, σ.held, g ::ₘ files⟩
  | allow {f g : File} {files : Multiset File} {w : World} (hf : σ.files = f ::ₘ files)
      (hrun : Runs .any (fileAllowWrite f) σ.world (.ok g) w) :
      FileStep σ (.allow f) ⟨w, σ.held, g ::ₘ files⟩
  | close {f : File} {files : Multiset File} {w : World} (hf : σ.files = f ::ₘ files)
      (hrun : Runs .any (fileClose (some f)) σ.world (.ok ()) w) :
      FileStep σ (.close f) ⟨w, σ.held, files⟩

/-- The counts in the inodes are those of the open files. -/
structure Counted (H : Holders) (σ : OpenFiles) : Prop where
  counts : Counts H (σ.held + σ.files.map File.inode) σ.world.mem
  denied : Denied (fun p => (deniers σ.files p : ℤ)) σ.world.mem

section Counted

variable {H : Holders} {σ σ' : OpenFiles} {P : Policy}

theorem Counted.count_le (h : Counted H σ) (hi : σ.world.mem.heap p = some i) :
    ((σ.files.map File.inode).count p : ℤ) ≤ i.openCnt := by
  rw [h.counts.count p i hi, ← add_assoc, Multiset.count_add _ _ (σ.files.map File.inode), Nat.cast_add]
  exact le_add_of_nonneg_left (Nat.cast_nonneg _)

theorem Counted.denial (h : Counted H σ) (hi : σ.world.mem.heap p = some i) : i.denyWriteCnt = deniers σ.files p :=
  h.denied p i hi

theorem Counted.live (h : Counted H σ) (hf : f ∈ σ.files) : Live σ.world.mem f.inode := by
  apply h.counts.live
  have hmem : f.inode ∈ σ.files.map File.inode := Multiset.mem_map_of_mem _ hf
  simp [hmem]

/-- The counter has room for one more denial, and for one less, where `file_deny_write` and `file_allow_write` look. -/
theorem Counted.fileDenyWrite (h : Counted H σ) (hf : σ.files = f ::ₘ files) :
    wp P (fileDenyWrite f) (fun g w' => g = { f with denyWrite := true } ∧
      Denied (fun p => (deniers (g ::ₘ files) p : ℤ)) w'.mem) (fun _ _ => False) σ.world := by
  have hmem : f ∈ σ.files := hf ▸ Multiset.mem_cons_self f files
  obtain ⟨i, hi⟩ := h.live hmem
  have hdenied := h.denied
  have hle := h.count_le hi
  rw [hf] at hdenied hle
  refine wp_mono_ret (wp_fileDenyWrite hi hdenied ?_) ?_
  · intro hfalse
    have := deniers_le files f.inode
    rw [Multiset.map_cons, Multiset.count_cons_self] at hle
    rw [deniers_cons_of_not files hfalse]
    omega
  · rintro g w' ⟨rfl, hw'⟩
    refine ⟨rfl, ?_⟩
    rw [deniers_cons files rfl]
    cases hd : f.denyWrite with
    | false =>
      rw [hd, deniers_cons_of_not files hd] at hw'
      exact hw'
    | true =>
      rw [hd, if_pos rfl, deniers_cons files hd] at hw'
      exact hw'

theorem Counted.fileAllowWrite (h : Counted H σ) (hf : σ.files = f ::ₘ files) :
    wp P (fileAllowWrite f) (fun g w' => g = { f with denyWrite := false } ∧
      Denied (fun p => (deniers files p : ℤ)) w'.mem) (fun _ _ => False) σ.world := by
  have hmem : f ∈ σ.files := hf ▸ Multiset.mem_cons_self f files
  obtain ⟨i, hi⟩ := h.live hmem
  have hdenied := h.denied
  have hle := h.count_le hi
  rw [hf] at hdenied hle
  refine wp_mono_ret (wp_fileAllowWrite hi hdenied ?_) ?_
  · intro htrue
    have hcount := deniers_le (f ::ₘ files) f.inode
    have hpos : 0 < deniers (f ::ₘ files) f.inode := deniers_pos.mpr ⟨f, Multiset.mem_cons_self f files, rfl, htrue⟩
    omega
  · rintro g w' ⟨rfl, hw'⟩
    refine ⟨rfl, ?_⟩
    cases hd : f.denyWrite with
    | false =>
      rw [hd, deniers_cons_of_not files hd] at hw'
      exact hw'
    | true =>
      rw [hd, if_pos rfl] at hw'
      have hback : Function.update (fun p => (deniers (f ::ₘ files) p : ℤ)) f.inode
          (deniers (f ::ₘ files) f.inode - 1) = fun p => (deniers files p : ℤ) := by
        have hcons := deniers_cons files hd
        have hself : (deniers (f ::ₘ files) f.inode : ℤ) = deniers files f.inode + 1 := by
          have := congrFun hcons f.inode
          rwa [Function.update_self] at this
        rw [hcons, hself, Function.update_idem, add_sub_cancel_right]
        exact Function.update_eq_self _ _
      rwa [hback] at hw'

theorem map_opened (files : Multiset File) (g : Option File) :
    (files + opened g).map File.inode = files.map File.inode + fileRef g := by
  cases g with
  | none => simp [opened]
  | some g => simp [opened]

theorem deniers_opened {g : Option File} (hg : ∀ f ∈ g, f.denyWrite = false) :
    deniers (files + opened g) = deniers files := by
  cases g with
  | none => rw [opened, add_zero]
  | some g =>
    rw [opened, add_comm, Multiset.singleton_add]
    exact deniers_cons_of_not files (hg g rfl)

/-- What is true of every return is true of the one of a run. -/
theorem Runs.of_wp {α : Type} {q : Fs α} {Q : α → World → Prop} {E : Stop → World → Prop} {a : α} {w' : World}
    (hrun : Runs P q w (.ok a) w') (h : wp P q Q E w) : Q a w' := wp_iff_runs.mp h _ _ hrun

theorem wp_both {α : Type} {q : Fs α} {Q Q' : α → World → Prop} {E E' : Stop → World → Prop} (h : wp P q Q E w)
    (h' : wp P q Q' E' w) : wp P q (fun a w' => Q a w' ∧ Q' a w') (fun e w' => E e w' ∧ E' e w') w := by
  rw [wp_iff_runs] at *
  intro r w' hr
  cases r with
  | ok a => exact ⟨h _ _ hr, h' _ _ hr⟩
  | error e => exact ⟨h _ _ hr, h' _ _ hr⟩

/-- A new file comes to those that are open. -/
theorem Counted.opened {g : Option File} {held : Multiset ℕ}
    (hc : Counts H (held + files.map File.inode + fileRef g) w.mem)
    (hd : Denied (fun p => (deniers files p : ℤ)) w.mem) (hg : ∀ f ∈ g, f.denyWrite = false) :
    Counted H ⟨w, held, files + Filesys.opened g⟩ := by
  constructor
  · rw [map_opened, ← add_assoc]
    exact hc
  · dsimp only
    rw [deniers_opened hg]
    exact hd

/-- **Each call keeps the counts.** -/
theorem Counted.step (h : Counted H σ) (hH : Anchored H) {c : FileCall} (hs : FileStep σ c σ') : Counted H σ' := by
  have hfm : FreeMapLive σ.world.mem := h.counts.freeMapLive hH
  cases hs with
  | @inode sector r w hrun =>
    have hnew : (deniers σ.files σ.world.mem.next : ℤ) = 0 := by
      have hno := h.counts.gone _ (h.counts.fresh _ le_rfl)
      have hcount : (σ.files.map File.inode).count σ.world.mem.next = 0 := by
        apply Multiset.count_eq_zero.mpr
        intro hmem
        exact hno (by simp only [Multiset.mem_add, hmem, or_true])
      have := deniers_le σ.files σ.world.mem.next
      omega
    constructor
    · dsimp only
      rw [add_right_comm]
      exact hrun.of_wp (Handles.inodeOpen sector σ.world h.counts)
    · exact hrun.of_wp (wp_inodeOpen_denied h.counts hnew h.denied sector)
  | @«open» r held g w hheld hrun =>
    have hc : Counts H (held + σ.files.map File.inode + refTo r) σ.world.mem := by
      rw [add_right_comm, ← hheld]
      exact h.counts
    obtain ⟨hd, hg⟩ := hrun.of_wp (wp_fileOpen_denied hc hfm h.denied)
    exact .opened (hrun.of_wp (Handles.fileOpen hH r σ.world hc)) hd hg
  | @reopen f g w hf hrun =>
    obtain ⟨i, hi⟩ := h.live hf
    have hmem : f.inode ∈ H.refs + (σ.held + σ.files.map File.inode) := by
      simp only [Multiset.mem_add, Multiset.mem_map_of_mem _ hf, or_true]
    have hboth : wp .any (fileReopen f) (fun g w' =>
        Counts H (σ.held + σ.files.map File.inode + fileRef g) w'.mem ∧
          Denied (fun p => (deniers σ.files p : ℤ)) w'.mem ∧ ∀ f ∈ g, f.denyWrite = false)
        (fun _ _ => True) σ.world := by
      rw [fileReopen]
      refine wp_seq (wp_mono (wp_both (Handles.inodeReopen hmem σ.world h.counts)
        (wp_inodeReopen_denied hi h.denied)) (fun _ _ => id) fun _ _ _ => trivial) ?_
      rintro r w' ⟨hc, hd⟩
      exact wp_mono (wp_both (Handles.fileOpen hH r w' hc) (wp_fileOpen_denied hc (hc.freeMapLive hH) hd))
        (fun _ _ => id) fun _ _ _ => trivial
    obtain ⟨hc, hd, hg⟩ := hrun.of_wp hboth
    exact .opened hc hd hg
  | @deny f g files w hf hrun =>
    have hlive : Live σ.world.mem f.inode := h.live (hf ▸ Multiset.mem_cons_self f files)
    obtain ⟨rfl, hd⟩ := hrun.of_wp (h.fileDenyWrite hf)
    have hs := hrun.of_wp (Still.fileDenyWrite hlive σ.world (.refl _))
    have hc := h.counts.steady hs
    rw [hf, Multiset.map_cons] at hc
    constructor
    · dsimp only
      rw [Multiset.map_cons]
      exact hc
    · exact hd
  | @allow f g files w hf hrun =>
    have hlive : Live σ.world.mem f.inode := h.live (hf ▸ Multiset.mem_cons_self f files)
    obtain ⟨rfl, hd⟩ := hrun.of_wp (h.fileAllowWrite hf)
    have hs := hrun.of_wp (Still.fileAllowWrite hlive σ.world (.refl _))
    have hc := h.counts.steady hs
    rw [hf, Multiset.map_cons] at hc
    constructor
    · dsimp only
      rw [Multiset.map_cons]
      exact hc
    · dsimp only
      rw [deniers_cons_of_not files rfl]
      exact hd
  | @close f files w hf hrun =>
    have hlive : Live σ.world.mem f.inode := h.live (hf ▸ Multiset.mem_cons_self f files)
    have hc : Counts H (σ.held + files.map File.inode + fileRef (some f)) σ.world.mem := by
      have hc := h.counts
      rw [hf, Multiset.map_cons, ← Multiset.singleton_add, ← add_assoc, add_right_comm] at hc
      exact hc
    have hclose : wp .any (Filesys.fileClose (some f)) (fun _ w' => Denied (fun p => (deniers files p : ℤ)) w'.mem)
        (fun _ _ => True) σ.world := by
      rw [fileClose]
      refine wp_seq (wp_mono (wp_both (h.fileAllowWrite hf) (Still.fileAllowWrite hlive σ.world (.refl _)))
        (fun _ _ => id) fun _ _ _ => trivial) ?_
      rintro g w' ⟨⟨hg, hd⟩, hs⟩
      subst hg
      exact wp_inodeClose_denied (r := some f.inode) (hc.steady hs) ((hc.steady hs).freeMapLive hH) hd
    exact ⟨hrun.of_wp (Handles.fileClose hH (some f) σ.world hc), hrun.of_wp hclose⟩

/-- Before the first call: no file is open, but for the kernel's own, and no inode is denied to writers. -/
structure NothingOpen (H : Holders) (σ : OpenFiles) : Prop where
  anchored : Anchored H
  counts : Counts H σ.held σ.world.mem
  files : σ.files = 0
  undenied : ∀ p i, σ.world.mem.heap p = some i → i.denyWriteCnt = 0

theorem NothingOpen.counted (h : NothingOpen H σ) : Counted H σ := by
  constructor
  · rw [h.files, Multiset.map_zero, add_zero]
    exact h.counts
  · intro p i hi
    rw [h.files]
    exact h.undenied p i hi

/-- The code of `inode_write_at` behind the check of `deny_write_cnt`. -/
def inodeWriteAdmitted (p : ℕ) (buffer : ℕ → UInt8) (size offset : ℤ) : Fs ℤ := do
  let len := wrap32 (offset + size)
  if (← byteToSector p (wrap32 (len - 1))) = 2 ^ 32 - 1 then
    let bitmapWrite := bitmapWriteWith (inodeWriteAtDepth (callDepth - 1))
    let i ← deref p
    let (ok, d) ← inodeReserveWith bitmapWrite (storeData p) i.data len
    if !ok then
      return 0
    else
      let i ← deref p
      assign p { i with data := d.setLength len }
      bufferCacheWrite i.sector (d.setLength len)
      inodeWriteLoop p size.toNat buffer size offset false
  else
    inodeWriteLoop p size.toNat buffer size offset false

/-- The count of an inode is the number of its open files that are marked, and at most that of its openers; no
assertion of `inode_deny_write` or `inode_allow_write` fails, whatever file they are called for; and `inode_write_at`
writes nothing if there is such a file, and goes on behind its check if there is none. -/
structure DenialsMatch (σ : OpenFiles) : Prop where
  count : ∀ p i, σ.world.mem.heap p = some i →
    i.denyWriteCnt = countP (fun f => f.inode = p ∧ f.denyWrite = true) σ.files ∧ i.denyWriteCnt ≤ i.openCnt
  deny : ∀ f ∈ σ.files, wp .any (fileDenyWrite f) (fun _ _ => True) (fun _ _ => False) σ.world
  allow : ∀ f ∈ σ.files, wp .any (fileAllowWrite f) (fun _ _ => True) (fun _ _ => False) σ.world
  refused : ∀ p, Live σ.world.mem p → (∃ f ∈ σ.files, f.inode = p ∧ f.denyWrite = true) →
    ∀ (P : Policy) buffer size offset,
      wp P (inodeWriteAt p buffer size offset) (fun n w => n = 0 ∧ w = σ.world) (fun _ _ => False) σ.world
  admitted : ∀ p, Live σ.world.mem p → (¬∃ f ∈ σ.files, f.inode = p ∧ f.denyWrite = true) →
    ∀ (P : Policy) buffer size offset Q E, wp P (inodeWriteAt p buffer size offset) Q E σ.world ↔
      wp P (inodeWriteAdmitted p buffer size offset) Q E σ.world
  stored : ∀ p i live, σ.world.mem.heap p = some i → (¬∃ f ∈ σ.files, f.inode = p ∧ f.denyWrite = true) →
    InodeOk σ.world live → i.sector ≠ 0 → i.data.length ≤ 8517120 → ∀ buffer (offset size : ℕ), 0 < size →
      offset + size ≤ 8517120 →
      wp .space (inodeWriteAt p buffer size offset) (fun n _ => n = size) (fun _ _ => False) σ.world

theorem Counted.matches (h : Counted H σ) : DenialsMatch σ := by
  have hzero : ∀ {p i}, σ.world.mem.heap p = some i → (¬∃ f ∈ σ.files, f.inode = p ∧ f.denyWrite = true) →
      i.denyWriteCnt = 0 := by
    intro p i hi hno
    rw [← deniers_pos, Nat.not_lt, Nat.le_zero] at hno
    rw [h.denial hi, hno]
    rfl
  constructor
  · intro p i hi
    refine ⟨h.denied p i hi, ?_⟩
    have hcount := h.count_le hi
    have hle := deniers_le σ.files p
    rw [h.denial hi]
    omega
  · intro f hf
    obtain ⟨files, hfiles⟩ := Multiset.exists_cons_of_mem hf
    exact wp_mono_ret (h.fileDenyWrite hfiles) fun _ _ _ => trivial
  · intro f hf
    obtain ⟨files, hfiles⟩ := Multiset.exists_cons_of_mem hf
    exact wp_mono_ret (h.fileAllowWrite hfiles) fun _ _ _ => trivial
  · rintro p ⟨i, hi⟩ hex P buffer size offset
    have hpos := deniers_pos.mpr hex
    apply wp_inodeWriteAt_denied hi
    · rw [h.denial hi]
      exact_mod_cast hpos.ne'
    · exact ⟨rfl, rfl⟩
  · rintro p ⟨i, hi⟩ hno P buffer size offset Q E
    rw [inodeWriteAt, callDepth, inodeWriteAtDepth, wp_bind, wp_deref_some hi, if_neg (not_not.mpr (hzero hi hno))]
    rfl
  · intro p i live hi hno hok h0 hl buffer offset size hsize hmax
    exact wp_inodeWriteAt (fun _ hb => hb) hok hi h0 hl (hzero hi hno) hsize hmax (fun _ _ _ => rfl)
      fun hno => False.elim hno

/-- **Denials stay matched**, in every run of these calls on any files over any inodes. -/
theorem denials_match {cs : List FileCall} (h₀ : NothingOpen H σ) (ht : Trace FileStep σ cs σ') : DenialsMatch σ' :=
  (ht.invariant (fun _ _ _ h hs => Counted.step h h₀.anchored hs) h₀.counted).matches

end Counted

/-- One inode is in memory, and the caller has the reference to it. -/
def oneInode : OpenFiles where
  world := ⟨⟨16, Function.update (fun _ => none) 0 (some ⟨5, 1, false, 0, Block.zero⟩), 1, [0],
    ⟨16, fun _ => false⟩, none, none⟩, fun _ => Block.zero⟩
  held := {0}
  files := 0

theorem oneInode_heap (hp : p ≠ 0) : oneInode.world.mem.heap p = none := by
  show Function.update (fun _ => none) 0 _ p = none
  rw [Function.update_of_ne hp]

theorem oneInode_nothingOpen : NothingOpen ⟨0, none, none, 16, ∅⟩ oneInode := by
  have hheap : ∀ p i, oneInode.world.mem.heap p = some i → p = 0 ∧ i.openCnt = 1 ∧ i.denyWriteCnt = 0 := by
    intro p i hi
    by_cases hp : p = 0
    · subst hp
      cases (Option.some.inj hi : (⟨5, 1, false, 0, Block.zero⟩ : Inode) = i)
      exact ⟨rfl, rfl, rfl⟩
    · have hnone : oneInode.world.mem.heap p = none := oneInode_heap hp
      rw [hnone] at hi
      cases hi
  refine ⟨nofun, ⟨?_, ?_, ?_, ?_, ?_, List.nodup_singleton 0, rfl, rfl, rfl⟩, rfl, fun p i hi => (hheap p i hi).2.2⟩
  · intro p i hi
    obtain ⟨rfl, hone, -⟩ := hheap p i hi
    rw [hone]
    rfl
  · intro p hp hmem
    have hzero : p = 0 := by simpa [oneInode] using hmem
    rw [hzero] at hp
    cases hp
  · intro p i hi
    left
    rw [(hheap p i hi).1]
    decide
  · intro p hp
    have hne : p ≠ 0 := by
      rintro rfl
      cases hp
    exact oneInode_heap hne
  · intro p hp
    rw [List.mem_singleton.mp hp]
    decide

/-- A file is opened and denies writes, and a second one on the same inode does not. -/
theorem denials_match_denied : ∃ σ, σ.files = {⟨0, 0, true⟩, ⟨0, 0, false⟩} ∧ DenialsMatch σ := by
  let e : Env := ⟨fun _ => true, fun _ _ => 0, false⟩
  have he : Policy.any.Admits e := ⟨fun _ => trivial, fun _ => trivial⟩
  let w₁ := (runArray (fileOpen (some 0)) e oneInode.world).2.2
  let w₂ := (runArray (fileReopen ⟨0, 0, false⟩) e w₁).2.2
  let w₃ := (runArray (fileDenyWrite ⟨0, 0, false⟩) e w₂).2.2
  have h₁ : Runs .any (fileOpen (some 0)) oneInode.world (.ok (some ⟨0, 0, false⟩)) w₁ :=
    runs_runArray _ he fun _ => trivial
  have h₂ : Runs .any (fileReopen ⟨0, 0, false⟩) w₁ (.ok (some ⟨0, 0, false⟩)) w₂ :=
    runs_runArray _ he fun _ => trivial
  have h₃ : Runs .any (fileDenyWrite ⟨0, 0, false⟩) w₂ (.ok ⟨0, 0, true⟩) w₃ := runs_runArray _ he fun _ => trivial
  have hrun : Trace FileStep oneInode [.open (some 0), .reopen ⟨0, 0, false⟩, .deny ⟨0, 0, false⟩]
      ⟨w₃, 0, {⟨0, 0, true⟩, ⟨0, 0, false⟩}⟩ := by
    have hheld : oneInode.held = 0 + refTo (some 0) := rfl
    refine .cons (.open hheld h₁) (.cons (.reopen (f := ⟨0, 0, false⟩) ?_ h₂) (.single (.deny ?_ h₃)))
    · decide
    · rfl
  exact ⟨_, rfl, denials_match oneInode_nothingOpen hrun⟩

end Pintos.Filesys
