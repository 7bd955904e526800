import Pintos.Filesys.Startup
import Pintos.Userprog.Executable

/-!
# References to inodes at the end of a process

`Accounts s` says of a state that the `open_cnt` of every inode is the number of references to it that the
file of the free map, the descriptors and the working directories of the processes, and lost pointers make
up, process by process.  Every step keeps it as long as the processes open, close, change directory, execute
and exit.

`process_execute` loses the pointer to the file that it opens, so every process that is created has a lost
reference from its start on, and nothing drops it: when the process has exited, the executable is counted
once more than the others account for (`created_keeps_reference`).  `process_exit` loses another reference
for every directory descriptor that is still open, since it closes the file of the descriptor only.
-/

namespace Pintos.Userprog.ProcessFiles

open Pintos.Filesys

/-- One summand of a sum over a list, and the rest. -/
theorem sum_map_set {α M : Type} [AddCommMonoid M] (g : α → M) : ∀ {l : List α} {k : ℕ} {x : α},
    l[k]? = some x → ∃ rest, (l.map g).sum = rest + g x ∧
      (∀ y, ((l.set k y).map g).sum = rest + g y) ∧ ((l.eraseIdx k).map g).sum = rest
  | [], k, x, h => by simp at h
  | a :: l, 0, x, h => by
    obtain rfl : a = x := by simpa using h
    exact ⟨(l.map g).sum, by simp [add_comm], fun y => by simp [add_comm], by simp⟩
  | a :: l, k + 1, x, h => by
    obtain ⟨rest, h1, h2, h3⟩ := sum_map_set g (l := l) (k := k) (x := x) (by simpa using h)
    exact ⟨g a + rest, by simp [h1, add_assoc], fun y => by
      rw [List.set_cons_succ, List.map_cons, List.sum_cons, h2, add_assoc], by simp [h3]⟩

theorem mem_sum_map {α ι : Type} {g : α → Multiset ι} {x : α} {q : ι} : ∀ {l : List α}, x ∈ l → q ∈ g x →
    q ∈ (l.map g).sum
  | a :: l, hx, hq => by
    rw [List.map_cons, List.sum_cons, Multiset.mem_add]
    rcases List.mem_cons.mp hx with rfl | hx
    · exact .inl hq
    · exact .inr (mem_sum_map hx hq)

/-! ## The descriptors of a process -/

/-- The numbers of descriptors rise from the front to the back of the list. -/
def Ordered (fds : List Fd) : Prop := fds.Pairwise fun a b => a.num < b.num

theorem Ordered.append {fds : List Fd} (h : Ordered fds) (file : File) (dir : Option Dir) :
    Ordered (fds ++ [⟨newNum fds, file, dir⟩]) := by
  refine List.pairwise_append.mpr ⟨h, List.pairwise_singleton _ _, fun a ha b hb => ?_⟩
  rw [List.mem_singleton.mp hb, newNum]
  cases hlast : fds.getLast? with
  | none =>
    rw [List.getLast?_eq_none_iff.mp hlast] at ha
    exact absurd ha List.not_mem_nil
  | some last =>
    obtain ⟨front, rfl⟩ := List.getLast?_eq_some_iff.mp hlast
    rcases List.mem_append.mp ha with ha | ha
    · have hlt : a.num < last.num := (List.pairwise_append.mp h).2.2 a ha last (by simp)
      dsimp only
      omega
    · rw [List.mem_singleton.mp ha]
      exact Int.lt_succ _

theorem Ordered.putFile {fds : List Fd} (h : Ordered fds) (num : ℤ) (file : File) :
    Ordered (putFile fds num file) := by
  have hnum : ∀ fd : Fd, (if fd.num = num ∧ fd.dir = none then { fd with file := file } else fd).num =
      fd.num := fun fd => by split <;> rfl
  refine List.pairwise_map.mpr (h.imp fun {a b} hab => ?_)
  rwa [hnum, hnum]

/-- A number has one descriptor. -/
theorem Ordered.inj {fds : List Fd} (h : Ordered fds) {a b : Fd} (ha : a ∈ fds) (hb : b ∈ fds)
    (hnum : a.num = b.num) : a = b := by
  have hnodup : (fds.map Fd.num).Nodup := List.pairwise_map.mpr (h.imp fun hab => hab.ne)
  exact List.inj_on_of_nodup_map hnodup ha hb hnum

/-- A call of a process keeps the order of its descriptors. -/
theorem wp_body_ordered {p : Process} {w : World} (a : Act) (h : Ordered p.fds) :
    wp .any (a.body p) (fun p' _ => Ordered p'.fds) (fun _ _ => True) w := by
  have hret : ∀ {p' : Process} {w : World}, Ordered p'.fds →
      wp .any (pure p' : Fs Process) (fun p' _ => Ordered p'.fds) (fun _ _ => True) w :=
    fun h => (wp_pure _).mpr h
  have hbind : ∀ {α : Type} {q : Fs α} {g : α → Fs Process} {w : World},
      (∀ x w, wp .any (g x) (fun p' _ => Ordered p'.fds) (fun _ _ => True) w) →
      wp .any (q >>= g) (fun p' _ => Ordered p'.fds) (fun _ _ => True) w := fun hg =>
    wp_seq (wp_true _) fun x w' _ => hg x w'
  cases a with
  | load reads success =>
    rw [Act.body]
    split
    · exact hbind fun _ _ => hret h
    · exact hret h
  | inherit cwd => exact hbind fun _ _ => hbind fun _ _ => hret h
  | «open» file =>
    refine hbind fun r w' => ?_
    cases r with
    | none => exact hret h
    | some r => exact hret (h.append r.1 r.2)
  | close num =>
    rw [Act.body]
    split
    · exact hret h
    · exact hbind fun _ _ => hbind fun _ _ => hret (h.sublist List.eraseP_sublist)
  | chdir dir => exact hbind fun _ _ => hret h
  | read num size =>
    rw [Act.body]
    split
    · exact hret h
    · exact hbind fun r _ => hret (h.putFile num r.2)
  | write num buffer size =>
    rw [Act.body]
    split
    · exact hret h
    · exact hbind fun r _ => hret (h.putFile num r.2)
  | seek num position =>
    rw [Act.body]
    split
    · exact hret h
    · exact hbind fun file _ => hret (h.putFile num file)
  | exit => exact hret h
  | cleanup => exact hbind fun _ _ => hbind fun _ _ => hret List.Pairwise.nil

/-! ## What a process holds -/

/-- The references of a descriptor: a directory has two. -/
def Fd.refs (fd : Fd) : Multiset ℕ := {fd.file.inode} + dirRef fd.dir

def fdRefs (fds : List Fd) : Multiset ℕ := (fds.map Fd.refs).sum

/-- A file that has moved in the same inode. -/
theorem fdRefs_putFile {fds : List Fd} (h : Ordered fds) {num : ℤ} {fd : Fd} {file : File}
    (hfd : getFile fds num = some fd) (hinode : file.inode = fd.file.inode) :
    fdRefs (putFile fds num file) = fdRefs fds := by
  have hnum : fd.num = num := by
    have hfound := List.find?_some hfd
    exact (of_decide_eq_true hfound).1
  rw [fdRefs, fdRefs, putFile, List.map_map]
  refine congrArg _ (List.map_congr_left fun fd' hmem => ?_)
  rw [Function.comp_apply]
  split
  · rename_i heq
    obtain rfl : fd' = fd := h.inj hmem (List.mem_of_find?_eq_some hfd) (heq.1.trans hnum.symm)
    simp [Fd.refs, hinode]
  · rfl

def Process.refs (p : Process) : Multiset ℕ := fdRefs p.fds + dirRef p.cwd

/-- While a process runs in the kernel: what the others hold, what it holds itself and what it has lost. -/
def holders (B : Multiset ℕ) (f : File) (n : ℕ) (p : Process) (lost : Multiset ℕ) : Holders :=
  ⟨B + p.refs + lost, some f, p.cwd, n, Set.univ⟩

/-- The process has come to `p'`, and has lost references at most on the way. -/
def Kept (B : Multiset ℕ) (f : File) (n : ℕ) (p : Process) (lost : Multiset ℕ) (p' : Process)
    (w : World) : Prop :=
  p'.taken = p.taken ∧ ∃ more, Counts (holders B f n { p' with cwd := w.mem.cwd } (lost + more)) 0 w.mem

section Calls

variable {B lost : Multiset ℕ} {f : File} {n : ℕ} {p : Process} {w : World}

theorem holders_anchored (hf : f.inode ∈ B) : Anchored (holders B f n p lost) := fun g hg => by
  obtain rfl : f = g := Option.some.inj hg
  exact Multiset.mem_add.mpr (.inl (Multiset.mem_add.mpr (.inl hf)))

theorem holders_cwd (d : Dir) (hd : (holders B f n p lost).cwd = some d) :
    d.inode ∈ (holders B f n p lost).refs := by
  have hcwd : p.cwd = some d := hd
  simp [holders, Process.refs, hcwd]

/-- A call that did not return has lost what it had at that time. -/
theorem Kept.of_left {e : Stop} (h : Left (holders B f n p lost) e w) {p' : Process}
    (hfds : p'.fds = p.fds) (htaken : p'.taken = p.taken) : Kept B f n p lost p' w := by
  obtain ⟨_, T, hT⟩ := h
  have hcwd : w.mem.cwd = p.cwd := hT.cwd
  refine ⟨htaken, T, ?_⟩
  refine hT.repack ?_ rfl rfl rfl rfl hT.freeMapFile rfl hT.fsSize
  simp only [holders, Process.refs, hfds, hcwd, add_zero, add_assoc]

/-- A call that changes neither descriptors nor working directory. -/
theorem Kept.of_counts {T : Multiset ℕ} (h : Counts (holders B f n p lost) T w.mem) {p' : Process}
    (hfds : p'.fds = p.fds) (htaken : p'.taken = p.taken) : Kept B f n p lost p' w := by
  have hcwd : w.mem.cwd = p.cwd := h.cwd
  refine ⟨htaken, T, ?_⟩
  refine h.repack ?_ rfl rfl rfl rfl h.freeMapFile rfl h.fsSize
  simp only [holders, Process.refs, hfds, hcwd, add_zero, add_assoc]

/-! ### `load` -/

theorem still_readSegments {m : Mem} (reads : List (ℤ × ℤ)) {file : File} (hfile : Live m file.inode) :
    Still m (readSegments file reads) := by
  induction reads generalizing file with
  | nil => exact .ret _
  | cons read reads ih =>
    rw [readSegments, Filesys.fileSeek]
    split
    · rw [Prog.pure_eq_ret, Prog.ret_bind, Filesys.fileRead, Prog.bind_bind]
      exact .bind (.inodeReadAt hfile _ _) fun _ => ih hfile
    · exact .stop (by simp)

variable {H : Holders} (hH : Anchored H) (hcwd : ∀ d, H.cwd = some d → d.inode ∈ H.refs)

include hH hcwd

/-- **`load` drops what it takes**, but for the reference to a removed file. -/
theorem wp_load_counts (cmd : List UInt8) (reads : List (ℤ × ℤ)) (success : Bool)
    (hw : Counts H 0 w.mem) :
    wp .any (load cmd reads success) (fun _ w' => ∃ T, Counts H T w'.mem) (Left H) w := by
  have hret : ∀ (r : Option ℕ) (T : Multiset ℕ) (w : World), Counts H T w.mem →
      wp .any (pure r : Fs (Option ℕ)) (fun _ w' => ∃ T, Counts H T w'.mem) (Left H) w :=
    fun r T w hw => (wp_pure _).mpr ⟨T, hw⟩
  rw [load, wp_bind, wp_malloc]
  intro allocated _
  cases allocated with
  | false => exact hret _ _ _ hw
  | true =>
    rw [if_pos rfl]
    refine wp_seq (wp_filesysOpen hH hcwd _ hw) ?_
    rintro file w₁ ⟨T, hlost, hw₁⟩
    cases file with
    | none => exact hret _ _ _ hw₁
    | some file =>
      obtain rfl : T = 0 := hlost rfl
      have hw₁ : Counts H (0 + {file.inode}) w₁.mem := by simpa using hw₁
      have hlive : ∀ {w : World}, Counts H (0 + {file.inode}) w.mem → Live w.mem file.inode :=
        fun hw => hw.live (by simp)
      have hclose : ∀ (pos : ℤ) (r : Option ℕ) (w : World), Counts H (0 + {file.inode}) w.mem →
          wp .any (do
            fileClose (some { file with pos := pos })
            return r) (fun _ w' => ∃ T, Counts H T w'.mem) (Left H) w := fun pos r w hw => by
        exact wp_seq (Handles.fileClose hH (some { file with pos := pos }) w hw)
          fun _ w' h => hret r 0 w' h
      dsimp only
      rw [Filesys.fileRead, Prog.bind_bind, wp_bind]
      refine wp_mono (Still.inodeReadAt (hlive hw₁) _ _ w₁ (.refl _)) (fun header w₂ hs => ?_)
        fun _ _ he => (hw₁.steady he.2).left he.1 rfl
      have hw₂ := hw₁.steady hs
      rw [Prog.pure_eq_ret, Prog.ret_bind]
      dsimp only
      split
      · rw [wp_bind]
        have hreads : Still w₂.mem
            (readSegments { file with pos := wrap32 (file.pos + header.length) } reads) :=
          still_readSegments reads (hlive hw₂)
        refine wp_mono (hreads w₂ (.refl _)) (fun _ w₃ hs => ?_) fun _ _ he =>
          (hw₂.steady he.2).left he.1 rfl
        have hw₃ := hw₂.steady hs
        obtain ⟨i, hi⟩ := hlive hw₃
        rw [wp_bind, inodeGetInumber, wp_bind, wp_deref_some hi, wp_pure]
        exact hclose _ _ w₃ hw₃
      · exact hclose _ _ w₂ hw₂

/-! ### `open` -/

/-- The references of the descriptor that `open` makes. -/
def openRefs : Option (File × Option Dir) → Multiset ℕ
  | none => 0
  | some (file, dir) => {file.inode} + dirRef dir

theorem wp_openFd_counts (threadName file : List UInt8) (hw : Counts H 0 w.mem) :
    wp .any (openFd threadName file) (fun r w' => ∃ T, Counts H (openRefs r + T) w'.mem) (Left H) w := by
  have hret : ∀ (T : Multiset ℕ) (w : World), Counts H T w.mem →
      wp .any (pure none : Fs (Option (File × Option Dir)))
        (fun r w' => ∃ T, Counts H (openRefs r + T) w'.mem) (Left H) w :=
    fun T w hw => (wp_pure _).mpr ⟨T, by rwa [openRefs, zero_add]⟩
  rw [openFd, wp_bind, wp_malloc]
  intro allocated _
  cases allocated with
  | false => exact hret _ _ hw
  | true =>
    rw [if_pos rfl]
    refine wp_seq (wp_filesysOpen hH hcwd _ hw) ?_
    rintro fnew w₁ ⟨T, hlost, hw₁⟩
    cases fnew with
    | none => exact hret _ _ hw₁
    | some fnew =>
      obtain rfl : T = 0 := hlost rfl
      have hw₁ : Counts H {fnew.inode} w₁.mem := by simpa using hw₁
      have hmem : fnew.inode ∈ H.refs + {fnew.inode} := by simp
      have hdir : ∀ (deny : Bool) (w : World), Counts H {fnew.inode} w.mem → wp .any (do
          if ← isInodeDir fnew.inode then
            let dir ← dirOpen (← inodeReopen (some fnew.inode))
            return some ({ fnew with denyWrite := deny }, dir)
          else return some ({ fnew with denyWrite := deny }, none))
          (fun r w' => ∃ T, Counts H (openRefs r + T) w'.mem) (Left H) w := fun deny w hw => by
        refine wp_seq (Handles.isInodeDir hmem w hw) fun isDir w₂ hw₂ => ?_
        split
        · refine wp_seq (Handles.inodeReopen hmem w₂ hw₂) fun r w₃ hw₃ => ?_
          refine wp_seq (Handles.dirOpen hH r w₃ hw₃) fun dir w₄ hw₄ => ?_
          exact (wp_pure _).mpr ⟨0, by rwa [add_zero]⟩
        · exact (wp_pure _).mpr ⟨0, by simpa [openRefs] using hw₂⟩
      dsimp only
      split
      · rw [wp_bind, fileDenyWrite]
        split
        · rw [wp_bind]
          refine wp_mono (Still.inodeDenyWrite (hw₁.live hmem) w₁ (.refl _)) (fun _ w₂ hs => ?_)
            fun _ _ he => (hw₁.steady he.2).left he.1 rfl
          exact (wp_pure _).mpr (hdir true w₂ (hw₁.steady hs))
        · exact (wp_pure _).mpr (hdir fnew.denyWrite w₁ hw₁)
      · exact hdir fnew.denyWrite w₁ hw₁

omit hcwd in
theorem Handles.inheritCwd {cwd : Option Dir} (hc : ∀ d, cwd = some d → d.inode ∈ H.refs) :
    Handles H 0 (inheritCwd cwd) fun d => 0 + dirRef d := by
  cases cwd with
  | none => exact .dirOpenRoot hH
  | some d => exact .dirReopen hH (Multiset.mem_add.mpr (.inl (hc d rfl)))

/-! ### `process_exit` -/

/-- The references of the files of descriptors. -/
def fileRefs (fds : List Fd) : Multiset ℕ := (fds.map fun fd => {fd.file.inode}).sum

/-- The references of their directories, which `process_exit` forgets. -/
def dirRefs (fds : List Fd) : Multiset ℕ := (fds.map fun fd => dirRef fd.dir).sum

omit hH hcwd in
theorem fdRefs_eq (fds : List Fd) : fdRefs fds = fileRefs fds + dirRefs fds := by
  induction fds with
  | nil => rfl
  | cons fd fds ih =>
    simp only [fdRefs, fileRefs, dirRefs, List.map_cons, List.sum_cons, Fd.refs] at ih ⊢
    rw [ih]
    abel

omit hcwd in
theorem Handles.closeFiles {T : Multiset ℕ} : ∀ fds : List Fd,
    Handles H (T + fileRefs fds) (closeFiles fds) fun _ => T
  | [] => .ret (add_zero T).symm
  | fd :: fds => by
    have h : T + fileRefs (fd :: fds) = T + fileRefs fds + {fd.file.inode} := by
      simp only [fileRefs, List.map_cons, List.sum_cons]
      abel
    rw [h]
    exact .bind (.fileClose hH (some fd.file)) fun _ => Handles.closeFiles fds

end Calls

/-- A descriptor and the others. -/
theorem fdRefs_eraseP {num : ℤ} {fd : Fd} : ∀ {fds : List Fd}, getFd fds num = some fd →
    fdRefs fds = fd.refs + fdRefs (fds.eraseP fun fd => fd.num = num)
  | [], h => by simp [getFd] at h
  | fd' :: fds, h => by
    by_cases hnum : fd'.num = num
    · obtain rfl : fd' = fd := by simpa [getFd, hnum] using h
      simp [fdRefs, hnum]
    · have ih := @fdRefs_eraseP _ _ fds (by simpa [getFd, hnum] using h)
      simp only [fdRefs, List.map_cons, List.sum_cons] at ih ⊢
      rw [ih, List.eraseP_cons_of_neg (by simpa using hnum), List.map_cons, List.sum_cons]
      abel

/-! ### The calls of a process -/

section Body

variable {B lost : Multiset ℕ} {f : File} {n : ℕ} {p : Process} {w : World} (hf : f.inode ∈ B)

/-- The position in a file has moved. -/
theorem Kept.moved (ho : Ordered p.fds) {num : ℤ} {fd : Fd} (hfd : getFile p.fds num = some fd) (pos : ℤ)
    (hw : Counts (holders B f n p lost) 0 w.mem) :
    Kept B f n p lost { p with fds := putFile p.fds num { fd.file with pos := pos } } w := by
  have hcwd : w.mem.cwd = p.cwd := hw.cwd
  refine ⟨rfl, 0, ?_⟩
  refine hw.repack ?_ rfl rfl rfl rfl hw.freeMapFile rfl hw.fsSize
  simp only [holders, Process.refs, @fdRefs_putFile p.fds ho num fd { fd.file with pos := pos } hfd rfl, hcwd,
    add_zero]

theorem live_getFile {num : ℤ} {fd : Fd} (hfd : getFile p.fds num = some fd)
    (hw : Counts (holders B f n p lost) 0 w.mem) : Live w.mem fd.file.inode := by
  have hmem : fd.file.inode ∈ fdRefs p.fds :=
    mem_sum_map (List.mem_of_find?_eq_some hfd) (Multiset.mem_add.mpr (.inl (Multiset.mem_singleton_self _)))
  refine hw.live ?_
  simp only [holders, Process.refs, Multiset.mem_add]
  exact .inl (.inl (.inr (.inl hmem)))

theorem wp_read_kept (ho : Ordered p.fds) (num size : ℤ) (hw : Counts (holders B f n p lost) 0 w.mem) :
    wp .any (Act.body (.read num size) p) (Kept B f n p lost) (fun _ _ => True) w := by
  rw [Act.body]
  cases hfd : getFile p.fds num with
  | none => exact (wp_pure _).mpr (Kept.of_counts hw rfl rfl)
  | some fd =>
    have hlive : Live w.mem fd.file.inode := live_getFile hfd hw
    dsimp only
    rw [Filesys.fileRead, Prog.bind_bind, wp_bind]
    refine wp_mono (Still.inodeReadAt hlive _ _ w (.refl _)) (fun l w₁ hs => ?_) fun _ _ _ => trivial
    exact (wp_pure _).mpr (Kept.moved ho hfd _ (hw.steady hs))

theorem wp_seek_kept (ho : Ordered p.fds) (num position : ℤ)
    (hw : Counts (holders B f n p lost) 0 w.mem) :
    wp .any (Act.body (.seek num position) p) (Kept B f n p lost) (fun _ _ => True) w := by
  rw [Act.body]
  cases hfd : getFile p.fds num with
  | none => exact (wp_pure _).mpr (Kept.of_counts hw rfl rfl)
  | some fd =>
    dsimp only
    rw [Filesys.fileSeek]
    split
    · exact (wp_pure _).mpr (Kept.moved ho hfd _ hw)
    · exact (wp_stop _).mpr trivial

include hf

theorem wp_write_kept (ho : Ordered p.fds) (num : ℤ) (buffer : ℕ → UInt8) (size : ℤ)
    (hw : Counts (holders B f n p lost) 0 w.mem) :
    wp .any (Act.body (.write num buffer size) p) (Kept B f n p lost) (fun _ _ => True) w := by
  rw [Act.body]
  cases hfd : getFile p.fds num with
  | none => exact (wp_pure _).mpr (Kept.of_counts hw rfl rfl)
  | some fd =>
    have hlive : Live w.mem fd.file.inode := live_getFile hfd hw
    have hfm : FreeMapLive w.mem := hw.freeMapLive (holders_anchored hf)
    dsimp only
    rw [fileWrite, Prog.bind_bind, wp_bind]
    refine wp_mono (Still.inodeWriteAt hfm hlive _ _ _ w (.refl _)) (fun l w₁ hs => ?_) fun _ _ _ => trivial
    exact (wp_pure _).mpr (Kept.moved ho hfd _ (hw.steady hs))

theorem wp_chdir_kept (dir : List UInt8) (hw : Counts (holders B f n p lost) 0 w.mem) :
    wp .any (Act.body (.chdir dir) p) (Kept B f n p lost) (fun _ _ => True) w := by
  have hH : Anchored (holders B f n p lost) := holders_anchored hf
  rw [Act.body, wp_bind, filesysChdir, wp_bind]
  refine wp_mono (Handles.makePath hH holders_cwd dir w hw) (fun d w₁ h₁ => ?_) fun _ _ _ => trivial
  cases d with
  | none => exact (wp_pure _).mpr ((wp_pure _).mpr (Kept.of_counts h₁ rfl rfl))
  | some d =>
    -- the working directory passes to the call, which closes it
    have hH' : Anchored ⟨B + fdRefs p.fds + lost, some f, p.cwd, n, Set.univ⟩ := fun g hg => by
      obtain rfl : f = g := Option.some.inj hg
      exact Multiset.mem_add.mpr (.inl (Multiset.mem_add.mpr (.inl hf)))
    have h₂ : Counts ⟨B + fdRefs p.fds + lost, some f, p.cwd, n, Set.univ⟩ ({d.inode} + dirRef p.cwd)
        w₁.mem := by
      refine h₁.repack ?_ rfl rfl rfl rfl h₁.freeMapFile h₁.cwd h₁.fsSize
      simp only [holders, Process.refs, dirRef_some]
      abel
    have hcwd : w₁.mem.cwd = p.cwd := h₁.cwd
    dsimp only
    rw [wp_bind, wp_getMem, wp_bind, hcwd]
    refine wp_mono (Handles.dirClose hH' p.cwd w₁ h₂) (fun _ w₂ h₃ => ?_) fun _ _ _ => trivial
    rw [wp_bind, wp_getMem, wp_bind, wp_setMem, wp_pure, wp_pure]
    refine ⟨rfl, 0, ?_⟩
    refine h₃.repack ?_ rfl rfl rfl rfl h₃.freeMapFile rfl h₃.fsSize
    simp only [holders, Process.refs, dirRef_some]
    abel

theorem wp_close_kept (num : ℤ) (hw : Counts (holders B f n p lost) 0 w.mem) :
    wp .any (Act.body (.close num) p) (Kept B f n p lost) (fun _ _ => True) w := by
  rw [Act.body]
  cases hfd : getFd p.fds num with
  | none => exact (wp_pure _).mpr (Kept.of_counts hw rfl rfl)
  | some fd =>
    have hH : Anchored (holders B f n { p with fds := p.fds.eraseP fun fd => fd.num = num } lost) :=
      holders_anchored hf
    have hw' : Counts (holders B f n { p with fds := p.fds.eraseP fun fd => fd.num = num } lost)
        (dirRef fd.dir + {fd.file.inode}) w.mem := by
      refine hw.repack ?_ rfl rfl rfl rfl hw.freeMapFile hw.cwd hw.fsSize
      simp only [holders, Process.refs, fdRefs_eraseP hfd, Fd.refs]
      abel
    dsimp only
    rw [wp_bind]
    refine wp_mono (Handles.fileClose hH (some fd.file) w hw') (fun _ w₁ h₁ => ?_) fun _ _ _ => trivial
    have h₁ : Counts (holders B f n { p with fds := p.fds.eraseP fun fd => fd.num = num } lost)
        (0 + dirRef fd.dir) w₁.mem := by rwa [zero_add]
    rw [wp_bind]
    refine wp_mono (Handles.dirClose hH fd.dir w₁ h₁) (fun _ w₂ h₂ => ?_) fun _ _ _ => trivial
    have hcwd : w₂.mem.cwd = p.cwd := h₂.cwd
    refine (wp_pure _).mpr ⟨rfl, 0, ?_⟩
    rw [hcwd, add_zero]
    exact h₂

theorem wp_cleanup_kept (hw : Counts (holders B f n p lost) 0 w.mem) :
    wp .any (Act.body .cleanup p) (Kept B f n p lost) (fun _ _ => True) w := by
  have hH : Anchored ⟨B + lost + dirRefs p.fds, some f, p.cwd, n, Set.univ⟩ := fun g hg => by
    obtain rfl : f = g := Option.some.inj hg
    exact Multiset.mem_add.mpr (.inl (Multiset.mem_add.mpr (.inl hf)))
  have hw' : Counts ⟨B + lost + dirRefs p.fds, some f, p.cwd, n, Set.univ⟩
      (dirRef p.cwd + fileRefs p.fds) w.mem := by
    refine hw.repack ?_ rfl rfl rfl rfl hw.freeMapFile hw.cwd hw.fsSize
    simp only [holders, Process.refs, fdRefs_eq]
    abel
  rw [Act.body, wp_bind, processExit, wp_bind]
  refine wp_mono (Handles.closeFiles hH p.fds w hw') (fun _ w₁ h₁ => ?_) fun _ _ _ => trivial
  have hcwd : w₁.mem.cwd = p.cwd := h₁.cwd
  have h₁ : Counts ⟨B + lost + dirRefs p.fds, some f, p.cwd, n, Set.univ⟩ (0 + dirRef p.cwd) w₁.mem := by
    rwa [zero_add]
  rw [wp_bind, wp_getMem, hcwd]
  refine wp_mono (Handles.dirClose hH p.cwd w₁ h₁) (fun _ w₂ h₂ => ?_) fun _ _ _ => trivial
  rw [wp_bind, setCwd, wp_bind, wp_getMem, wp_setMem, wp_pure]
  refine ⟨rfl, dirRefs p.fds, ?_⟩
  refine h₂.repack ?_ rfl rfl rfl rfl h₂.freeMapFile rfl h₂.fsSize
  simp only [holders, Process.refs, fdRefs, List.map_nil, List.sum_nil, dirRef_none]
  abel

theorem wp_inherit_kept {cwd : Option Dir} (hc : ∀ d, cwd = some d → d.inode ∈ B)
    (hw : Counts (holders B f n p lost) 0 w.mem) :
    wp .any (Act.body (.inherit cwd) p) (Kept B f n p lost) (fun _ _ => True) w := by
  have hH : Anchored (holders B f n p lost) := holders_anchored hf
  have hc' : ∀ d, cwd = some d → d.inode ∈ (holders B f n p lost).refs := fun d hd =>
    Multiset.mem_add.mpr (.inl (Multiset.mem_add.mpr (.inl (hc d hd))))
  rw [Act.body, wp_bind]
  refine wp_mono (Handles.inheritCwd hH hc' w hw) (fun d w₁ h₁ => ?_) fun _ _ _ => trivial
  rw [wp_bind, setCwd, wp_bind, wp_getMem, wp_setMem, wp_pure]
  refine ⟨rfl, dirRef p.cwd, ?_⟩
  refine h₁.repack ?_ rfl rfl rfl rfl h₁.freeMapFile rfl h₁.fsSize
  simp only [holders, Process.refs]
  abel

/-- **What a process does keeps its account.** -/
theorem wp_body_kept {s : Processes} {k : ℕ} {a : Act} (ha : s.Enabled k p a) (ho : Ordered p.fds)
    (hc : ∀ cwd, a = .inherit cwd → ∀ d, cwd = some d → d.inode ∈ B)
    (hw : Counts (holders B f n p lost) 0 w.mem) :
    wp .any (a.body p) (Kept B f n p lost) (fun _ _ => True) w := by
  have hH : Anchored (holders B f n p lost) := holders_anchored hf
  cases a with
  | load reads success =>
    obtain ⟨parent, cmd, hstage⟩ := ha
    rw [Act.body, hstage, wp_bind]
    refine wp_mono (wp_load_counts hH holders_cwd cmd reads success hw) (fun r w₁ h₁ => ?_)
      fun _ _ _ => trivial
    obtain ⟨T, h₁⟩ := h₁
    exact (wp_pure _).mpr (Kept.of_counts h₁ rfl rfl)
  | inherit cwd => exact wp_inherit_kept hf (hc cwd rfl) hw
  | «open» file =>
    rw [Act.body, wp_bind]
    refine wp_mono (wp_openFd_counts hH holders_cwd p.name file hw) (fun r w₁ h₁ => ?_)
      fun _ _ _ => trivial
    obtain ⟨T, h₁⟩ := h₁
    cases r with
    | none => exact (wp_pure _).mpr (Kept.of_counts h₁ rfl rfl)
    | some r =>
      obtain ⟨fnew, dir⟩ := r
      have hcwd : w₁.mem.cwd = p.cwd := h₁.cwd
      refine (wp_pure _).mpr ⟨rfl, T, ?_⟩
      refine h₁.repack ?_ rfl rfl rfl rfl h₁.freeMapFile rfl h₁.fsSize
      simp only [holders, Process.refs, fdRefs, List.map_append, List.sum_append, List.map_cons,
        List.map_nil, List.sum_cons, List.sum_nil, Fd.refs, openRefs, hcwd]
      abel
  | close num => exact wp_close_kept hf num hw
  | chdir dir => exact wp_chdir_kept hf dir hw
  | read num size => exact wp_read_kept ho num size hw
  | write num buffer size => exact wp_write_kept hf ho num buffer size hw
  | seek num position => exact wp_seek_kept ho num position hw
  | exit => exact (wp_pure _).mpr (Kept.of_counts hw rfl rfl)
  | cleanup => exact wp_cleanup_kept hf hw

/-- A fault of the kernel in a call loses references at most. -/
theorem wp_entry_kept {s : Processes} {k : ℕ} {a : Act} (ha : s.Enabled k p a)
    (hw : Counts (holders B f n p lost) 0 w.mem) :
    wp .any (a.entry p) (fun _ _ => True) (fun _ w' => Kept B f n p lost { p with stage := .dying } w') w := by
  have hH : Anchored (holders B f n p lost) := holders_anchored hf
  have hkept : ∀ {e : Stop} {w' : World}, Left (holders B f n p lost) e w' →
      Kept B f n p lost { p with stage := .dying } w' := fun h => Kept.of_left h rfl rfl
  cases a with
  | load reads success =>
    obtain ⟨parent, cmd, hstage⟩ := ha
    rw [Act.entry, hstage, wp_bind]
    exact wp_mono (wp_load_counts hH holders_cwd cmd reads success hw)
      (fun _ _ _ => (wp_pure _).mpr trivial) fun _ _ h => hkept h
  | «open» file =>
    rw [Act.entry, wp_bind]
    exact wp_mono (wp_openFd_counts hH holders_cwd p.name file hw)
      (fun _ _ _ => (wp_pure _).mpr trivial) fun _ _ h => hkept h
  | chdir dir =>
    rw [Act.entry, wp_bind]
    exact wp_mono (Handles.makePath hH holders_cwd dir w hw)
      (fun _ _ _ => (wp_pure _).mpr trivial) fun _ _ h => hkept h
  | inherit | close | read | write | seek | exit | cleanup => exact (wp_pure _).mpr trivial

end Body

/-! ## The account of all processes -/

theorem opened_eq {H : Holders} {T : Multiset ℕ} {m : Mem} (h : Counts H T m) (q : ℕ) :
    opened m q = (H.refs + T).count q := by
  rw [opened]
  cases hi : m.heap q with
  | none => rw [Multiset.count_eq_zero.mpr (h.gone q hi)]; rfl
  | some i => exact h.count q i hi

namespace Processes

/-- The references of a process, and those it has lost. -/
def held (x : Process × Multiset ℕ) : Multiset ℕ := x.1.refs + x.2

/-- In a list of processes with the references they have lost: what the calls of a process have added is
what it holds and has lost, and every process but the first has lost something. -/
structure Entries (L : List (Process × Multiset ℕ)) : Prop where
  taken : ∀ x ∈ L, ∀ q, x.1.taken q = (held x).count q
  ordered : ∀ x ∈ L, Ordered x.1.fds
  lost : ∀ k x, L[k]? = some x → k ≠ 0 → x.2 ≠ 0

/-- Every `open_cnt` is the number of references of the file of the free map and of the processes with those
they have lost. -/
structure Accounts (n : ℕ) (s : Processes) (f : File) (L : List (Process × Multiset ℕ)) : Prop where
  procs : s.procs = L.map Prod.fst
  entries : Entries L
  counts : Counts ⟨{f.inode} + (L.map held).sum, some f, s.world.mem.cwd, n, Set.univ⟩ 0 s.world.mem

def Accounted (n : ℕ) (f : File) (s : Processes) : Prop := ∃ L, Accounts n s f L

section Step

variable {n k : ℕ} {s s' : Processes} {f : File} {L : List (Process × Multiset ℕ)} {p p' : Process}
  {lost : Multiset ℕ} {w : World}

theorem Entries.set (h : Entries L) {x y : Process × Multiset ℕ} (hx : L[k]? = some x)
    (htaken : ∀ q, y.1.taken q = (held y).count q) (ho : Ordered y.1.fds) (hlost : x.2 ≠ 0 → y.2 ≠ 0) :
    Entries (L.set k y) where
  taken z hz := by
    rcases List.mem_or_eq_of_mem_set hz with hz | rfl
    · exact h.taken z hz
    · exact htaken
  ordered z hz := by
    rcases List.mem_or_eq_of_mem_set hz with hz | rfl
    · exact h.ordered z hz
    · exact ho
  lost j z hz hj := by
    rcases eq_or_ne k j with rfl | hne
    · rw [List.getElem?_set_self (List.getElem?_eq_some_iff.mp hx).1] at hz
      obtain rfl := Option.some.inj hz
      exact hlost (h.lost k x hx hj)
    · rw [List.getElem?_set_ne hne] at hz
      exact h.lost j z hz hj

/-- A process goes on to another stage. -/
theorem Entries.setStage (h : Entries L) (hp : L[k]? = some (p, lost)) (stage : Stage) :
    Entries (L.set k ({ p with stage := stage }, lost)) := by
  have hmem : (p, lost) ∈ L := List.mem_of_getElem? hp
  have htaken : ∀ q, p.taken q = (held (p, lost)).count q := h.taken _ hmem
  have ho : Ordered p.fds := h.ordered _ hmem
  exact h.set (y := ({ p with stage := stage }, lost)) hp htaken ho id

theorem Entries.append (h : Entries L) {y : Process × Multiset ℕ}
    (htaken : ∀ q, y.1.taken q = (held y).count q) (ho : Ordered y.1.fds) (hlost : y.2 ≠ 0) :
    Entries (L ++ [y]) where
  taken z hz := by
    rcases List.mem_append.mp hz with hz | hz
    · exact h.taken z hz
    · rw [List.mem_singleton.mp hz]
      exact htaken
  ordered z hz := by
    rcases List.mem_append.mp hz with hz | hz
    · exact h.ordered z hz
    · rw [List.mem_singleton.mp hz]
      exact ho
  lost j z hz hj := by
    rw [List.getElem?_append] at hz
    split at hz
    · exact h.lost j z hz hj
    · rw [List.mem_singleton.mp (List.mem_of_getElem? hz)]
      exact hlost

theorem Accounts.entry (h : Accounts n s f L) (hp : s.procs[k]? = some p) :
    ∃ lost, L[k]? = some (p, lost) := by
  rw [h.procs, List.getElem?_map, Option.map_eq_some_iff] at hp
  obtain ⟨⟨q, lost⟩, hx, rfl⟩ := hp
  exact ⟨lost, hx⟩

/-- What the others hold while process `k` is in the kernel. -/
theorem Accounts.seenBy (h : Accounts n s f L) (hp : L[k]? = some (p, lost)) :
    ∃ rest, Counts (holders ({f.inode} + rest) f n p lost) 0 (seenBy s.world p).mem ∧
      (L.map held).sum = rest + held (p, lost) ∧
      (∀ y, ((L.set k y).map held).sum = rest + held y) ∧ ((L.eraseIdx k).map held).sum = rest := by
  obtain ⟨rest, hsum, hset, herase⟩ := sum_map_set held hp
  refine ⟨rest, ?_, hsum, hset, herase⟩
  refine h.counts.repack ?_ rfl rfl rfl rfl h.counts.freeMapFile rfl h.counts.fsSize
  rw [hsum]
  simp only [holders, held, add_assoc]

/-- **The account after a call of process `k`.** -/
theorem Accounts.put (h : Accounts n s f L) {rest : Multiset ℕ} (hp : L[k]? = some (p, lost))
    (hsum : (L.map held).sum = rest + held (p, lost))
    (hset : ∀ y, ((L.set k y).map held).sum = rest + held y) (ho : Ordered p'.fds)
    (hk : Kept ({f.inode} + rest) f n p lost p' w) : Accounted n f (s.put k p' w) := by
  obtain ⟨htaken, more, hw⟩ := hk
  refine ⟨L.set k ({ p' with
    cwd := w.mem.cwd
    taken := p'.taken + (opened w.mem - opened s.world.mem) }, lost + more), ?_, ?_, ?_⟩
  · rw [Processes.put, h.procs, List.map_set]
  · refine h.entries.set hp (fun q => ?_) ho fun hlost h0 => hlost (add_eq_zero.mp h0).1
    have hold := h.entries.taken _ (List.mem_of_getElem? hp) q
    have hbefore := opened_eq h.counts q
    have hafter := opened_eq hw q
    simp only [hsum, held, holders, Process.refs, Multiset.count_add, add_zero, Nat.cast_add] at *
    simp only [Pi.add_apply, Pi.sub_apply, htaken, hold, hbefore, hafter]
    ring
  · refine hw.repack ?_ rfl rfl rfl rfl hw.freeMapFile rfl hw.fsSize
    rw [hset]
    simp only [holders, held, Process.refs, add_assoc]

/-- **`process_execute` loses a reference.** -/
theorem Accounts.execute (h : Accounts n s f L) {rest : Multiset ℕ} (hp : L[k]? = some (p, lost))
    (hsum : (L.map held).sum = rest + held (p, lost))
    (hset : ∀ y, ((L.set k y).map held).sum = rest + held y) {cmd : List UInt8} {g : File}
    (hw : Counts (holders ({f.inode} + rest) f n p lost) {g.inode} w.mem) :
    Accounted n f ⟨w, s.procs.set k { p with stage := .waiting s.procs.length } ++ [s.child k cmd w]⟩ := by
  refine ⟨L.set k ({ p with stage := .waiting s.procs.length }, lost) ++
    [(s.child k cmd w, {g.inode})], ?_, ?_, ?_⟩
  · simp only [h.procs, List.map_append, List.map_set, List.map_cons, List.map_nil]
  · refine (h.entries.setStage hp _).append (fun q => ?_) List.Pairwise.nil (Multiset.singleton_ne_zero _)
    have hbefore := opened_eq h.counts q
    have hafter := opened_eq hw q
    simp only [hsum, holders, held, Multiset.count_add, add_zero, Nat.cast_add] at hbefore hafter
    simp only [child, held, Process.refs, fdRefs, Pi.sub_apply, hbefore, hafter, List.map_nil, List.sum_nil,
      dirRef_none, zero_add]
    ring
  · refine hw.repack ?_ rfl rfl rfl rfl hw.freeMapFile rfl hw.fsSize
    rw [List.map_append, List.sum_append, hset]
    simp only [holders, held, child, Process.refs, fdRefs, List.map_cons, List.map_nil, List.sum_cons,
      List.sum_nil, dirRef_none]
    abel

theorem Accounts.setStage (h : Accounts n s f L) (hp : L[k]? = some (p, lost)) (stage : Stage) :
    Accounted n f ⟨s.world, s.procs.set k { p with stage := stage }⟩ := by
  obtain ⟨rest, hsum, hset, _⟩ := sum_map_set held hp
  refine ⟨L.set k ({ p with stage := stage }, lost), ?_, h.entries.setStage hp stage, ?_⟩
  · simp only [h.procs, List.map_set]
  · refine h.counts.repack ?_ rfl rfl rfl rfl h.counts.freeMapFile rfl h.counts.fsSize
    rw [hset, hsum]
    rfl

/-- The working directory that a new process inherits is held by its parent. -/
theorem Accounts.inherited (h : Accounts n s f L) {rest : Multiset ℕ}
    (herase : ((L.eraseIdx k).map held).sum = rest) (hp : s.procs[k]? = some p) {cwd : Option Dir}
    (ha : s.Enabled k p (.inherit cwd)) (d : Dir) (hd : cwd = some d) : d.inode ∈ {f.inode} + rest := by
  obtain ⟨parent, success, q, hstage, hq, hwait, rfl⟩ := ha
  have hne : parent ≠ k := fun hk => by
    rw [hk, hp] at hq
    obtain rfl := Option.some.inj hq
    rw [hstage] at hwait
    cases hwait
  obtain ⟨lost, hx⟩ := h.entry hq
  have hmem : (q, lost) ∈ L.eraseIdx k := List.mem_eraseIdx_iff_getElem?.mpr ⟨parent, hne, hx⟩
  rw [← herase]
  refine Multiset.mem_add.mpr (.inr (mem_sum_map hmem ?_))
  simp [held, Process.refs, hd]

/-- **A step keeps the account.** -/
theorem Accounted.step (h : Accounted n f s) {l : ℕ × Label} (hs : Step s l s') : Accounted n f s' := by
  obtain ⟨L, h⟩ := h
  cases hs with
  | @act k p p' a w hp ha hr =>
    obtain ⟨lost, hx⟩ := h.entry hp
    obtain ⟨rest, hw, hsum, hset, herase⟩ := h.seenBy hx
    have ho : Ordered p.fds := h.entries.ordered _ (List.mem_of_getElem? hx)
    have hf : f.inode ∈ ({f.inode} + rest : Multiset ℕ) := by simp
    have hc : ∀ cwd, a = .inherit cwd → ∀ d, cwd = some d → d.inode ∈ {f.inode} + rest := fun cwd hcwd =>
      h.inherited herase hp (hcwd ▸ ha)
    exact h.put hx hsum hset (wp_iff_runs.mp (wp_body_ordered a ho) _ _ hr)
      (wp_iff_runs.mp (wp_body_kept hf ha ho hc hw) _ _ hr)
  | @fault k p a e w hp ha hr he =>
    obtain ⟨lost, hx⟩ := h.entry hp
    obtain ⟨rest, hw, hsum, hset, _⟩ := h.seenBy hx
    have hf : f.inode ∈ ({f.inode} + rest : Multiset ℕ) := by simp
    exact h.put hx hsum hset (h.entries.ordered _ (List.mem_of_getElem? hx))
      (wp_iff_runs.mp (wp_entry_kept hf ha hw) _ _ hr)
  | @executeNone k p cmd w hp hstage hr =>
    obtain ⟨lost, hx⟩ := h.entry hp
    obtain ⟨rest, hw, hsum, hset, _⟩ := h.seenBy hx
    have hf : f.inode ∈ ({f.inode} + rest : Multiset ℕ) := by simp
    obtain ⟨more, _, hw'⟩ := wp_iff_runs.mp (wp_filesysOpen (holders_anchored hf) holders_cwd _ hw) _ _ hr
    exact h.put hx hsum hset (h.entries.ordered _ (List.mem_of_getElem? hx)) (Kept.of_counts hw' rfl rfl)
  | @execute k p cmd g w hp hstage hr =>
    obtain ⟨lost, hx⟩ := h.entry hp
    obtain ⟨rest, hw, hsum, hset, _⟩ := h.seenBy hx
    have hf : f.inode ∈ ({f.inode} + rest : Multiset ℕ) := by simp
    obtain ⟨more, hmore, hw'⟩ := wp_iff_runs.mp (wp_filesysOpen (holders_anchored hf) holders_cwd _ hw) _ _ hr
    obtain rfl : more = 0 := hmore rfl
    exact h.execute hx hsum hset (by simpa using hw')
  | @resume k c p q hp hstage hq hstart hload =>
    obtain ⟨lost, hx⟩ := h.entry hp
    exact h.setStage hx .running

/-- At first only the file of the free map has a reference. -/
theorem Boot.accounted (h : Boot s) : ∃ n f, Accounted n f s ∧
    ∀ q, opened s.world.mem q = ({f.inode} : Multiset ℕ).count q := by
  obtain ⟨w₀, format, hblank, hr⟩ := h.init
  obtain ⟨f, hf⟩ := wp_iff_runs.mp (wp_filesysInit_counts hblank format) _ _ hr
  have hcwd : s.world.mem.cwd = none := hf.cwd
  refine ⟨w₀.mem.fsSize, f, ⟨[(main, 0)], h.procs, ⟨?_, ?_, ?_⟩, ?_⟩, fun q => opened_eq hf q⟩
  · intro x hx q
    obtain rfl := List.mem_singleton.mp hx
    rfl
  · intro x hx
    obtain rfl := List.mem_singleton.mp hx
    exact List.Pairwise.nil
  · intro k x hx hk
    cases k with
    | zero => exact absurd rfl hk
    | succ k => cases hx
  · refine (hf.stray_mono (Set.subset_univ _)).repack ?_ rfl rfl rfl rfl hf.freeMapFile rfl hf.fsSize
    rfl

/-- What the calls of processes have added is what they hold and have lost. -/
theorem sum_taken : ∀ {L : List (Process × Multiset ℕ)},
    (∀ x ∈ L, ∀ q, x.1.taken q = (held x).count q) → ∀ q,
    ((L.map Prod.fst).map (Process.taken · q)).sum = (L.map held).sum.count q
  | [], _, q => rfl
  | x :: L, h, q => by
    have hx := h x List.mem_cons_self q
    have ih := sum_taken (fun y hy => h y (List.mem_cons_of_mem _ hy)) q
    simp only [List.map_cons, List.sum_cons, Multiset.count_add, Nat.cast_add, ih, hx]

end Step

/-- No reference taken on behalf of process `k` remains: every `open_cnt` is what it was after boot and what
the calls of the other processes have added. -/
def Cleaned (s s₀ : Processes) (k : ℕ) : Prop :=
  ∀ q, opened s.world.mem q = opened s₀.world.mem q + ((s.procs.eraseIdx k).map (Process.taken · q)).sum

/-- **A process leaves a reference behind.**  In every run from boot, no process that `process_execute` has
created is ever cleaned up, at whatever stage it is; `process_exit` makes no difference. -/
theorem created_keeps_reference {s₀ s : Processes} {ls : List (ℕ × Label)} (h₀ : Boot s₀)
    (hrun : Trace Step s₀ ls s) {k : ℕ} {p : Process} (hk : k ≠ 0) (hp : s.procs[k]? = some p) :
    ¬s.Cleaned s₀ k := by
  obtain ⟨n, f, hacc, hstart⟩ := h₀.accounted
  obtain ⟨L, h⟩ := hrun.invariant (I := Accounted n f) (fun _ _ _ hI hs => hI.step hs) hacc
  obtain ⟨lost, hx⟩ := h.entry hp
  obtain ⟨q, hmem⟩ := Multiset.exists_mem_of_ne_zero (h.entries.lost k _ hx hk)
  have hq : 0 < lost.count q := Multiset.count_pos.mpr hmem
  obtain ⟨rest, hsum, _, herase⟩ := sum_map_set held hx
  intro hclean
  have hall := opened_eq h.counts q
  have hothers : ((s.procs.eraseIdx k).map (Process.taken · q)).sum = rest.count q := by
    rw [h.procs, List.eraseIdx_map, sum_taken (fun x hx => h.entries.taken x (List.mem_of_mem_eraseIdx hx)),
      herase]
  have hrest : opened s.world.mem q = ({f.inode} : Multiset ℕ).count q + rest.count q := by
    rw [← hstart q, ← hothers]
    exact hclean q
  rw [hrest, hsum] at hall
  simp only [held, Multiset.count_add, Nat.cast_add, add_zero] at hall
  omega

/-! ### A process that exits -/

theorem runs_setCwd (cwd : Option Dir) (w : World) :
    Runs .any (setCwd cwd) w (.ok ()) { w with mem := { w.mem with cwd := cwd } } :=
  ⟨w.mem, w, ⟨rfl, rfl⟩, (), _, rfl, rfl, rfl⟩

theorem runs_inherit {p : Process} {w w' : World} {cwd d : Option Dir}
    (h : Runs .any (inheritCwd cwd) w (.ok d) w') :
    Runs .any (Act.body (.inherit cwd) p) w
      (.ok { p with stage := if p.executable.isSome then .running else .dying })
      { w' with mem := { w'.mem with cwd := d } } :=
  h.bind ((runs_setCwd d w').bind ⟨rfl, rfl⟩)

theorem runs_cleanup {p : Process} {w w' : World} (h : Runs .any (processExit p.fds) w (.ok ()) w') :
    Runs .any (Act.body .cleanup p) w (.ok { p with fds := [], stage := .exited })
      { w' with mem := { w'.mem with cwd := none } } :=
  h.bind ((runs_setCwd none w').bind ⟨rfl, rfl⟩)

theorem trace_steps {s s' : Processes} {ls : List ((ℕ × Label) × Processes)} (h : Trace Visits s ls s') :
    Trace Step s (ls.map Prod.fst) s' := by
  induction h with
  | nil s => exact .nil s
  | cons head _ ih =>
    obtain ⟨hstep, rfl⟩ := head
    exact .cons hstep ih

/-- A process that has loaded a program inherits its working directory and exits. -/
theorem trace_exit {p q : Process} {w w₁ w₂ : World} {cwd : Option Dir} (hp : p.stage = .loaded 0 true)
    (hexe : p.executable.isSome) (hfds : p.fds = []) (hq : q.stage = .waiting 1) (hcwd : q.cwd = none)
    (h₁ : Runs .any (inheritCwd none) (seenBy w p) (.ok cwd) w₁)
    (h₂ : Runs .any (processExit []) { w₁ with mem := { w₁.mem with cwd := cwd } } (.ok ()) w₂) :
    ∃ ls s' p', Trace Step ⟨w, [q, p]⟩ ls s' ∧ s'.procs[1]? = some p' ∧ p'.stage = .exited ∧
      opened s'.world.mem = opened w₂.mem ∧ (s'.procs.eraseIdx 1).map Process.taken = [q.taken] := by
  have hinherit := Step.act (s := ⟨w, [q, p]⟩) (k := 1) (a := .inherit none) rfl
    ⟨0, true, q, hp, rfl, hq, hcwd⟩ (runs_inherit h₁)
  rw [if_pos hexe] at hinherit
  have hexit := Step.act (s := put ⟨w, [q, p]⟩ 1 { p with stage := .running }
    { w₁ with mem := { w₁.mem with cwd := cwd } }) (k := 1) (a := .exit) rfl ⟨rfl, hexe⟩ ⟨rfl, rfl⟩
  refine ⟨_, _, _, .cons hinherit (.cons hexit (.single (.act (k := 1) (a := .cleanup) rfl rfl
    (@runs_cleanup _ _ w₂ ?_)))), rfl, rfl, rfl, rfl⟩
  show Runs .any (processExit p.fds) _ _ _
  rw [hfds]
  exact h₂

/-- A first process of all that runs and exits. -/
theorem exits {s : Processes} {cmd : List UInt8} {f : File} {w₁ w₂ w₃ w₄ : World} {sector : ℕ}
    {cwd : Option Dir} (hs : s.procs = [main])
    (h₁ : Runs .any (filesysOpen (command cmd)) (seenBy s.world main) (.ok (some f)) w₁)
    (h₂ : Runs .any (load cmd [] true) (seenBy w₁ (s.child 0 cmd w₁)) (.ok (some sector)) w₂)
    (h₃ : Runs .any (inheritCwd none) w₂ (.ok cwd) w₃)
    (h₄ : Runs .any (processExit []) { w₃ with mem := { w₃.mem with cwd := cwd } } (.ok ()) w₄) :
    ∃ ls s' p, Trace Step s ls s' ∧ s'.procs[1]? = some p ∧ p.stage = .exited ∧
      opened s'.world.mem = opened w₄.mem ∧ (s'.procs.eraseIdx 1).map Process.taken = [0] := by
  have hload := trace_steps (trace_load hs h₁ h₂)
  obtain ⟨world, procs⟩ := s
  subst hs
  obtain ⟨ls, s', p, ht, hrest⟩ := trace_exit (w := w₂) (q := { main with stage := .waiting 1 })
    (p := { child ⟨world, [main]⟩ 0 cmd w₁ with
      executable := some sector
      stage := .loaded 0 true
      cwd := w₂.mem.cwd
      taken := (child ⟨world, [main]⟩ 0 cmd w₁).taken + (opened w₂.mem - opened w₁.mem) })
    rfl rfl rfl rfl rfl h₃ h₄
  exact ⟨_, s', p, hload.append ht, hrest⟩

/-- The file system when the new process has opened its working directory. -/
def inheritedWorld : World := (runArray (inheritCwd none) plainEnv loadedWorld).2.2

/-- The file system when this is its working directory. -/
def seatedWorld : World :=
  { inheritedWorld with mem := { inheritedWorld.mem with cwd := some ⟨4, 20⟩ } }

/-- The file system after `process_exit`. -/
def exitedWorld : World := (runArray (processExit []) plainEnv seatedWorld).2.2

/-- What the calls return, and how often the inode of `"a"` is open before and after them. -/
theorem answers_exit : (runArray (inheritCwd none) plainEnv loadedWorld).1 = .ok (some ⟨4, 20⟩) ∧
    (runArray (processExit []) plainEnv seatedWorld).1 = .ok () ∧
    opened booted.world.mem 2 = 0 ∧ opened exitedWorld.mem 2 = 1 := by
  decide +kernel

theorem runs_inherited : Runs .any (inheritCwd none) loadedWorld (.ok (some ⟨4, 20⟩)) inheritedWorld :=
  runs_any _ _ answers_exit.1

theorem runs_exited : Runs .any (processExit []) seatedWorld (.ok ()) exitedWorld :=
  runs_any _ _ answers_exit.2.1

theorem created_keeps_reference_exited : ∃ ls s p, Trace Step booted ls s ∧ s.procs[1]? = some p ∧
    p.stage = .exited ∧ ¬s.Cleaned booted 1 := by
  obtain ⟨ls, s, p, ht, hp, hexit, _⟩ := exits rfl runs_executed runs_loaded runs_inherited runs_exited
  exact ⟨ls, s, p, ht, hp, hexit, created_keeps_reference booted_boot ht one_ne_zero hp⟩

/-- **`"a"` is counted after its process has exited.**  A process is created from `"a"`, loads it and exits;
its inode has an `open_cnt` that nobody else accounts for. -/
theorem exited_not_cleaned : ∃ s₀ ls s p, Boot s₀ ∧ Trace Step s₀ ls s ∧ s.procs[1]? = some p ∧
    p.stage = .exited ∧ ¬s.Cleaned s₀ 1 := by
  obtain ⟨ls, s, p, ht, hp, hexit, hopen, htaken⟩ :=
    exits rfl runs_executed runs_loaded runs_inherited runs_exited
  refine ⟨booted, ls, s, p, booted_boot, ht, hp, hexit, fun h => ?_⟩
  obtain ⟨_, _, hnone, hone⟩ := answers_exit
  have hothers : ((s.procs.eraseIdx 1).map (Process.taken · 2)).sum = 0 := by
    rw [show (Process.taken · 2) = (fun g : ℕ → ℤ => g 2) ∘ Process.taken from rfl, ← List.map_map, htaken]
    rfl
  have hclean := h 2
  rw [hopen, hnone, hone, hothers] at hclean
  exact absurd hclean (by decide)

end Processes

end Pintos.Userprog.ProcessFiles
