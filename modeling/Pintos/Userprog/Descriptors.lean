import Pintos.Filesys.Readdir
import Pintos.Userprog.ProcessCleanup

/-!
# The descriptors of a process

`get_file` of `userprog/syscall.c` and the system calls that take or return a descriptor.  The list `fd_head` is a list
of `struct Fd`; only the process itself changes it.  A descriptor is one of a directory if its `dir` is not null.

* A run of `open` and `close` means a partial map from numbers to descriptors, and `get_file` looks numbers up in it
  (`descriptor_table`).  The invariant is that the numbers rise along the list, so the one behind the last is new.
* `badDescriptorsHarmless_iff`: what the calls do with a number that has no descriptor of the kind they are for.
-/

namespace Pintos.Userprog.Descriptors

open Pintos.Filesys Pintos.Threads
open ProcessFiles (Fd newNum openFd Ordered Ordered.inj)
open ProcessFiles.Processes (loadedWorld runs_any)

/-! ## The table -/

/-- `F` of `enum file_or_dir` -/
abbrev fileFlag : ℕ := 1

/-- `D` of `enum file_or_dir` -/
abbrev dirFlag : ℕ := 2

/-- The descriptor is of a kind that `flag` asks for. -/
def ofKind (flag : ℕ) (fcur : Fd) : Bool :=
  if fcur.dir.isSome then flag &&& dirFlag != 0 else flag &&& fileFlag != 0

/-- `get_file` -/
def getFile (fds : List Fd) (dnum : ℤ) (flag : ℕ) : Option Fd :=
  if 3 ≤ dnum then fds.find? fun fcur => decide (fcur.num = dnum) && ofKind flag fcur else none

/-- The `int` that becomes the number of a new descriptor. -/
def nextNum (fds : List Fd) : ℤ := wrap32 (newNum fds)

/-- `open`: the descriptor that is put behind the others, whose number it returns; it returns -1 if there is none. -/
def openCall (threadName file : List UInt8) (fds : List Fd) : Fs (Option Fd) := do
  match ← openFd threadName file with
  | none => return none
  | some (fnew, dir) => return some ⟨nextNum fds, fnew, dir⟩

/-- `close` -/
def closeCall (fd : ℤ) (fds : List Fd) : Fs (List Fd) :=
  match getFile fds fd (fileFlag ||| dirFlag) with
  | none => .stop (.exit (-1))
  | some fcur => do
    fileClose (some fcur.file)
    dirClose fcur.dir
    return fds.eraseP fun x => x.num = fd

/-- A call, with what it returns. -/
inductive Label
  | «open» (file : List UInt8) (fcur : Option Fd)
  | close (fd : ℤ)

/-- A call of a process.  Between two calls of it the file system may have changed in any way. -/
inductive Step (threadName : List UInt8) : List Fd → Label → List Fd → Prop
  | «open» {fds : List Fd} {file : List UInt8} {fcur : Option Fd} {w w' : World}
      (h : Runs .any (openCall threadName file fds) w (.ok fcur) w') :
      Step threadName fds (.open file fcur) (fds ++ fcur.toList)
  | close {fds fds' : List Fd} {fd : ℤ} {w w' : World} (h : Runs .any (closeCall fd fds) w (.ok fds') w') :
      Step threadName fds (.close fd) fds'

/-! ## What it means -/

/-- What a call does to the map from numbers to the descriptors that are open. -/
def Label.apply (m : ℤ → Option Fd) : Label → ℤ → Option Fd
  | .open _ none => m
  | .open _ (some fcur) => Function.update m fcur.num (some fcur)
  | .close fd => Function.update m fd none

/-- For each number the descriptor that the `open` which returned it has created, while it is open. -/
def created (ls : List Label) : ℤ → Option Fd := ls.foldl Label.apply fun _ => none

/-- The table holds the descriptors that are open, in the order of their numbers. -/
structure Holds (fds : List Fd) (m : ℤ → Option Fd) : Prop where
  ge : ∀ fcur ∈ fds, 3 ≤ fcur.num
  increasing : (fds.map Fd.num).Pairwise (· < ·)
  found : ∀ n flag, getFile fds n flag = (m n).filter (ofKind flag)

/-- What a call does: `open` returns a number that is not open, and `close` removes one descriptor. -/
def Label.Does (fds fds' : List Fd) (m : ℤ → Option Fd) : Label → Prop
  | .open _ none => fds' = fds
  | .open _ (some fcur) => m fcur.num = none ∧ fds' = fds ++ [fcur]
  | .close fd => ∃ fcur front back, m fd = some fcur ∧ fds = front ++ fcur :: back ∧ fds' = front ++ back

/-! ## The invariant -/

/-- The list and the map hold the same descriptors. -/
structure Means (fds : List Fd) (m : ℤ → Option Fd) : Prop where
  ge : ∀ fcur ∈ fds, 3 ≤ fcur.num
  ordered : Ordered fds
  map : ∀ n, m n = fds.find? fun fcur => decide (fcur.num = n)

variable {fds fds' : List Fd} {m : ℤ → Option Fd} {threadName : List UInt8} {l : Label}

theorem lt_newNum (h : Ordered fds) {x : Fd} (hx : x ∈ fds) : x.num < newNum fds := by
  have happend := h.append ⟨0, 0, false⟩ none
  exact (List.pairwise_append.mp happend).2.2 x hx _ (List.mem_singleton_self _)

theorem three_le_newNum (hge : ∀ x ∈ fds, 3 ≤ x.num) (h : Ordered fds) : 3 ≤ newNum fds := by
  cases fds with
  | nil => exact le_refl _
  | cons x fds =>
    have hx := hge x List.mem_cons_self
    have hlt := lt_newNum h List.mem_cons_self
    omega

/-- The numbers are `int`s. -/
theorem nextNum_eq (hge : ∀ x ∈ fds, 3 ≤ x.num) (hlt : ∀ x ∈ fds, x.num < 2 ^ 31 - 1) : nextNum fds = newNum fds := by
  unfold nextNum newNum
  cases hlast : fds.getLast? with
  | none => rfl
  | some last =>
    have hmem := List.mem_of_getLast? hlast
    have hlo := hge last hmem
    have hhi := hlt last hmem
    show wrap32 (last.num + 1) = last.num + 1
    exact wrap32_of_mem (by omega) (by omega)

/-- A search for what occurs once. -/
theorem find?_eq_some_iff_mem {α : Type} {q : α → Bool} {xs : List α} {x : α}
    (hunique : ∀ a ∈ xs, ∀ b ∈ xs, q a = true → q b = true → a = b) : xs.find? q = some x ↔ x ∈ xs ∧ q x = true := by
  constructor
  · intro h
    exact ⟨List.mem_of_find?_eq_some h, List.find?_some h⟩
  · intro h
    obtain ⟨hx, hq⟩ := h
    cases hfind : xs.find? q with
    | none => exact absurd hq (List.find?_eq_none.mp hfind x hx)
    | some y => rw [hunique y (List.mem_of_find?_eq_some hfind) x hx (List.find?_some hfind) hq]

/-- `get_file` looks for the number, and then at the kind. -/
theorem getFile_eq (hge : ∀ x ∈ fds, 3 ≤ x.num) (h : Ordered fds) (n : ℤ) (flag : ℕ) :
    getFile fds n flag = (fds.find? fun x => decide (x.num = n)).filter (ofKind flag) := by
  have hnum : ∀ a ∈ fds, ∀ b ∈ fds, decide (a.num = n) = true → decide (b.num = n) = true → a = b := by
    intro a ha b hb han hbn
    exact h.inj ha hb ((of_decide_eq_true han).trans (of_decide_eq_true hbn).symm)
  have hboth : ∀ a ∈ fds, ∀ b ∈ fds, (decide (a.num = n) && ofKind flag a) = true →
      (decide (b.num = n) && ofKind flag b) = true → a = b := by
    intro a ha b hb han hbn
    exact hnum a ha b hb (Bool.and_eq_true_iff.mp han).1 (Bool.and_eq_true_iff.mp hbn).1
  apply Option.ext
  intro x
  rw [Option.filter_eq_some_iff, find?_eq_some_iff_mem hnum]
  unfold getFile
  split
  · rw [find?_eq_some_iff_mem hboth, Bool.and_eq_true_iff, and_assoc]
  · next hlt =>
    apply iff_of_false
    · intro hx
      cases hx
    · intro hx
      have hle := hge x hx.1.1
      rw [of_decide_eq_true hx.1.2] at hle
      exact hlt hle

theorem Means.holds (h : Means fds m) : Holds fds m where
  ge := h.ge
  increasing := List.pairwise_map.mpr h.ordered
  found n flag := by rw [h.map, getFile_eq h.ge h.ordered]

theorem means_nil : Means [] fun _ => none where
  ge _ hx := absurd hx List.not_mem_nil
  ordered := List.Pairwise.nil
  map _ := rfl

/-- A new descriptor behind the others. -/
theorem Means.append (h : Means fds m) (file : File) (dir : Option Dir) :
    m (newNum fds) = none ∧
      Means (fds ++ [⟨newNum fds, file, dir⟩]) (Function.update m (newNum fds) (some ⟨newNum fds, file, dir⟩)) := by
  have hfresh : ∀ x ∈ fds, x.num ≠ newNum fds := fun x hx => ne_of_lt (lt_newNum h.ordered hx)
  constructor
  · rw [h.map]
    apply List.find?_eq_none.mpr
    intro x hx hnum
    exact hfresh x hx (of_decide_eq_true hnum)
  · constructor
    · intro x hx
      rcases List.mem_append.mp hx with hx | hx
      · exact h.ge x hx
      · rw [List.mem_singleton.mp hx]
        exact three_le_newNum h.ge h.ordered
    · exact h.ordered.append file dir
    · intro n
      rw [List.find?_append]
      by_cases hn : n = newNum fds
      · have hnone : (fds.find? fun x => decide (x.num = n)) = none := by
          apply List.find?_eq_none.mpr
          intro x hx hnum
          exact hfresh x hx ((of_decide_eq_true hnum).trans hn)
        rw [hnone, hn, Function.update_self]
        simp
      · rw [Function.update_of_ne hn, h.map]
        have hnone : ([⟨newNum fds, file, dir⟩] : List Fd).find? (fun x => decide (x.num = n)) = none := by
          simp [Ne.symm hn]
        rw [hnone, Option.or_none]

/-- One descriptor less. -/
theorem Means.erase (h : Means fds m) {fd : ℤ} {fcur : Fd} (hfound : m fd = some fcur) :
    (∃ front back, fds = front ++ fcur :: back ∧ (fds.eraseP fun x => x.num = fd) = front ++ back) ∧
      Means (fds.eraseP fun x => x.num = fd) (Function.update m fd none) := by
  rw [h.map] at hfound
  obtain ⟨hnum, front, back, hfds, hfront⟩ := List.find?_eq_some_iff_append.mp hfound
  have hnum' : fcur.num = fd := of_decide_eq_true hnum
  have hfront' : ∀ x ∈ front, ¬decide (x.num = fd) = true := by
    intro x hx hx'
    have hnot := hfront x hx
    rw [hx'] at hnot
    cases hnot
  have herase : (fds.eraseP fun x => decide (x.num = fd)) = front ++ back := by
    rw [hfds, List.eraseP_append_right _ hfront']
    apply congrArg (front ++ ·)
    exact List.eraseP_cons_of_pos (p := fun x : Fd => decide (x.num = fd)) hnum
  have hsub : (front ++ back).Sublist fds := by
    rw [hfds]
    exact List.Sublist.append_left (List.sublist_cons_self _ _) _
  have hordered := h.ordered
  rw [hfds] at hordered
  have hback : ∀ x ∈ back, x.num ≠ fd := by
    intro x hx
    have hlt := (List.pairwise_cons.mp (List.pairwise_append.mp hordered).2.1).1 x hx
    omega
  constructor
  · exact ⟨front, back, hfds, herase⟩
  · rw [herase]
    constructor
    · intro x hx
      exact h.ge x (hsub.subset hx)
    · exact h.ordered.sublist hsub
    · intro n
      by_cases hn : n = fd
      · rw [hn, Function.update_self]
        symm
        apply List.find?_eq_none.mpr
        intro x hx hx'
        rcases List.mem_append.mp hx with hmem | hmem
        · exact hfront' x hmem hx'
        · exact hback x hmem (of_decide_eq_true hx')
      · rw [Function.update_of_ne hn, h.map, hfds, List.find?_append, List.find?_append,
          List.find?_cons_of_neg (by rw [hnum']; simpa using Ne.symm hn)]

/-! ## Runs of `open` and `close` -/

theorem openCall_num {file : List UInt8} {fcur : Fd} {w w' : World}
    (h : Runs .any (openCall threadName file fds) w (.ok (some fcur)) w') : fcur.num = nextNum fds := by
  have hwp : wp .any (openCall threadName file fds) (fun r _ => ∀ fcur ∈ r, fcur.num = nextNum fds)
      (fun _ _ => True) w := by
    unfold openCall
    apply wp_seq (wp_true (openFd threadName file))
    intro r w' _
    cases r with
    | none =>
      apply (wp_ret _).mpr
      intro x hx
      cases hx
    | some p =>
      apply (wp_ret _).mpr
      intro x hx
      cases hx
      rfl
  exact wp_iff_runs.mp hwp _ _ h fcur rfl

/-- Either kind will do for `close`. -/
theorem ofKind_either (fcur : Fd) : ofKind (fileFlag ||| dirFlag) fcur = true := by
  unfold ofKind
  split <;> rfl

theorem closeCall_found {fd : ℤ} {w w' : World} (h : Runs .any (closeCall fd fds) w (.ok fds') w') :
    ∃ fcur, getFile fds fd (fileFlag ||| dirFlag) = some fcur ∧ fds' = fds.eraseP fun x => x.num = fd := by
  unfold closeCall at h
  cases hget : getFile fds fd (fileFlag ||| dirFlag) with
  | none =>
    rw [hget] at h
    cases h.1
  | some fcur =>
    rw [hget] at h
    apply Exists.intro fcur
    apply And.intro rfl
    have hwp : wp .any (do
        fileClose (some fcur.file)
        dirClose fcur.dir
        return fds.eraseP fun x => x.num = fd) (fun r _ => r = fds.eraseP fun x => x.num = fd) (fun _ _ => True) w := by
      apply wp_seq (wp_true _)
      intro _ _ _
      apply wp_seq (wp_true _)
      intro _ _ _
      exact (wp_ret _).mpr rfl
    exact wp_iff_runs.mp hwp _ _ h

/-- The numbers that have been given out leave room for the next. -/
def Small (fds : List Fd) : Prop := ∀ x ∈ fds, x.num < 2 ^ 31 - 1

/-- **One call.** -/
theorem Means.step (h : Means fds m) (hsmall : Small fds) (hs : Step threadName fds l fds') :
    l.Does fds fds' m ∧ Means fds' (l.apply m) := by
  cases hs with
  | @«open» file fcur w w' hrun =>
    cases fcur with
    | none =>
      rw [Option.toList_none, List.append_nil]
      exact ⟨rfl, h⟩
    | some fcur =>
      have hnum : fcur.num = newNum fds := by rw [openCall_num hrun, nextNum_eq h.ge hsmall]
      obtain ⟨hfresh, hmeans⟩ := h.append fcur.file fcur.dir
      rw [← hnum] at hfresh hmeans
      exact ⟨⟨hfresh, rfl⟩, hmeans⟩
  | @close _ fd w w' hrun =>
    obtain ⟨fcur, hget, hfds'⟩ := closeCall_found hrun
    rw [getFile_eq h.ge h.ordered, ← h.map, Option.filter_eq_some_iff] at hget
    obtain ⟨⟨front, back, hfds, herase⟩, hmeans⟩ := h.erase hget.1
    rw [hfds']
    exact ⟨⟨fcur, front, back, hget.1, hfds, herase⟩, hmeans⟩

/-- A descriptor in the table was there before, or has been opened. -/
theorem Step.mem (hs : Step threadName fds l fds') {x : Fd} (hx : x ∈ fds') :
    x ∈ fds ∨ ∃ file, l = .open file (some x) := by
  cases hs with
  | @«open» file fcur w w' hrun =>
    rcases List.mem_append.mp hx with hx | hx
    · exact Or.inl hx
    · rw [Option.mem_toList] at hx
      rw [hx]
      exact Or.inr ⟨file, rfl⟩
  | @close _ fd w w' hrun =>
    obtain ⟨_, _, hfds'⟩ := closeCall_found hrun
    rw [hfds'] at hx
    exact Or.inl (List.mem_of_mem_eraseP hx)

/-- **A run.** -/
theorem Means.trace {ls : List Label} (h : Means fds m) (hsmall : Small fds) (hrun : Trace (Step threadName) fds ls fds')
    (hls : ∀ file fcur, Label.open file (some fcur) ∈ ls → fcur.num < 2 ^ 31 - 1) :
    Means fds' (ls.foldl Label.apply m) ∧ Small fds' := by
  induction hrun generalizing m with
  | nil fds => exact ⟨h, hsmall⟩
  | cons head _ ih =>
    obtain ⟨_, hmeans⟩ := h.step hsmall head
    apply ih hmeans
    · intro x hx
      rcases head.mem hx with hx | ⟨file, hl⟩
      · exact hsmall x hx
      · apply hls file x
        rw [hl]
        exact List.mem_cons_self
    · intro file fcur hmem
      exact hls file fcur (List.mem_cons_of_mem _ hmem)

/-- **The table holds the descriptors that are open, and every call does what it should.** -/
theorem descriptor_table {ls : List Label} (hrun : Trace (Step threadName) [] ls fds)
    (hls : ∀ file fcur, Label.open file (some fcur) ∈ ls → fcur.num < 2 ^ 31 - 1) :
    Holds fds (created ls) ∧ ∀ l fds', Step threadName fds l fds' → l.Does fds fds' (created ls) := by
  have hsmall : Small [] := fun x hx => absurd hx List.not_mem_nil
  obtain ⟨hmeans, hsmall'⟩ := means_nil.trace hsmall hrun hls
  exact ⟨hmeans.holds, fun l fds' hs => (hmeans.step hsmall' hs).1⟩

deriving instance DecidableEq for Fd

/-- The descriptor of `"a"`. -/
def openedA : Fd := ⟨3, ⟨2, 0, false⟩, none⟩

/-- `"a"` is opened and closed. -/
theorem descriptor_table_closed :
    Holds [] (created [.open [97] (some openedA), .close 3]) ∧
      ∀ l fds', Step [] [] l fds' → l.Does [] fds' (created [.open [97] (some openedA), .close 3]) := by
  have hopen : Runs .any (openCall [] [97] []) loadedWorld (.ok (some openedA))
      (runArray (openCall [] [97] []) plainEnv loadedWorld).2.2 := runs_any _ _ (by decide +kernel)
  have hclose : Runs .any (closeCall 3 [openedA]) (runArray (openCall [] [97] []) plainEnv loadedWorld).2.2 (.ok [])
      (runArray (closeCall 3 [openedA]) plainEnv (runArray (openCall [] [97] []) plainEnv loadedWorld).2.2).2.2 :=
    runs_any _ _ (by decide +kernel)
  apply descriptor_table (.cons (.open hopen) (.single (.close hclose)))
  intro file fcur hmem
  rcases List.mem_cons.mp hmem with heq | hmem
  · cases heq
    decide
  · cases List.mem_singleton.mp hmem

/-! ## Bad descriptors -/

/-- A system call that takes a descriptor.  `buffer` is what the buffer of the caller holds, `keys` what is typed. -/
inductive Call
  | read (fd : ℤ) (buffer keys : ℕ → UInt8) (size : Word)
  | write (fd : ℤ) (buffer : ℕ → UInt8) (size : Word)
  | filesize (fd : ℤ)
  | seek (fd : ℤ) (position : Word)
  | tell (fd : ℤ)
  | close (fd : ℤ)
  | readdir (fd : ℤ)
  | isdir (fd : ℤ)
  | inumber (fd : ℤ)

/-- The word that a call returns, if it does return one, the bytes it has stored in the buffer of the caller, and the
descriptors afterwards. -/
structure Reply where
  eax : Option Word
  stored : List UInt8
  fds : List Fd

/-- The descriptors after the one that `get_file` finds has been changed. -/
def put (fds : List Fd) (dnum : ℤ) (flag : ℕ) (fcur : Fd) : List Fd :=
  fds.set (fds.findIdx fun x => decide (x.num = dnum) && ofKind flag x) fcur

/-- The loop of `read` on descriptor 0: the last value of `cur`.  The loop ends when `size` bytes have been stored. -/
def readStdin (buffer : ℕ → UInt8) (size : Word) : ℕ → ℕ → ℕ
  | 0, cur => cur
  | fuel + 1, cur =>
    if buffer cur ≠ 0 then
      let cur := cur + 1
      if size.toNat ≤ cur then cur else readStdin buffer size fuel cur
    else cur

/-- A `bool` in `eax`. -/
def ofBool (b : Bool) : Word := if b then 1 else 0

/-- The calls, with the descriptors of the process. -/
def Call.exec (fds : List Fd) : Call → Fs Reply
  | .read fd buffer keys size =>
    if fd ≠ 0 then
      match getFile fds fd fileFlag with
      | some fcur => do
        let (l, file) ← Filesys.fileRead fcur.file size.toInt
        return ⟨some (BitVec.ofNat 32 l.length), l, put fds fd fileFlag { fcur with file := file }⟩
      | none => return ⟨some (-1), [], fds⟩
    else
      let cur := readStdin buffer size (size.toNat + 1) 0
      return ⟨some (BitVec.ofNat 32 cur - 1), (List.range cur).map keys, fds⟩
  | .write fd buffer size =>
    if fd ≠ 1 then
      match getFile fds fd fileFlag with
      | some fcur => do
        let (n, file) ← fileWrite fcur.file buffer size.toInt
        return ⟨some (BitVec.ofInt 32 n), [], put fds fd fileFlag { fcur with file := file }⟩
      | none => return ⟨some (-1), [], fds⟩
    else
      -- `putbuf`
      return ⟨some size, [], fds⟩
  | .filesize fd =>
    match getFile fds fd fileFlag with
    | none => return ⟨some (-1), [], fds⟩
    | some fcur => do return ⟨some (BitVec.ofInt 32 (← inodeLength fcur.file.inode)), [], fds⟩
  | .seek fd position =>
    match getFile fds fd fileFlag with
    | some fcur => do
      let file ← Filesys.fileSeek fcur.file position.toInt
      return ⟨none, [], put fds fd fileFlag { fcur with file := file }⟩
    | none => return ⟨none, [], fds⟩
  | .tell fd =>
    match getFile fds fd fileFlag with
    | some fcur => return ⟨some (BitVec.ofInt 32 fcur.file.pos), [], fds⟩
    | none => return ⟨some (-1), [], fds⟩
  | .close fd => do
    let fds ← closeCall fd fds
    return ⟨none, [], fds⟩
  | .readdir fd =>
    match getFile fds fd dirFlag with
    -- `return -1`, as a `bool`
    | none => return ⟨some (ofBool true), [], fds⟩
    | some fcur => do
      if ← isInodeDir fcur.file.inode then
        match fcur.dir with
        | none => .stop .assertion
        | some dir => do
          match ← dirReaddir dir with
          | (none, dir) => return ⟨some (ofBool false), [], put fds fd dirFlag { fcur with dir := some dir }⟩
          | (some name, dir) =>
            return ⟨some (ofBool true), name ++ [0], put fds fd dirFlag { fcur with dir := some dir }⟩
      else return ⟨some (ofBool true), [], fds⟩
  | .isdir fd =>
    match getFile fds fd (fileFlag ||| dirFlag) with
    -- `fcur->file`
    | none => .stop .pageFault
    | some fcur => do return ⟨some (ofBool (← isInodeDir fcur.file.inode)), [], fds⟩
  | .inumber fd =>
    match getFile fds fd (fileFlag ||| dirFlag) with
    | none => .stop .pageFault
    | some fcur => do return ⟨some (BitVec.ofNat 32 (← inodeGetInumber fcur.file.inode)), [], fds⟩

/-- The descriptor is not in the table, or names an object of the wrong kind. -/
def Call.Bad (fds : List Fd) : Call → Prop
  | .read fd _ _ _ | .write fd _ _ | .filesize fd | .seek fd _ | .tell fd => ∀ x ∈ fds, x.num = fd → x.dir.isSome
  | .readdir fd => ∀ x ∈ fds, x.num = fd → x.dir = none
  | .close fd | .isdir fd | .inumber fd => ∀ x ∈ fds, x.num ≠ fd

/-- What a call returns when it fails; `seek` and `close` return nothing. -/
def Call.failure : Call → Option Word
  | .read _ _ _ _ | .write _ _ _ | .filesize _ | .tell _ | .inumber _ => some (-1)
  | .readdir _ | .isdir _ => some (ofBool false)
  | .seek _ _ | .close _ => none

/-- The call ends the process with -1 or fails, and changes no file, no directory and no position. -/
def Call.Harmless (fds : List Fd) (w : World) (c : Call) : Prop :=
  ∀ r w', Runs .any (c.exec fds) w r w' → w' = w ∧ match r with
    | .error e => e = .exit (-1)
    | .ok reply => reply = ⟨c.failure, [], fds⟩

/-- When `readdir` returns true it has stored a name. -/
def ReaddirStores (fds : List Fd) (w : World) : Call → Prop
  | .readdir fd => ∀ reply w', Runs .any (Call.exec fds (.readdir fd)) w (.ok reply) w' →
      reply.eax = some (ofBool true) → reply.stored ≠ []
  | _ => True

/-- What is to be shown of a call. -/
def HandlesBad (fds : List Fd) (w : World) (c : Call) : Prop :=
  (c.Bad fds → c.Harmless fds w) ∧ ReaddirStores fds w c

/-- When it is so: not for a bad descriptor of `isdir` and `inumber`, and for `readdir` only where it finds a
directory.  Descriptor 0 of `read` and descriptor 1 of `write` are the console, which is served. -/
def Call.Guarded (fds : List Fd) (w : World) : Call → Prop
  | .read fd buffer keys size => Call.Bad fds (.read fd buffer keys size) → fd = 0 → buffer 0 = 0
  | .write fd buffer size => Call.Bad fds (.write fd buffer size) → fd = 1 → size = -1
  | .filesize _ | .seek _ _ | .tell _ | .close _ => True
  | .readdir fd => ∃ fcur, getFile fds fd dirFlag = some fcur ∧
      ∀ i, w.mem.heap fcur.file.inode = some i → i.data.isDir = true
  | .isdir fd => ¬Call.Bad fds (.isdir fd)
  | .inumber fd => ¬Call.Bad fds (.inumber fd)

variable {w : World} {c : Call}

theorem getFile_none {n : ℤ} {flag : ℕ} (h : ∀ x ∈ fds, x.num = n → ofKind flag x = false) :
    getFile fds n flag = none := by
  unfold getFile
  split
  · apply List.find?_eq_none.mpr
    intro x hx hp
    obtain ⟨hnum, hkind⟩ := Bool.and_eq_true_iff.mp hp
    rw [h x hx (of_decide_eq_true hnum)] at hkind
    cases hkind
  · rfl

theorem getFile_file_none {n : ℤ} (h : ∀ x ∈ fds, x.num = n → x.dir.isSome) : getFile fds n fileFlag = none := by
  apply getFile_none
  intro x hx hnum
  unfold ofKind
  rw [if_pos (h x hx hnum)]
  rfl

theorem getFile_dir_none {n : ℤ} (h : ∀ x ∈ fds, x.num = n → x.dir = none) : getFile fds n dirFlag = none := by
  apply getFile_none
  intro x hx hnum
  unfold ofKind
  rw [h x hx hnum]
  rfl

theorem getFile_either_none {n : ℤ} (h : ∀ x ∈ fds, x.num ≠ n) : getFile fds n (fileFlag ||| dirFlag) = none :=
  getFile_none fun x hx hnum => absurd hnum (h x hx)

/-- A call that returns at once. -/
theorem harmless_of_ret {reply : Reply} (h : c.exec fds = .ret reply) :
    c.Harmless fds w ↔ reply = ⟨c.failure, [], fds⟩ := by
  unfold Call.Harmless
  rw [h]
  constructor
  · intro hall
    exact (hall (.ok reply) w ⟨rfl, rfl⟩).2
  · intro heq r w' hrun
    obtain ⟨hr, hw⟩ := hrun
    rw [hr]
    exact ⟨hw, heq⟩

/-- A call that stops at once. -/
theorem harmless_of_stop {e : Stop} (h : c.exec fds = .stop e) : c.Harmless fds w ↔ e = .exit (-1) := by
  unfold Call.Harmless
  rw [h]
  constructor
  · intro hall
    exact (hall (.error e) w ⟨rfl, rfl⟩).2
  · intro heq r w' hrun
    obtain ⟨hr, hw⟩ := hrun
    rw [hr]
    exact ⟨hw, heq⟩

/-- Where `readdir` is out of the way, only bad descriptors matter. -/
theorem handlesBad_of_stores (hstores : ReaddirStores fds w c) :
    HandlesBad fds w c ↔ (c.Bad fds → c.Harmless fds w) := and_iff_left hstores

theorem le_readStdin (buffer : ℕ → UInt8) (size : Word) (fuel cur : ℕ) : cur ≤ readStdin buffer size fuel cur := by
  induction fuel generalizing cur with
  | zero => exact le_refl cur
  | succ fuel ih =>
    have hrest := ih (cur + 1)
    unfold readStdin
    split
    · dsimp only
      split
      · omega
      · omega
    · exact le_refl cur

/-- Nothing is read when the buffer begins with a zero. -/
theorem readStdin_eq_zero (buffer : ℕ → UInt8) (size : Word) (fuel : ℕ) :
    readStdin buffer size (fuel + 1) 0 = 0 ↔ buffer 0 = 0 := by
  have hrest := le_readStdin buffer size fuel (0 + 1)
  unfold readStdin
  by_cases hzero : buffer 0 = 0
  · rw [if_neg (not_not.mpr hzero)]
    exact iff_of_true rfl hzero
  · rw [if_pos hzero]
    dsimp only
    split
    · exact iff_of_false (by omega) hzero
    · exact iff_of_false (by omega) hzero

theorem read_guarded (fd : ℤ) (buffer keys : ℕ → UInt8) (size : Word) :
    HandlesBad fds w (.read fd buffer keys size) ↔ (Call.read fd buffer keys size).Guarded fds w := by
  rw [handlesBad_of_stores (c := .read fd buffer keys size) trivial]
  apply forall_congr'
  intro hbad
  by_cases hfd : fd = 0
  · have hexec : (Call.read fd buffer keys size).exec fds =
        .ret ⟨some (BitVec.ofNat 32 (readStdin buffer size (size.toNat + 1) 0) - 1),
          (List.range (readStdin buffer size (size.toNat + 1) 0)).map keys, fds⟩ := if_neg (not_not.mpr hfd)
    rw [harmless_of_ret hexec, Reply.mk.injEq, forall_prop_of_true hfd, ← readStdin_eq_zero buffer size size.toNat]
    constructor
    · intro heq
      exact List.range_eq_nil.mp (List.map_eq_nil_iff.mp heq.2.1)
    · intro heq
      rw [heq]
      exact ⟨rfl, rfl, rfl⟩
  · have hexec : (Call.read fd buffer keys size).exec fds = .ret ⟨some (-1), [], fds⟩ := by
      rw [Call.exec, if_pos hfd, getFile_file_none hbad]
      rfl
    rw [harmless_of_ret hexec]
    exact iff_of_true rfl fun h => absurd h hfd

theorem write_guarded (fd : ℤ) (buffer : ℕ → UInt8) (size : Word) :
    HandlesBad fds w (.write fd buffer size) ↔ (Call.write fd buffer size).Guarded fds w := by
  rw [handlesBad_of_stores (c := .write fd buffer size) trivial]
  apply forall_congr'
  intro hbad
  by_cases hfd : fd = 1
  · have hexec : (Call.write fd buffer size).exec fds = .ret ⟨some size, [], fds⟩ := if_neg (not_not.mpr hfd)
    rw [harmless_of_ret hexec, Reply.mk.injEq, forall_prop_of_true hfd]
    constructor
    · intro heq
      exact Option.some.inj heq.1
    · intro heq
      rw [heq]
      exact ⟨rfl, rfl, rfl⟩
  · have hexec : (Call.write fd buffer size).exec fds = .ret ⟨some (-1), [], fds⟩ := by
      rw [Call.exec, if_pos hfd, getFile_file_none hbad]
      rfl
    rw [harmless_of_ret hexec]
    exact iff_of_true rfl fun h => absurd h hfd

/-- What a true result of `readdir` is to say. -/
def Stores (reply : Reply) : Prop := reply.eax = some (ofBool true) → reply.stored ≠ []

theorem readdirStores_iff (fd : ℤ) :
    ReaddirStores fds w (.readdir fd) ↔
      wp .any (Call.exec fds (.readdir fd)) (fun reply _ => Stores reply) (fun _ _ => True) w := by
  rw [wp_iff_runs]
  constructor
  · intro h r w' hrun
    cases r with
    | ok reply => exact h reply w' hrun
    | error e => exact trivial
  · intro h reply w' hrun
    exact h _ _ hrun

/-- A name has its terminator at least. -/
theorem wp_dirReaddir_stores (dir : Dir) (k : Dir → List Fd) :
    wp .any (do
      match ← dirReaddir dir with
      | (none, dir) => return (⟨some (ofBool false), [], k dir⟩ : Reply)
      | (some name, dir) => return ⟨some (ofBool true), name ++ [0], k dir⟩)
      (fun reply _ => Stores reply) (fun _ _ => True) w := by
  apply wp_seq (wp_true _)
  intro r w' _
  obtain ⟨name, dir'⟩ := r
  cases name with
  | none =>
    apply (wp_ret _).mpr
    intro heq
    cases Option.some.inj heq
  | some name =>
    apply (wp_ret _).mpr
    intro _ hnil
    exact List.cons_ne_nil _ _ (List.append_eq_nil_iff.mp hnil).2

theorem readdir_guarded (fd : ℤ) : HandlesBad fds w (.readdir fd) ↔ (Call.readdir fd).Guarded fds w := by
  cases hget : getFile fds fd dirFlag with
  | none =>
    have hexec : (Call.readdir fd).exec fds = .ret ⟨some (ofBool true), [], fds⟩ := by
      rw [Call.exec, hget]
      rfl
    apply iff_of_false
    · intro h
      have hstores := (readdirStores_iff fd).mp h.2
      rw [hexec] at hstores
      exact (wp_ret _).mp hstores rfl rfl
    · intro h
      obtain ⟨fcur, hfcur, _⟩ := h
      rw [hget] at hfcur
      cases hfcur
  | some fcur =>
    have hgood : ¬(Call.readdir fd).Bad fds := by
      intro hbad
      rw [getFile_dir_none hbad] at hget
      cases hget
    have hguarded : (Call.readdir fd).Guarded fds w ↔
        ∀ i, w.mem.heap fcur.file.inode = some i → i.data.isDir = true := by
      constructor
      · intro h
        obtain ⟨x, hx, hdir⟩ := h
        rw [hget] at hx
        cases hx
        exact hdir
      · intro h
        exact ⟨fcur, hget, h⟩
    have hbad : HandlesBad fds w (.readdir fd) ↔ ReaddirStores fds w (.readdir fd) :=
      and_iff_right fun h => absurd h hgood
    rw [hguarded, hbad, readdirStores_iff, Call.exec, hget]
    simp only [isInodeDir, wp_bind, wp_deref]
    cases hheap : w.mem.heap fcur.file.inode with
    | none =>
      apply iff_of_true trivial
      intro i hi
      cases hi
    | some i =>
      dsimp only
      rw [wp_pure]
      cases hdir : i.data.isDir with
      | false =>
        rw [if_neg Bool.false_ne_true]
        apply iff_of_false
        · intro h
          exact (wp_ret _).mp h rfl rfl
        · intro h
          have hi := h i rfl
          rw [hdir] at hi
          cases hi
      | true =>
        rw [if_pos rfl]
        apply iff_of_true
        · cases fcur.dir with
          | none => exact (wp_stop _).mpr trivial
          | some dir => exact wp_dirReaddir_stores dir _
        · intro j hj
          cases hj
          exact hdir

/-- **What happens to bad descriptors.**  `readdir` takes its own -1 for success, and `isdir` and `inumber` look into
a descriptor that they have not found. -/
theorem handlesBad_iff (fds : List Fd) (w : World) (c : Call) : HandlesBad fds w c ↔ c.Guarded fds w := by
  cases c with
  | read fd buffer keys size => exact read_guarded fd buffer keys size
  | write fd buffer size => exact write_guarded fd buffer size
  | filesize fd =>
    rw [handlesBad_of_stores (c := .filesize fd) trivial]
    apply iff_of_true _ trivial
    intro hbad
    have hexec : (Call.filesize fd).exec fds = .ret ⟨some (-1), [], fds⟩ := by
      rw [Call.exec, getFile_file_none hbad]
      rfl
    exact (harmless_of_ret hexec).mpr rfl
  | seek fd position =>
    rw [handlesBad_of_stores (c := .seek fd position) trivial]
    apply iff_of_true _ trivial
    intro hbad
    have hexec : (Call.seek fd position).exec fds = .ret ⟨none, [], fds⟩ := by
      rw [Call.exec, getFile_file_none hbad]
      rfl
    exact (harmless_of_ret hexec).mpr rfl
  | tell fd =>
    rw [handlesBad_of_stores (c := .tell fd) trivial]
    apply iff_of_true _ trivial
    intro hbad
    have hexec : (Call.tell fd).exec fds = .ret ⟨some (-1), [], fds⟩ := by
      rw [Call.exec, getFile_file_none hbad]
      rfl
    exact (harmless_of_ret hexec).mpr rfl
  | close fd =>
    rw [handlesBad_of_stores (c := .close fd) trivial]
    apply iff_of_true _ trivial
    intro hbad
    have hexec : (Call.close fd).exec fds = .stop (.exit (-1)) := by
      rw [Call.exec, closeCall, getFile_either_none hbad]
      rfl
    exact (harmless_of_stop hexec).mpr rfl
  | readdir fd => exact readdir_guarded fd
  | isdir fd =>
    rw [handlesBad_of_stores (c := .isdir fd) trivial]
    apply imp_congr_right
    intro hbad
    have hexec : (Call.isdir fd).exec fds = .stop .pageFault := by
      rw [Call.exec, getFile_either_none hbad]
    rw [harmless_of_stop hexec]
    exact iff_of_false Stop.noConfusion id
  | inumber fd =>
    rw [handlesBad_of_stores (c := .inumber fd) trivial]
    apply imp_congr_right
    intro hbad
    have hexec : (Call.inumber fd).exec fds = .stop .pageFault := by
      rw [Call.exec, getFile_either_none hbad]
    rw [harmless_of_stop hexec]
    exact iff_of_false Stop.noConfusion id

/-- A process without descriptors: `readdir (3, name)` returns true, `isdir (3)` and `inumber (3)` look into the null
pointer. -/
theorem bad_descriptor_three :
    ¬HandlesBad [] (newMachine 16) (.readdir 3) ∧ ¬HandlesBad [] (newMachine 16) (.isdir 3) ∧
      ¬HandlesBad [] (newMachine 16) (.inumber 3) := by
  refine ⟨fun h => ?_, fun h => ?_, fun h => ?_⟩
  · exact h.2 ⟨some (ofBool true), [], []⟩ (newMachine 16) ⟨rfl, rfl⟩ rfl rfl
  · have hstop := (h.1 (fun x hx => absurd hx List.not_mem_nil) (.error .pageFault) (newMachine 16) ⟨rfl, rfl⟩).2
    cases hstop
  · have hstop := (h.1 (fun x hx => absurd hx List.not_mem_nil) (.error .pageFault) (newMachine 16) ⟨rfl, rfl⟩).2
    cases hstop

end Pintos.Userprog.Descriptors
