import Pintos.Filesys.Contiguous
import Pintos.Library.Trace
import Pintos.Threads.Vaddr

/-!
# The descriptors of the fourth project

`userprog/syscall.c` of `project4`.  The files of a process are in the array `Fd` of 129 entries in its `struct thread`,
and the system calls take an index of it from the process.

* `open` searches the entries 3 to 127 for an empty one.  If there is none it returns -1 and keeps the file open that it
  has opened before.
* The other calls read `Fd[fd]` with the number as it is; an index that is not in the array reads other members of
  `struct thread` or what lies around it (`Outcome.outside`).

`Inv` is the invariant of the calls that meet `Meets`: every inode is open as often as others have it open and as often as
the table has a file of it.
-/

namespace Pintos.Userprog.FixedTable

open Filesys
open Filesys.Contiguous (Counted Releasable FreeMapStored up up_self up_of_ne le_up)
open Threads (Word isUserVaddr)

/-! ## The code -/

/-- The members of `struct thread` that the calls need, and the memory of the process. -/
structure Thread where
  name : List UInt8
  fd : ℕ → Option File
  exitNumber : ℤ
  user : Word → UInt8

/-- `Fd[fd]`, if it is in the array. -/
def Thread.slot (t : Thread) (fd : ℤ) : Option (Option File) :=
  if 0 ≤ fd ∧ fd < 129 then some (t.fd fd.toNat) else none

/-- `Fd[fd] = f` -/
def Thread.setFd (t : Thread) (fd : ℤ) (f : Option File) : Thread :=
  { t with fd := Function.update t.fd fd.toNat f }

/-- Bytes that are stored at an address. -/
def Thread.store (t : Thread) (buffer : Word) (l : List UInt8) : Thread :=
  { t with user := fun va => (l[(va - buffer).toNat]?).getD (t.user va) }

/-- A call returns, or the process exits, or `Fd` is accessed at an index that is not in it. -/
inductive Outcome
  | returns (eax : Word) (t : Thread)
  | exits (t : Thread)
  | outside (fd : ℤ)

/-- The loop of `exit`, with `close (fd)` for a file that is there. -/
def exitLoop : ℕ → ℤ → Thread → Fs Outcome
  | 0, _, t => return .exits t
  | n + 1, fd, t =>
    let fd := fd + 1
    if fd ≤ 127 then
      match t.slot fd with
      | none => return .outside fd
      | some none => exitLoop n fd t
      | some (some fcur) => do
        Contiguous.fileClose (some fcur)
        exitLoop n fd (t.setFd fd none)
    else return .exits t

/-- `exit` -/
def exit (num : ℤ) (t : Thread) : Fs Outcome := exitLoop 126 2 { t with exitNumber := num }

/-- The loop of `read` over the keys that are typed. -/
def readStdin (keys : ℕ → UInt8) (buffer size : Word) : ℕ → ℕ → Thread → ℕ × Thread
  | 0, cur, t => (cur, t)
  | n + 1, cur, t =>
    if t.user (buffer + BitVec.ofNat 32 cur) = 0 then (cur, t)
    else
      let t := t.store (buffer + BitVec.ofNat 32 cur) [keys cur]
      if size.toNat ≤ cur + 1 then (cur + 1, t) else readStdin keys buffer size n (cur + 1) t

/-- `read` -/
def read (keys : ℕ → UInt8) (fd : ℤ) (buffer size : Word) (t : Thread) : Fs Outcome :=
  match t.slot fd with
  | none => return .outside fd
  | some none => exit (-1) t
  | some (some fcur) =>
    if fd ≠ 0 ∧ fd ≤ 2 then exit (-1) t
    else if fd > 2 then do
      let (l, fcur) ← Contiguous.fileRead fcur size.toInt
      return .returns (BitVec.ofNat 32 l.length) ((t.store buffer l).setFd fd (some fcur))
    else
      let (cur, t) := readStdin keys buffer size (max size.toNat 1) 0 t
      return .returns (BitVec.ofInt 32 (cur - 1)) t

/-- `write`; what goes to the console is left out. -/
def write (fd : ℤ) (buffer size : Word) (t : Thread) : Fs Outcome :=
  match t.slot fd with
  | none => return .outside fd
  | some fcur =>
    if fd ≠ 1 then
      if fd ≤ 2 then exit (-1) t
      else
        match fcur with
        | none => exit (-1) t
        | some fcur => do
          let (wbytes, fcur) ← Contiguous.fileWrite fcur (fun i => t.user (buffer + BitVec.ofNat 32 i)) size.toInt
          return .returns (BitVec.ofInt 32 wbytes) (t.setFd fd (some fcur))
    else return .returns size t

/-- The loop of `open`: an index that is not in the array, or the first one of an empty entry, if there is one. -/
def openLoop (t : Thread) : ℕ → ℤ → Except ℤ (Option ℤ)
  | 0, _ => .ok none
  | n + 1, count =>
    let count := count + 1
    match t.slot count with
    | none => .error count
    | some none => .ok (some count)
    | some (some _) => if count ≥ 127 then .ok none else openLoop t n count

/-- `open` -/
def openCall (file : List UInt8) (t : Thread) : Fs Outcome := do
  match ← Contiguous.filesysOpen file with
  | none => return .returns (-1) t
  | some new =>
    match openLoop t 125 2 with
    | .error fd => return .outside fd
    | .ok none => return .returns (-1) t
    | .ok (some count) =>
      let new ← if file = t.name then fileDenyWrite new else pure new
      return .returns (BitVec.ofInt 32 count) (t.setFd count (some new))

/-- `filesize` -/
def filesize (fd : ℤ) (t : Thread) : Fs Outcome :=
  match t.slot fd with
  | none => return .outside fd
  | some none => exit (-1) t
  | some (some fcur) => do return .returns (BitVec.ofInt 32 (← Contiguous.fileLength fcur)) t

/-- `seek` -/
def seek (fd : ℤ) (position : Word) (t : Thread) : Fs Outcome :=
  match t.slot fd with
  | none => return .outside fd
  | some none => exit (-1) t
  | some (some fcur) => do
    let fcur ← fileSeek fcur position.toInt
    return .returns 0 (t.setFd fd (some fcur))

/-- `tell` -/
def tell (fd : ℤ) (t : Thread) : Fs Outcome :=
  match t.slot fd with
  | none => return .outside fd
  | some none => exit (-1) t
  | some (some fcur) => return .returns (BitVec.ofInt 32 fcur.pos) t

/-- `close` -/
def close (fd : ℤ) (t : Thread) : Fs Outcome :=
  match t.slot fd with
  | none => return .outside fd
  | some none => exit (-1) t
  | some (some fcur) => do
    Contiguous.fileClose (some fcur)
    return .returns 0 (t.setFd fd none)

/-- A system call with its arguments; `name` is the string at `file`, and `keys` is what is typed. -/
inductive Call
  | «open» (file : Word) (name : List UInt8)
  | filesize (fd : Word)
  | read (fd buffer size : Word) (keys : ℕ → UInt8)
  | write (fd buffer size : Word)
  | seek (fd position : Word)
  | tell (fd : Word)
  | close (fd : Word)
  | exit (status : Word)

/-- `p[0]`, `p[1]` and `p[2]` -/
def Call.args : Call → List Word
  | .open file _ => [file]
  | .filesize fd => [fd]
  | .read fd buffer size _ => [fd, buffer, size]
  | .write fd buffer size => [fd, buffer, size]
  | .seek fd position => [fd, position]
  | .tell fd => [fd]
  | .close fd => [fd]
  | .exit status => [status]

/-- The calls of `protect_user_memory`, and the test for a null pointer. -/
def Call.checked (c : Call) : Bool :=
  (c.args.all isUserVaddr) && match c with
    | .open file _ => file != 0
    | _ => true

/-- What `syscall_handler` does after the checks. -/
def Call.body : Call → Thread → Fs Outcome
  | .open _ name => openCall name
  | .filesize fd => FixedTable.filesize fd.toInt
  | .read fd buffer size keys => FixedTable.read keys fd.toInt buffer size
  | .write fd buffer size => FixedTable.write fd.toInt buffer size
  | .seek fd position => FixedTable.seek fd.toInt position
  | .tell fd => FixedTable.tell fd.toInt
  | .close fd => FixedTable.close fd.toInt
  | .exit status => FixedTable.exit status.toInt

/-- `syscall_handler` -/
def syscallHandler (c : Call) (t : Thread) : Fs Outcome := if c.checked then c.body t else exit (-1) t

/-! ## Runs -/

/-- A process and the file system; it is `running` until it has exited. -/
structure State where
  thread : Thread
  world : World
  running : Bool

/-- A call that returns, or that ends the process. -/
inductive Step : State → Call → State → Prop
  | returns {s : State} {c : Call} {eax : Word} {t : Thread} {w : World} (hrunning : s.running = true)
      (h : Runs .any (syscallHandler c s.thread) s.world (.ok (.returns eax t)) w) : Step s c ⟨t, w, true⟩
  | exits {s : State} {c : Call} {t : Thread} {w : World} (hrunning : s.running = true)
      (h : Runs .any (syscallHandler c s.thread) s.world (.ok (.exits t)) w) : Step s c ⟨t, w, false⟩

/-- How many entries of the table are files that pass a test. -/
def Thread.count (t : Thread) (q : File → Bool) : ℕ := ∑ i ∈ Finset.range 129, ((t.fd i).any q).toNat

/-- How many files of an inode are in the table. -/
def held (t : Thread) (p : ℕ) : ℕ := t.count fun f => f.inode == p

/-- How many of them deny writes. -/
def denied (t : Thread) (p : ℕ) : ℕ := t.count fun f => f.inode == p && f.denyWrite

/-- `open_cnt`; 0 if there is no inode. -/
def opens (m : Mem) (p : ℕ) : ℤ := ((m.heap p).map Inode.openCnt).getD 0

/-- The list of the open inodes is right, and so are their counts, before the process has opened a file. -/
structure Start (s : State) : Prop where
  running : s.running = true
  empty : ∀ i, s.thread.fd i = none
  listed : ∀ p, p ∈ s.world.mem.openInodes ↔ Live s.world.mem p
  nodup : s.world.mem.openInodes.Nodup
  counts : ∀ p i, s.world.mem.heap p = some i → 0 < i.openCnt ∧ 0 ≤ i.denyWriteCnt ∧ i.denyWriteCnt ≤ i.openCnt
  fresh : ∀ p, s.world.mem.next ≤ p → s.world.mem.heap p = none
  releasable : Releasable s.world.mem

/-- What is asked of a call: every index is in `Fd`; `open` returns the index of an empty entry, or has opened nothing;
`exit`, also when another call ends with it, closes every file. -/
structure CallOk (s : State) (c : Call) (r : Except Stop Outcome) (w : World) : Prop where
  inside : ∀ fd, r ≠ .ok (.outside fd)
  opened : ∀ file name eax t, c = .open file name → r = .ok (.returns eax t) → eax ≠ -1 →
    3 ≤ eax.toNat ∧ eax.toNat ≤ 127 ∧ s.thread.fd eax.toNat = none ∧ t.fd eax.toNat ≠ none
  failed : ∀ file name t, c = .open file name → r = .ok (.returns (-1) t) →
    ∀ p, opens w.mem p = opens s.world.mem p
  closed : ∀ t, r = .ok (.exits t) →
    (∀ i, t.fd i = none) ∧ ∀ p, opens w.mem p + held s.thread p = opens s.world.mem p
  exits : ∀ status, c = .exit status → ∃ t, r = .ok (.exits t)

/-- The descriptor of a call. -/
def Call.fd : Call → Option Word
  | .filesize fd | .read fd _ _ _ | .write fd _ _ | .seek fd _ | .tell fd | .close fd => some fd
  | _ => none

/-- Some entry for a file is empty. -/
def Thread.Room (t : Thread) : Prop := ∃ i, 3 ≤ i ∧ i ≤ 127 ∧ t.fd i = none

/-- Some run of `filesys_open` opens the file. -/
def Openable (w : World) (name : List UInt8) : Prop :=
  ∃ f w', Runs .any (Contiguous.filesysOpen name) w (.ok (some f)) w'

/-- If the arguments pass the checks, the descriptor is an index of `Fd`, and `open` is not called for a file that can be
opened while no entry is empty. -/
structure Meets (s : State) (c : Call) : Prop where
  index : c.checked = true → ∀ fd, c.fd = some fd → 0 ≤ fd.toInt ∧ fd.toInt < 129
  room : c.checked = true → ∀ file name, c = .open file name → Openable s.world name → s.thread.Room

/-! ## The table -/

section Table

variable {t : Thread} {i : ℕ} {f : File}

theorem Thread.slot_of_lt (t : Thread) {fd : ℤ} (h : 0 ≤ fd ∧ fd < 129) : t.slot fd = some (t.fd fd.toNat) := if_pos h

theorem Thread.slot_eq_none (t : Thread) {fd : ℤ} (h : ¬(0 ≤ fd ∧ fd < 129)) : t.slot fd = none := if_neg h

@[simp] theorem Thread.setFd_self (t : Thread) (i : ℕ) (f : Option File) : (t.setFd i f).fd i = f := by
  unfold Thread.setFd
  rw [Int.toNat_natCast]
  exact Function.update_self ..

theorem Thread.setFd_of_ne (t : Thread) {i j : ℕ} (h : j ≠ i) (f : Option File) : (t.setFd i f).fd j = t.fd j := by
  unfold Thread.setFd
  rw [Int.toNat_natCast]
  exact Function.update_of_ne h ..

/-- A count, after a change of one entry. -/
theorem Thread.count_setFd (t : Thread) (hi : i < 129) (f : Option File) (q : File → Bool) :
    (t.setFd i f).count q + ((t.fd i).any q).toNat = t.count q + (f.any q).toNat := by
  have hmem : i ∈ Finset.range 129 := Finset.mem_range.mpr hi
  unfold Thread.count
  rw [← Finset.add_sum_erase _ _ hmem, ← Finset.add_sum_erase (Finset.range 129) (fun j => ((t.fd j).any q).toNat) hmem,
    Thread.setFd_self]
  have hrest : ∑ j ∈ (Finset.range 129).erase i, (((t.setFd i f).fd j).any q).toNat =
      ∑ j ∈ (Finset.range 129).erase i, ((t.fd j).any q).toNat := by
    apply Finset.sum_congr rfl
    intro j hj
    rw [Thread.setFd_of_ne t (Finset.ne_of_mem_erase hj)]
  rw [hrest]
  omega

theorem Thread.count_eq_zero (h : ∀ i, t.fd i = none) (q : File → Bool) : t.count q = 0 := by
  apply Finset.sum_eq_zero
  intro i _
  rw [h i]
  rfl

theorem held_empty (h : ∀ i, t.fd i = none) : held t = fun _ => 0 := funext fun _ => Thread.count_eq_zero h _

theorem denied_empty (h : ∀ i, t.fd i = none) : denied t = fun _ => 0 := funext fun _ => Thread.count_eq_zero h _

/-- A file in an entry that was empty. -/
theorem Thread.count_put (hi : i < 129) (hnone : t.fd i = none) (q : File → Bool) :
    (t.setFd i (some f)).count q = t.count q + (q f).toNat := by
  have hcount := t.count_setFd hi (some f) q
  rw [hnone, Option.any_none, Option.any_some, Bool.toNat_false, Nat.add_zero] at hcount
  exact hcount

theorem held_put (hi : i < 129) (hnone : t.fd i = none) : held (t.setFd i (some f)) = up (held t) f.inode := by
  funext p
  unfold held
  rw [Thread.count_put hi hnone]
  by_cases hp : p = f.inode
  · subst hp
    rw [up_self, beq_self_eq_true, Bool.toNat_true]
  · rw [up_of_ne _ hp, beq_false_of_ne (Ne.symm hp), Bool.toNat_false, Nat.add_zero]

theorem denied_put (hi : i < 129) (hnone : t.fd i = none) :
    denied (t.setFd i (some f)) = if f.denyWrite then up (denied t) f.inode else denied t := by
  funext p
  unfold denied
  rw [Thread.count_put hi hnone]
  cases hdeny : f.denyWrite with
  | false =>
    simp only [Bool.and_false, Bool.toNat_false, Nat.add_zero, Bool.false_eq_true, if_false]
  | true =>
    simp only [Bool.and_true, if_true]
    by_cases hp : p = f.inode
    · subst hp
      rw [up_self, beq_self_eq_true, Bool.toNat_true]
    · rw [up_of_ne _ hp, beq_false_of_ne (Ne.symm hp), Bool.toNat_false, Nat.add_zero]

/-- A file that is taken out. -/
theorem Thread.setFd_setFd (t : Thread) (i : ℕ) (f g : Option File) : (t.setFd i f).setFd i g = t.setFd i g := by
  unfold Thread.setFd
  rw [Function.update_idem]

theorem Thread.setFd_eq (t : Thread) (i : ℕ) : t.setFd i (t.fd i) = t := by
  unfold Thread.setFd
  rw [Int.toNat_natCast, Function.update_eq_self]

theorem held_take (hi : i < 129) (hsome : t.fd i = some f) : held t = up (held (t.setFd i none)) f.inode := by
  have hput := held_put (t := t.setFd i none) (f := f) hi (Thread.setFd_self t i none)
  rwa [Thread.setFd_setFd, ← hsome, Thread.setFd_eq] at hput

theorem denied_take (hi : i < 129) (hsome : t.fd i = some f) :
    denied t = if f.denyWrite then up (denied (t.setFd i none)) f.inode else denied (t.setFd i none) := by
  have hput := denied_put (t := t.setFd i none) (f := f) hi (Thread.setFd_self t i none)
  rwa [Thread.setFd_setFd, ← hsome, Thread.setFd_eq] at hput

/-- A file of which only the position changes. -/
theorem counts_replace {g : File} (hi : i < 129) (hsome : t.fd i = some f) (hinode : g.inode = f.inode)
    (hdeny : g.denyWrite = f.denyWrite) :
    held (t.setFd i (some g)) = held t ∧ denied (t.setFd i (some g)) = denied t := by
  have hheld := held_put (t := t.setFd i none) (f := g) hi (Thread.setFd_self t i none)
  have hdenied := denied_put (t := t.setFd i none) (f := g) hi (Thread.setFd_self t i none)
  rw [Thread.setFd_setFd, hinode] at hheld hdenied
  rw [hdeny] at hdenied
  exact ⟨hheld.trans (held_take hi hsome).symm, hdenied.trans (denied_take hi hsome).symm⟩

theorem denied_le_held (t : Thread) (p : ℕ) : denied t p ≤ held t p := by
  unfold denied held Thread.count
  apply Finset.sum_le_sum
  intro i _
  cases t.fd i with
  | none => exact le_refl _
  | some f =>
    simp only [Option.any_some]
    cases f.inode == p <;> cases f.denyWrite <;> decide

end Table

/-! ## The invariant -/

/-- Every inode is open as often as others have it open and as often as the table has a file of it, and only the entries
3 to 127 have files. -/
structure Inv (base baseDeny : ℕ → ℕ) (t : Thread) (m : Mem) : Prop where
  counted : Counted base baseDeny (held t) (denied t) m
  slots : ∀ i, t.fd i ≠ none → 3 ≤ i ∧ i ≤ 127

/-- How a call may end. -/
def Ends (base baseDeny : ℕ → ℕ) : Outcome → World → Prop
  | .returns _ t, w => Inv base baseDeny t w.mem
  | .exits t, w => Inv base baseDeny t w.mem ∧ ∀ i, t.fd i = none
  | .outside _, _ => False

section Calls

variable {base baseDeny : ℕ → ℕ} {t : Thread} {w : World} {i : ℕ} {f : File}

theorem opens_eq {held denied : ℕ → ℕ} {m : Mem} (h : Counted base baseDeny held denied m) (p : ℕ) :
    opens m p = base p + held p := by
  unfold opens
  by_cases hp : 0 < base p + held p
  · obtain ⟨i, hi, hopen, -⟩ := h.inode hp
    rw [hi]
    exact hopen
  · have hnone : m.heap p = none := by
      cases hi : m.heap p with
      | none => rfl
      | some i => exact absurd ((h.live p).mp ⟨i, hi⟩) hp
    rw [hnone]
    show (0 : ℤ) = base p + held p
    omega

namespace Inv

theorem live (h : Inv base baseDeny t w.mem) (hi : i < 129) (hsome : t.fd i = some f) : Live w.mem f.inode := by
  apply (h.counted.live f.inode).mpr
  rw [held_take hi hsome, up_self]
  omega

/-- A file of which only the position changes. -/
theorem replace (h : Inv base baseDeny t w.mem) (hi : i < 129) (hsome : t.fd i = some f) {g : File}
    (hinode : g.inode = f.inode) (hdeny : g.denyWrite = f.denyWrite) : Inv base baseDeny (t.setFd i (some g)) w.mem := by
  obtain ⟨hheld, hdenied⟩ := counts_replace hi hsome hinode hdeny
  refine ⟨?_, ?_⟩
  · rw [hheld, hdenied]
    exact h.counted
  · intro j hj
    by_cases hji : j = i
    · subst hji
      exact h.slots j (by rw [hsome]; nofun)
    · rw [Thread.setFd_of_ne t hji] at hj
      exact h.slots j hj

/-- A file is closed, and its entry is empty. -/
theorem close (h : Inv base baseDeny t w.mem) (hi : i < 129) (hsome : t.fd i = some f) :
    wp .any (Contiguous.fileClose (some f)) (fun _ w' => Inv base baseDeny (t.setFd i none) w'.mem)
      (fun _ _ => False) w := by
  have hcounted := h.counted
  rw [held_take hi hsome, denied_take hi hsome] at hcounted
  apply wp_mono_ret (hcounted.fileClose (denied_le_held _ _))
  intro _ w' hw'
  refine ⟨hw', ?_⟩
  intro j hj
  by_cases hji : j = i
  · subst hji
    exact absurd (Thread.setFd_self t j none) hj
  · rw [Thread.setFd_of_ne t hji] at hj
    exact h.slots j hj

/-- The loop of `exit` closes what is behind `fd`. -/
theorem exitLoop (n : ℕ) : ∀ (fd : ℕ) (t : Thread) (w : World), fd + n = 128 → 2 ≤ fd →
    (∀ i, t.fd i ≠ none → fd < i) → Inv base baseDeny t w.mem →
      wp .any (exitLoop n fd t) (fun r w' => ∃ t', r = .exits t' ∧ (∀ i, t'.fd i = none) ∧
        Inv base baseDeny t' w'.mem) (fun _ _ => False) w := by
  induction n with
  | zero =>
    intro fd t w hn _ hbehind h
    rw [FixedTable.exitLoop, wp_pure]
    refine ⟨t, rfl, ?_, h⟩
    intro i
    by_contra hi
    have := hbehind i hi
    have := h.slots i hi
    omega
  | succ n ih =>
    intro fd t w hn hfd hbehind h
    rw [FixedTable.exitLoop]
    split
    · rename_i hle
      rw [t.slot_of_lt ⟨by omega, by omega⟩, show ((fd : ℤ) + 1).toNat = fd + 1 by omega,
        show (fd : ℤ) + 1 = ((fd + 1 : ℕ) : ℤ) by push_cast; rfl]
      cases hslot : t.fd (fd + 1) with
      | none =>
        apply ih (fd + 1) t w (by omega) (by omega) _ h
        intro i hi
        have hlt := hbehind i hi
        by_contra hge
        rw [show i = fd + 1 by omega] at hi
        exact hi hslot
      | some f =>
        dsimp only
        rw [wp_bind]
        apply wp_mono_ret (h.close (by omega) hslot)
        intro _ w' hw'
        apply ih (fd + 1) _ w' (by omega) (by omega) _ hw'
        intro i hi
        have hne : i ≠ fd + 1 := by
          rintro rfl
          exact hi (Thread.setFd_self t _ none)
        rw [Thread.setFd_of_ne t hne] at hi
        have := hbehind i hi
        omega
    · rename_i hgt
      rw [wp_pure]
      refine ⟨t, rfl, ?_, h⟩
      intro i
      by_contra hi
      have := hbehind i hi
      have := h.slots i hi
      omega

/-- **`exit` closes every file, and does not panic.** -/
theorem exit (h : Inv base baseDeny t w.mem) (num : ℤ) :
    wp .any (exit num t) (fun r w' => ∃ t', r = .exits t' ∧ (∀ i, t'.fd i = none) ∧ Inv base baseDeny t' w'.mem)
      (fun _ _ => False) w := by
  have hbehind : ∀ i, ({ t with exitNumber := num } : Thread).fd i ≠ none → 2 < i := fun i hi => (h.slots i hi).1
  exact Inv.exitLoop 126 2 { t with exitNumber := num } w rfl (le_refl 2) hbehind ⟨h.counted, h.slots⟩

theorem exit_ends (h : Inv base baseDeny t w.mem) (num : ℤ) :
    wp .any (FixedTable.exit num t) (Ends base baseDeny) (fun _ _ => True) w := by
  apply wp_mono (h.exit num)
  · rintro r w' ⟨t', rfl, hempty, hinv⟩
    exact ⟨hinv, hempty⟩
  · exact fun _ _ _ => trivial

theorem store (h : Inv base baseDeny t w.mem) (buffer : Word) (l : List UInt8) :
    Inv base baseDeny (t.store buffer l) w.mem := ⟨h.counted, h.slots⟩

theorem readStdin (keys : ℕ → UInt8) (buffer size : Word) (n : ℕ) : ∀ (cur : ℕ) (t : Thread),
    Inv base baseDeny t w.mem → Inv base baseDeny (readStdin keys buffer size n cur t).2 w.mem := by
  induction n with
  | zero => exact fun _ _ h => h
  | succ n ih =>
    intro cur t h
    rw [FixedTable.readStdin]
    split
    · exact h
    dsimp only
    split
    · exact h.store _ _
    · exact ih _ _ (h.store _ _)

/-- `file_read` moves the position of the file. -/
theorem fileRead (h : Inv base baseDeny t w.mem) (hi : i < 129) (hsome : t.fd i = some f) (size : ℤ) :
    wp .any (Contiguous.fileRead f size)
      (fun r w' => Inv base baseDeny (t.setFd i (some r.2)) w'.mem) (fun _ _ => True) w := by
  obtain ⟨inode, hinode⟩ := h.live hi hsome
  rw [Contiguous.fileRead, wp_bind]
  apply wp_mono (Contiguous.Fixes.inodeReadAt hinode size f.pos w rfl)
  · intro l w' hw'
    rw [wp_pure, hw']
    exact h.replace hi hsome rfl rfl
  · exact fun _ _ _ => trivial

theorem fileWrite (h : Inv base baseDeny t w.mem) (hi : i < 129) (hsome : t.fd i = some f) (buffer : ℕ → UInt8)
    (size : ℤ) : wp .any (Contiguous.fileWrite f buffer size)
      (fun r w' => Inv base baseDeny (t.setFd i (some r.2)) w'.mem) (fun _ _ => True) w := by
  obtain ⟨inode, hinode⟩ := h.live hi hsome
  rw [Contiguous.fileWrite, wp_bind]
  apply wp_mono (Contiguous.Fixes.inodeWriteAt (E := fun _ => True) hinode buffer (.inr fun _ => trivial) w rfl)
  · intro n w' hw'
    rw [wp_pure, hw']
    exact h.replace hi hsome rfl rfl
  · exact fun _ _ _ => trivial

/-- **A call with an index of the table keeps the invariant, or closes every file.** -/
theorem body (h : Inv base baseDeny t w.mem) {c : Call} {fd : Word} (hc : c.fd = some fd)
    (hfd : 0 ≤ fd.toInt ∧ fd.toInt < 129) : wp .any (c.body t) (Ends base baseDeny) (fun _ _ => True) w := by
  have hlt : fd.toInt.toNat < 129 := by omega
  have hslot := t.slot_of_lt hfd
  have hcast : fd.toInt = (fd.toInt.toNat : ℤ) := by omega
  have hset : ∀ (t : Thread) g, t.setFd fd.toInt g = t.setFd fd.toInt.toNat g := fun t g => by rw [← hcast]
  cases c with
  | «open» file name => cases hc
  | exit status => cases hc
  | filesize fd' =>
    cases hc
    rw [Call.body, FixedTable.filesize, hslot]
    cases hf : t.fd fd.toInt.toNat with
    | none => exact h.exit_ends (-1)
    | some f =>
      obtain ⟨inode, hinode⟩ := h.live hlt hf
      dsimp only
      rw [Contiguous.fileLength, Contiguous.inodeLength, wp_bind, wp_bind, wp_deref_some hinode, wp_pure, wp_pure]
      exact h
  | read fd' buffer size keys =>
    cases hc
    rw [Call.body, FixedTable.read, hslot]
    cases hf : t.fd fd.toInt.toNat with
    | none => exact h.exit_ends (-1)
    | some f =>
      dsimp only
      split
      · exact h.exit_ends (-1)
      split
      · rw [wp_bind]
        apply wp_mono_ret (h.fileRead hlt hf size.toInt)
        rintro ⟨l, g⟩ w' hw'
        rw [wp_pure, hset]
        exact ⟨hw'.counted, hw'.slots⟩
      · rw [wp_pure]
        exact readStdin _ _ _ _ _ _ h
  | write fd' buffer size =>
    cases hc
    rw [Call.body, FixedTable.write, hslot]
    dsimp only
    split
    · split
      · exact h.exit_ends (-1)
      cases hf : t.fd fd.toInt.toNat with
      | none => exact h.exit_ends (-1)
      | some f =>
        dsimp only
        rw [wp_bind]
        apply wp_mono_ret (h.fileWrite hlt hf _ size.toInt)
        rintro ⟨n, g⟩ w' hw'
        rw [wp_pure, hset]
        exact hw'
    · rw [wp_pure]
      exact h
  | seek fd' position =>
    cases hc
    rw [Call.body, FixedTable.seek, hslot]
    cases hf : t.fd fd.toInt.toNat with
    | none => exact h.exit_ends (-1)
    | some f =>
      dsimp only
      rw [wp_bind, fileSeek]
      split
      · rw [wp_pure, wp_pure, hset]
        exact h.replace hlt hf rfl rfl
      · rw [wp_stop]
        trivial
  | tell fd' =>
    cases hc
    rw [Call.body, FixedTable.tell, hslot]
    cases hf : t.fd fd.toInt.toNat with
    | none => exact h.exit_ends (-1)
    | some f =>
      dsimp only
      rw [wp_pure]
      exact h
  | close fd' =>
    cases hc
    rw [Call.body, FixedTable.close, hslot]
    cases hf : t.fd fd.toInt.toNat with
    | none => exact h.exit_ends (-1)
    | some f =>
      dsimp only
      rw [wp_bind]
      apply wp_mono (h.close hlt hf)
      · intro _ w' hw'
        rw [wp_pure, hset]
        exact hw'
      · exact fun _ _ hno => hno.elim

/-! ### `open` -/

/-- The search for an empty entry. -/
theorem openLoop_spec (t : Thread) (n : ℕ) : ∀ count : ℕ, count + n = 127 → 2 ≤ count →
    (∃ i : ℕ, openLoop t n count = .ok (some (i : ℤ)) ∧ count < i ∧ i ≤ 127 ∧ t.fd i = none) ∨
      openLoop t n count = .ok none ∧ ∀ i, count < i → i ≤ 127 → t.fd i ≠ none := by
  induction n with
  | zero =>
    intro count hn _
    exact .inr ⟨rfl, fun i hlt hle => by omega⟩
  | succ n ih =>
    intro count hn hcount
    rw [openLoop]
    rw [t.slot_of_lt ⟨by omega, by omega⟩, show ((count : ℤ) + 1).toNat = count + 1 by omega,
      show (count : ℤ) + 1 = ((count + 1 : ℕ) : ℤ) by push_cast; rfl]
    cases hslot : t.fd (count + 1) with
    | none => exact .inl ⟨count + 1, rfl, by omega, by omega, hslot⟩
    | some f =>
      dsimp only
      have hfirst : ∀ i, count < i → ¬count + 1 < i → t.fd i ≠ none := by
        intro i hlt hge
        rw [show i = count + 1 by omega, hslot]
        nofun
      split
      · refine .inr ⟨rfl, fun i hlt hle => hfirst i hlt (by omega)⟩
      · rcases ih (count + 1) (by omega) (by omega) with ⟨i, hi, hlt, hle, hnone⟩ | ⟨hi, hall⟩
        · exact .inl ⟨i, hi, by omega, hle, hnone⟩
        · refine .inr ⟨hi, ?_⟩
          intro i hlt hle
          by_cases hnext : count + 1 < i
          · exact hall i hnext hle
          · exact hfirst i hlt hnext

/-- A program with what its runs are. -/
theorem wp_runs {α : Type} {P : Policy} {p : Fs α} {Q : α → World → Prop} {E : Stop → World → Prop} {w : World}
    (h : wp P p Q E w) : wp P p (fun a w' => Q a w' ∧ Runs P p w (.ok a) w') E w := by
  rw [wp_iff_runs] at h ⊢
  intro r w' hr
  cases r with
  | ok a => exact ⟨h _ _ hr, hr⟩
  | error e => exact h _ _ hr

/-- A new file in an empty entry. -/
theorem put (h : Counted base baseDeny (up (held t) f.inode) (if f.denyWrite then up (denied t) f.inode else denied t)
    w.mem) (hslots : ∀ i, t.fd i ≠ none → 3 ≤ i ∧ i ≤ 127) (hi : 3 ≤ i ∧ i ≤ 127) (hnone : t.fd i = none) :
    Inv base baseDeny (t.setFd i (some f)) w.mem := by
  refine ⟨?_, ?_⟩
  · rw [held_put (by omega) hnone, denied_put (by omega) hnone]
    exact h
  · intro j hj
    by_cases hji : j = i
    · subst hji
      exact hi
    · rw [Thread.setFd_of_ne t hji] at hj
      exact hslots j hj

/-- **`open` returns the index of an empty entry, or -1 with nothing opened**, unless the table is full. -/
theorem openCall (h : Inv base baseDeny t w.mem) (file : List UInt8) (hroom : Openable w file → t.Room) :
    wp .any (openCall file t) (fun r w' => r = .returns (-1) t ∧ Inv base baseDeny t w'.mem ∨
      ∃ (i : ℕ) (f : File), 3 ≤ i ∧ i ≤ 127 ∧ t.fd i = none ∧
        r = .returns (BitVec.ofInt 32 i) (t.setFd i (some f)) ∧ Inv base baseDeny (t.setFd i (some f)) w'.mem)
      (fun _ _ => True) w := by
  rw [FixedTable.openCall, wp_bind]
  apply wp_mono_ret (wp_runs (h.counted.filesysOpen file))
  rintro r w₁ ⟨hr, hrun⟩
  cases r with
  | none =>
    rw [wp_pure]
    exact .inl ⟨rfl, hr, h.slots⟩
  | some new =>
    obtain ⟨hnew, hcounted⟩ := hr
    obtain ⟨j, hj, hj', hempty⟩ := hroom ⟨new, w₁, hrun⟩
    rcases openLoop_spec t 125 2 rfl (le_refl 2) with ⟨i, hloop, hlt, hle, hnone⟩ | ⟨-, hfull⟩
    · have hloop' : openLoop t 125 2 = .ok (some (i : ℤ)) := hloop
      simp only [hloop']
      by_cases hname : file = t.name
      · rw [if_pos hname, wp_bind]
        apply wp_mono (hcounted.fileDenyWrite (denied_le_held t new.inode) hnew)
        · rintro f w₂ ⟨rfl, hdenied⟩
          rw [wp_pure]
          exact .inr ⟨i, _, by omega, hle, hnone, rfl, put hdenied h.slots ⟨by omega, hle⟩ hnone⟩
        · exact fun _ _ hno => hno.elim
      · rw [if_neg hname, wp_bind, wp_pure, wp_pure]
        refine .inr ⟨i, new, by omega, hle, hnone, rfl, put ?_ h.slots ⟨by omega, hle⟩ hnone⟩
        rw [hnew]
        exact hcounted
    · exact absurd hempty (hfull j (by omega) hj')

end Inv

end Calls

/-! ## The calls of a run -/

variable {s s' : State} {c : Call} {base baseDeny : ℕ → ℕ}

theorem Start.inv (h : Start s) : ∃ base baseDeny, Inv base baseDeny s.thread s.world.mem := by
  have hcnt : ∀ p i, s.world.mem.heap p = some i → opens s.world.mem p = i.openCnt ∧
      (((s.world.mem.heap p).map Inode.denyWriteCnt).getD 0) = i.denyWriteCnt := by
    intro p i hi
    unfold opens
    rw [hi]
    exact ⟨rfl, rfl⟩
  have hnone : ∀ p, s.world.mem.heap p = none → opens s.world.mem p = 0 ∧
      (((s.world.mem.heap p).map Inode.denyWriteCnt).getD 0) = 0 := by
    intro p hp
    unfold opens
    rw [hp]
    exact ⟨rfl, rfl⟩
  have hlive : ∀ p, Live s.world.mem p ↔ 0 < (opens s.world.mem p).toNat := by
    intro p
    cases hp : s.world.mem.heap p with
    | none =>
      rw [(hnone p hp).1]
      refine ⟨?_, fun hlt => absurd hlt (by decide)⟩
      rintro ⟨i, hi⟩
      rw [hp] at hi
      cases hi
    | some i =>
      rw [(hcnt p i hp).1]
      have := (h.counts p i hp).1
      exact ⟨fun _ => by omega, fun _ => ⟨i, hp⟩⟩
  refine ⟨fun p => (opens s.world.mem p).toNat,
    fun p => (((s.world.mem.heap p).map Inode.denyWriteCnt).getD 0).toNat, ?_, fun i hi => absurd (h.empty i) hi⟩
  rw [held_empty h.empty, denied_empty h.empty]
  refine ⟨hlive, ?_, ?_, ?_, h.listed, h.nodup, ?_, ?_, h.releasable⟩
  · intro p i hi
    have := h.counts p i hi
    rw [(hcnt p i hi).1]
    push_cast
    omega
  · intro p i hi
    have := h.counts p i hi
    rw [(hcnt p i hi).2]
    push_cast
    omega
  · intro p
    refine ⟨?_, le_refl 0⟩
    cases hp : s.world.mem.heap p with
    | none => exact Nat.zero_le _
    | some i =>
      have := h.counts p i hp
      rw [(hcnt p i hp).1]
      exact Int.toNat_le_toNat this.2.2
  · intro p hp
    rw [(hnone p (h.fresh p hp)).1]
    rfl
  · intro f hf
    obtain ⟨f', i, hf', hi, -⟩ := h.releasable.stored
    cases hf.symm.trans hf'
    exact (hlive f.inode).mp ⟨i, hi⟩

/-- A call other than `open` that ends as it may. -/
theorem CallOk.of_ends (h : Inv base baseDeny s.thread s.world.mem) {r : Outcome} {w : World}
    (hends : Ends base baseDeny r w) (hopen : ∀ file name, c ≠ .open file name)
    (hexit : ∀ status, c = .exit status → ∃ t, r = .exits t) : CallOk s c (.ok r) w := by
  refine ⟨?_, ?_, ?_, ?_, ?_⟩
  · rintro fd hr
    cases hr
    exact hends
  · exact fun file name _ _ hc => absurd hc (hopen file name)
  · exact fun file name _ hc => absurd hc (hopen file name)
  · rintro t hr
    cases hr
    obtain ⟨hinv, hempty⟩ := hends
    refine ⟨hempty, ?_⟩
    intro p
    rw [opens_eq hinv.counted, opens_eq h.counted, held_empty hempty]
    push_cast
    omega
  · intro status hc
    obtain ⟨t, ht⟩ := hexit status hc
    exact ⟨t, congrArg _ ht⟩

theorem CallOk.of_error {e : Stop} {w : World} (hexit : ∀ status, c ≠ .exit status) : CallOk s c (.error e) w :=
  ⟨nofun, nofun, nofun, nofun, fun status hc => absurd hc (hexit status)⟩

/-- The call ends the process. -/
theorem Inv.exit_ok (h : Inv base baseDeny s.thread s.world.mem) (num : ℤ) :
    wp .any (FixedTable.exit num s.thread) (fun r w => Ends base baseDeny r w ∧ CallOk s c (.ok r) w)
      (fun e w => CallOk s c (.error e) w) s.world := by
  apply wp_mono (h.exit num)
  · rintro r w ⟨t, rfl, hempty, hinv⟩
    refine ⟨⟨hinv, hempty⟩, nofun, nofun, nofun, ?_, fun _ _ => ⟨t, rfl⟩⟩
    rintro t' ht'
    cases ht'
    refine ⟨hempty, ?_⟩
    intro p
    rw [opens_eq hinv.counted, opens_eq h.counted, held_empty hempty]
    push_cast
    omega
  · exact fun _ _ hno => hno.elim

/-- **A call that meets the condition does what is asked of it, and keeps the invariant.** -/
theorem Inv.handler (h : Inv base baseDeny s.thread s.world.mem) (hmeets : Meets s c) :
    wp .any (syscallHandler c s.thread) (fun r w => Ends base baseDeny r w ∧ CallOk s c (.ok r) w)
      (fun e w => CallOk s c (.error e) w) s.world := by
  unfold syscallHandler
  split
  · rename_i hchecked
    cases hfd : c.fd with
    | some fd =>
      have hopen : ∀ file name, c ≠ .open file name := by
        rintro file name rfl
        cases hfd
      have hexit : ∀ status, c ≠ .exit status := by
        rintro status rfl
        cases hfd
      apply wp_mono (h.body hfd (hmeets.index hchecked fd hfd))
      · exact fun r w hr => ⟨hr, .of_ends h hr hopen fun status hc => absurd hc (hexit status)⟩
      · exact fun _ _ _ => .of_error hexit
    | none =>
      cases c with
      | «open» file name =>
        apply wp_mono (h.openCall name (hmeets.room hchecked file name rfl))
        · rintro r w (⟨rfl, hinv⟩ | ⟨i, f, hlo, hhi, hnone, rfl, hinv⟩)
          · refine ⟨hinv, nofun, ?_, ?_, nofun, nofun⟩
            · rintro _ _ _ _ - hr hne
              cases hr
              exact absurd rfl hne
            · intro _ _ _ _ _ p
              rw [opens_eq hinv.counted, opens_eq h.counted]
          · have htoNat : (BitVec.ofInt 32 (i : ℤ)).toNat = i := by
              rw [BitVec.ofInt_natCast, BitVec.toNat_ofNat]
              omega
            refine ⟨hinv, nofun, ?_, ?_, nofun, nofun⟩
            · rintro _ _ _ _ - hr -
              cases hr
              rw [htoNat]
              refine ⟨hlo, hhi, hnone, ?_⟩
              rw [Thread.setFd_self]
              nofun
            · rintro _ _ _ - hr
              have hneg : BitVec.ofInt 32 (i : ℤ) = (-1 : Word) := (Outcome.returns.inj (Except.ok.inj hr)).1
              have htop : (-1 : Word).toNat = 4294967295 := by decide
              rw [hneg, htop] at htoNat
              omega
        · exact fun _ _ _ => .of_error nofun
      | exit status => exact h.exit_ok status.toInt
      | filesize | read | write | seek | tell | close => cases hfd
  · exact h.exit_ok (-1)

theorem Inv.step (h : Inv base baseDeny s.thread s.world.mem) (hmeets : Meets s c) (hstep : Step s c s') :
    Inv base baseDeny s'.thread s'.world.mem := by
  have hruns := wp_iff_runs.mp (h.handler hmeets)
  cases hstep with
  | returns _ hr => exact (hruns _ _ hr).1
  | exits _ hr => exact (hruns _ _ hr).1.1

/-- An index that is not in the table. -/
theorem outside_of_index {fd : Word} (hfd : c.fd = some fd) (hout : ¬(0 ≤ fd.toInt ∧ fd.toInt < 129)) (t : Thread) :
    c.body t = .ret (.outside fd.toInt) := by
  have hslot := t.slot_eq_none hout
  cases c with
  | «open» file name => cases hfd
  | exit status => cases hfd
  | filesize fd' =>
    cases hfd
    rw [Call.body, filesize, hslot]
    rfl
  | read fd' buffer size keys =>
    cases hfd
    rw [Call.body, read, hslot]
    rfl
  | write fd' buffer size =>
    cases hfd
    rw [Call.body, write, hslot]
    rfl
  | seek fd' position =>
    cases hfd
    rw [Call.body, seek, hslot]
    rfl
  | tell fd' =>
    cases hfd
    rw [Call.body, tell, hslot]
    rfl
  | close fd' =>
    cases hfd
    rw [Call.body, close, hslot]
    rfl

/-- An `open` of a file that can be opened while the table is full returns -1 and leaves the file open. -/
theorem Inv.leak (h : Inv base baseDeny s.thread s.world.mem) {name : List UInt8} (hopenable : Openable s.world name)
    (hfull : ¬s.thread.Room) : ∃ w p,
      Runs .any (FixedTable.openCall name s.thread) s.world (.ok (.returns (-1) s.thread)) w ∧
      opens w.mem p = opens s.world.mem p + 1 := by
  obtain ⟨f, w, hrun⟩ := hopenable
  have hcounted := (wp_iff_runs.mp (h.counted.filesysOpen name) _ _ hrun).2
  have hloop : openLoop s.thread 125 2 = .ok none := by
    rcases openLoop_spec s.thread 125 2 rfl (le_refl 2) with ⟨i, -, hlt, hle, hnone⟩ | ⟨hloop, -⟩
    · exact absurd ⟨i, by omega, hle, hnone⟩ hfull
    · exact hloop
  refine ⟨w, f.inode, Prog.Ends.bind hrun ?_, ?_⟩
  · simp only [hloop]
    exact ⟨rfl, rfl⟩
  · rw [opens_eq hcounted, opens_eq h.counted, up_self]
    push_cast
    omega

/-- **In every run whose calls meet the condition, every call does what is asked of it**, and the next call does so in
all its runs exactly if it meets the condition. -/
theorem fixed_table {cs : List Call} (hstart : Start s)
    (hrun : Trace (fun s c s' => Meets s c ∧ Step s c s') s cs s') (c : Call) :
    (∀ r w, Runs .any (syscallHandler c s'.thread) s'.world r w → CallOk s' c r w) ↔ Meets s' c := by
  obtain ⟨base, baseDeny, hinv⟩ := hstart.inv
  have h : Inv base baseDeny s'.thread s'.world.mem :=
    hrun.invariant (I := fun s => Inv base baseDeny s.thread s.world.mem)
      (fun s c s' h hstep => h.step hstep.1 hstep.2) hinv
  constructor
  · intro hok
    refine ⟨?_, ?_⟩
    · intro hchecked fd hfd
      by_contra hout
      have hcode : syscallHandler c s'.thread = .ret (.outside fd.toInt) := by
        unfold syscallHandler
        rw [if_pos hchecked, outside_of_index hfd hout]
      exact (hok (.ok (.outside fd.toInt)) s'.world (by rw [hcode]; exact ⟨rfl, rfl⟩)).inside _ rfl
    · rintro hchecked file name rfl hopenable
      by_contra hfull
      obtain ⟨w, p, hr, hleak⟩ := h.leak hopenable hfull
      have hcode : syscallHandler (.open file name) s'.thread = openCall name s'.thread := by
        unfold syscallHandler
        rw [if_pos hchecked]
        rfl
      have hfailed := (hok _ w (by rw [hcode]; exact hr)).failed file name _ rfl rfl p
      omega
  · intro hmeets r w hr
    have hruns := wp_iff_runs.mp (h.handler hmeets) r w hr
    cases r with
    | ok r => exact hruns.2
    | error e => exact hruns

/-- A process that has opened nothing, and a file system with one empty file, "a". -/
def fresh : State where
  thread := { name := [112], fd := fun _ => none, exitNumber := 0, user := fun _ => 0 }
  world := {
    mem := {
      fsSize := 16
      heap := fun p => if p = 0 then some ⟨0, 1, false, 0, (Block.zero.setWord 0 2).setWord 1 4⟩ else none
      next := 1
      openInodes := [0]
      freeMap := ⟨16, fun i => decide (i < 5)⟩
      freeMapFile := some ⟨0, 0, false⟩
      cwd := none }
    disk := fun s =>
      if s = 1 then (Block.zero.setWord 0 3).setWord 1 20
      else if s = 3 then Block.mk fun i => if i = 0 then 4 else if i = 4 then 97 else if i = 19 then 1 else 0
      else Block.zero }
  running := true

theorem start_fresh : Start fresh := by
  have hheap : ∀ p i, fresh.world.mem.heap p = some i →
      p = 0 ∧ i = ⟨0, 1, false, 0, (Block.zero.setWord 0 2).setWord 1 4⟩ := by
    intro p i hi
    unfold fresh at hi
    dsimp only at hi
    split at hi
    · rename_i hp
      exact ⟨hp, (Option.some.inj hi).symm⟩
    · cases hi
  refine ⟨rfl, fun _ => rfl, ?_, List.nodup_singleton 0, ?_, ?_, ⟨⟨_, _, rfl, rfl, ?_⟩, ?_, ?_⟩⟩
  · intro p
    constructor
    · intro hp
      cases List.mem_singleton.mp hp
      exact ⟨_, rfl⟩
    · rintro ⟨i, hi⟩
      exact List.mem_singleton.mpr (hheap p i hi).1
  · intro p i hi
    obtain ⟨-, rfl⟩ := hheap p i hi
    decide
  · intro p hp
    exact if_neg (by have : 1 ≤ p := hp; omega)
  · refine ⟨le_refl 0, by decide, by decide +kernel, ?_⟩
    intro pos hlo hhi _
    have hcnt : pos < 4 := hhi
    have hpos : pos = 0 ∨ pos = 1 ∨ pos = 2 ∨ pos = 3 := by omega
    rcases hpos with rfl | rfl | rfl | rfl <;> decide +kernel
  · intro p i hi hremoved
    obtain ⟨-, rfl⟩ := hheap p i hi
    cases hremoved
  · intro p q i j hi _ hremoved
    obtain ⟨-, rfl⟩ := hheap p i hi
    cases hremoved

/-- The process opens "a". -/
theorem fixed_table_open : ∃ s', Trace (fun s c s' => Meets s c ∧ Step s c s') fresh [.open 0x1000 [97]] s' ∧
    ∀ c, (∀ r w, Runs .any (syscallHandler c s'.thread) s'.world r w → CallOk s' c r w) ↔ Meets s' c := by
  have hrun := runs_runArray (P := .any) (syscallHandler (.open 0x1000 [97]) fresh.thread)
    (e := ⟨fun _ => true, fun _ _ => 0, false⟩) (w := fresh.world) ⟨fun _ => trivial, fun _ => trivial⟩ fun _ => trivial
  have hresult : (match (runArray (syscallHandler (.open 0x1000 [97]) fresh.thread)
      ⟨fun _ => true, fun _ _ => 0, false⟩ fresh.world).1 with
    | .ok (.returns eax _) => eax == 3
    | _ => false) = true := by decide +kernel
  split at hresult
  · rename_i eax t hr
    rw [hr] at hrun
    have hmeets : Meets fresh (.open 0x1000 [97]) := ⟨fun _ => nofun, fun _ _ _ _ _ => ⟨3, by decide, by decide, rfl⟩⟩
    have htrace : Trace (fun s c s' => Meets s c ∧ Step s c s') fresh [.open 0x1000 [97]] _ :=
      .single ⟨hmeets, .returns rfl hrun⟩
    exact ⟨_, htrace, fixed_table start_fresh htrace⟩
  · cases hresult

/-- A process closes descriptor 129, which is behind the table. -/
theorem close_outside_table : ¬∀ s cs s' c r w, Start s → Trace Step s cs s' →
    Runs .any (syscallHandler c s'.thread) s'.world r w → CallOk s' c r w := by
  intro hall
  have hcode : syscallHandler (.close 129) fresh.thread = .ret (.outside 129) := by
    unfold syscallHandler
    rw [if_pos (by decide)]
    exact outside_of_index (c := .close 129) rfl (by decide) fresh.thread
  have hok := hall fresh [] fresh (.close 129) (.ok (.outside 129)) fresh.world start_fresh (.nil fresh)
    (by rw [hcode]; exact ⟨rfl, rfl⟩)
  exact hok.inside 129 rfl

end Pintos.Userprog.FixedTable
