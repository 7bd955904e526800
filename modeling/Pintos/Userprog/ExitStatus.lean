import Pintos.Library.Trace
import Pintos.Userprog.Syscall

/-!
# The exit status of a process

A process runs until control enters the kernel: by a system call, by a page fault, or by another
exception.  `page_fault` and `kill` of `userprog/exception.c` and the end of `start_process` are here,
`syscall_handler` is in `Pintos.Userprog.Syscall`.  A life is a run of such entries; it ends when one of
them, or `start_process` after a failed load, comes to `thread_exit`.

`process_exit` does not assign to `exit_number`, so what `pblock` publishes is the value that the thread
has when `thread_exit` is called.
-/

namespace Pintos.Userprog

open Pintos.Threads

/-! ## The code -/

/-- The fields of `struct thread` that the ways to end a process use. -/
structure Thread where
  exitNumber : ℤ
  currentStack : Word
  deriving DecidableEq

/-- `init_thread`, which clears the structure first. -/
def initThread : Thread where
  exitNumber := 0
  currentStack := pgSize

/-- The code segment in an interrupt frame: `SEL_UCSEG`, `SEL_KCSEG` or another. -/
inductive Segment
  | userCode
  | kernelCode
  | other
  deriving DecidableEq

/-- `kill` -/
def kill : Segment → SysStop
  | .userCode => .threadExit
  | .kernelCode => .panic
  | .other => .threadExit

/-- `page_fault`.  When the stack grows, `mapped` says whether the new pages could be mapped; an
assertion of `pagedir_set_page` fails otherwise. -/
def pageFault (t : Thread) (notPresent : Bool) (faultAddr esp : Word) (mapped : Bool) :
    Except SysStop Thread :=
  if !notPresent || !isUserVaddr faultAddr then .error (.exit (-1))
  else if faultAddr < physBase - t.currentStack ∧ physBase - pgSize * 20 ≤ faultAddr ∧
      esp - 32 ≤ faultAddr then
    if mapped then .ok { t with currentStack := physBase - pgRoundDown faultAddr } else .error .panic
  else .error (.exit (-1))

/-- The end of `start_process`, after `load`. -/
def startProcess (success : Bool) : Except SysStop Thread :=
  if success then .ok initThread else .error (.exit (-1))

/-- How control enters the kernel from a process. -/
inductive Entry
  | syscall (esp : Word) (memory : UserMemory)
  | pageFault (notPresent : Bool) (faultAddr esp : Word) (mapped : Bool)
  | exception (cs : Segment)

/-- What the kernel may do on an entry: let the process go on, or stop.  Accesses of a system call may
grow the stack. -/
inductive Handles (t : Thread) : Entry → Except SysStop Thread → Prop
  | returns {esp : Word} {m : UserMemory} {eax : Option Word} {s' : SysState} (stack : Word)
      (h : SysRuns (syscallHandler esp) m (.ok eax) s') :
      Handles t (.syscall esp m) (.ok { t with currentStack := stack })
  | stops {esp : Word} {m : UserMemory} {e : SysStop} {s' : SysState}
      (h : SysRuns (syscallHandler esp) m (.error e) s') : Handles t (.syscall esp m) (.error e)
  | pageFault (notPresent : Bool) (faultAddr esp : Word) (mapped : Bool) :
      Handles t (.pageFault notPresent faultAddr esp mapped)
        (Userprog.pageFault t notPresent faultAddr esp mapped)
  | exception (cs : Segment) : Handles t (.exception cs) (.error (kill cs))

/-- The thread as it calls `thread_exit`, if the stop is one of the process and not of the machine. -/
def threadExit (t : Thread) : SysStop → Option Thread
  | .exit status => some { t with exitNumber := status }
  | .threadExit => some t
  | .halt => none
  | .panic => none

/-- How a life ends. -/
inductive End
  | failedLoad
  | entry (e : Entry)

/-- `Ended e t`: a process may end by `e`, with the thread `t` at its `thread_exit`. -/
inductive Ended : End → Thread → Prop
  | failedLoad {e : SysStop} {t : Thread} (h : startProcess false = .error e)
      (hexit : threadExit initThread e = some t) : Ended .failedLoad t
  | entry {t₀ t t' : Thread} {es : List Entry} {e : Entry} {stop : SysStop}
      (hstart : startProcess true = .ok t₀)
      (hrun : Trace (fun t e t' => Handles t e (.ok t')) t₀ es t) (h : Handles t e (.error stop))
      (hexit : threadExit t stop = some t') : Ended (.entry e) t'

/-! ## The status -/

/-- The process has made the system call `exit (n)`. -/
def ExitCall (m : UserMemory) (esp n : Word) : Prop :=
  ∃ no, m.word esp = some no ∧ Syscall.ofNumber no = some .exit ∧ m.word (argAddr esp 0) = some n

/-- `e.HasStatus v`: the end stands for the status `v`, which is `n` for the system call `exit (n)` and
-1 for everything else. -/
def End.HasStatus (e : End) (v : ℤ) : Prop :=
  match e with
  | .entry (.syscall esp m) =>
    (∃ n, ExitCall m esp n ∧ v = n.toInt) ∨ ((∀ n, ¬ExitCall m esp n) ∧ v = -1)
  | _ => v = -1

/-- The end is not an exception in the process other than a page fault, and no call of `exit` with an
argument, other than -1, that as an address would lie at or above `PHYS_BASE`. -/
def End.Stores : End → Prop
  | .failedLoad => True
  | .entry (.syscall esp m) => ∀ n, ExitCall m esp n → isUserVaddr n = true ∨ n = -1
  | .entry (.pageFault _ _ _ _) => True
  | .entry (.exception _) => False

/-! ### Stops of system calls other than `exit` -/

/-- What a system call other than `exit` may stop with. -/
def Rejection (e : SysStop) : Prop := e = .exit (-1) ∨ e = .halt ∨ e = .panic

section Stops

variable {α : Type}

theorem stopsIn_loadWord (va : Word) : Prog.StopsIn Rejection (loadWord va) := by
  refine (Prog.stopsIn_perform _).bind fun x => ?_
  cases x with
  | none => exact .inl rfl
  | some w => trivial

theorem stopsIn_loadByte (va : Word) : Prog.StopsIn Rejection (loadByte va) := by
  refine (Prog.stopsIn_perform _).bind fun x => ?_
  cases x with
  | none => exact .inl rfl
  | some b => trivial

theorem stopsIn_storeByte (va : Word) (b : UInt8) : Prog.StopsIn Rejection (storeByte va b) := by
  refine (Prog.stopsIn_perform _).bind fun x => ?_
  cases x with
  | false => exact .inl rfl
  | true => trivial

theorem stopsIn_finish (o : Outcome α) : Prog.StopsIn Rejection (finish o) := by
  cases o with
  | value a => trivial
  | exit => exact .inl rfl
  | panic => exact .inr (.inr rfl)

theorem stopsIn_protect (w : Word) : Prog.StopsIn Rejection (protectUserMemory w) := by
  unfold protectUserMemory
  split
  · trivial
  · exact .inl rfl

theorem stopsIn_loadBytes (n : ℕ) : ∀ va, Prog.StopsIn Rejection (loadBytes n va) := by
  induction n with
  | zero => exact fun _ => trivial
  | succ n ih => exact fun va => (stopsIn_loadByte va).bind fun _ => ih _

theorem stopsIn_storeBytes (l : List UInt8) : ∀ va, Prog.StopsIn Rejection (storeBytes l va) := by
  induction l with
  | nil => exact fun _ => trivial
  | cons b l ih => exact fun va => (stopsIn_storeByte va b).bind fun _ => ih _

theorem stopsIn_readStdin (buffer size : Word) (fuel : ℕ) :
    ∀ cur, Prog.StopsIn Rejection (readStdin buffer size fuel cur) := by
  induction fuel with
  | zero => exact fun _ => trivial
  | succ fuel ih =>
    intro cur
    refine (stopsIn_loadByte _).bind fun b => ?_
    split
    · refine (Prog.stopsIn_perform _).bind fun c => (stopsIn_storeByte _ _).bind fun _ => ?_
      dsimp only
      split
      · trivial
      · exact ih _
    · trivial

theorem stopsIn_read (fd buffer size : Word) : Prog.StopsIn Rejection (read fd buffer size) := by
  unfold read
  split
  · split
    · trivial
    · refine (Prog.stopsIn_perform _).bind fun x => ?_
      cases x with
      | none => trivial
      | some lo =>
        exact (stopsIn_storeBytes _ _).bind fun _ => (stopsIn_finish _).bind fun _ => trivial
  · exact (stopsIn_readStdin _ _ _ _).bind fun _ => trivial

theorem stopsIn_write (fd buffer size : Word) : Prog.StopsIn Rejection (write fd buffer size) := by
  unfold write
  split
  · split
    · trivial
    · refine (Prog.stopsIn_perform _).bind fun x => ?_
      cases x with
      | none => trivial
      | some no =>
        exact (stopsIn_loadBytes _ _).bind fun _ => (stopsIn_finish _).bind fun _ => trivial
  · exact (stopsIn_loadBytes _ _).bind fun _ => trivial

theorem stopsIn_readdir (fd name : Word) : Prog.StopsIn Rejection (readdir fd name) := by
  unfold readdir
  split
  · trivial
  · refine (Prog.stopsIn_perform _).bind fun x => ?_
    cases x with
    | none => trivial
    | some o =>
      refine (stopsIn_finish _).bind fun entry => ?_
      cases entry with
      | none => trivial
      | some entry =>
        dsimp only
        split
        · exact .inr (.inr rfl)
        · exact (stopsIn_storeBytes _ _).bind fun _ => trivial

theorem stopsIn_passOn (c : KernelCall) : Prog.StopsIn Rejection (passOn c) :=
  (Prog.stopsIn_perform _).bind fun _ => (stopsIn_finish _).bind fun _ => trivial

theorem stopsIn_fetchArgs (esp : Word) (n : ℕ) :
    ∀ p, Prog.StopsIn Rejection (fetchArgs esp n p) := by
  induction n with
  | zero => exact fun _ => trivial
  | succ n ih =>
    exact fun p => (stopsIn_loadWord _).bind fun w => (stopsIn_protect w).bind fun _ => ih _

theorem stopsIn_body {c : Syscall} (hc : c ≠ .exit) (p : ℕ → Word) :
    Prog.StopsIn Rejection (c.body p) := by
  have hnull : ∀ k : KernelCall,
      Prog.StopsIn Rejection (if p 0 = 0 then exit (-1) else passOn k) := fun k => by
    split
    · exact .inl rfl
    · exact stopsIn_passOn k
  cases c with
  | exit => exact absurd rfl hc
  | halt => exact .inr (.inl rfl)
  | create => exact hnull _
  | remove => exact hnull _
  | «open» => exact hnull _
  | seek => exact (stopsIn_passOn _).bind fun _ => trivial
  | close => exact (stopsIn_passOn _).bind fun _ => trivial
  | fibo => trivial
  | maxfour => trivial
  | read => exact (stopsIn_read _ _ _).bind fun _ => trivial
  | write => exact (stopsIn_write _ _ _).bind fun _ => trivial
  | readdir => exact (stopsIn_readdir _ _).bind fun _ => trivial
  | exec | wait | filesize | tell | chdir | mkdir | isdir | inumber => exact stopsIn_passOn _

end Stops

/-- A rejection that ends the process stores -1. -/
theorem Rejection.exitNumber {e : SysStop} {t t' : Thread} (h : Rejection e)
    (hexit : threadExit t e = some t') : t'.exitNumber = -1 := by
  rcases h with rfl | rfl | rfl
  · cases hexit
    rfl
  · cases hexit
  · cases hexit

/-! ### The system call `exit` -/

/-- A load of a word ends the process, or the run goes on with the word. -/
theorem ends_loadWord {α : Type} {va : Word} {k : Word → Sys α} {m : UserMemory} {log : List Access}
    {r : Except SysStop α} {s' : SysState} (h : Prog.Ends sysEffect (loadWord va >>= k) ⟨m, log⟩ r s') :
    (m.word va = none ∧ r = .error (.exit (-1))) ∨
      ∃ w log', m.word va = some w ∧ Prog.Ends sysEffect (k w) ⟨m, log'⟩ r s' := by
  obtain ⟨x, t, ⟨hx, rfl⟩, h⟩ := h
  cases x with
  | none => exact .inl ⟨hx.symm, h.1⟩
  | some w => exact .inr ⟨w, _, hx.symm, h⟩

theorem ExitCall.unique {m : UserMemory} {esp n n' : Word} (h : ExitCall m esp n)
    (h' : ExitCall m esp n') : n = n' := by
  obtain ⟨_, _, _, hn⟩ := h
  obtain ⟨_, _, _, hn'⟩ := h'
  exact Option.some.inj (hn.symm.trans hn')

/-- `exit (n)` stores `n` if it could be an address of the process, and is rejected otherwise. -/
theorem syscallHandler_exit {esp n : Word} {m : UserMemory} {e : SysStop} {s' : SysState}
    (hexit : ExitCall m esp n) (h : SysRuns (syscallHandler esp) m (.error e) s') :
    e = .exit (if isUserVaddr n then n.toInt else -1) := by
  obtain ⟨no, hno, hc, hn⟩ := hexit
  rcases ends_loadWord h with ⟨hnone, _⟩ | ⟨no', log, hno', h⟩
  · rw [hno] at hnone
    cases hnone
  · rw [hno] at hno'
    cases hno'
    rw [hc] at h
    change Prog.Ends sysEffect (fetchArgs esp 1 [] >>= fun p =>
      Syscall.body (fun i => (p[i]?).getD 0) .exit) _ _ _ at h
    rw [fetchArgs, Prog.bind_bind] at h
    rcases ends_loadWord h with ⟨hnone, _⟩ | ⟨n', log', hn', h⟩
    · rw [show argAddr esp [].length = argAddr esp 0 from rfl, hn] at hnone
      cases hnone
    · rw [show argAddr esp [].length = argAddr esp 0 from rfl, hn] at hn'
      cases hn'
      change Prog.Ends sysEffect ((protectUserMemory n >>= fun _ => fetchArgs esp 0 [n]) >>= fun p =>
        Syscall.body (fun i => (p[i]?).getD 0) .exit) _ _ _ at h
      unfold protectUserMemory at h
      by_cases huser : isUserVaddr n = true
      · rw [if_pos huser] at h ⊢
        cases h.1
        rfl
      · rw [if_neg huser] at h ⊢
        cases h.1
        rfl

/-- Every other stop of a system call is a rejection. -/
theorem syscallHandler_rejects {esp : Word} {m : UserMemory} {e : SysStop} {s' : SysState}
    (hexit : ∀ n, ¬ExitCall m esp n) (h : SysRuns (syscallHandler esp) m (.error e) s') :
    Rejection e := by
  rcases ends_loadWord h with ⟨_, he⟩ | ⟨no, log, hno, h⟩
  · cases he
    exact .inl rfl
  · cases hc : Syscall.ofNumber no with
    | none =>
      rw [hc] at h
      cases h.1
    | some c =>
      rw [hc] at h
      by_cases hce : c = .exit
      · subst hce
        change Prog.Ends sysEffect (fetchArgs esp 1 [] >>= fun p =>
          Syscall.body (fun i => (p[i]?).getD 0) .exit) _ _ _ at h
        rw [fetchArgs, Prog.bind_bind] at h
        rcases ends_loadWord h with ⟨_, he⟩ | ⟨n, log', hn, _⟩
        · cases he
          exact .inl rfl
        · exact absurd ⟨no, hno, hc, hn⟩ (hexit n)
      · exact ((stopsIn_fetchArgs _ _ _).bind fun p => stopsIn_body hce _).ends h

/-! ### Lives -/

theorem pageFault_ok {t t' : Thread} {notPresent mapped : Bool} {faultAddr esp : Word}
    (h : pageFault t notPresent faultAddr esp mapped = .ok t') : t'.exitNumber = t.exitNumber := by
  unfold pageFault at h
  split_ifs at h
  cases h
  rfl

theorem pageFault_error {t : Thread} {notPresent mapped : Bool} {faultAddr esp : Word} {e : SysStop}
    (h : pageFault t notPresent faultAddr esp mapped = .error e) : Rejection e := by
  unfold pageFault at h
  split_ifs at h
  · cases h
    exact .inl rfl
  · cases h
    exact .inr (.inr rfl)
  · cases h
    exact .inl rfl

/-- An entry after which the process goes on leaves `exit_number` alone. -/
theorem Handles.exitNumber {t t' : Thread} {e : Entry} (h : Handles t e (.ok t')) :
    t'.exitNumber = t.exitNumber := by
  generalize hr : Except.ok t' = r at h
  cases h with
  | returns stack _ =>
    cases hr
    rfl
  | stops _ => cases hr
  | pageFault notPresent faultAddr esp mapped => exact pageFault_ok hr.symm
  | exception cs => cases hr

theorem Trace.exitNumber {t t' : Thread} {es : List Entry}
    (h : Trace (fun t e t' => Handles t e (.ok t')) t es t') (ht : t.exitNumber = 0) :
    t'.exitNumber = 0 :=
  h.invariant (I := fun t => t.exitNumber = 0) (fun _ _ _ hI hs => hs.exitNumber.trans hI) ht

/-- **The exit status.**  At the end of every life `exit_number` is the status that the end stands for
exactly if the end stores it. -/
theorem exit_status_iff {e : End} {t : Thread} (h : Ended e t) :
    e.HasStatus t.exitNumber ↔ e.Stores := by
  cases h with
  | failedLoad h hexit =>
    cases h
    cases hexit
    exact iff_of_true rfl trivial
  | @entry t₀ t₁ _ es e stop hstart hrun h hexit =>
    cases hstart
    have hzero : t₁.exitNumber = 0 := Trace.exitNumber hrun rfl
    generalize hr : Except.error stop = r at h
    cases h with
    | returns stack _ => cases hr
    | pageFault notPresent faultAddr esp mapped =>
      exact iff_of_true ((pageFault_error hr.symm).exitNumber hexit) trivial
    | exception cs =>
      -- `kill` stores no status
      cases hr
      refine iff_of_false ?_ id
      have hexit : t = t₁ := by
        cases cs with
        | userCode => exact (Option.some.inj hexit).symm
        | kernelCode => cases hexit
        | other => exact (Option.some.inj hexit).symm
      show t.exitNumber ≠ -1
      rw [hexit, hzero]
      decide
    | @stops esp m e' s' hs =>
      cases hr
      by_cases hcall : ∃ n, ExitCall m esp n
      · obtain ⟨n, hn⟩ := hcall
        obtain rfl := syscallHandler_exit hn hs
        cases hexit
        have hstatus : (End.entry (.syscall esp m)).HasStatus (if isUserVaddr n then n.toInt else -1) ↔
            (if isUserVaddr n then n.toInt else -1) = n.toInt := by
          constructor
          · rintro (⟨n', hn', hv⟩ | ⟨hno, _⟩)
            · rw [hn.unique hn']
              rwa [hn.unique hn'] at hv
            · exact absurd hn (hno n)
          · exact fun hv => .inl ⟨n, hn, hv⟩
        have hstores : (End.entry (.syscall esp m)).Stores ↔ isUserVaddr n = true ∨ n = -1 :=
          ⟨fun h => h n hn, fun h n' hn' => by rwa [← hn.unique hn']⟩
        refine hstatus.trans (Iff.trans ?_ hstores.symm)
        by_cases huser : isUserVaddr n = true
        · simp [huser]
        · rw [if_neg huser]
          simp only [huser, false_or, Bool.false_eq_true]
          constructor
          · intro h
            exact BitVec.eq_of_toInt_eq h.symm
          · rintro rfl
            rfl
      · have hno : ∀ n, ¬ExitCall m esp n := not_exists.mp hcall
        refine iff_of_true (.inr ⟨hno, ?_⟩) fun n hn => absurd hn (hno n)
        exact (syscallHandler_rejects hno hs).exitNumber hexit

/-- A process that divides by zero leaves the status 0. -/
theorem divideError_status : ∃ t, Ended (.entry (.exception .userCode)) t ∧
    ¬(End.entry (.exception .userCode)).HasStatus t.exitNumber :=
  ⟨initThread, .entry rfl (.nil _) (.exception .userCode) rfl, by show ¬initThread.exitNumber = -1; decide⟩

/-- A process that touches an unmapped page of user space leaves the status -1. -/
theorem exit_status_unmapped :
    (End.entry (.pageFault true 0x1000 0xbffff000 false)).HasStatus (-1) :=
  (exit_status_iff (.entry rfl (.nil _) (.pageFault true 0x1000 0xbffff000 false) rfl)).mpr trivial

end Pintos.Userprog
