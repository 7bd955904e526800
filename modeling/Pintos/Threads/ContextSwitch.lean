import Pintos.Threads.Switch

/-!
# A thread comes back to where it was

* `Saved` is what the stack of a thread that is not running says of it; `Saved.congr` is the frame rule.
* `Saved.callSwitchThreads` is the code of `switch.S`.
-/

namespace Pintos.Threads.Switch

open StackMachine StackMachine.Reg

/-! ## Contexts -/

/-- What `switch_threads` has to preserve for its caller, with the address to which it returns. -/
structure Context where
  ebx : ℕ
  ebp : ℕ
  esi : ℕ
  edi : ℕ
  esp : ℕ
  eip : ℕ
  deriving DecidableEq

/-- How a thread goes on: it returns from `switch_threads`, or begins with `kernel_thread (function, aux)`. -/
inductive Cont
  | resume (k : Context)
  | start (function aux : ℕ)
  deriving DecidableEq

/-- The context of the running thread. -/
def contextOf (c : Cpu) : Context := ⟨c.reg ebx, c.reg ebp, c.reg esi, c.reg edi, c.reg esp, c.eip⟩

/-- The context behind a call of `switch_threads`; its two arguments are still on the stack. -/
def callContext (ret : ℕ) (c : Cpu) : Context :=
  ⟨c.reg ebx, c.reg ebp, c.reg esi, c.reg edi, c.reg esp - 8, ret⟩

/-- The processor runs the thread `t` as `Cont` says; `kernel_thread` has no caller to return to. -/
def Matches (L : Layout) (c : Cpu) (t : ℕ) : Cont → Prop
  | .resume k => contextOf c = k
  | .start function aux => c.eip = L.kernelThread ∧ c.reg ebp = 0 ∧ c.reg esp = t + 4084 ∧ c.mem (t + 4084) = 0 ∧
      c.mem (t + 4088) = function ∧ c.mem (t + 4092) = aux

/-- The stack of `t` says that it goes on as `Cont` says. -/
def Saved (L : Layout) (mem : ℕ → ℕ) (t : ℕ) : Cont → Prop
  | .resume k => ∃ e, mem (t + L.threadStackOfs) = e ∧ t + L.threadStackOfs + 4 ≤ e ∧ e + 28 < t + pgsize ∧
      mem e = k.edi ∧ mem (e + 4) = k.esi ∧ mem (e + 8) = k.ebp ∧ mem (e + 12) = k.ebx ∧ mem (e + 16) = k.eip ∧
      k.eip ≠ L.switchEntry ∧ k.esp = e + 20
  | .start function aux => mem (t + L.threadStackOfs) = t + 4052 ∧ mem (t + 4060) = 0 ∧ mem (t + 4068) = L.switchEntry ∧
      mem (t + 4080) = L.kernelThread ∧ mem (t + 4084) = 0 ∧ mem (t + 4088) = function ∧ mem (t + 4092) = aux

variable {L : Layout} {mem mem' : ℕ → ℕ} {t u a e cur next ret : ℕ} {k : Cont} {c : Cpu}

theorem Saved.congr (h : Saved L mem t k) (hmem : ∀ a, Guarded L mem t a → mem' a = mem a) : Saved L mem' t k := by
  have hstack := hmem _ (.inl rfl)
  cases k with
  | resume k =>
    obtain ⟨e, he, hlow, hhigh, hedi, hesi, hebp, hebx, heip, hne, hesp⟩ := h
    have hframe : ∀ j, j < 20 → mem' (e + j) = mem (e + j) := by
      intro j hj
      exact hmem _ (.inr ⟨by omega, .inl (by omega)⟩)
    refine ⟨e, hstack.trans he, hlow, hhigh, (hframe 0 (by omega)).trans hedi, (hframe 4 (by omega)).trans hesi,
      (hframe 8 (by omega)).trans hebp, (hframe 12 (by omega)).trans hebx, (hframe 16 (by omega)).trans heip, hne, hesp⟩
  | start function aux =>
    obtain ⟨he, hebp, heip, hkernel, hnull, hfunction, haux⟩ := h
    have hframe : ∀ j, 4052 ≤ j → j < 4096 → mem' (t + j) = mem (t + j) := by
      intro j hlow hhigh
      refine hmem _ (.inr ⟨by omega, .inr ⟨?_, Nat.add_lt_add_left hhigh t⟩⟩)
      rw [he]
      exact heip
    refine ⟨hstack.trans he, (hframe 4060 (by omega) (by omega)).trans hebp, (hframe 4068 (by omega) (by omega)).trans heip,
      (hframe 4080 (by omega) (by omega)).trans hkernel, (hframe 4084 (by omega) (by omega)).trans hnull,
      (hframe 4088 (by omega) (by omega)).trans hfunction, (hframe 4092 (by omega) (by omega)).trans haux⟩

/-- The words of a thread are in its page. -/
theorem Saved.in_page (h : Saved L mem t k) (ha : Guarded L mem t a) : t ≤ a ∧ a < t + pgsize := by
  have hsmall := L.small
  have hsize : pgsize = 4096 := rfl
  cases k with
  | resume k =>
    obtain ⟨e, he, hlow, hhigh, _, _, _, _, heip, hne, _⟩ := h
    rcases ha with rfl | ⟨hge, hlt⟩
    · omega
    · rw [he] at hge hlt
      rcases hlt with hlt | ⟨heq, _⟩
      · omega
      · exact absurd (heip.symm.trans heq) hne
  | start function aux =>
    obtain ⟨he, _⟩ := h
    rcases ha with rfl | ⟨hge, hlt⟩
    · omega
    · rw [he] at hge hlt
      exact ⟨by omega, hlt.elim (fun hlt => by omega) And.right⟩

/-- Two pages have no word in common. -/
theorem page_disjoint (ht : pgsize ∣ t) (hu : pgsize ∣ u) (hne : t ≠ u) {b : ℕ} (ha : t ≤ a ∧ a < t + pgsize)
    (hb : u ≤ b ∧ b < u + pgsize) : a ≠ b := by
  change 4096 ∣ t at ht
  change 4096 ∣ u at hu
  change _ ∧ a < t + 4096 at ha
  change _ ∧ b < u + 4096 at hb
  omega

/-- What is written into the page of one thread does not concern another. -/
theorem Saved.of_page (h : Saved L mem t k) (ht : pgsize ∣ t) (hu : pgsize ∣ u) (hne : t ≠ u)
    (hmem : ∀ a, mem' a ≠ mem a → u ≤ a ∧ a < u + pgsize) : Saved L mem' t k := by
  refine h.congr fun a ha => ?_
  by_contra hchanged
  exact page_disjoint ht hu hne (h.in_page ha) (hmem a hchanged) rfl

/-! ## The code of `switch.S` -/

/-- The memory when `switch_threads` has saved its caller. -/
def savedMem (L : Layout) (cur next ret e : ℕ) (c : Cpu) : ℕ → ℕ :=
  let mem := Function.update (Function.update (Function.update c.mem (e + 24) next) (e + 20) cur) (e + 16) ret
  let mem := Function.update (Function.update mem (e + 12) (c.reg ebx)) (e + 8) (c.reg ebp)
  let mem := Function.update (Function.update mem (e + 4) (c.reg esi)) e (c.reg edi)
  Function.update mem (cur + L.threadStackOfs) e

theorem savedMem_ne (ha : ¬(e ≤ a ∧ a ≤ e + 24)) (hstack : a ≠ cur + L.threadStackOfs) :
    savedMem L cur next ret e c a = c.mem a := by
  unfold savedMem
  simp only [Function.update_apply, if_neg hstack]
  repeat rw [if_neg (by omega)]

theorem saveCaller_eq (cur next ret : ℕ) (hesp : c.reg esp = e + 28) :
    let c' := (((c.push next).push cur).push ret).run (saveCaller L)
    c'.mem = savedMem L cur next ret e c ∧ c'.reg eax = cur ∧ c'.reg edx = L.threadStackOfs ∧ c'.reg esp = e := by
  have hsub : ∀ j, e + (j + 4) - 4 = e + j := fun j => by omega
  have hsub' : e + 4 - 4 = e := by omega
  simp [saveCaller, Cpu.exec, Cpu.push, hesp, hsub 24, hsub 20, hsub 16, hsub 12, hsub 8, hsub 4, hsub',
    Nat.add_comm _ e, savedMem]

theorem restoreCaller_eq {f : ℕ} (hnext : c.mem (c.reg esp + 24) = next) (hf : c.mem (next + c.reg edx) = f) :
    (c.run restoreCaller).mem = c.mem ∧ (c.run restoreCaller).reg eax = c.reg eax ∧
      contextOf (c.run restoreCaller) =
        ⟨c.mem (f + 12), c.mem (f + 8), c.mem (f + 4), c.mem f, f + 20, c.mem (f + 16)⟩ := by
  simp [restoreCaller, Cpu.exec, contextOf, Nat.add_comm 24, hnext, hf]

theorem callSwitchThreads_eq (next ret : ℕ) {f : ℕ} (hesp : c.reg esp = e + 28) (hroom : cur + L.threadStackOfs + 4 ≤ e)
    (hf : savedMem L cur next ret e c (next + L.threadStackOfs) = f) :
    (callSwitchThreads L cur next ret c).mem = savedMem L cur next ret e c ∧
      (callSwitchThreads L cur next ret c).reg eax = cur ∧
      contextOf (callSwitchThreads L cur next ret c) =
        ⟨savedMem L cur next ret e c (f + 12), savedMem L cur next ret e c (f + 8), savedMem L cur next ret e c (f + 4),
          savedMem L cur next ret e c f, f + 20, savedMem L cur next ret e c (f + 16)⟩ := by
  have hsave := saveCaller_eq (L := L) cur next ret hesp
  rw [callSwitchThreads, switchThreads, Cpu.run_append]
  generalize (((c.push next).push cur).push ret).run (saveCaller L) = c' at hsave ⊢
  obtain ⟨hmem, heax, hedx, hbase⟩ := hsave
  have hargument : c'.mem (c'.reg esp + 24) = next := by
    rw [hmem, hbase, savedMem, Function.update_of_ne (by omega)]
    simp
  obtain ⟨hmem', heax', hcontext⟩ := restoreCaller_eq hargument (f := f) (by rw [hedx, hmem]; exact hf)
  rw [← hmem]
  exact ⟨hmem', heax'.trans heax, hcontext⟩

/-- A thread that calls `switch_threads`. -/
structure Calls (L : Layout) (c : Cpu) (cur : ℕ) : Prop where
  aligned : pgsize ∣ cur
  low : cur + L.threadStackOfs + 32 ≤ c.reg esp
  high : c.reg esp < cur + pgsize

theorem Calls.frame (h : Calls L c cur) : ∃ e, c.reg esp = e + 28 ∧ cur + L.threadStackOfs + 4 ≤ e ∧ e + 28 < cur + pgsize := by
  obtain ⟨_, hlow, hhigh⟩ := h
  exact ⟨c.reg .esp - 28, by omega, by omega, by omega⟩

/-- It leaves the words of the others as they are. -/
theorem Calls.others (h : Calls L c cur) (next ret : ℕ) (hu : Saved L c.mem u k) (hpage : pgsize ∣ u) (hne : u ≠ cur) :
    Saved L (callSwitchThreads L cur next ret c).mem u k := by
  obtain ⟨e, hesp, hroom, htop⟩ := h.frame
  obtain ⟨hmem, _⟩ := callSwitchThreads_eq next ret hesp hroom rfl
  rw [hmem]
  refine hu.of_page hpage h.aligned hne fun a ha => ?_
  by_contra hout
  exact ha (savedMem_ne (by omega) (by omega))

/-- It is saved itself. -/
theorem Calls.saved (h : Calls L c cur) (next : ℕ) (hret : ret ≠ L.switchEntry) :
    Saved L (callSwitchThreads L cur next ret c).mem cur (.resume (callContext ret c)) := by
  obtain ⟨e, hesp, hroom, htop⟩ := h.frame
  obtain ⟨hmem, _⟩ := callSwitchThreads_eq next ret hesp hroom rfl
  rw [hmem]
  refine ⟨e, Function.update_self .., hroom, htop, ?_, ?_, ?_, ?_, ?_, hret, by simp [callContext, hesp]⟩
  all_goals
    rw [savedMem, Function.update_of_ne (by omega)]
    simp [callContext]

/-- A thread that was saved before goes on in its context. -/
theorem Calls.resume (h : Calls L c cur) (ret : ℕ) {k : Context} (hsaved : Saved L c.mem next (.resume k)) (hpage : pgsize ∣ next)
    (hne : next ≠ cur) :
    contextOf (callSwitchThreads L cur next ret c) = k ∧ (callSwitchThreads L cur next ret c).reg eax = cur ∧
      k.eip ≠ L.switchEntry ∧ next ≤ k.esp ∧ k.esp < next + pgsize := by
  obtain ⟨e, hesp, hroom, htop⟩ := h.frame
  have hafter := h.others next ret hsaved hpage hne
  obtain ⟨hmem, heax, hcontext⟩ := callSwitchThreads_eq next ret hesp hroom rfl
  rw [hmem] at hafter
  obtain ⟨f, hf, hlow, hhigh, hedi, hesi, hebp, hebx, heip, hentry, hk⟩ := hafter
  rw [hcontext, hf, hedi, hesi, hebp, hebx, heip, ← hk]
  exact ⟨rfl, heax, hentry, by omega, by omega⟩

/-- A new thread is at `switch_entry`, above the words that it begins with. -/
theorem Calls.start (h : Calls L c cur) (ret : ℕ) {function aux : ℕ} (hsaved : Saved L c.mem next (.start function aux))
    (hpage : pgsize ∣ next) (hne : next ≠ cur) :
    (callSwitchThreads L cur next ret c).eip = L.switchEntry ∧ (callSwitchThreads L cur next ret c).reg eax = cur ∧
      (callSwitchThreads L cur next ret c).reg ebp = 0 ∧ (callSwitchThreads L cur next ret c).reg esp = next + 4072 := by
  obtain ⟨e, hesp, hroom, htop⟩ := h.frame
  have hafter := h.others next ret hsaved hpage hne
  obtain ⟨hmem, heax, hcontext⟩ := callSwitchThreads_eq next ret hesp hroom rfl
  rw [hmem] at hafter
  obtain ⟨hf, hebp, heip, _⟩ := hafter
  rw [hf] at hcontext
  injection hcontext with _ hebp' _ _ hesp' heip'
  exact ⟨heip'.trans heip, heax, hebp'.trans hebp, hesp'⟩

/-! ## `switch_entry` -/

theorem callTail_mem (hesp : c.reg esp = t + 4072) :
    (callTail L c).mem = Function.update (Function.update c.mem (t + 4076) (c.reg eax)) (t + 4072) L.tailReturn := by
  have hsub : t + 4072 + 8 - 4 = t + 4076 := rfl
  have hsub' : t + 4076 - 4 = t + 4072 := rfl
  simp [callTail, Cpu.exec, Cpu.push, hesp, hsub, hsub']

theorem callTail_reg (hesp : c.reg esp = t + 4072) :
    (callTail L c).reg esp = t + 4072 ∧ (callTail L c).reg ebp = c.reg ebp := by
  have hsub : t + 4072 + 8 - 4 = t + 4076 := rfl
  have hsub' : t + 4076 - 4 = t + 4072 := rfl
  simp [callTail, Cpu.exec, Cpu.push, hesp, hsub, hsub']

theorem returnTail_eq (hesp : c.reg esp = t + 4072) :
    (c.run returnTail).mem = c.mem ∧ (c.run returnTail).reg esp = t + 4084 ∧ (c.run returnTail).reg ebp = c.reg ebp ∧
      (c.run returnTail).eip = c.mem (t + 4080) := by
  simp [returnTail, Cpu.exec, hesp]

/-- A new thread comes to `kernel_thread`, with its arguments. -/
theorem start_matches {function aux : ℕ} (hesp : c.reg esp = t + 4072) (hebp : c.reg ebp = 0)
    (hsaved : Saved L c.mem t (.start function aux)) :
    Matches L ((callTail L c).run returnTail) t (.start function aux) := by
  obtain ⟨_, _, _, hkernel, hnull, hfunction, haux⟩ := hsaved
  obtain ⟨hesp', hebp'⟩ := callTail_reg (L := L) hesp
  obtain ⟨hmem, hend, hbase, heip⟩ := returnTail_eq hesp'
  have hkept : ∀ j, 4076 < j → (callTail L c).mem (t + j) = c.mem (t + j) := by
    intro j hj
    rw [callTail_mem hesp, Function.update_of_ne (by omega), Function.update_of_ne (by omega)]
  refine ⟨?_, ?_, hend, ?_, ?_, ?_⟩
  · rw [heip, hkept 4080 (by omega), hkernel]
  · rw [hbase, hebp', hebp]
  · rw [hmem, hkept 4084 (by omega), hnull]
  · rw [hmem, hkept 4088 (by omega), hfunction]
  · rw [hmem, hkept 4092 (by omega), haux]

end Pintos.Threads.Switch
