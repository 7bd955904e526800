import Pintos.Lib.ListSort
import Pintos.Threads.Membership
import Pintos.Threads.Vaddr

/-!
# Condition variables

`cond_signal` of `threads/synch.c`, without `USERPROG`.  The list of a condition variable links the
`struct semaphore_elem`s of the waiters, which are variables of `cond_wait` on their stacks; `is_prior_larger` takes
the elements of every list to be members of a `struct thread`.

The word that it reads then lies 40 bytes below the element, on the stack of the waiter.  No link of a list is there,
and the stack of a blocked thread does not change, so the links are kept apart from the rest of the memory.
-/

namespace Pintos.Threads

open Lib Runs

/-- The address of the `struct semaphore_elem` of a waiter, on a kernel stack, which is above the `struct thread` of
its page. -/
structure SemaphoreElem where
  addr : Word
  onStack : physBase.toNat + 72 ≤ addr.toNat
  deriving DecidableEq

/-- `offsetof (struct list_elem, next)` -/
def offsetofNext : Word := 4

/-- `offsetof (struct thread, elem.next)`, without `USERPROG`. -/
def offsetofThreadElemNext : Word := 72

/-- `offsetof (struct thread, priority)` -/
def offsetofPriority : Word := 28

/-- `offsetof (struct semaphore_elem, elem.next)` -/
def offsetofSemaphoreElemNext : Word := 4

/-- `offsetof (struct semaphore_elem, semaphore)` -/
def offsetofSemaphore : Word := 8

/-- `list_entry (e, ..)`, with the offset of the `next` in the structure. -/
def listEntry (e offset : Word) : Word := e + offsetofNext - offset

/-- `is_prior_larger`, with the words in the memory. -/
def isPriorLargerAt (memory : Word → Word) (t1 t2 : SemaphoreElem) : Bool :=
  let th1 := listEntry t1.addr offsetofThreadElemNext
  let th2 := listEntry t2.addr offsetofThreadElemNext
  if th1 = 0 ∨ th2 = 0 then false
  else decide ((memory (th1 + offsetofPriority)).toInt > (memory (th2 + offsetofPriority)).toInt)

/-- The semaphore of the kernel that is the member of a `struct semaphore_elem`. -/
def SemaphoreElem.semaphore (e : SemaphoreElem) : ℕ :=
  (listEntry e.addr offsetofSemaphoreElemNext + offsetofSemaphore).toNat

/-- The word 40 bytes below the element, as an `int`. -/
def SemaphoreElem.below (memory : Word → Word) (e : SemaphoreElem) : ℤ := (memory (e.addr - 40)).toInt

theorem SemaphoreElem.semaphore_injective : Function.Injective SemaphoreElem.semaphore := by
  intro e u h
  have haddr : e.addr = u.addr := by
    unfold semaphore listEntry offsetofNext offsetofSemaphoreElemNext offsetofSemaphore at h
    have := BitVec.eq_of_toNat_eq h
    bv_omega
  cases e
  cases u
  cases haddr
  rfl

/-- **What is compared are the words below the elements**, whatever the priorities of the threads are. -/
theorem isPriorLargerAt_eq (memory : Word → Word) (t1 t2 : SemaphoreElem) :
    isPriorLargerAt memory t1 t2 = decide (t1.below memory > t2.below memory) := by
  have hentry : ∀ e : SemaphoreElem, listEntry e.addr offsetofThreadElemNext ≠ 0 ∧
      listEntry e.addr offsetofThreadElemNext + offsetofPriority = e.addr - 40 := by
    intro e
    have he := e.onStack
    rw [toNat_physBase] at he
    unfold listEntry offsetofNext offsetofThreadElemNext offsetofPriority
    constructor <;> bv_omega
  have hno : ¬(listEntry t1.addr offsetofThreadElemNext = 0 ∨ listEntry t2.addr offsetofThreadElemNext = 0) := by
    rintro (h | h)
    · exact (hentry t1).1 h
    · exact (hentry t2).1 h
  unfold isPriorLargerAt SemaphoreElem.below
  simp only [if_neg hno, (hentry t1).2, (hentry t2).2]

instance (memory : Word → Word) : IsStrictWeakOrder SemaphoreElem fun a b => isPriorLargerAt memory a b = true where
  irrefl a h := by simp [isPriorLargerAt_eq] at h
  trans a b c hab hbc := by
    simp only [isPriorLargerAt_eq, decide_eq_true_eq] at *
    omega
  incomp_trans a b c hab hbc := by
    simp only [isPriorLargerAt_eq, decide_eq_true_eq] at *
    omega

/-- What `cond_signal` reads and writes: the links of `cond->waiters`, the memory, and the kernel. -/
structure CondHeap where
  links : Links Unit SemaphoreElem
  memory : Word → Word
  kernel : Kernel

namespace CondHeap

/-- `cond_signal`, up to `thread_yield` in `sema_up`; the waiter that it takes. -/
def condSignal (fuel : ℕ) (lock : ℕ) (h : CondHeap) : Option (Option SemaphoreElem × CondHeap) :=
  if h.kernel.holder lock = some h.kernel.current then do
    let begin ← h.links.next (.head ())
    if begin = .tail () then return (none, h)
    else
      let m ← h.links.listSort fuel () (isPriorLargerAt h.memory)
      match ← m.listPopFront () with
      | (.item waiter, m) =>
        let k ← h.kernel.wakeWaiter waiter.semaphore
        return (some waiter, { h with links := m, kernel := k })
      | _ => none
  else none

/-- That many calls of `cond_signal`, the waiters that they take, and the memory behind them. -/
def condSignals (fuel : ℕ) (lock : ℕ) : ℕ → CondHeap → Option (List SemaphoreElem × CondHeap)
  | 0, h => some ([], h)
  | n + 1, h => do
    let (waiter, h) ← h.condSignal fuel lock
    let (waiters, h) ← condSignals fuel lock n h
    return (waiter.toList ++ waiters, h)

/-- The list links these waiters; each of them is blocked in `cond_wait`, and the caller holds the lock. -/
structure Waiting (h : CondHeap) (lock : ℕ) (thread : SemaphoreElem → ℕ) (waiters : List SemaphoreElem) : Prop where
  links : h.links.Holds Set.univ fun _ => waiters
  nodup : waiters.Nodup
  lists : Kernel.Lists h.kernel
  held : h.kernel.holder lock = some h.kernel.current
  sema : ∀ e ∈ waiters, h.kernel.sema e.semaphore = ⟨0, [thread e]⟩

variable {h : CondHeap} {lock : ℕ} {thread : SemaphoreElem → ℕ} {waiters ts : List SemaphoreElem} {e : SemaphoreElem}

theorem disjointLists_unit {α : Type} {l : List α} (hl : l.Nodup) : DisjointLists fun _ : Unit => l :=
  ⟨fun _ => hl, fun _ _ _ _ _ => rfl⟩

theorem update_unit {α : Type} (f : Unit → α) (a : α) : Function.update f () a = fun _ => a := by
  funext u
  exact Function.update_self ..

/-- `sema_up` of the semaphore of a waiter. -/
theorem wakeWaiter_sole {k : Kernel} (hlists : Kernel.Lists k) {s t : ℕ} (hsema : k.sema s = ⟨0, [t]⟩) :
    k.wakeWaiter s = some (((k.setSema s ⟨1, []⟩).insertReady t).setStatus t .ready) := by
  have hst : k.status t = .blocked := by
    apply hlists.status (.waiters s) t
    show t ∈ (k.sema s).waiters
    rw [hsema]
    exact List.mem_singleton_self t
  have hup : (k.sema s).up .threads k.priority = (some t, ⟨1, []⟩) := by
    rw [hsema]
    rfl
  unfold Kernel.wakeWaiter
  rw [hup]
  exact Kernel.threadUnblock_eq_some.mpr ⟨hst, rfl⟩

/-- One `cond_signal` takes the waiter that is the first one when the waiters are sorted. -/
theorem Waiting.condSignal (hw : h.Waiting lock thread waiters)
    (hs : Sorts (isPriorLargerAt h.memory) waiters (e :: ts)) :
    ∃ h', (∀ fuel, waiters.length < fuel → h.condSignal fuel lock = some (some e, h')) ∧
      h'.Waiting lock thread ts ∧ h'.memory = h.memory ∧ h'.kernel.priority = h.kernel.priority ∧
      h'.kernel.status = Function.update h.kernel.status (thread e) .ready ∧
      h'.kernel.sema = Function.update h.kernel.sema e.semaphore ⟨1, []⟩ := by
  have hd := disjointLists_unit hw.nodup
  obtain ⟨sorted, m₁, hsorts, hsort, hm₁, hd₁⟩ := hw.links.listSort (isPriorLargerAt h.memory) hd (q := ()) trivial
  obtain rfl : sorted = e :: ts := hsorts.unique hs hw.nodup
  obtain ⟨m₂, hpop, hm₂, -⟩ := hm₁.listPopFront hd₁ (q := ()) trivial (Function.update_self ..)
  rw [Function.update_idem, update_unit] at hm₂
  have hmem : ∀ {u}, u ∈ e :: ts → u ∈ waiters := hs.perm.mem_iff.mp
  obtain ⟨he, hts⟩ := List.nodup_cons.mp (hs.perm.nodup_iff.mpr hw.nodup)
  have hwake := wakeWaiter_sole hw.lists (hw.sema e (hmem List.mem_cons_self))
  refine ⟨⟨m₂, h.memory, _⟩, ?_, ⟨hm₂, hts, hw.lists.wakeWaiter hwake, hw.held, ?_⟩, rfl, rfl, rfl, rfl⟩
  · intro fuel hfuel
    have hbegin : h.links.next (.head ()) = some (firstOf () waiters) :=
      (hw.links.neighbours (q := ()) trivial (List.nil_append _).symm).1
    have hne : firstOf () waiters ≠ (.tail () : ListElem Unit SemaphoreElem) := fun htail => by
      rw [Links.firstOf_eq_tail.mp htail] at hmem
      exact List.not_mem_nil (hmem List.mem_cons_self)
    unfold CondHeap.condSignal
    rw [if_pos hw.held, hbegin]
    simp only [Option.bind_eq_bind, Option.bind_some, if_neg hne, hsort fuel hfuel, hpop, hwake]
    rfl
  · intro u hu
    have hue : u.semaphore ≠ e.semaphore := fun heq => he (SemaphoreElem.semaphore_injective heq ▸ hu)
    show Function.update h.kernel.sema e.semaphore ⟨1, []⟩ u.semaphore = _
    rw [Function.update_of_ne hue]
    exact hw.sema u (hmem (List.mem_cons_of_mem _ hu))

/-- Several calls take the waiters in the order of the sorted list. -/
theorem Waiting.condSignals {s : List SemaphoreElem} (hw : h.Waiting lock thread waiters)
    (hs : Sorts (isPriorLargerAt h.memory) waiters s) (n : ℕ) (hn : n ≤ s.length) :
    ∃ rest h', (∀ fuel, waiters.length < fuel → h.condSignals fuel lock n = some (s.take n, h')) ∧
      rest.Perm (s.drop n) ∧ h'.Waiting lock thread rest ∧
      (∀ e ∈ s.take n, h'.kernel.status (thread e) = .ready ∧ h'.kernel.sema e.semaphore = ⟨1, []⟩) ∧
      (∀ t, h.kernel.status t = .ready → h'.kernel.status t = .ready) ∧
      ∀ i, h.kernel.sema i = ⟨1, []⟩ → h'.kernel.sema i = ⟨1, []⟩ := by
  induction n generalizing h waiters s with
  | zero =>
    refine ⟨waiters, h, fun _ _ => rfl, hs.perm.symm, hw, ?_, fun _ => id, fun _ => id⟩
    intro e he
    cases he
  | succ n ih =>
    cases s with
    | nil => exact absurd hn (Nat.not_succ_le_zero n)
    | cons e ts =>
      obtain ⟨h₁, hsignal, hw₁, hmemory, -, hstatus, hsema⟩ := hw.condSignal hs
      have hts : Sorts (isPriorLargerAt h₁.memory) ts ts := by
        rw [hmemory]
        exact .of_run hs.run.tail
      have hlength : ts.length < waiters.length := by
        rw [← hs.perm.length_eq]
        exact Nat.lt_succ_self _
      obtain ⟨rest, h', hrun, hrest, hw', hwoken, hready, hup⟩ := ih hw₁ hts (Nat.le_of_succ_le_succ hn)
      have hready₁ : ∀ t, h.kernel.status t = .ready ∨ t = thread e → h₁.kernel.status t = .ready := by
        intro t ht
        rw [hstatus, Function.update_apply]
        split
        · rfl
        · exact ht.resolve_right ‹_›
      have hup₁ : ∀ i, h.kernel.sema i = ⟨1, []⟩ ∨ i = e.semaphore → h₁.kernel.sema i = ⟨1, []⟩ := by
        intro i hi
        rw [hsema, Function.update_apply]
        split
        · rfl
        · exact hi.resolve_right ‹_›
      refine ⟨rest, h', ?_, hrest, hw', ?_, fun t ht => hready t (hready₁ t (.inl ht)),
        fun i hi => hup i (hup₁ i (.inl hi))⟩
      · intro fuel hfuel
        rw [CondHeap.condSignals, hsignal fuel hfuel]
        simp only [Option.bind_eq_bind, Option.bind_some, hrun fuel (hlength.trans hfuel)]
        rfl
      · intro u hu
        rcases List.mem_cons.mp hu with rfl | hu
        · exact ⟨hready _ (hready₁ _ (.inr rfl)), hup _ (hup₁ _ (.inr rfl))⟩
        · exact hwoken u hu

/-- The thread of a waiter has at least the priority of that of another one. -/
def NotBelow (h : CondHeap) (thread : SemaphoreElem → ℕ) (e u : SemaphoreElem) : Prop :=
  h.kernel.priority (thread u) ≤ h.kernel.priority (thread e)

/-- So many calls of `cond_signal` return.  They wake as many threads, in the order of their priorities, and the
other waiters, which have no higher priority than any of these, wait on. -/
def WakesInOrder (h : CondHeap) (lock : ℕ) (thread : SemaphoreElem → ℕ) (waiters : List SemaphoreElem) (n : ℕ) :
    Prop :=
  ∃ es rest h', (∀ fuel, waiters.length < fuel → h.condSignals fuel lock n = some (es, h')) ∧ es.length = n ∧
    (es ++ rest).Perm waiters ∧ h'.Waiting lock thread rest ∧
    (∀ e ∈ es, h'.kernel.status (thread e) = .ready ∧ h'.kernel.sema e.semaphore = ⟨1, []⟩) ∧
    es.Pairwise (h.NotBelow thread) ∧ ∀ e ∈ es, ∀ u ∈ rest, h.NotBelow thread e u

/-- What is taken is the sorted list. -/
theorem WakesInOrder.pairwise {s : List SemaphoreElem} (hw : h.Waiting lock thread waiters)
    (hs : Sorts (isPriorLargerAt h.memory) waiters s) (hwakes : h.WakesInOrder lock thread waiters waiters.length) :
    s.Pairwise (h.NotBelow thread) := by
  obtain ⟨es, rest, h', hrun, -, -, -, -, horder, -⟩ := hwakes
  obtain ⟨-, h'', hsorted, -⟩ := hw.condSignals hs s.length le_rfl
  have hfuel : waiters.length < waiters.length + 1 := Nat.lt_succ_self _
  have heq := (hrun _ hfuel).symm.trans (hs.perm.length_eq ▸ hsorted _ hfuel)
  rw [List.take_of_length_le hs.perm.length_eq.le] at heq
  cases heq
  exact horder

/-- **`cond_signal` wakes the waiters in the order of their priorities** if and only if the words below their elements
rank them so: where one waiter is before another in the list, the one with the greater word has no lower priority
than the other, and if the words are equal the first one has not. -/
theorem cond_signal_order_iff (hw : h.Waiting lock thread waiters) :
    (∀ n ≤ waiters.length, h.WakesInOrder lock thread waiters n) ↔
      waiters.Pairwise fun e u =>
        if e.below h.memory < u.below h.memory then h.kernel.priority (thread e) ≤ h.kernel.priority (thread u)
        else h.kernel.priority (thread u) ≤ h.kernel.priority (thread e) := by
  have hs : Sorts (isPriorLargerAt h.memory) waiters _ := sorts_insertionSort waiters
  set s := waiters.insertionSort fun a b => isPriorLargerAt h.memory b a = false
  have hranked : s.Pairwise (h.NotBelow thread) ↔ _ := hs.pairwise_iff hw.nodup
  simp only [isPriorLargerAt_eq, decide_eq_true_eq, NotBelow] at hranked
  refine Iff.trans ⟨fun hwakes => ?_, fun horder n hn => ?_⟩ hranked
  · exact (hwakes _ le_rfl).pairwise hw hs
  · have hn' : n ≤ s.length := by
      rw [hs.perm.length_eq]
      exact hn
    obtain ⟨rest, h', hrun, hrest, hw', hwoken, -, -⟩ := hw.condSignals hs n hn'
    rw [← List.take_append_drop n s] at horder
    obtain ⟨htaken, -, hothers⟩ := List.pairwise_append.mp horder
    refine ⟨s.take n, rest, h', hrun, ?_, ?_, hw', hwoken, htaken, fun e he u hu => ?_⟩
    · rw [List.length_take, Nat.min_eq_left hn']
    · have hperm : (s.take n ++ rest).Perm (s.take n ++ s.drop n) := hrest.append_left _
      rw [List.take_append_drop] at hperm
      exact hperm.trans hs.perm
    · exact hothers e he u (hrest.mem_iff.mp hu)

/-- The elements of two waiters, at the same place of two pages. -/
def first : SemaphoreElem := ⟨0xc0101f00, by decide⟩

def second : SemaphoreElem := ⟨0xc0102f00, by decide⟩

/-- `cond_wait`, up to the wait. -/
def waitCalls (lock : ℕ) (e : SemaphoreElem) : List Act :=
  Kernel.calls (.acquire lock) 3 ++ Kernel.calls (.release lock) 2 ++ Kernel.calls (.down e.semaphore) 1

/-- A thread of priority 20 waits, behind it one of priority 40, and `main` holds the lock. -/
theorem exists_waiting (memory : Word → Word) : ∃ h : CondHeap, h.memory = memory ∧
    h.Waiting 2 (fun e => if e = first then 2 else 3) [first, second] ∧ h.kernel.priority 2 = 20 ∧
    h.kernel.priority 3 = 40 := by
  have hrun : (Kernel.run (Kernel.startUp ++ Kernel.calls (.setPriority 0) 0 ++ Kernel.calls (.create 2 20) 7 ++
      waitCalls 2 first ++ Kernel.calls (.create 3 40) 7 ++ waitCalls 2 second ++ Kernel.calls (.acquire 2) 3)
      (Kernel.boot false false fun s => if s = 2 then 1 else 0)).map (fun k => decide
        ((k.holder 2 = some 0 ∧ k.current = 0) ∧
        ((k.sema first.semaphore).value = 0 ∧ (k.sema first.semaphore).waiters = [2]) ∧
        ((k.sema second.semaphore).value = 0 ∧ (k.sema second.semaphore).waiters = [3]) ∧
        k.priority 2 = 20 ∧ k.priority 3 = 40)) = some true := by
    decide +kernel
  obtain ⟨k, hrun, hk⟩ := Option.map_eq_some_iff.mp hrun
  obtain ⟨⟨hheld, hcurrent⟩, hfirst, hsecond, hp₂, hp₃⟩ := of_decide_eq_true hk
  have hlists : Kernel.Lists k := by
    apply (Kernel.run_inv (Kernel.run_trace _ hrun)).lists
    simp [Kernel.startUp, waitCalls, Kernel.calls, Kernel.Proper]
  have hnodup : [first, second].Nodup := by decide
  obtain ⟨m, hm⟩ := Links.exists_holds (disjointLists_unit hnodup)
  refine ⟨⟨m, memory, k⟩, rfl, ⟨hm, hnodup, hlists, ?_, ?_⟩, hp₂, hp₃⟩
  · show k.holder 2 = some k.current
    rw [hheld, hcurrent]
  · have hsema : ∀ {s : Semaphore} {t : ℕ}, s.value = 0 ∧ s.waiters = [t] → s = ⟨0, [t]⟩ := by
      rintro ⟨v, l⟩ t ⟨rfl, rfl⟩
      rfl
    intro e he
    rcases List.mem_cons.mp he with rfl | he
    · exact hsema hfirst
    · rw [List.mem_singleton.mp he]
      exact hsema hsecond

/-- The words below the elements are those of the priorities. -/
theorem cond_signal_order_lucky : ∃ h : CondHeap,
    ∀ n ≤ 2, h.WakesInOrder 2 (fun e => if e = first then 2 else 3) [first, second] n := by
  obtain ⟨h, hmemory, hw, hp₂, hp₃⟩ := exists_waiting fun a => if a = second.addr - 40 then 1 else 0
  refine ⟨h, (cond_signal_order_iff hw).mpr ?_⟩
  have hne : second ≠ first := by decide
  have hbelow : first.below h.memory < second.below h.memory := by
    rw [hmemory]
    decide
  rw [List.pairwise_pair, if_pos hbelow, if_pos rfl, if_neg hne, hp₂, hp₃]
  decide

/-- The words are equal: the thread of the lower priority, which has come first, is woken first. -/
theorem cond_signal_wakes_lower : ¬∀ (h : CondHeap) (lock : ℕ) (thread : SemaphoreElem → ℕ)
    (waiters : List SemaphoreElem), h.Waiting lock thread waiters →
      ∀ n ≤ waiters.length, h.WakesInOrder lock thread waiters n := by
  intro hall
  obtain ⟨h, hmemory, hw, hp₂, hp₃⟩ := exists_waiting fun _ => 0
  have hs : Sorts (isPriorLargerAt h.memory) [first, second] [first, second] := by
    apply Sorts.of_run
    rw [hmemory]
    apply List.isChain_pair.mpr
    show isPriorLargerAt _ second first = false
    rw [isPriorLargerAt_eq]
    decide
  have horder := (hall h 2 _ _ hw 2 le_rfl).pairwise hw hs
  have hne : second ≠ first := by decide
  rw [List.pairwise_pair, NotBelow, if_pos rfl, if_neg hne, hp₂, hp₃] at horder
  exact absurd horder (by decide)

end CondHeap

end Pintos.Threads
