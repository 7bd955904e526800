import Pintos.Lib.ListSort
import Pintos.Threads.Membership

/-!
# `sema_up` on the links

The waiters of a semaphore and `ready_list` are linked through the same member of the threads.  `sema_up` sorts the
waiters, pops the first one, removes it once more, and puts it into `ready_list`.
-/

namespace Pintos.Threads

open Lib Runs

/-- What `sema_up` reads and writes: the links of the lists, the status of the threads, and `value`. -/
structure SemaHeap where
  links : Links Queue ℕ
  status : ℕ → ThreadStatus
  value : ℕ

namespace SemaHeap

variable (fuel : ℕ) (priority : ℕ → ℤ)

/-- `thread_unblock` -/
def threadUnblock (h : SemaHeap) (t : ℕ) : Option SemaHeap :=
  if h.status t = .blocked then do
    let m ← h.links.listInsertOrdered fuel .ready t (isPriorLarger priority)
    return { h with links := m, status := Function.update h.status t .ready }
  else none

/-- What `sema_up` does when there are waiters. -/
def wakeFirst (s : ℕ) (h : SemaHeap) : Option SemaHeap := do
  let m ← h.links.listSort fuel (.waiters s) (isPriorLarger priority)
  match ← m.listPopFront (.waiters s) with
  | (.item maxTh, m) =>
    let (_, m) ← m.listRemove (.item maxTh)
    { h with links := m }.threadUnblock fuel priority maxTh
  | _ => none

/-- `sema_up`, up to `thread_yield`. -/
def semaUp (s : ℕ) (h : SemaHeap) : Option SemaHeap := do
  let begin ← h.links.next (.head (.waiters s))
  let h ← if begin = .tail (.waiters s) then some h else h.wakeFirst fuel priority s
  return { h with value := (h.value + 1) % 2 ^ 32 }

/-- The memory is that of a kernel. -/
structure Represents (h : SemaHeap) (k : Kernel) (s : ℕ) : Prop where
  links : h.links.Holds Kernel.linkedLists k.queue
  status : h.status = k.status
  value : h.value = (k.sema s).value

end SemaHeap

instance (p : ℕ → ℤ) : IsStrictWeakOrder ℕ fun a b => isPriorLarger p a b = true where
  irrefl a h := by simp [isPriorLarger] at h
  trans a b c hab hbc := by
    simp only [isPriorLarger, decide_eq_true_eq] at *
    omega
  incomp_trans a b c hab hbc := by
    simp only [isPriorLarger, decide_eq_true_eq] at *
    omega

theorem insertedAt_eq {less : ℕ → ℕ → Bool} (t : ℕ) (l : List ℕ) :
    Links.insertedAt less t l = listInsertOrdered less t l := by
  induction l with
  | nil => rfl
  | cons u l ih => rw [Links.insertedAt, listInsertOrdered, ih]

namespace Kernel

variable {k k' : Kernel} {h : SemaHeap} {s : ℕ}

/-- `thread_unblock` of a thread that is in no list. -/
theorem threadUnblock_links (hlists : Lists k) (hrep : h.Represents k s) {t : ℕ} (hno : ∀ q, t ∉ k.queue q)
    (ht : k.status t = .blocked) : ∃ h', (∀ fuel, k.readyList.length < fuel →
        h.threadUnblock fuel k.priority t = some h') ∧
      h'.Represents ((k.insertReady t).setStatus t .ready) s ∧ h'.value = h.value := by
  obtain ⟨m', hinsert, hm', -⟩ := hrep.links.listInsertOrdered (isPriorLarger k.priority) hlists.disjoint (q := .ready)
    (fun _ => nofun) hno
  refine ⟨⟨m', Function.update h.status t .ready, h.value⟩, fun fuel hfuel => ?_, ⟨?_, ?_, hrep.value⟩, rfl⟩
  · have hblocked : h.status t = .blocked := by rw [hrep.status, ht]
    have hrun := hinsert fuel hfuel
    unfold SemaHeap.threadUnblock
    rw [if_pos hblocked, hrun]
    rfl
  · show m'.Holds linkedLists { k with readyList := listInsertOrdered (isPriorLarger k.priority) t k.readyList }.queue
    rw [queue_readyList, ← insertedAt_eq]
    exact hm'
  · show Function.update h.status t .ready = Function.update k.status t .ready
    rw [hrep.status]

end Kernel

end Pintos.Threads
