import Pintos.Library.Trace

/-!
# Coroutines

Threads that take turns, each with a context of its own: one is running, and the others are where they have left off.
What becomes of a context depends on its own thread only (`suspended_of_trace`).
-/

/-- The running thread with its context, and the contexts of the others. -/
structure Coroutines (T K : Type) where
  running : T
  context : K
  suspended : T → Option K

namespace Coroutines

variable {T K : Type} [DecidableEq T]

inductive Move (T K : Type)
  /-- The running thread works on, up to the context `k`. -/
  | work (k : K)
  /-- A new thread, to begin in the context `k`. -/
  | spawn (t : T) (k : K)
  /-- The running thread leaves off in the context `k`, and `t` goes on. -/
  | transfer (t : T) (k : K)
  /-- The running thread is done, and `t` goes on. -/
  | finish (t : T)
  /-- Nothing that concerns contexts. -/
  | stay

/-- The thread `t` goes on. -/
def resume (c : Coroutines T K) (t : T) : Option (Coroutines T K) :=
  (c.suspended t).map fun k => ⟨t, k, Function.update c.suspended t none⟩

def step (c : Coroutines T K) : Move T K → Option (Coroutines T K)
  | .work k => some { c with context := k }
  | .spawn t k =>
    if t ≠ c.running ∧ (c.suspended t).isNone then some { c with suspended := Function.update c.suspended t (some k) }
    else none
  | .transfer t k => (c.resume t).map fun c' => { c' with suspended := Function.update c'.suspended c.running (some k) }
  | .finish t => c.resume t
  | .stay => some c

def Step (c : Coroutines T K) (m : Move T K) (c' : Coroutines T K) : Prop := c.step m = some c'

/-- The thread that goes on. -/
def Move.resumed : Move T K → Option T
  | .transfer t _ | .finish t => some t
  | _ => none

variable {c c' : Coroutines T K} {t : T} {k : K} {m : Move T K} {ms : List (Move T K)}

theorem resume_eq (hk : c.suspended t = some k) : c.resume t = some ⟨t, k, Function.update c.suspended t none⟩ := by
  rw [resume, hk]
  rfl

theorem of_resume (h : c.resume t = some c') : ∃ k, c.suspended t = some k ∧
    c' = ⟨t, k, Function.update c.suspended t none⟩ := by
  obtain ⟨k, hk, heq⟩ := Option.map_eq_some_iff.mp h
  exact ⟨k, hk, heq.symm⟩

theorem Step.running (h : Step c m c') (hm : m.resumed = some t) : c'.running = t ∧ c.suspended t = some c'.context := by
  cases m with
  | transfer u k =>
    obtain ⟨c₁, hc₁, rfl⟩ := Option.map_eq_some_iff.mp h
    obtain ⟨k', hk', rfl⟩ := of_resume hc₁
    cases hm
    exact ⟨rfl, hk'⟩
  | finish u =>
    obtain ⟨k', hk', rfl⟩ := of_resume h
    cases hm
    exact ⟨rfl, hk'⟩
  | _ => cases hm

/-- The thread that leaves off. -/
theorem Step.left {u : T} (h : Step c (.transfer u k) c') : c'.suspended c.running = some k := by
  obtain ⟨c₁, _, rfl⟩ := Option.map_eq_some_iff.mp h
  exact Function.update_self ..

/-- A thread that does not go on stays where it is. -/
theorem Step.suspended (h : Step c m c') (hk : c.suspended t = some k) (ht : t ≠ c.running) (hm : m.resumed ≠ some t) :
    c'.suspended t = some k ∧ t ≠ c'.running := by
  cases m with
  | work k' =>
    cases h
    exact ⟨hk, ht⟩
  | stay =>
    cases h
    exact ⟨hk, ht⟩
  | spawn u k' =>
    obtain ⟨⟨_, hnone⟩, hc'⟩ := Option.ite_none_right_eq_some.mp h
    cases hc'
    have hne : t ≠ u := by
      rintro rfl
      rw [hk] at hnone
      cases hnone
    exact ⟨(Function.update_of_ne hne ..).trans hk, ht⟩
  | transfer u k' =>
    obtain ⟨c₁, hc₁, rfl⟩ := Option.map_eq_some_iff.mp h
    obtain ⟨_, _, rfl⟩ := of_resume hc₁
    have hne : t ≠ u := fun heq => hm (congrArg some heq.symm)
    exact ⟨(Function.update_of_ne ht ..).trans ((Function.update_of_ne hne ..).trans hk), hne⟩
  | finish u =>
    obtain ⟨_, _, rfl⟩ := of_resume h
    have hne : t ≠ u := fun heq => hm (congrArg some heq.symm)
    exact ⟨(Function.update_of_ne hne ..).trans hk, hne⟩

/-- Whatever the others do. -/
theorem suspended_of_trace (h : Trace Step c ms c') (hk : c.suspended t = some k) (ht : t ≠ c.running)
    (hms : ∀ m ∈ ms, m.resumed ≠ some t) : c'.suspended t = some k ∧ t ≠ c'.running := by
  induction h with
  | nil c => exact ⟨hk, ht⟩
  | cons head _ ih =>
    obtain ⟨hk', ht'⟩ := head.suspended hk ht (hms _ (by simp))
    exact ih hk' ht' fun m hm => hms m (by simp [hm])

end Coroutines
