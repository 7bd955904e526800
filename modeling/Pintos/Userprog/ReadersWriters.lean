import Mathlib.Data.Finset.Card
import Pintos.Library.Trace

/-!
# Readers and writers

`read` and `write` of `userprog/syscall.c` in the versions that let several processes read at the same time
(projects 2 and 4): `readcnt` counts the readers, under the lock `mut`; the first reader acquires `w`, and the
last one releases it; a writer has `w` for itself.  Any number of processes run them; a step is one call of
`lock_acquire` or `lock_release`, one update or test of `readcnt`, or the start or the end of a body; a process
that dies in a body takes no further step.

No body of a write overlaps another body, in any run (`Inv`).  But `lock_release` asserts that the caller is
the thread that has acquired the lock, so the last reader has to be the one that came first
(`release_by_holder_iff`).
-/

namespace Pintos.Userprog.ReadersWriters

/-- The two locks. -/
inductive Lock
  | mut
  | w
  deriving DecidableEq

/-- Where a process is: the statement that comes next. -/
inductive Place
  | user
  /-- `read`: `lock_acquire (&mut)`. -/
  | enter
  /-- `readcnt++` -/
  | increment
  /-- `if (readcnt == 1)` -/
  | testFirst
  /-- `lock_acquire (&w)` -/
  | acquireW
  /-- `lock_release (&mut)` -/
  | entered
  | reading
  /-- `lock_acquire (&mut)` -/
  | leave
  /-- `readcnt--` -/
  | decrement
  /-- `if (readcnt == 0)` -/
  | testLast
  /-- `lock_release (&w)` -/
  | releaseW
  /-- `lock_release (&mut)` -/
  | left
  /-- `write`: `lock_acquire (&w)`. -/
  | writeEnter
  | writing
  /-- `lock_release (&w)` -/
  | writeLeave
  deriving DecidableEq

/-- The lock that the next statement acquires, and the one behind it. -/
def Place.acquires : Place → Option (Lock × Place)
  | .enter => some (.mut, .increment)
  | .acquireW => some (.w, .entered)
  | .leave => some (.mut, .decrement)
  | .writeEnter => some (.w, .writing)
  | _ => none

/-- The lock that the next statement releases, and the one behind it. -/
def Place.releases : Place → Option (Lock × Place)
  | .entered => some (.mut, .reading)
  | .releaseW => some (.w, .left)
  | .left => some (.mut, .user)
  | .writeLeave => some (.w, .user)
  | _ => none

/-- The assertion that has stopped the machine: that of `lock_acquire`, or of `lock_release`. -/
inductive Failure
  | acquire
  | release
  deriving DecidableEq

/-- The locks, the counter and the processes.  `first` is the process that has made `readcnt` 1. -/
structure System where
  holder : Lock → Option ℕ
  readcnt : ℤ
  place : ℕ → Place
  failure : Option Failure
  first : ℕ

inductive Act
  | read
  | write
  | acquire
  | release
  | increment
  | decrement
  | testFirst
  | testLast
  /-- The body of a read or a write is done. -/
  | done
  deriving DecidableEq

namespace System

def move (s : System) (i : ℕ) (p : Place) : System :=
  { s with place := Function.update s.place i p }

def setHolder (s : System) (l : Lock) (o : Option ℕ) : System :=
  { s with holder := Function.update s.holder l o }

/-- A step of process `i`.  `lock_acquire` goes through when the lock is free. -/
inductive Step : System → ℕ × Act → System → Prop
  | read {s : System} {i : ℕ} (hf : s.failure = none) (h : s.place i = .user) :
      Step s (i, .read) (s.move i .enter)
  | write {s : System} {i : ℕ} (hf : s.failure = none) (h : s.place i = .user) :
      Step s (i, .write) (s.move i .writeEnter)
  | acquire {s : System} {i : ℕ} {l : Lock} {p : Place} (hf : s.failure = none)
      (h : (s.place i).acquires = some (l, p)) (hl : s.holder l = none) :
      Step s (i, .acquire) ((s.move i p).setHolder l (some i))
  | acquireFails {s : System} {i : ℕ} {l : Lock} {p : Place} (hf : s.failure = none)
      (h : (s.place i).acquires = some (l, p)) (hl : s.holder l = some i) :
      Step s (i, .acquire) { s with failure := some .acquire }
  | release {s : System} {i : ℕ} {l : Lock} {p : Place} (hf : s.failure = none)
      (h : (s.place i).releases = some (l, p)) (hl : s.holder l = some i) :
      Step s (i, .release) ((s.move i p).setHolder l none)
  | releaseFails {s : System} {i : ℕ} {l : Lock} {p : Place} (hf : s.failure = none)
      (h : (s.place i).releases = some (l, p)) (hl : s.holder l ≠ some i) :
      Step s (i, .release) { s with failure := some .release }
  | increment {s : System} {i : ℕ} (hf : s.failure = none) (h : s.place i = .increment) :
      Step s (i, .increment) { s.move i .testFirst with
        readcnt := s.readcnt + 1
        first := if s.readcnt + 1 = 1 then i else s.first }
  | testFirst {s : System} {i : ℕ} (hf : s.failure = none) (h : s.place i = .testFirst) :
      Step s (i, .testFirst) (s.move i (if s.readcnt = 1 then .acquireW else .entered))
  | decrement {s : System} {i : ℕ} (hf : s.failure = none) (h : s.place i = .decrement) :
      Step s (i, .decrement) { s.move i .testLast with readcnt := s.readcnt - 1 }
  | testLast {s : System} {i : ℕ} (hf : s.failure = none) (h : s.place i = .testLast) :
      Step s (i, .testLast) (s.move i (if s.readcnt = 0 then .releaseW else .left))
  | readDone {s : System} {i : ℕ} (hf : s.failure = none) (h : s.place i = .reading) :
      Step s (i, .done) (s.move i .leave)
  | writeDone {s : System} {i : ℕ} (hf : s.failure = none) (h : s.place i = .writing) :
      Step s (i, .done) (s.move i .writeLeave)

/-- `syscall_init` has been called, and no process is in a call. -/
def init : System := ⟨fun _ => none, 0, fun _ => .user, none, 0⟩

end System

/-! ## The invariant -/

/-- Between `lock_acquire (&mut)` and `lock_release (&mut)`. -/
def Place.inMut : Place → Prop
  | .increment | .testFirst | .acquireW | .entered | .decrement | .testLast | .releaseW | .left => True
  | _ => False

/-- Between `readcnt++` and `readcnt--`. -/
def Place.counted : Place → Prop
  | .testFirst | .acquireW | .entered | .reading | .leave | .decrement => True
  | _ => False

/-- Between the two sections under `mut`. -/
def Place.between : Place → Prop
  | .reading | .leave => True
  | _ => False

/-- A reader for which `w` is held. -/
def Place.inGroup : Place → Prop
  | .entered | .reading | .leave | .decrement | .testLast | .releaseW => True
  | _ => False

/-- Between `lock_acquire (&w)` and `lock_release (&w)` of `write`. -/
def Place.inWrite : Place → Prop
  | .writing | .writeLeave => True
  | _ => False

theorem Place.between_of_counted {p : Place} (hc : p.counted) (hm : ¬p.inMut) : p.between := by
  cases p <;> simp_all [Place.counted, Place.inMut, Place.between]

theorem Place.inGroup_of_between {p : Place} (h : p.between) : p.inGroup := by
  cases p <;> simp_all [Place.between, Place.inGroup]

theorem Place.counted_of_inGroup {p : Place} (h : p.inGroup) : p.counted ∨ p.inMut := by
  cases p <;> simp_all [Place.inGroup, Place.counted, Place.inMut]

namespace System

/-- What holds in every state of every run. -/
structure Inv (s : System) : Prop where
  readcnt : ∃ R : Finset ℕ, (∀ i, i ∈ R ↔ (s.place i).counted) ∧ s.readcnt = R.card
  mutex : ∀ i, s.holder .mut = some i ↔ (s.place i).inMut
  first : ∀ i, s.place i = .testFirst → s.readcnt = 1 → s.first = i
  second : ∀ i, s.place i = .testFirst → s.readcnt ≠ 1 → ∃ j, (s.place j).inGroup
  alone : ∀ i, s.place i = .acquireW → s.readcnt = 1 ∧ s.first = i
  group : ∀ i, (s.place i).inGroup → s.holder .w = some s.first
  last : ∀ i, s.place i = .releaseW → s.readcnt = 0
  write : ∀ i, (s.place i).inWrite → s.holder .w = some i ∧ ∀ j, ¬(s.place j).inGroup

variable {s s' : System} {i j : ℕ} {a : Act} {p : Place}

@[simp] theorem move_place_self (p : Place) : (s.move i p).place i = p := Function.update_self ..

theorem move_place_ne (h : j ≠ i) (p : Place) : (s.move i p).place j = s.place j :=
  Function.update_of_ne h ..

theorem init_inv : Inv init where
  readcnt := ⟨∅, fun i => by simp [init, Place.counted], rfl⟩
  mutex i := by simp [init, Place.inMut]
  first i h := by simp [init] at h
  second i h := by simp [init] at h
  alone i h := by simp [init] at h
  group i h := by simp [init, Place.inGroup] at h
  last i h := by simp [init] at h
  write i h := by simp [init, Place.inWrite] at h

theorem Inv.unique (h : Inv s) (hi : (s.place i).inMut) (hj : (s.place j).inMut) : j = i :=
  Option.some.inj (((h.mutex j).mpr hj).symm.trans ((h.mutex i).mpr hi))

/-- Nobody is counted, so nobody outside the sections under `mut` is in the group. -/
theorem Inv.no_group (h : Inv s) (h0 : s.readcnt = 0) (hj : (s.place j).inGroup) : (s.place j).inMut := by
  obtain ⟨R, hR, hcard⟩ := h.readcnt
  refine (Place.counted_of_inGroup hj).resolve_left fun hc => ?_
  have hpos : 0 < R.card := Finset.card_pos.mpr ⟨j, (hR j).mpr hc⟩
  omega

/-- Somebody is counted. -/
theorem Inv.some_group (h : Inv s) (h0 : s.readcnt ≠ 0) (hi : (s.place i).inMut)
    (hc : ¬(s.place i).counted) : ∃ j, (s.place j).inGroup := by
  obtain ⟨R, hR, hcard⟩ := h.readcnt
  obtain ⟨j, hj⟩ : R.Nonempty := Finset.card_pos.mp (by omega)
  have hjc := (hR j).mp hj
  refine ⟨j, Place.inGroup_of_between (Place.between_of_counted hjc fun hm => ?_)⟩
  obtain rfl := h.unique hi hm
  exact hc hjc

/-- The set of counted processes after a process has moved. -/
theorem counted_move (h : Inv s) (hc : p.counted ↔ (s.place i).counted) :
    ∃ R : Finset ℕ, (∀ j, j ∈ R ↔ ((s.move i p).place j).counted) ∧ s.readcnt = R.card := by
  obtain ⟨R, hR, hcard⟩ := h.readcnt
  refine ⟨R, fun j => ?_, hcard⟩
  by_cases hj : j = i
  · rw [hj, move_place_self, hc]
    exact hR i
  · rw [move_place_ne hj]
    exact hR j

/-- **The invariant after a step under `mut`**: process `i` comes to `p`, and the others are not in a section
under `mut`. -/
theorem Inv.of_section {holder : Lock → Option ℕ} {readcnt : ℤ} {first : ℕ}
    (hothers : ∀ j, j ≠ i → ¬(s.place j).inMut)
    (hreadcnt : ∃ R : Finset ℕ, (∀ j, j ∈ R ↔ ((s.move i p).place j).counted) ∧ readcnt = R.card)
    (hmut : holder .mut = some i ∧ p.inMut ∨ holder .mut = none ∧ ¬p.inMut)
    (hfirst : p = .testFirst → readcnt = 1 → first = i)
    (hsecond : p = .testFirst → readcnt ≠ 1 → ∃ j, j ≠ i ∧ (s.place j).inGroup)
    (halone : p = .acquireW → readcnt = 1 ∧ first = i)
    (hself : p.inGroup → holder .w = some first)
    (hgroup : ∀ j, j ≠ i → (s.place j).inGroup → holder .w = some first)
    (hlast : p = .releaseW → readcnt = 0) (hw : ¬p.inWrite)
    (hwrite : ∀ j, j ≠ i → (s.place j).inWrite →
      holder .w = some j ∧ ¬p.inGroup ∧ ∀ k, k ≠ i → ¬(s.place k).inGroup) :
    Inv { s.move i p with holder := holder, readcnt := readcnt, first := first } := by
  -- a property of every process: of `i` at `p`, and of the others where they were
  have hall : ∀ P : ℕ → Place → Prop, P i p → (∀ j, j ≠ i → P j (s.place j)) →
      ∀ j, P j ((s.move i p).place j) := fun P hi ho j => by
    by_cases hj : j = i
    · rw [hj, move_place_self]
      exact hi
    · rw [move_place_ne hj]
      exact ho j hj
  have hnot : ∀ {j : ℕ} {q : Place}, j ≠ i → s.place j = q → ¬q.inMut := fun hj hq hm =>
    hothers _ hj (hq ▸ hm)
  refine ⟨hreadcnt, hall (fun j q => holder .mut = some j ↔ q.inMut) ?_ fun j hj => ?_,
    hall (fun j q => q = .testFirst → readcnt = 1 → first = j) hfirst
      fun j hj hq => absurd trivial (hnot hj hq),
    hall (fun j q => q = .testFirst → readcnt ≠ 1 → ∃ k, ((s.move i p).place k).inGroup) (fun hq hr => ?_)
      fun j hj hq => absurd trivial (hnot hj hq),
    hall (fun j q => q = .acquireW → readcnt = 1 ∧ first = j) halone
      fun j hj hq => absurd trivial (hnot hj hq),
    hall (fun _ q => q.inGroup → holder .w = some first) hself hgroup,
    hall (fun _ q => q = .releaseW → readcnt = 0) hlast fun j hj hq => absurd trivial (hnot hj hq),
    hall (fun j q => q.inWrite → holder .w = some j ∧ ∀ k, ¬((s.move i p).place k).inGroup)
      (fun hq => absurd hq hw) fun j hj hq => ?_⟩
  · rcases hmut with ⟨hm, hp⟩ | ⟨hm, hp⟩ <;> simp [hm, hp]
  · refine iff_of_false (fun hm => ?_) (hothers j hj)
    rcases hmut with ⟨hm', -⟩ | ⟨hm', -⟩
    · exact hj (Option.some.inj (hm.symm.trans hm'))
    · rw [hm'] at hm
      cases hm
  · obtain ⟨k, hk, hg⟩ := hsecond hq hr
    exact ⟨k, by rwa [move_place_ne hk]⟩
  · obtain ⟨ho, hpg, hno⟩ := hwrite j hj hq
    exact ⟨ho, hall (fun _ q => ¬q.inGroup) hpg hno⟩

/-- The invariant where a process goes on outside the sections under `mut`. -/
theorem Inv.outside (h : Inv s) (hm : ¬(s.place i).inMut) (hm' : ¬p.inMut)
    (hc : p.counted ↔ (s.place i).counted) (hg : p.inGroup ↔ (s.place i).inGroup) {o : Option ℕ}
    (hgroup : ∀ j, (s.place j).inGroup → o = some s.first)
    (hwrite : ∀ j, ((s.move i p).place j).inWrite → o = some j ∧ ∀ k, ¬(s.place k).inGroup) :
    Inv ((s.move i p).setHolder .w o) := by
  have hgall : ∀ j, ((s.move i p).place j).inGroup ↔ (s.place j).inGroup := fun j => by
    by_cases hj : j = i
    · rw [hj, move_place_self, hg]
    · rw [move_place_ne hj]
  have hplace : ∀ {j : ℕ} {q : Place}, (s.move i p).place j = q → q.inMut → s.place j = q := by
    intro j q hq hqm
    by_cases hj : j = i
    · rw [hj, move_place_self] at hq
      exact absurd (hq ▸ hqm) hm'
    · rwa [move_place_ne hj] at hq
  refine ⟨counted_move h hc, fun j => ?_, fun j hp => h.first j (hplace hp trivial), fun j hp hr => ?_,
    fun j hp => h.alone j (hplace hp trivial), fun j hj => ?_, fun j hp => h.last j (hplace hp trivial),
    fun j hj => ?_⟩
  · show s.holder .mut = some j ↔ ((s.move i p).place j).inMut
    rw [h.mutex j]
    refine ⟨fun hj => ?_, fun hj => ?_⟩
    · have hji : j ≠ i := fun hji => hm (hji ▸ hj)
      rwa [move_place_ne hji]
    · rwa [hplace rfl hj]
  · obtain ⟨k, hk⟩ := h.second j (hplace hp trivial) hr
    exact ⟨k, (hgall k).mpr hk⟩
  · exact hgroup j ((hgall j).mp hj)
  · obtain ⟨ho, hno⟩ := hwrite j hj
    exact ⟨ho, fun k hk => hno k ((hgall k).mp hk)⟩

/-- The invariant where a process goes on without touching a lock. -/
theorem Inv.goOn (h : Inv s) (hm : ¬(s.place i).inMut) (hm' : ¬p.inMut)
    (hc : p.counted ↔ (s.place i).counted) (hg : p.inGroup ↔ (s.place i).inGroup)
    (hw : p.inWrite → (s.place i).inWrite) : Inv (s.move i p) := by
  have hout := h.outside (o := s.holder .w) hm hm' hc hg h.group fun j hj => by
    by_cases hji : j = i
    · rw [hji, move_place_self] at hj
      exact hji ▸ h.write i (hw hj)
    · rw [move_place_ne hji] at hj
      exact h.write j hj
  rwa [setHolder, move, Function.update_eq_self] at hout

/-! ### The steps under `mut` -/

/-- Where nobody holds `mut`, nobody is in a section under it. -/
theorem Inv.free (h : Inv s) (hm : s.holder .mut = none) (j : ℕ) : ¬(s.place j).inMut := fun hj => by
  have := (h.mutex j).mpr hj
  rw [hm] at this
  cases this

theorem Inv.others (h : Inv s) (hi : (s.place i).inMut) (j : ℕ) (hj : j ≠ i) : ¬(s.place j).inMut :=
  fun hm => hj (h.unique hi hm)

/-- Writers stay alone if no process joins the group. -/
theorem Inv.writers (h : Inv s) (hg : p.inGroup → (s.place i).inGroup) (j : ℕ) (hj : (s.place j).inWrite) :
    s.holder .w = some j ∧ ¬p.inGroup ∧ ∀ k, k ≠ i → ¬(s.place k).inGroup := by
  obtain ⟨ho, hno⟩ := h.write j hj
  exact ⟨ho, fun hp => hno i (hg hp), fun k _ => hno k⟩

/-- `lock_acquire (&mut)` -/
theorem Inv.acquireMut (h : Inv s) (hfree : s.holder .mut = none)
    (hp : s.place i = .enter ∧ p = .increment ∨ s.place i = .leave ∧ p = .decrement) :
    Inv ((s.move i p).setHolder .mut (some i)) := by
  have hothers : ∀ j, j ≠ i → ¬(s.place j).inMut := fun j _ => h.free hfree j
  rcases hp with ⟨hi, rfl⟩ | ⟨hi, rfl⟩
  · exact Inv.of_section hothers (counted_move h (by simp [hi, Place.counted])) (.inl ⟨rfl, trivial⟩) nofun nofun
      nofun (fun hg => hg.elim) (fun j _ => h.group j) nofun id
      fun j _ => h.writers (p := .increment) (fun hg => hg.elim) j
  · exact Inv.of_section hothers (counted_move h (by simp [hi, Place.counted])) (.inl ⟨rfl, trivial⟩) nofun nofun
      nofun (fun _ => h.group i (by simp [hi, Place.inGroup])) (fun j _ => h.group j) nofun id
      fun j _ => h.writers (fun _ => by simp [hi, Place.inGroup]) j

/-- `lock_release (&mut)` -/
theorem Inv.releaseMut (h : Inv s)
    (hp : s.place i = .entered ∧ p = .reading ∨ s.place i = .left ∧ p = .user) :
    Inv ((s.move i p).setHolder .mut none) := by
  rcases hp with ⟨hi, rfl⟩ | ⟨hi, rfl⟩
  · have hothers := h.others (i := i) (by simp [hi, Place.inMut])
    exact Inv.of_section hothers (counted_move h (by simp [hi, Place.counted])) (.inr ⟨rfl, id⟩) nofun nofun
      nofun (fun _ => h.group i (by simp [hi, Place.inGroup])) (fun j _ => h.group j) nofun id
      fun j _ => h.writers (fun _ => by simp [hi, Place.inGroup]) j
  · have hothers := h.others (i := i) (by simp [hi, Place.inMut])
    exact Inv.of_section hothers (counted_move h (by simp [hi, Place.counted])) (.inr ⟨rfl, id⟩) nofun nofun
      nofun (fun hg => hg.elim) (fun j _ => h.group j) nofun id fun j _ => h.writers (p := .user) (fun hg => hg.elim) j

/-- The first reader gets `w`. -/
theorem Inv.acquireW (h : Inv s) (hi : s.place i = .acquireW) (hfree : s.holder .w = none) :
    Inv ((s.move i .entered).setHolder .w (some i)) := by
  have him : (s.place i).inMut := by simp [hi, Place.inMut]
  obtain ⟨-, hfirst⟩ := h.alone i hi
  have hno : ∀ {o : Option ℕ} {k : ℕ}, s.holder .w = o → o = some k → False := fun ho hk => by
    rw [hfree] at ho
    rw [← ho] at hk
    cases hk
  exact Inv.of_section (h.others him) (counted_move h (by simp [hi, Place.counted]))
    (.inl ⟨(h.mutex i).mpr him, trivial⟩) nofun nofun nofun (fun _ => congrArg some hfirst.symm)
    (fun j _ hg => (hno (h.group j hg) rfl).elim) nofun id fun j _ hw => (hno (h.write j hw).1 rfl).elim

/-- The last reader lets go of `w`. -/
theorem Inv.releaseW (h : Inv s) (hi : s.place i = .releaseW) :
    Inv ((s.move i .left).setHolder .w none) := by
  have him : (s.place i).inMut := by simp [hi, Place.inMut]
  have hself : (s.place i).inGroup := by simp [hi, Place.inGroup]
  exact Inv.of_section (h.others him) (counted_move h (by simp [hi, Place.counted]))
    (.inl ⟨(h.mutex i).mpr him, trivial⟩) nofun nofun nofun (fun hg => hg.elim)
    (fun j hj hg => absurd (h.no_group (h.last i hi) hg) (h.others him j hj)) nofun id
    fun j _ hw => absurd hself ((h.write j hw).2 i)

/-- `readcnt++` -/
theorem Inv.increment (h : Inv s) (hi : s.place i = .increment) :
    Inv { s.move i .testFirst with
      readcnt := s.readcnt + 1
      first := if s.readcnt + 1 = 1 then i else s.first } := by
  have him : (s.place i).inMut := by simp [hi, Place.inMut]
  have hnc : ¬(s.place i).counted := by simp [hi, Place.counted]
  have hng : ¬(s.place i).inGroup := by simp [hi, Place.inGroup]
  obtain ⟨R, hR, hcard⟩ := h.readcnt
  refine Inv.of_section (h.others him) ⟨insert i R, fun j => ?_, ?_⟩ (.inl ⟨(h.mutex i).mpr him, trivial⟩)
    (fun _ hr => if_pos hr) (fun _ hr => ?_) nofun (fun hg => hg.elim) (fun j hj hg => ?_) nofun id
    fun j _ => h.writers (p := .testFirst) (fun hg => hg.elim) j
  · rw [Finset.mem_insert]
    by_cases hj : j = i
    · rw [hj, move_place_self]
      exact iff_of_true (.inl rfl) trivial
    · rw [move_place_ne hj, ← hR j]
      exact or_iff_right hj
  · rw [Finset.card_insert_of_notMem fun hmem => hnc ((hR i).mp hmem), hcard, Nat.cast_add_one]
  · obtain ⟨j, hj⟩ := h.some_group (by omega) him hnc
    exact ⟨j, fun hji => hng (hji ▸ hj), hj⟩
  · rw [if_neg fun hr => ?_]
    · exact h.group j hg
    · exact h.others him j hj (h.no_group (by omega) hg)

/-- `if (readcnt == 1)` -/
theorem Inv.testFirst (h : Inv s) (hi : s.place i = .testFirst) :
    Inv (s.move i (if s.readcnt = 1 then .acquireW else .entered)) := by
  have him : (s.place i).inMut := by simp [hi, Place.inMut]
  have hmut := (h.mutex i).mpr him
  split
  · rename_i hr
    exact Inv.of_section (h.others him) (counted_move h (by simp [hi, Place.counted])) (.inl ⟨hmut, trivial⟩) nofun
      nofun (fun _ => ⟨hr, h.first i hi hr⟩) (fun hg => hg.elim) (fun j _ => h.group j) nofun id
      fun j _ => h.writers (p := .acquireW) (fun hg => hg.elim) j
  · rename_i hr
    obtain ⟨k, hk⟩ := h.second i hi hr
    exact Inv.of_section (h.others him) (counted_move h (by simp [hi, Place.counted])) (.inl ⟨hmut, trivial⟩) nofun
      nofun nofun (fun _ => h.group k hk) (fun j _ => h.group j) nofun id
      fun j _ hw => absurd hk ((h.write j hw).2 k)

/-- `readcnt--` -/
theorem Inv.decrement (h : Inv s) (hi : s.place i = .decrement) :
    Inv { s.move i .testLast with readcnt := s.readcnt - 1 } := by
  have him : (s.place i).inMut := by simp [hi, Place.inMut]
  obtain ⟨R, hR, hcard⟩ := h.readcnt
  have hmem : i ∈ R := (hR i).mpr (by simp [hi, Place.counted])
  refine Inv.of_section (h.others him) ⟨R.erase i, fun j => ?_, ?_⟩ (.inl ⟨(h.mutex i).mpr him, trivial⟩)
    nofun nofun nofun (fun _ => h.group i (by simp [hi, Place.inGroup])) (fun j _ => h.group j) nofun id
    fun j _ => h.writers (fun _ => by simp [hi, Place.inGroup]) j
  · rw [Finset.mem_erase]
    by_cases hj : j = i
    · rw [hj, move_place_self]
      exact iff_of_false (fun hne => hne.1 rfl) id
    · rw [move_place_ne hj, ← hR j]
      exact and_iff_right hj
  · have hpos : 0 < R.card := Finset.card_pos.mpr ⟨i, hmem⟩
    rw [Finset.card_erase_of_mem hmem, hcard]
    omega

/-- `if (readcnt == 0)` -/
theorem Inv.testLast (h : Inv s) (hi : s.place i = .testLast) :
    Inv (s.move i (if s.readcnt = 0 then .releaseW else .left)) := by
  have him : (s.place i).inMut := by simp [hi, Place.inMut]
  have hmut := (h.mutex i).mpr him
  have hself : (s.place i).inGroup := by simp [hi, Place.inGroup]
  split
  · rename_i hr
    exact Inv.of_section (h.others him) (counted_move h (by simp [hi, Place.counted])) (.inl ⟨hmut, trivial⟩) nofun
      nofun nofun (fun _ => h.group i hself) (fun j _ => h.group j) (fun _ => hr) id
      fun j _ => h.writers (fun _ => hself) j
  · exact Inv.of_section (h.others him) (counted_move h (by simp [hi, Place.counted])) (.inl ⟨hmut, trivial⟩) nofun
      nofun nofun (fun hg => hg.elim) (fun j _ => h.group j) nofun id
      fun j _ => h.writers (p := .left) (fun hg => hg.elim) j

/-- The machine stops. -/
theorem Inv.fail (h : Inv s) (f : Failure) : Inv { s with failure := some f } :=
  ⟨h.readcnt, h.mutex, h.first, h.second, h.alone, h.group, h.last, h.write⟩

/-! ## Runs -/

/-- `lock_acquire` goes through. -/
theorem Inv.acquire (h : Inv s) {l : Lock} (hi : (s.place i).acquires = some (l, p))
    (hfree : s.holder l = none) : Inv ((s.move i p).setHolder l (some i)) := by
  cases hplace : s.place i <;> rw [hplace] at hi <;> cases hi
  case enter => exact h.acquireMut hfree (.inl ⟨hplace, rfl⟩)
  case leave => exact h.acquireMut hfree (.inr ⟨hplace, rfl⟩)
  case acquireW => exact h.acquireW hplace hfree
  case writeEnter =>
    have hno : ∀ j, ¬(s.place j).inGroup := fun j hg => by
      have := h.group j hg
      rw [hfree] at this
      cases this
    refine h.outside (by simp [hplace, Place.inMut]) id (by simp [hplace, Place.counted])
      (by simp [hplace, Place.inGroup]) (fun j hg => absurd hg (hno j)) fun j hj => ?_
    by_cases hji : j = i
    · exact ⟨congrArg some hji.symm, hno⟩
    · rw [move_place_ne hji] at hj
      have := (h.write j hj).1
      rw [hfree] at this
      cases this

/-- `lock_release` goes through. -/
theorem Inv.release (h : Inv s) {l : Lock} (hi : (s.place i).releases = some (l, p))
    (hl : s.holder l = some i) : Inv ((s.move i p).setHolder l none) := by
  cases hplace : s.place i <;> rw [hplace] at hi <;> cases hi
  case entered => exact h.releaseMut (.inl ⟨hplace, rfl⟩)
  case left => exact h.releaseMut (.inr ⟨hplace, rfl⟩)
  case releaseW => exact h.releaseW hplace
  case writeLeave =>
    have hno := (h.write i (by simp [hplace, Place.inWrite])).2
    refine h.outside (by simp [hplace, Place.inMut]) id (by simp [hplace, Place.counted])
      (by simp [hplace, Place.inGroup]) (fun j hg => absurd hg (hno j)) fun j hj => ?_
    by_cases hji : j = i
    · rw [hji, move_place_self] at hj
      exact hj.elim
    · rw [move_place_ne hji] at hj
      exact absurd (Option.some.inj (hl.symm.trans (h.write j hj).1)).symm hji

/-- **A step keeps the invariant.** -/
theorem Inv.step (h : Inv s) {l : ℕ × Act} (hs : Step s l s') : Inv s' := by
  cases hs with
  | read _ hi | write _ hi =>
    exact h.goOn (by simp [hi, Place.inMut]) id (by simp [hi, Place.counted]) (by simp [hi, Place.inGroup])
      fun hw => hw.elim
  | readDone _ hi =>
    exact h.goOn (by simp [hi, Place.inMut]) id (by simp [hi, Place.counted]) (by simp [hi, Place.inGroup])
      fun hw => hw.elim
  | writeDone _ hi =>
    exact h.goOn (by simp [hi, Place.inMut]) id (by simp [hi, Place.counted]) (by simp [hi, Place.inGroup])
      fun _ => by simp [hi, Place.inWrite]
  | acquire _ hi hl => exact h.acquire hi hl
  | release _ hi hl => exact h.release hi hl
  | acquireFails | releaseFails => exact h.fail _
  | increment _ hi => exact h.increment hi
  | testFirst _ hi => exact h.testFirst hi
  | decrement _ hi => exact h.decrement hi
  | testLast _ hi => exact h.testLast hi

/-- No body of a write overlaps another body. -/
def Exclusive (s : System) : Prop :=
  ∀ i j, s.place i = .writing → s.place j = .writing ∨ s.place j = .reading → i = j

/-- `readcnt` is the number of processes between `readcnt++` and `readcnt--`; where `mut` is free, these are
the ones between the two sections under it. -/
def Counts (s : System) : Prop :=
  (∃ R : Finset ℕ, (∀ i, i ∈ R ↔ (s.place i).counted) ∧ s.readcnt = R.card) ∧
  (s.holder .mut = none → ∃ R : Finset ℕ, (∀ i, i ∈ R ↔ (s.place i).between) ∧ s.readcnt = R.card)

/-- Every process that is about to release a lock is the holder of it, and no assertion of `lock_release` has
failed. -/
def ReleasesOwn (s : System) : Prop :=
  (∀ i l p, (s.place i).releases = some (l, p) → s.holder l = some i) ∧ s.failure ≠ some .release

/-- When the last reader of a group leaves, it is the one that came first. -/
def LastIsFirst (s : System) (l : ℕ × Act) : Prop := l.2 = .testLast → s.readcnt = 0 → l.1 = s.first

theorem Inv.exclusive (h : Inv s) : s.Exclusive := by
  intro i j hi hj
  obtain ⟨hw, hno⟩ := h.write i (by simp [hi, Place.inWrite])
  rcases hj with hj | hj
  · exact Option.some.inj (hw.symm.trans (h.write j (by simp [hj, Place.inWrite])).1)
  · exact absurd (by simp [hj, Place.inGroup]) (hno j)

theorem Inv.counts (h : Inv s) : s.Counts := by
  refine ⟨h.readcnt, fun hm => ?_⟩
  obtain ⟨R, hR, hcard⟩ := h.readcnt
  refine ⟨R, fun i => (hR i).trans ⟨fun hc => Place.between_of_counted hc (h.free hm i), fun hb => ?_⟩, hcard⟩
  exact (Place.counted_of_inGroup (Place.inGroup_of_between hb)).resolve_right (h.free hm i)

/-- Only the release of `w` by a reader is in question. -/
theorem Inv.releasesOwn_iff (h : Inv s) :
    s.ReleasesOwn ↔ (∀ i, s.place i = .releaseW → i = s.first) ∧ s.failure ≠ some .release := by
  refine and_congr_left fun _ => ?_
  constructor
  · intro hown i hi
    have hw := h.group i (by simp [hi, Place.inGroup])
    exact Option.some.inj ((hown i .w .left (by simp [hi, Place.releases])).symm.trans hw)
  · intro hlast i l p hi
    cases hplace : s.place i <;> rw [hplace] at hi <;> cases hi
    case mpr.entered.refl => exact (h.mutex i).mpr (by simp [hplace, Place.inMut])
    case mpr.left.refl => exact (h.mutex i).mpr (by simp [hplace, Place.inMut])
    case mpr.releaseW.refl =>
      rw [h.group i (by simp [hplace, Place.inGroup]), hlast i hplace]
    case mpr.writeLeave.refl => exact (h.write i (by simp [hplace, Place.inWrite])).1

/-- **A step leads to a state in which every lock is released by its holder if and only if the last reader
of a group is the first.** -/
theorem Inv.releasesOwn_step (h : Inv s) (hown : s.ReleasesOwn) {l : ℕ × Act} (hs : Step s l s') :
    s'.ReleasesOwn ↔ s.LastIsFirst l := by
  have h' := h.step hs
  rw [h'.releasesOwn_iff]
  obtain ⟨hlast, hfail⟩ := h.releasesOwn_iff.mp hown
  -- a process that does not come to `releaseW`
  have hmove : ∀ {i : ℕ} {p : Place}, p ≠ .releaseW → ∀ j, (s.move i p).place j = .releaseW → j = s.first :=
    fun {i p} hp j hj => by
      by_cases hji : j = i
      · rw [hji, move_place_self] at hj
        exact absurd hj hp
      · rw [move_place_ne hji] at hj
        exact hlast j hj
  cases hs with
  | read | write | readDone | writeDone | decrement =>
    exact iff_of_true ⟨hmove nofun, hfail⟩ nofun
  | acquire _ hi hl =>
    refine iff_of_true ⟨hmove fun hp => ?_, hfail⟩ nofun
    cases hplace : s.place _ <;> rw [hplace] at hi <;> simp [Place.acquires, hp] at hi
  | release _ hi hl =>
    refine iff_of_true ⟨hmove fun hp => ?_, hfail⟩ nofun
    cases hplace : s.place _ <;> rw [hplace] at hi <;> simp [Place.releases, hp] at hi
  | acquireFails => exact iff_of_true ⟨hlast, nofun⟩ nofun
  | releaseFails _ hi hl => exact absurd (hown.1 _ _ _ hi) hl
  | @increment i _ hi =>
    refine iff_of_true ⟨fun j hj => ?_, hfail⟩ nofun
    by_cases hji : j = i
    · subst hji
      simp at hj
    · simp only [move_place_ne hji] at hj
      exact absurd (by simp [hj, Place.inMut]) (h.others (i := i) (by simp [hi, Place.inMut]) j hji)
  | testFirst _ hi =>
    refine iff_of_true ⟨hmove ?_, hfail⟩ nofun
    split <;> nofun
  | @testLast i _ hi =>
    by_cases hr : s.readcnt = 0
    · rw [if_pos hr]
      refine ⟨fun hown _ _ => hown.1 i (move_place_self _), fun hcond => ⟨fun j hj => ?_, hfail⟩⟩
      by_cases hji : j = i
      · exact hji.trans (hcond rfl hr)
      · rw [move_place_ne hji] at hj
        exact hlast j hj
    · rw [if_neg hr]
      exact iff_of_true ⟨hmove nofun, hfail⟩ fun _ h0 => absurd h0 hr

/-- A step, labelled with the state before it. -/
def Visits (s : System) (l : (ℕ × Act) × System) (s' : System) : Prop := Step s l.1 s' ∧ l.2 = s

theorem visits {l : ℕ × Act} (h : Step s l s') : Visits s (l, s) s' := ⟨h, rfl⟩

/-- The first state of a run is among those that are labels, or the last one. -/
theorem releasesOwn_head {ls : List ((ℕ × Act) × System)} (hrun : Trace Visits s ls s')
    (h : (∀ l ∈ ls, l.2.ReleasesOwn) ∧ s'.ReleasesOwn) : s.ReleasesOwn := by
  cases hrun with
  | nil => exact h.2
  | cons head _ => exact head.2 ▸ h.1 _ List.mem_cons_self

/-- **The readers and writers exclude each other, and the locks are released by their holders exactly when
last is first.**  In every run no body of a write overlaps another body and `readcnt` counts the readers; and
in all states of the run every process that is about to release a lock holds it if and only if every reader
that finds `readcnt` at 0 when it leaves is the one that had made it 1. -/
theorem release_by_holder_iff {ls : List ((ℕ × Act) × System)} (hrun : Trace Visits init ls s) :
    (s.Exclusive ∧ s.Counts) ∧
    (((∀ l ∈ ls, l.2.ReleasesOwn) ∧ s.ReleasesOwn) ↔ ∀ l ∈ ls, l.2.LastIsFirst l.1) := by
  have hinv : Inv s := hrun.invariant (I := Inv) (fun _ _ _ h hs => h.step hs.1) init_inv
  refine ⟨⟨hinv.exclusive, hinv.counts⟩, ?_⟩
  have hgen : ∀ {s₀ : System}, Trace Visits s₀ ls s → Inv s₀ → s₀.ReleasesOwn →
      (((∀ l ∈ ls, l.2.ReleasesOwn) ∧ s.ReleasesOwn) ↔ ∀ l ∈ ls, l.2.LastIsFirst l.1) := by
    clear hrun hinv
    intro s₀ hrun h hown
    induction hrun with
    | nil s =>
      exact iff_of_true ⟨(fun _ hl => absurd hl List.not_mem_nil), hown⟩ (fun _ hl => absurd hl List.not_mem_nil)
    | @cons s₀ s₁ s' l ls head tail ih =>
      obtain ⟨hstep, hl⟩ := head
      have hnext : s₁.ReleasesOwn ↔ l.2.LastIsFirst l.1 := hl ▸ h.releasesOwn_step hown hstep
      rw [List.forall_mem_cons, List.forall_mem_cons, ← hnext, hl, and_iff_right hown]
      constructor
      · intro hall
        have hown₁ := releasesOwn_head tail hall
        exact ⟨hown₁, (ih (h.step hstep) hown₁).mp hall⟩
      · exact fun ⟨hown₁, hrest⟩ => (ih (h.step hstep) hown₁).mpr hrest
  exact hgen hrun init_inv ⟨nofun, nofun⟩

/-- A reader that is alone. -/
theorem release_by_holder_alone :
    ∃ ls s, Trace Visits init ls s ∧ s.ReleasesOwn ∧ s.place 1 = .releaseW := by
  have hrun : ∃ ls s, Trace Visits init ls s ∧ (∀ l ∈ ls, l.2.LastIsFirst l.1) ∧ s.place 1 = .releaseW := by
    refine ⟨_, _, .cons (visits (.read (i := 1) rfl rfl)) <| .cons (visits (.acquire (i := 1) rfl rfl rfl)) <|
      .cons (visits (.increment (i := 1) rfl rfl)) <| .cons (visits (.testFirst (i := 1) rfl rfl)) <|
      .cons (visits (.acquire (i := 1) rfl rfl rfl)) <| .cons (visits (.release (i := 1) rfl rfl rfl)) <|
      .cons (visits (.readDone (i := 1) rfl rfl)) <| .cons (visits (.acquire (i := 1) rfl rfl rfl)) <|
      .cons (visits (.decrement (i := 1) rfl rfl)) <| .single (visits (.testLast (i := 1) rfl rfl)), ?_, ?_⟩
    · simp only [List.forall_mem_cons, LastIsFirst]
      exact ⟨nofun, nofun, nofun, nofun, nofun, nofun, nofun, nofun, nofun, fun _ _ => rfl, nofun⟩
    · rfl
  obtain ⟨ls, s, hrun, hlast, hplace⟩ := hrun
  exact ⟨ls, s, hrun, ((release_by_holder_iff hrun).2.mpr hlast).2, hplace⟩

/-- Two readers: the first leaves first. -/
theorem last_reader_not_holder :
    ¬∀ ls s, Trace Step init ls s → s.failure ≠ some .release := by
  intro hall
  have hrun : ∃ ls s, Trace Step init ls s ∧ s.failure = some .release :=
    ⟨_, _, .cons (.read (i := 1) rfl rfl) <| .cons (.acquire (i := 1) rfl rfl rfl) <|
      .cons (.increment (i := 1) rfl rfl) <| .cons (.testFirst (i := 1) rfl rfl) <|
      .cons (.acquire (i := 1) rfl rfl rfl) <| .cons (.release (i := 1) rfl rfl rfl) <|
      .cons (.read (i := 2) rfl rfl) <| .cons (.acquire (i := 2) rfl rfl rfl) <|
      .cons (.increment (i := 2) rfl rfl) <| .cons (.testFirst (i := 2) rfl rfl) <|
      .cons (.release (i := 2) rfl rfl rfl) <|
      .cons (.readDone (i := 1) rfl rfl) <| .cons (.acquire (i := 1) rfl rfl rfl) <|
      .cons (.decrement (i := 1) rfl rfl) <| .cons (.testLast (i := 1) rfl rfl) <|
      .cons (.release (i := 1) rfl rfl rfl) <|
      .cons (.readDone (i := 2) rfl rfl) <| .cons (.acquire (i := 2) rfl rfl rfl) <|
      .cons (.decrement (i := 2) rfl rfl) <| .cons (.testLast (i := 2) rfl rfl) <|
      .single (.releaseFails (i := 2) (l := .w) rfl rfl nofun), rfl⟩
  obtain ⟨ls, s, hrun, hfail⟩ := hrun
  exact hall ls s hrun hfail

end System

end Pintos.Userprog.ReadersWriters
