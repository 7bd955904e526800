import Pintos.Filesys.DirectoryCalls
import Pintos.Library.Trace

/-!
# Runs of calls on one directory

The calls of `dir_add` and `dir_remove` on a directory, with anything else in between that leaves the
directory as it is.  Of a call that returns there remains what it does to the table of entries
(`TableStep`): an occupied slot keeps its record unless its name is removed.
-/

namespace Pintos.Filesys

open SlotTable

variable {P : Policy} {s : ℕ}

/-- What happens: a call, with the name and the result, or something that does not touch the
directory. -/
inductive DirEvent
  | add (name : List UInt8) (sector : ℕ) (success : Bool)
  | remove (name : List UInt8) (success : Bool)
  | other

/-- The event is a call with this name. -/
def DirEvent.About (name : List UInt8) : DirEvent → Prop
  | .add nm _ _ => nm = name
  | .remove nm _ => nm = name
  | .other => False

/-! ### The table -/

/-- What an event does to the table of entries. -/
inductive TableStep : List DirEntry → DirEvent → List DirEntry → Prop
  | failed {l : List DirEntry} {ev : DirEvent} (h : ∀ nm c, ev ≠ .add nm c true)
      (h' : ∀ nm, ev ≠ .remove nm true) : TableStep l ev l
  | added {l : List DirEntry} {name : List UInt8} {c : ℕ} {e : DirEntry} (h0 : 0 ∉ name)
      (fresh : search (named name) l 1 = none) (he : e.Records name c) :
      TableStep l (.add name c true) (put l (firstFree DirEntry.inUse l) e)
  | removed {l : List DirEntry} {name : List UInt8} {k : ℕ} {e : DirEntry} (h0 : 0 ∉ name)
      (found : search (named name) l 1 = some k) (he : l[k]? = some e) :
      TableStep l (.remove name true) (put l k (entryAt (e.setInUse false) 0))

section

variable {l l' : List DirEntry} {ev : DirEvent} {name nm : List UInt8} {c j k : ℕ} {e : DirEntry}

theorem named_iff : named name e = true ↔ e.inUse = true ∧ e.hasName name = true := by
  simp [named]

theorem DirEntry.Records.named (h : e.Records name c) : Filesys.named name e = true :=
  named_iff.mpr ⟨h.inUse, h.hasName⟩

/-- A live record is found under its own name only. -/
theorem name_of_named (h : named nm e = true) (h0 : 0 ∉ nm) : e.name = nm :=
  DirEntry.name_of_hasName (named_iff.mp h).2 h0

theorem inUse_cleared (e : DirEntry) : DirEntry.inUse (entryAt (e.setInUse false) 0) = false := by
  rw [DirEntry.inUse_entryAt, DirEntry.inUse, DirEntry.setInUse, Bytes.splice_inside (by omega) (by omega)]
  rfl

theorem named_cleared (e : DirEntry) : named name (entryAt (e.setInUse false) 0) = false := by
  rw [named, inUse_cleared]
  rfl

theorem search_lt {p : DirEntry → Bool} (h : search p l k = some j) : k ≤ j ∧ j < l.length := by
  obtain ⟨hk, ⟨a, ha, _⟩, _⟩ := search_eq_some.mp h
  obtain ⟨hj, _⟩ := List.getElem?_eq_some_iff.mp ha
  exact ⟨hk, hj⟩

/-- **An occupied slot keeps its record**, unless it is behind the first and a call is about its name. -/
theorem TableStep.stays (h : TableStep l ev l') (he : l[k]? = some e) (hu : e.inUse = true)
    (hk : k = 0 ∨ ¬ev.About e.name) : l'[k]? = some e := by
  cases h with
  | failed => exact he
  | added => rw [put_of_ne firstFree_le (firstFree_ne he hu).symm, he]
  | @removed nm j e' h0 found he' =>
    obtain ⟨hj, hjl⟩ := search_lt found
    have hne : k ≠ j := by
      intro hkj
      rcases hk with hk | hk
      · omega
      · rw [hkj, he'] at he
        obtain rfl := Option.some.inj he
        obtain ⟨_, ⟨a, ha, hn⟩, _⟩ := search_eq_some.mp found
        rw [he'] at ha
        obtain rfl := Option.some.inj ha
        exact hk (name_of_named hn h0).symm
    rw [put_of_ne hjl.le hne, he]

/-- A live record has been there before, unless the event put its name into the directory. -/
theorem TableStep.came_from (h : TableStep l ev l') (he : l'[k]? = some e) (hu : e.inUse = true)
    (hev : ¬ev.About e.name) : l[k]? = some e := by
  cases h with
  | failed => exact he
  | @added nm c e' h0 fresh hrec =>
    by_cases hk : k = firstFree DirEntry.inUse l
    · rw [hk, put_self firstFree_le] at he
      obtain rfl := Option.some.inj he
      exact absurd hrec.name.symm hev
    · rwa [put_of_ne firstFree_le hk] at he
  | @removed nm j e' h0 found he' =>
    obtain ⟨_, hjl⟩ := search_lt found
    by_cases hk : k = j
    · rw [hk, put_self hjl.le] at he
      obtain rfl := Option.some.inj he
      rw [inUse_cleared] at hu
      exact absurd hu (by simp)
    · rwa [put_of_ne hjl.le hk] at he

end

/-! ### The calls -/

/-- The file system, and the inodes it has. -/
structure DirState where
  world : World
  live : Set ℕ

/-- One event on the directory in sector `s`.  The callers pass C strings and sector numbers, the inode
of a new directory and that of a removed entry exist, and what happens apart from the calls leaves the
directory and its bytes alone. -/
inductive DirStep (P : Policy) (s : ℕ) (σ : DirState) : DirEvent → DirState → Prop
  | add {p c : ℕ} {pos : ℤ} {name : List UInt8} {isDir r : Bool} {w' : World} (holds : Holds σ.world p s)
      (string : 0 ∉ name) (sector : c < 2 ^ 32) (can : isDir = true → CanAdd σ.live σ.world s c)
      (runs : Runs P (dirAdd ⟨p, pos⟩ name c isDir) σ.world (.ok r) w') :
      DirStep P s σ (.add name c r) ⟨w', σ.live⟩
  | addExits {p c : ℕ} {pos : ℤ} {name : List UInt8} {isDir : Bool} {w' : World}
      (holds : Holds σ.world p s) (can : isDir = true → CanAdd σ.live σ.world s c)
      (runs : Runs P (dirAdd ⟨p, pos⟩ name c isDir) σ.world (.error (.exit (-1))) w') :
      DirStep P s σ (.add name c false) ⟨w', σ.live⟩
  | remove {p : ℕ} {pos : ℤ} {name : List UInt8} {r : Bool} {w' : World} (holds : Holds σ.world p s)
      (string : 0 ∉ name)
      (can : ∀ k e, search (named name) (entries σ.world s) 1 = some k →
        (entries σ.world s)[k]? = some e → CanRemove σ.live σ.world s e.inodeSector)
      (runs : Runs P (dirRemove ⟨p, pos⟩ name) σ.world (.ok r) w') :
      DirStep P s σ (.remove name r) ⟨w', surviving σ.live w'⟩
  | other {w' : World} {live' : Set ℕ} (ok : InodeOk w' live') (mem : s ∈ live') (kept : Kept s σ.world w') :
      DirStep P s σ .other ⟨w', live'⟩

theorem TableStep.none {l : List DirEntry} {ev : DirEvent} (h : ∀ nm c, ev ≠ .add nm c true)
    (h' : ∀ nm, ev ≠ .remove nm true) {w w' : World} (hk : Kept s w w') (hl : entries w s = l) :
    TableStep l ev (entries w' s) := by
  rw [hk.entries, hl]
  exact .failed h h'

/-- **An event keeps the directory in order, and what it does to the table is a step of the table.** -/
theorem DirStep.table (hP : P.NoFail) {σ σ' : DirState} {ev : DirEvent} (h : DirStep P s σ ev σ')
    (hok : DirOk σ.live σ.world s) :
    DirOk σ'.live σ'.world s ∧ TableStep (entries σ.world s) ev (entries σ'.world s) ∧
      (ev ≠ .other → ∀ q, Holds σ.world q s → Holds σ'.world q s) := by
  cases h with
  | @add p c pos name isDir r w' holds string sector can runs =>
    have hwp : wp P (dirAdd ⟨p, pos⟩ name c isDir) (fun r w' => DirOk σ.live w' s ∧
        TableStep (entries σ.world s) (.add name c r) (entries w' s) ∧
        ∀ q, Holds σ.world q s → Holds w' q s) (fun _ _ => True) σ.world := by
      refine wp_dirAdd hP (hok.opened holds) can (fun w' ha _ hadd => ?_) (fun w' ha _ hk _ => ?_)
        fun _ _ _ _ => trivial
      · obtain ⟨e, he⟩ := hadd.table
        refine ⟨ha.dir.dirOk, ?_, fun q => ha.handles q s⟩
        rw [he]
        exact .added string hadd.fresh (DirEntry.filled_records e hadd.name_le string sector)
      · exact ⟨ha.dir.dirOk, .none (by simp) (by simp) hk rfl, fun q => ha.handles q s⟩
    obtain ⟨h₁, h₂, h₃⟩ := wp_iff_runs.mp hwp _ _ runs
    exact ⟨h₁, h₂, fun _ => h₃⟩
  | @addExits p c pos name isDir w' holds can runs =>
    have hwp : wp P (dirAdd ⟨p, pos⟩ name c isDir) (fun _ _ => True)
        (fun _ w' => DirOk σ.live w' s ∧ Kept s σ.world w' ∧ ∀ q, Holds σ.world q s → Holds w' q s)
        σ.world :=
      wp_dirAdd hP (hok.opened holds) can (fun _ _ _ _ => trivial) (fun _ _ _ _ _ => trivial)
        fun w' ha hk _ => ⟨ha.dir.dirOk, hk, fun q => ha.handles q s⟩
    obtain ⟨h₁, hk, h₃⟩ := wp_iff_runs.mp hwp _ _ runs
    exact ⟨h₁, .none (by simp) (by simp) hk rfl, fun _ => h₃⟩
  | @remove p pos name r w' holds string can runs =>
    have hwp : wp P (dirRemove ⟨p, pos⟩ name) (fun r w' => StillThere σ.live s σ.world w' ∧
        TableStep (entries σ.world s) (.remove name r) (entries w' s)) (fun _ _ => True) σ.world := by
      refine wp_dirRemove hP (hok.opened holds) can (fun w' hst _ hrem => ?_) (fun w' hst _ hk _ => ?_)
        fun _ _ _ => trivial
      · obtain ⟨k, e, hfound, he, hput⟩ := hrem.table
        refine ⟨hst, ?_⟩
        rw [hput]
        exact .removed string hfound he
      · exact ⟨hst, .none (by simp) (by simp) hk rfl⟩
    obtain ⟨hst, h₂⟩ := wp_iff_runs.mp hwp _ _ runs
    exact ⟨hst.dir, h₂, fun _ => hst.handles⟩
  | other ok mem kept => exact ⟨hok.kept ok mem kept, .none (by simp) (by simp) kept rfl, fun h => absurd rfl h⟩

/-- Memory is always there, and the stack holds ones. -/
def onesEnv : Env := ⟨fun _ => true, fun _ _ => 1, false⟩

theorem onesEnv_memory : Policy.memory.Admits onesEnv := ⟨fun _ => rfl, fun _ => trivial⟩

end Pintos.Filesys
