import Pintos.Filesys.Contents
import Pintos.Filesys.Entries

/-!
# Shutdown and restart

`filesys_done` on a file system whose callers have closed everything, `buffer_cache_terminate`, and then
`buffer_cache_init` and `filesys_init (false)` of a new kernel on the same device.

* `Tidy` says that what is in memory only can be found on the disk again: the free map in its file, and the header of that
  file in sector 0.  Every call that finds room on the device keeps it (`Ok.tidy`).  On a full device the growth of a
  file may fill sector 0 with zeros, so the rule cannot be dropped.
* `restart_keeps_files` is about whole runs, and about the device behind the cache.
-/

namespace Pintos.Filesys

open PtrForest

variable {w w' : World} {live : Set ℕ} {p : ℕ}

/-- The free map is in its file, and the header of the file in its sector. -/
structure Tidy (w : World) : Prop where
  sync : Synced w
  file : ∃ p, w.mem.freeMapFile = some ⟨p, 0, false⟩
  copy : ∀ p i, w.mem.heap p = some i → i.sector = 0 → i.removed = false ∧ i.data = w.disk 0

/-- A step that leaves sector 0 and the inode of the free map file as they are. -/
theorem Tidy.of_heap (h : Tidy w) (hsync : Synced w') (hfile : w'.mem.freeMapFile = w.mem.freeMapFile)
    (hdisk : w'.disk 0 = w.disk 0)
    (hheap : ∀ q j, w'.mem.heap q = some j → j.sector = 0 →
      ∃ i, w.mem.heap q = some i ∧ i.sector = 0 ∧ j.removed = i.removed ∧ j.data = i.data) : Tidy w' := by
  refine ⟨hsync, hfile ▸ h.file, fun q j hj h0 => ?_⟩
  obtain ⟨i, hi, hi0, hrem, hdata⟩ := hheap q j hj h0
  obtain ⟨hr, hd⟩ := h.copy q i hi hi0
  exact ⟨hrem.trans hr, by rw [hdata, hd, hdisk]⟩

theorem Tidy.of_same_heap (h : Tidy w) (hsync : Synced w') (hfile : w'.mem.freeMapFile = w.mem.freeMapFile)
    (hdisk : w'.disk 0 = w.disk 0) (hheap : w'.mem.heap = w.mem.heap) : Tidy w' :=
  h.of_heap hsync hfile hdisk fun _ j hj h0 => ⟨j, hheap ▸ hj, h0, rfl, rfl⟩

theorem Tidy.setInode {i i' : Inode} (h : Tidy w) (hw : InodeOk w live) (hi : w.mem.heap p = some i)
    (hdata : i'.data = i.data) (hsector : i'.sector = i.sector) (hrem : i.sector = 0 → i'.removed = i.removed) :
    Tidy (setInode w p i') := by
  refine h.of_heap (h.sync.setInode hw.fm hi hdata) rfl rfl fun q j hj h0 => ?_
  rcases Layer.setInode_heap.mp hj with ⟨rfl, rfl⟩ | ⟨_, hj⟩
  · rw [hsector] at h0
    exact ⟨i, hi, h0, hrem h0, hdata⟩
  · exact ⟨j, hj, h0, rfl, rfl⟩

theorem Tidy.dropInode {i : Inode} (h : Tidy w) (hw : InodeOk w live) (hi : w.mem.heap p = some i) (h0 : i.sector ≠ 0) :
    Tidy (dropInode w p) :=
  h.of_heap (h.sync.dropInode hw hi h0) rfl rfl fun _ j hj hz => ⟨j, (dropInode_heap.mp hj).2, hz, rfl, rfl⟩

/-- The free map file is open, so the inode that is opened first is another one. -/
theorem InodeOk.openInode_zero (h : InodeOk w live) : w.mem.openInode 0 ≠ none := by
  intro hnone
  obtain ⟨f, i, _, hi⟩ := h.fmFile
  exact h.mem.openInode_eq_none.mp hnone f.inode i hi.heap hi.sector

theorem Tidy.opened {s : ℕ} (h : Tidy w) (hw : InodeOk w live) (ho : Opened live w s p w') : Tidy w' := by
  rcases ho.inode with ⟨i, hi, _, rfl⟩ | ⟨hnone, rfl, rfl⟩
  · exact h.setInode hw hi rfl rfl fun _ => rfl
  · have hne : s ≠ 0 := by
      rintro rfl
      exact hw.openInode_zero hnone
    refine h.of_heap (h.sync.newInode hw) rfl rfl fun q j hj h0 => ?_
    by_cases hq : q = w.mem.next
    · rw [hq] at hj
      have hself : (newInode w s).mem.heap w.mem.next = some ⟨s, 1, false, 0, w.disk s⟩ := Function.update_self _ _ _
      obtain rfl := Option.some.inj (hself.symm.trans hj)
      exact absurd h0 hne
    · exact ⟨j, (Function.update_of_ne hq _ _).symm.trans hj, h0, rfl, rfl⟩

theorem FmStep.disk_zero (h : FmStep w w') : w'.disk 0 = w.disk 0 := by
  apply h.disk
  rintro ⟨_, _, _, _, _, _, _, h0⟩
  exact h0 rfl

namespace Layer

variable {σ σ' : Layer} {s : ℕ}

/-- A call for which there is room, that neither removes the free map file nor makes an inode too long to have blocks. -/
def RoomStep (σ : Layer) (c : Call) (σ' : Layer) : Prop := Step .space σ c σ' ∧ ¬TooLong c ∧ ¬σ.Removes c 0

theorem space_noFail : Policy.space.NoFail := fun _ hb => hb

/-- A write for which there is room. -/
theorem Ok.wrote (h : σ.Ok) {buffer : ℕ → UInt8} {size offset : ℕ} (hc : σ.Enabled (.write p buffer size offset))
    {r : ℤ} (hrun : Runs .space (inodeWriteAt p buffer size offset) σ.world (.ok r) w') :
    ∃ i d, σ.world.mem.heap p = some i ∧ i.sector ≠ 0 ∧ Wrote σ.live p i offset size buffer σ.world w' d := by
  obtain ⟨hp, hsize, hmax, hall⟩ := hc
  obtain ⟨i, hi⟩ := h.openInode hp
  obtain ⟨h0, hl⟩ := hall i hi
  have hwp : wp .space (inodeWriteAt p buffer size offset)
      (fun _ w' => ∃ d, Wrote σ.live p i offset size buffer σ.world w' d) (fun _ _ => True) σ.world :=
    wp_inodeWriteAt space_noFail h.inodes hi h0 hl (h.allow p i hi) hsize hmax (fun _ d hw => ⟨d, hw⟩)
      fun hno => hno.elim
  obtain ⟨d, hw⟩ := wp_iff_runs.mp hwp _ _ hrun
  exact ⟨i, d, hi, h0, hw⟩

/-- **Every call for which there is room keeps memory and disk together.** -/
theorem Ok.tidy (h : σ.Ok) (ht : Tidy σ.world) {c : Call} (hs : σ.RoomStep c σ') : Tidy σ'.world := by
  obtain ⟨hstep, hlong, hrem⟩ := hs
  cases hstep with
  | exits enabled runs =>
    obtain ⟨_, htoo, _⟩ := wp_iff_runs.mp (h.does space_noFail enabled) _ _ runs
    exact absurd htoo hlong
  | @returns a w' enabled runs =>
    rw [after_world]
    have hd : σ.Does c a w' := wp_iff_runs.mp (h.does space_noFail enabled) _ _ runs
    cases c with
    | allocate =>
      cases a with
      | none =>
        obtain rfl : w' = σ.world := hd
        exact ht
      | some s =>
        have hs : Handed σ.live σ.world s w' := hd
        exact ht.of_same_heap hs.sync hs.step.freeMapFile hs.step.disk_zero hs.step.heap
    | create s len isDir =>
      obtain ⟨hs, hlen, hlen'⟩ := enabled
      obtain ⟨hA, hno⟩ := h.spare s hs
      have hwp : wp .space (inodeCreate s len isDir) (fun _ w' => Created σ.live σ.world s len isDir w')
          (fun _ _ => True) σ.world :=
        wp_inodeCreate space_noFail h.inodes hA hno hlen hlen' (fun _ _ _ => trivial) (fun _ hw => hw)
          fun hfull => hfull.elim
      have hcr : Created σ.live σ.world s len isDir w' := wp_iff_runs.mp hwp _ _ runs
      exact ht.of_same_heap (hcr.keep.sync ht.sync) hcr.keep.freeMapFile hcr.zero hcr.heap
    | «open» s =>
      obtain ⟨p, rfl, ho⟩ := hd
      exact ht.opened h.inodes ho
    | reopen p =>
      obtain ⟨rfl, i, hi, ho⟩ := hd
      exact ht.opened h.inodes ho
    | remove p =>
      obtain ⟨i, hi, _, _, rfl⟩ := hd
      refine ht.setInode h.inodes hi rfl rfl fun h0 => ?_
      exact absurd ⟨p, i, rfl, hi, h0⟩ hrem
    | close p =>
      obtain ⟨i, hi, hcase⟩ := hd
      rcases hcase with ⟨_, rfl⟩ | ⟨_, h0, _, rfl⟩ | ⟨_, h0, _, hdel⟩
      · exact ht.setInode h.inodes hi rfl rfl fun _ => rfl
      · exact ht.dropInode h.inodes hi h0
      · refine ht.of_heap (hdel.sync ht.sync) hdel.step.freeMapFile hdel.step.disk_zero fun q j hj hz => ?_
        rw [hdel.step.heap] at hj
        exact ⟨j, (dropInode_heap.mp hj).2, hz, rfl, rfl⟩
    | write p buffer size offset =>
      obtain ⟨i, d, hi, h0, hw⟩ := h.wrote enabled runs
      refine ht.of_heap (hw.keep.sync ht.sync) hw.keep.freeMapFile hw.zero fun q j hj hz => ?_
      rcases hw.toTouched.heap_cases q with hq | ⟨_, hq⟩
      · rw [hq] at hj
        exact ⟨j, hj, hz, rfl, rfl⟩
      · rw [hq] at hj
        obtain rfl := Option.some.inj hj
        exact absurd hz h0

theorem Started.tidy (h : Started .memory σ) : Tidy σ.world := by
  have hrest := (h.world Policy.memory_noFail).rest
  refine ⟨hrest.sync, hrest.file, fun p i hi _ => ?_⟩
  rw [hrest.only p i hi]
  exact ⟨rfl, rfl⟩

/-- **When every handle has been closed, the file system is at rest.** -/
theorem Ok.atRest (h : σ.Ok) (ht : Tidy σ.world) (hclosed : ∀ p, σ.handles p = 0) : AtRest σ.world σ.live := by
  refine ⟨h.inodes, ht.sync, ht.file, fun p i hi => ?_⟩
  obtain ⟨f, j, hf, hj⟩ := h.inodes.fmFile
  have hcount := h.count p i hi
  have hpos := h.inodes.mem.count p i hi
  have hallow := h.allow p i hi
  rw [held, hclosed, Nat.zero_add, ownHandle, hf, Option.map_some] at hcount
  -- the only handle left is the one of the free map
  have hp : f.inode = p := by
    by_contra hne
    rw [if_neg fun heq => hne (Option.some.inj heq)] at hcount
    omega
  rw [hp, if_pos rfl] at hcount
  obtain rfl : j = i := Option.some.inj (hj.heap.symm.trans (hp ▸ hi))
  obtain ⟨hrem, hdata⟩ := ht.copy p j hi hj.sector
  obtain ⟨sector, openCnt, removed, denyWriteCnt, data⟩ := j
  simp only at hrem hdata hcount hallow
  rw [hrem, hdata, hcount, hallow, show sector = 0 from hj.sector]
  rfl

end Layer

/-- What `filesys_init (false)` of a new kernel, with memory `m`, makes of the device that `filesys_done` and
`buffer_cache_terminate` leave: every file is what it was, and the same sectors are free. -/
def SurvivesRestart (w : World) (live : Set ℕ) : Prop :=
  ∀ (cached : CachedWorld) (r : Except Stop Unit) (down : CachedWorld), cached.toWorld = w →
    RunsCached .memory filesysDone cached r down →
    r = .ok () ∧ ∀ (c : Cache.BufferCache Sector) (m : Mem) (r' : Except Stop Unit) (up : CachedWorld),
      c.disk = down.cache.terminate → (∀ p, m.heap p = none) → m.fsSize = w.mem.fsSize →
      RunsCached .memory (filesysInit false) ⟨m, .init c⟩ r' up →
      r' = .ok () ∧ AtRest up.toWorld live ∧ (∀ s ∈ live, s ≠ 0 → Kept s w up.toWorld) ∧
        ∀ t, Allocated up.toWorld t ↔ Allocated w t

theorem AtRest.survivesRestart (h : AtRest w live) : SurvivesRestart w live := by
  rintro cached r down rfl hdown
  have hP := Policy.memory_noFail
  have hclose : wp .memory filesysDone (fun _ w' => w'.disk = cached.toWorld.disk) (fun _ _ => False) cached.toWorld :=
    wp_freeMapClose h fun _ _ _ _ _ => rfl
  have hsat := wp_iff_runs.mp hclose r _ hdown.toWorld
  cases r with
  | error e => exact hsat.elim
  | ok _ =>
    refine ⟨rfl, fun c m r' up hc hheap hsize hup => ?_⟩
    have hdisk : down.toWorld.disk = cached.toWorld.disk := hsat
    have hstart : CachedWorld.toWorld ⟨m, .init c⟩ = ⟨m, cached.toWorld.disk⟩ := by
      show World.mk m (Cache.CoherentCache.init c).contents = _
      rw [Cache.CoherentCache.contents_init, hc, Cache.CoherentCache.terminate_eq]
      exact congrArg (World.mk m) hdisk
    have hmount : wp .memory (filesysInit false) (fun _ w' => Mounted live cached.toWorld m w') (fun _ _ => False)
        ⟨m, cached.toWorld.disk⟩ := wp_filesysInit_mount hP h hheap hsize fun _ hm => hm
    rw [← hstart] at hmount
    have hsat' := wp_iff_runs.mp hmount r' _ hup.toWorld
    cases r' with
    | error e => exact hsat'.elim
    | ok _ =>
      have hm : Mounted live cached.toWorld m up.toWorld := hsat'
      refine ⟨rfl, hm.rest, fun s _ _ => ?_, hm.allocated⟩
      have hpage : page up.toWorld s = page cached.toWorld s := by rw [hm.rest.page_eq, h.page_eq, hm.disk]
      exact ⟨by rw [hpage], by rw [hpage], fun pos => by rw [hpage, hm.disk]⟩

namespace Layer

variable {σ : Layer}

theorem RoomStep.plain (σ : Layer) {c : Call} {a : c.Res} (hc : σ.Enabled c) (hlong : ¬TooLong c) (hrem : ¬σ.Removes c 0)
    (h : (runArray c.run plainEnv σ.world).1 = .ok a ∧ (runArray c.run plainEnv σ.world).2.1.failed = false) :
    RoomStep σ c (σ.next c a) := by
  have hruns := runs_runArray (P := .space) c.run (e := plainEnv) (w := σ.world) ⟨fun _ => rfl, fun _ => trivial⟩
    (by simp [h.2])
  rw [h.1] at hruns
  exact ⟨.returns hc hruns, hlong, hrem⟩

/-- A write of 512 bytes behind the end of the file. -/
def written : Layer := opened.next (.write 3 (fun _ => 65) 512 600) 512

/-- What the calls return when there is room for them. -/
theorem room_answers :
    ((runArray (Call.run .allocate) plainEnv started16.world).1 = .ok (some 4) ∧
      (runArray (Call.run .allocate) plainEnv started16.world).2.1.failed = false) ∧
    ((runArray (Call.run (.create 4 600 false)) plainEnv (started16.next .allocate (some 4)).world).1 = .ok true ∧
      (runArray (Call.run (.create 4 600 false)) plainEnv
        (started16.next .allocate (some 4)).world).2.1.failed = false) ∧
    ((runArray (Call.run (.open 4)) plainEnv
        ((started16.next .allocate (some 4)).next (.create 4 600 false) true).world).1 = .ok (some 3) ∧
      (runArray (Call.run (.open 4)) plainEnv
        ((started16.next .allocate (some 4)).next (.create 4 600 false) true).world).2.1.failed = false) ∧
    ((runArray (Call.run (.write 3 (fun _ => 65) 512 600)) plainEnv opened.world).1 = .ok 512 ∧
      (runArray (Call.run (.write 3 (fun _ => 65) 512 600)) plainEnv opened.world).2.1.failed = false) ∧
    ((runArray (Call.run (.close 3)) plainEnv written.world).1 = .ok () ∧
      (runArray (Call.run (.close 3)) plainEnv written.world).2.1.failed = false) := by
  decide +kernel

end Layer

end Pintos.Filesys
