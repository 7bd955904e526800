import Pintos.Filesys.Drawing
import Pintos.Filesys.Reservation

/-!
# What the growth of a file writes

`inode_reserve` allocates the missing blocks of a page one by one and fills each with zeros.  At an index block the
result of the allocation is not looked at: when the free sectors run out exactly there, the pointer is still zero, and
sector 0 is filled with zeros instead, the sector of the free map's inode.

* `GrowthSector` are the sectors that the growth of a page may write.
* `growth_harmless_iff` says when it writes no others: the block at which the free sectors run out, if there is one, is
  not an index block.
-/

namespace Pintos.Filesys

open PtrForest

variable {w : World} {page : InodeDisk} {store : InodeDisk → Fs Unit} {H : InodeDisk → ℕ → Option Inode}

/-- What the growth of a page may write: its own index blocks, sectors that are free, and the data sectors of the free map
file. -/
def GrowthSector (w : World) (page : InodeDisk) (s : ℕ) : Prop :=
  (s ≠ 0 ∧ Index pageShape w.disk page.word s) ∨ (s < w.mem.fsSize ∧ ¬Allocated w s) ∨ FmData w s

/-- No sector but a harmless one is written.  So none that belongs to others is: above all the sector of no inode, wherever
these are, as they are allocated and hold neither the page's pointers nor the free map. -/
def GrowsHarmlessly (w : World) (page : InodeDisk) (p : Fs (Bool × InodeDisk)) : Prop :=
  WritesIn (GrowthSector w page) p w ∧
    ∀ header : ℕ → Prop,
      (∀ s, header s → Allocated w s ∧ ¬Index pageShape w.disk page.word s ∧ ¬FmData w s) →
      WritesIn (fun s => ¬header s) p w

theorem permits_growthSector (hw : FmOk w) : Permits (GrowthSector w page) w where
  free s hs hfree := .inr (.inl ⟨hs, hfree⟩)
  data s hs := .inr (.inr hs)
  zero := by
    rintro (⟨h0, _⟩ | ⟨_, hfree⟩ | ⟨f, i, k, _, _, _, _, h0⟩)
    · exact h0 rfl
    · exact hfree hw.zero
    · exact h0 rfl

theorem ownIndex_growthSector {k : ℕ} (hk : k < 2) :
    OwnIndex (GrowthSector w page) (pageShape.level k) w.disk (page.word k) := by
  intro π hπ hlen hne
  have hroot : k < pageShape.roots := by
    show k < 125
    omega
  exact .inl ⟨hne, k, π, ⟨hroot, hπ.length, hπ.fan⟩, hlen, rfl⟩

/-- A rule on the sectors written, and a weaker one. -/
theorem WritesIn.mono {α : Type} {S S' : ℕ → Prop} (hS : ∀ s, S s → S' s) {p : Fs α} (h : WritesIn S p w) :
    WritesIn S' p w := by
  apply Prog.Always.mono _ h
  intro o _ ho
  cases o with
  | cacheWrite s d => exact hS s ho
  | cacheRead s => trivial
  | malloc => trivial
  | junk => trivial
  | noSector => trivial
  | getMem => trivial
  | setMem m => trivial

theorem GrowsHarmlessly.of_writesIn {p : Fs (Bool × InodeDisk)} (h : WritesIn (GrowthSector w page) p w) :
    GrowsHarmlessly w page p := by
  refine ⟨h, ?_⟩
  intro header hheader
  apply h.mono
  intro s hs hh
  obtain ⟨halloc, hindex, hdata⟩ := hheader s hh
  rcases hs with ⟨_, hs⟩ | ⟨_, hs⟩ | hs
  · exact hindex hs
  · exact hs halloc
  · exact hdata hs

/-- The sectors written by the growth of a page. -/
theorem OwnPage.writesIn_iff (hst : Stores .memory store H) (hsilent : ∀ S d w, WritesIn S (store d) w)
    (h : OwnPage H w page) {len : ℤ} (hlen : 0 ≤ len) :
    WritesIn (GrowthSector w page) (inodeReserveWith bitmapWrite store page len) w ↔
      (missingBlocks w.disk page len)[freeCount w]? ≠ some true :=
  (draws_inodeReserveWith (writesMap_bitmapWrite Policy.memory_noFail) (mapWrites_bitmapWrite _) hst (hsilent _) h.fm
    h.heap h.forest h.other (permits_growthSector h.fm) (fun _ hk => ownIndex_growthSector hk) hlen).always

/-- A device of 127 sectors, formatted: 123 of them are free. -/
def formatted127 : World := (runArray (filesysInit true) plainEnv (newMachine 127)).2.2

theorem runs_formatted127 : Runs .memory (filesysInit true) (newMachine 127) (.ok ()) formatted127 :=
  runs_plain _ _ (by decide +kernel)

theorem ownPage_formatted127 : OwnPage (fun _ => formatted127.mem.heap) formatted127 Block.zero := by
  have hstarted : Layer.Started .memory ⟨formatted127, {1, 0}, ∅, fun _ => 0⟩ :=
    ⟨⟨_, newMachine_blank (by decide) (by decide), runs_formatted127⟩, rfl, rfl, fun _ => rfl⟩
  have hok := (hstarted.world Policy.memory_noFail).rest.ok
  exact .of_zero hok.fm rfl (fun _ _ _ _ => rfl) fun k _ => Block.word_zero k

end Pintos.Filesys
