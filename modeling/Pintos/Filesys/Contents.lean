import Pintos.Filesys.DeferredDeletion
import Pintos.Library.FileBytes

/-!
# The contents of inodes

What the callers of `inode_read_at` and `inode_write_at` see of an inode is a growable string of bytes.
`FileBytes.read` and `FileBytes.write` are the two calls on such strings; the state of the model is one
string for every inode, and `contents` are the strings that a state of the code stands for.

The file of the free map is the exception.  Whoever takes a sector writes it, and so a write that makes
another inode longer changes it.
-/

namespace Pintos.Filesys

open PtrForest

variable {w w' : World} {live : Set ℕ} {p s : ℕ} {i : Inode}

/-- The bytes of the inode in sector `s`. -/
def contents (w : World) (s : ℕ) : List UInt8 := Bytes.slice (byteAt w.disk (page w s)) 0 (page w s).length.toNat

/-- A call of `inode_read_at` or `inode_write_at` on the open inode at an address. -/
inductive Access
  | read (p size offset : ℕ)
  | write (p : ℕ) (buffer : ℕ → UInt8) (size offset : ℕ)

inductive Outcome
  | bytes (l : List UInt8)
  | written (n : ℤ)
  deriving DecidableEq

def Access.inode : Access → ℕ
  | .read p _ _ => p
  | .write p _ _ _ => p

def Access.run : Access → Fs Outcome
  | .read p size offset => do return .bytes (← inodeReadAt p size offset)
  | .write p buffer size offset => do return .written (← inodeWriteAt p buffer size offset)

/-- The calls one after the other. -/
def runAll : List Access → Fs (List Outcome)
  | [] => return []
  | a :: as => do
    let r ← a.run
    return r :: (← runAll as)

/-! ## The model -/

/-- The strings of the inodes. -/
abbrev Files := ℕ → List UInt8

/-- The same call on the strings; `sector` says which inode is open at an address. -/
def Access.model (sector : ℕ → ℕ) (F : Files) : Access → Outcome × Files
  | .read p size offset => (.bytes (FileBytes.read (F (sector p)) offset size), F)
  | .write p buffer size offset =>
    (.written size,
      Function.update F (sector p) (FileBytes.write (F (sector p)) offset (Bytes.slice buffer 0 size)))

/-- A call leaves the strings of the other inodes alone. -/
theorem Access.model_of_ne {sector : ℕ → ℕ} {a : Access} (F : Files) (hs : s ≠ sector a.inode) :
    (a.model sector F).2 s = F s := by
  cases a with
  | read p size offset => rfl
  | write p buffer size offset => exact Function.update_of_ne hs _ F

def modelAll (sector : ℕ → ℕ) : List Access → Files → List Outcome × Files
  | [], F => ([], F)
  | a :: as, F =>
    let r := a.model sector F
    let rest := modelAll sector as r.2
    (r.1 :: rest.1, rest.2)

/-- The sector of the inode that is open at an address. -/
def Mem.sectorAt (m : Mem) (p : ℕ) : ℕ := ((m.heap p).map Inode.sector).getD 0

/-- The inode is open and not denied to writers, and the range is one that an inode can have. -/
def Access.Fits (w : World) : Access → Prop
  | .read p _ offset => (∃ i, w.mem.heap p = some i) ∧ offset < 2 ^ 31
  | .write p _ size offset =>
    (∃ i, w.mem.heap p = some i ∧ i.denyWriteCnt = 0) ∧ 0 < size ∧ offset + size ≤ 8517120

/-- The calls go to files: not to that of the free map, and to none that was created too long to have blocks. -/
def Access.OnFile (w : World) (a : Access) : Prop :=
  ∀ i, w.mem.heap a.inode = some i → i.sector ≠ 0 ∧ i.data.length ≤ 8517120

/-- Every run of the calls returns what the model returns, and leaves the inodes in `S` as the model has them. -/
def Refines (P : Policy) (w : World) (S : Set ℕ) (as : List Access) : Prop :=
  ∀ r w', Runs P (runAll as) w r w' → r = .ok (modelAll w.mem.sectorAt as (contents w)).1 ∧
    ∀ s ∈ S, contents w' s = (modelAll w.mem.sectorAt as (contents w)).2 s

/-! ## One call -/

theorem sectorAt_of_open (hi : w.mem.heap p = some i) : w.mem.sectorAt p = i.sector := by
  rw [Mem.sectorAt, hi]
  rfl

/-- The strings that the model keeps are those of the inodes. -/
structure Stands (live : Set ℕ) (w : World) (F : Files) : Prop where
  ok : InodeOk w live
  contents : ∀ s ∈ live \ {0}, contents w s = F s

/-- The same inodes are open. -/
structure StillOpen (w w' : World) : Prop where
  sectorAt : w'.mem.sectorAt = w.mem.sectorAt
  fits : ∀ a : Access, a.Fits w → a.OnFile w → a.Fits w' ∧ a.OnFile w'

theorem StillOpen.refl (w : World) : StillOpen w w := ⟨rfl, fun _ h h' => ⟨h, h'⟩⟩

theorem Touched.heap_cases {d : InodeDisk} (ht : Touched live p i w w' d) (q : ℕ) :
    w'.mem.heap q = w.mem.heap q ∨ q = p ∧ w'.mem.heap q = some { i with data := d } := by
  rw [ht.heap]
  unfold setPage
  by_cases hq : q = p
  · rw [hq, Function.update_self]
    exact .inr ⟨rfl, rfl⟩
  · rw [Function.update_of_ne hq]
    exact .inl rfl

theorem Touched.stillOpen {d : InodeDisk} (ht : Touched live p i w w' d) (hi : w.mem.heap p = some i)
    (hl : d.length ≤ 8517120) : StillOpen w w' where
  sectorAt := by
    funext q
    rcases ht.heap_cases q with hq | ⟨rfl, hq⟩
    · rw [Mem.sectorAt, Mem.sectorAt, hq]
    · rw [sectorAt_of_open hi, sectorAt_of_open hq]
  fits := by
    intro a hfits hfile
    have hon : a.OnFile w' := by
      intro j hj
      rcases ht.heap_cases a.inode with hq | ⟨hp, hq⟩
      · rw [hq] at hj
        exact hfile j hj
      · rw [hq] at hj
        obtain rfl := Option.some.inj hj
        exact ⟨(hfile i (hp ▸ hi)).1, hl⟩
    refine ⟨?_, hon⟩
    cases a with
    | read q size offset =>
      obtain ⟨⟨j, hj⟩, hofs⟩ := hfits
      rcases ht.heap_cases q with hq | ⟨rfl, hq⟩
      · exact ⟨⟨j, hq.trans hj⟩, hofs⟩
      · exact ⟨⟨_, hq⟩, hofs⟩
    | write q buffer size offset =>
      obtain ⟨⟨j, hj, hdeny⟩, hrange⟩ := hfits
      rcases ht.heap_cases q with hq | ⟨rfl, hq⟩
      · exact ⟨⟨j, hq.trans hj, hdeny⟩, hrange⟩
      · rw [hi] at hj
        obtain rfl := Option.some.inj hj
        exact ⟨⟨_, hq, hdeny⟩, hrange⟩

theorem contents_of_open (h : InodeOk w live) (hi : w.mem.heap p = some i) :
    contents w i.sector = Bytes.slice (byteAt w.disk i.data) 0 i.data.length.toNat := by
  rw [contents, page_of_open h.mem hi]

/-- What a write has made of the strings. -/
theorem Wrote.contents {ofs size : ℕ} {buf : ℕ → UInt8} {d : InodeDisk} (h : InodeOk w live)
    (hi : w.mem.heap p = some i) (h0 : i.sector ≠ 0) (hw : Wrote live p i ofs size buf w w' d) (hs : s ∈ live \ {0}) :
    contents w' s = Function.update (contents w) i.sector
      (FileBytes.write (contents w i.sector) ofs (Bytes.slice buf 0 size)) s := by
  by_cases heq : s = i.sector
  · obtain ⟨len, hlen⟩ := h.open_length hi
    have hlen' : d.length = ((max len (ofs + size) : ℕ) : ℤ) := by
      rw [hw.length, hlen]
      omega
    have htail : ∀ pos, len ≤ pos → byteAt w.disk i.data pos = 0 := by
      intro pos hpos
      rw [← page_of_open h.mem hi]
      apply h.tail i.sector (h.openLive p i hi) h0
      rw [page_of_open h.mem hi, hlen]
      omega
    have hself : w'.mem.heap p = some { i with data := d } := hw.toTouched.open_self
    have hopen : Filesys.contents w' i.sector = Bytes.slice (byteAt w'.disk d) 0 d.length.toNat :=
      contents_of_open hw.ok hself
    rw [heq, Function.update_self, hopen, contents_of_open h hi, hlen, hlen', funext hw.byte]
    exact FileBytes.slice_write htail
  · rw [Function.update_of_ne heq]
    have hpage : page w' s = page w s := hw.others.page s hs.1 heq
    have hbyte : byteAt w'.disk (page w s) = byteAt w.disk (page w s) := funext (hw.others.byte s hs.1 hs.2 heq)
    unfold Filesys.contents
    rw [hpage, hbyte]

/-- **One call on the code is one call on the strings.** -/
theorem Stands.wp_run {F : Files} {E : Stop → World → Prop} (h : Stands live w F) {a : Access} (hfits : a.Fits w)
    (hfile : a.OnFile w) :
    wp .space a.run (fun r w' => r = (a.model w.mem.sectorAt F).1 ∧ Stands live w' (a.model w.mem.sectorAt F).2 ∧
      StillOpen w w') E w := by
  have hP : Policy.space.NoFail := fun _ hb => hb
  cases a with
  | read p size offset =>
    obtain ⟨⟨i, hi⟩, hofs⟩ := hfits
    obtain ⟨h0, hl⟩ := hfile i hi
    obtain ⟨len, hlen⟩ := h.ok.open_length hi
    rw [Access.run, wp_bind]
    refine wp_inodeReadAt hP hi (h.ok.open_mapped hi hl) hlen hofs ?_
    refine (wp_pure _).mpr ⟨?_, h, .refl w⟩
    have hF := h.contents i.sector ⟨h.ok.openLive p i hi, h0⟩
    rw [contents_of_open h.ok hi, hlen, Int.toNat_natCast] at hF
    rw [FileBytes.slice_read, hF, Access.model, sectorAt_of_open hi]
  | write p buffer size offset =>
    obtain ⟨⟨i, hi, hdeny⟩, hsize, hmax⟩ := hfits
    obtain ⟨h0, hl⟩ := hfile i hi
    rw [Access.run, wp_bind]
    refine wp_inodeWriteAt hP h.ok hi h0 hl hdeny hsize hmax (fun w' d hw => ?_) fun hno => hno.elim
    have hlen : d.length ≤ 8517120 := by
      rw [hw.length]
      omega
    refine (wp_pure _).mpr ⟨rfl, ⟨hw.ok, fun s hs => ?_⟩, hw.toTouched.stillOpen hi hlen⟩
    have hF := h.contents i.sector ⟨h.ok.openLive p i hi, h0⟩
    rw [hw.contents h.ok hi h0 hs, Access.model, sectorAt_of_open hi, ← hF]
    show _ = Function.update F i.sector _ s
    by_cases heq : s = i.sector
    · rw [heq, Function.update_self, Function.update_self]
    · rw [Function.update_of_ne heq, Function.update_of_ne heq, h.contents s hs]

/-- The calls one after the other, by induction on the list. -/
theorem Stands.wp_runAll {F : Files} {as : List Access} (h : Stands live w F) (hfits : ∀ a ∈ as, a.Fits w)
    (hfile : ∀ a ∈ as, a.OnFile w) :
    wp .space (runAll as) (fun r w' => r = (modelAll w.mem.sectorAt as F).1 ∧
      ∀ s ∈ live \ {0}, Filesys.contents w' s = (modelAll w.mem.sectorAt as F).2 s) (fun _ _ => False) w := by
  induction as generalizing w F with
  | nil => exact (wp_pure _).mpr ⟨rfl, h.contents⟩
  | cons a as ih =>
    have hhead := h.wp_run (E := fun _ _ => False) (hfits a (List.mem_cons_self ..)) (hfile a (List.mem_cons_self ..))
    refine wp_seq hhead fun r w₁ hstep => ?_
    obtain ⟨hr, h₁, hopen⟩ := hstep
    have hrest : ∀ b ∈ as, b.Fits w₁ ∧ b.OnFile w₁ := fun b hb =>
      hopen.fits b (hfits b (List.mem_cons_of_mem _ hb)) (hfile b (List.mem_cons_of_mem _ hb))
    have htail := ih h₁ (fun b hb => (hrest b hb).1) fun b hb => (hrest b hb).2
    refine wp_seq htail fun rs w₂ hend => ?_
    obtain ⟨hrs, hfiles⟩ := hend
    rw [hopen.sectorAt] at hrs hfiles
    exact (wp_pure _).mpr ⟨by rw [hr, hrs, modelAll], hfiles⟩

/-- **Inodes are growable byte strings.**  Calls that read and write well formed inodes, with memory and
sectors for every allocation, return what the same calls on byte strings return, and leave in every inode but the
free map's the string that they leave there. -/
theorem contents_refine {as : List Access} (h : InodeOk w live) (hfits : ∀ a ∈ as, a.Fits w)
    (hfile : ∀ a ∈ as, a.OnFile w) : Refines .space w (live \ {0}) as := by
  intro r w' hrun
  have hstands : Stands live w (contents w) := ⟨h, fun _ _ => rfl⟩
  have hsat := wp_iff_runs.mp (hstands.wp_runAll hfits hfile) r w' hrun
  cases r with
  | ok rs => exact ⟨congrArg _ hsat.1, hsat.2⟩
  | error e => exact hsat.elim

namespace Layer

/-- The file that has been made and opened, and what a write of 512 bytes behind its end does to the file of the free
map. -/
theorem opened_write :
    ((opened.world.mem.heap 3).any fun i => decide (i.sector = 4 ∧ i.denyWriteCnt = 0 ∧ i.data.length = 600)) = true ∧
    (runArray (runAll [.write 3 (fun _ => 65) 512 600]) plainEnv opened.world).2.1.failed = false ∧
    contents (runArray (runAll [.write 3 (fun _ => 65) 512 600]) plainEnv opened.world).2.2 0 ≠
      contents opened.world 0 := by
  decide +kernel

theorem opened_file : ∃ i, opened.world.mem.heap 3 = some i ∧ i.sector = 4 ∧ i.denyWriteCnt = 0 ∧
    i.data.length = 600 := by
  have hfile := opened_write.1
  cases hi : opened.world.mem.heap 3 with
  | none =>
    rw [hi] at hfile
    cases hfile
  | some i =>
    rw [hi] at hfile
    exact ⟨i, rfl, of_decide_eq_true hfile⟩

theorem opened_inodes : InodeOk opened.world opened.live := (started16_started.sound trace_opened).ok.inodes

end Layer

theorem contents_refine_opened : Refines .space Layer.opened.world (Layer.opened.live \ {0})
    [.write 3 (fun _ => 65) 100 1000, .read 3 20 990] := by
  obtain ⟨i, hi, hs, hdeny, hlen⟩ := Layer.opened_file
  have hfile : ∀ j, Layer.opened.world.mem.heap 3 = some j → j.sector ≠ 0 ∧ j.data.length ≤ 8517120 := by
    intro j hj
    rw [hi] at hj
    obtain rfl := Option.some.inj hj
    exact ⟨by omega, by omega⟩
  apply contents_refine Layer.opened_inodes
  · intro a ha
    rcases List.mem_pair.mp ha with rfl | rfl
    · exact ⟨⟨i, hi, hdeny⟩, by decide, by decide⟩
    · exact ⟨⟨i, hi⟩, by decide⟩
  · intro a ha
    rcases List.mem_pair.mp ha with rfl | rfl
    · exact hfile
    · exact hfile

/-- The sector that the write takes is marked in the free map, whose file is an inode too. -/
theorem write_changes_freeMap : ¬∀ (w : World) (live : Set ℕ) (as : List Access), InodeOk w live →
    (∀ a ∈ as, a.Fits w) → Refines .space w live as := by
  intro hall
  obtain ⟨i, hi, hs, hdeny, _⟩ := Layer.opened_file
  obtain ⟨_, hspace, hchanged⟩ := Layer.opened_write
  have hfits : ∀ a ∈ [Access.write 3 (fun _ => 65) 512 600], a.Fits Layer.opened.world := by
    intro a ha
    rw [List.mem_singleton.mp ha]
    exact ⟨⟨i, hi, hdeny⟩, by decide, by decide⟩
  have hrun := runs_runArray (P := .space) (runAll [.write 3 (fun _ => 65) 512 600]) (e := plainEnv)
    (w := Layer.opened.world) ⟨fun _ => rfl, fun _ => trivial⟩ (by simp [hspace])
  obtain ⟨_, hfiles⟩ := hall _ _ _ Layer.opened_inodes hfits _ _ hrun
  have hsector : (0 : ℕ) ≠ Layer.opened.world.mem.sectorAt 3 := by
    rw [sectorAt_of_open hi]
    omega
  have hmodel : ((Access.write 3 (fun _ => 65) 512 600).model Layer.opened.world.mem.sectorAt
      (contents Layer.opened.world)).2 0 = contents Layer.opened.world 0 := Access.model_of_ne _ hsector
  exact hchanged ((hfiles 0 Layer.opened_inodes.zero).trans hmodel)

end Pintos.Filesys
