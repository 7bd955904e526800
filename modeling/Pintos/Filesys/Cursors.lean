import Pintos.Filesys.Contents
import Pintos.Filesys.Directory

/-!
# Open files

`filesys/file.c`: any number of `struct file`s, each with a position of its own, over inodes that they may share.

* `Posix` is what their callers think of: one byte string for every inode, and one position for every file.
* `cursors_refine`: each run of calls returns what the strings and the positions say, and leaves the files where they
  say.
-/

namespace Pintos.Filesys.Cursors

open PtrForest

/-! ## The code -/

/-- A call on the open file `n`. -/
inductive FileOp
  | read (n size : ℕ)
  | readAt (n size ofs : ℕ)
  | write (n : ℕ) (buffer : ℕ → UInt8) (size : ℕ)
  | writeAt (n : ℕ) (buffer : ℕ → UInt8) (size ofs : ℕ)
  | seek (n newPos : ℕ)
  | tell (n : ℕ)
  | length (n : ℕ)

inductive Answer
  | bytes (l : List UInt8)
  | number (k : ℤ)
  | done
  deriving DecidableEq

/-- The open files. -/
abbrev Table := ℕ → File

/-- `file_read_at` -/
def fileReadAt (f : File) (size fileOfs : ℤ) : Fs (List UInt8) := inodeReadAt f.inode size fileOfs

/-- `file_write_at` -/
def fileWriteAt (f : File) (buffer : ℕ → UInt8) (size fileOfs : ℤ) : Fs ℤ := inodeWriteAt f.inode buffer size fileOfs

/-- `file_tell` -/
def fileTell (f : File) : ℤ := f.pos

/-- `file_length` -/
def fileLength (f : File) : Fs ℤ := inodeLength f.inode

/-- The call, with the file where it leaves it. -/
def FileOp.run (table : Table) : FileOp → Fs (Answer × Table)
  | .read n size => do
    let (l, f) ← fileRead (table n) size
    return (.bytes l, Function.update table n f)
  | .readAt n size ofs => do return (.bytes (← fileReadAt (table n) size ofs), table)
  | .write n buffer size => do
    let (k, f) ← fileWrite (table n) buffer size
    return (.number k, Function.update table n f)
  | .writeAt n buffer size ofs => do return (.number (← fileWriteAt (table n) buffer size ofs), table)
  | .seek n newPos => do return (.done, Function.update table n (← fileSeek (table n) newPos))
  | .tell n => return (.number (fileTell (table n)), table)
  | .length n => do return (.number (← fileLength (table n)), table)

/-- The calls one after the other. -/
def runOps : Table → List FileOp → Fs (List Answer × Table)
  | table, [] => return ([], table)
  | table, op :: ops => do
    let (a, table) ← op.run table
    let (as, table) ← runOps table ops
    return (a :: as, table)

/-! ## Strings and positions -/

/-- What the callers of the files think of. -/
structure Posix where
  files : Files
  pos : ℕ → ℕ

/-- The same call on strings and positions; `sector n` is the inode of file `n`. -/
def FileOp.model (sector : ℕ → ℕ) (st : Posix) : FileOp → Answer × Posix
  | .read n size =>
    let l := FileBytes.read (st.files (sector n)) (st.pos n) size
    (.bytes l, { st with pos := Function.update st.pos n (st.pos n + l.length) })
  | .readAt n size ofs => (.bytes (FileBytes.read (st.files (sector n)) ofs size), st)
  | .write n buffer size =>
    (.number size,
      { files := Function.update st.files (sector n)
          (FileBytes.write (st.files (sector n)) (st.pos n) (Bytes.slice buffer 0 size))
        pos := Function.update st.pos n (st.pos n + size) })
  | .writeAt n buffer size ofs =>
    (.number size,
      { st with
        files := Function.update st.files (sector n)
          (FileBytes.write (st.files (sector n)) ofs (Bytes.slice buffer 0 size)) })
  | .seek n newPos => (.done, { st with pos := Function.update st.pos n newPos })
  | .tell n => (.number (st.pos n), st)
  | .length n => (.number (st.files (sector n)).length, st)

def modelOps (sector : ℕ → ℕ) : List FileOp → Posix → List Answer × Posix
  | [], st => ([], st)
  | op :: ops, st =>
    let r := op.model sector st
    let rest := modelOps sector ops r.2
    (r.1 :: rest.1, rest.2)

/-! ## What a call asks of the inode -/

/-- The call of the inode layer, when the file is at `pos`; of the others, that the inode is open. -/
def FileOp.access (inode : ℕ) (pos : ℕ) : FileOp → Access
  | .read _ size => .read inode size pos
  | .readAt _ size ofs => .read inode size ofs
  | .write _ buffer size => .write inode buffer size pos
  | .writeAt _ buffer size ofs => .write inode buffer size ofs
  | .seek _ _ | .tell _ | .length _ => .read inode 0 0

/-- The file of a call. -/
def FileOp.file : FileOp → ℕ
  | .read n _ | .readAt n _ _ | .write n _ _ | .writeAt n _ _ _ | .seek n _ | .tell n | .length n => n

/-- Each call is one that its inode can have, when the calls before it have moved the positions. -/
def FitAll (w : World) (inode sector : ℕ → ℕ) : List FileOp → Posix → Prop
  | [], _ => True
  | op :: ops, st => (op.access (inode op.file) (st.pos op.file)).Fits w ∧
      (op.access (inode op.file) (st.pos op.file)).OnFile w ∧ FitAll w inode sector ops (op.model sector st).2

variable {w w' : World} {live : Set ℕ} {table table' : Table} {inode sector : ℕ → ℕ} {st : Posix} {op : FileOp}
  {ops : List FileOp} {n : ℕ}

theorem FitAll.mono (h : FitAll w inode sector ops st) (hopen : StillOpen w w') : FitAll w' inode sector ops st := by
  induction ops generalizing st with
  | nil => trivial
  | cons op ops ih =>
    obtain ⟨hfits, hfile, hrest⟩ := h
    obtain ⟨hfits', hfile'⟩ := hopen.fits _ hfits hfile
    exact ⟨hfits', hfile', ih hrest⟩

/-- The files are where the positions say, over the inodes of `inode`. -/
structure Agrees (inode : ℕ → ℕ) (table : Table) (st : Posix) : Prop where
  pos : ∀ n, (table n).pos = st.pos n
  inode : ∀ n, (table n).inode = inode n

/-- A file goes to another position. -/
theorem Agrees.move (h : Agrees inode table st) (n : ℕ) {f : File} {k : ℕ} (files : Files) (hf : f.inode = (table n).inode)
    (hk : f.pos = k) : Agrees inode (Function.update table n f) ⟨files, Function.update st.pos n k⟩ := by
  refine ⟨fun m => ?_, fun m => ?_⟩
  · by_cases hm : m = n
    · subst hm
      simp [hk]
    · simp [hm, h.pos]
  · by_cases hm : m = n
    · subst hm
      simp [hf, h.inode]
    · simp [hm, h.inode]

/-! ## One call -/

/-- What a call shall do. -/
def Meets (live : Set ℕ) (inode sector : ℕ → ℕ) (st : Posix) (op : FileOp) (w : World) (r : Answer × Table) (w' : World) :
    Prop :=
  r.1 = (op.model sector st).1 ∧ Agrees inode r.2 (op.model sector st).2 ∧
    Stands live w' (op.model sector st).2.files ∧ StillOpen w w'

/-- The length of a string is that of the inode. -/
theorem length_of_open {F : Files} {i : Inode} {p : ℕ} (h : Stands live w F) (hi : w.mem.heap p = some i)
    (h0 : i.sector ≠ 0) : ((F i.sector).length : ℤ) = i.data.length := by
  obtain ⟨len, hlen⟩ := h.ok.open_length hi
  rw [← h.contents i.sector ⟨h.ok.openLive p i hi, h0⟩, contents_of_open h.ok hi, Bytes.slice_length, hlen]
  simp

/-- **A call on the code is a call on strings and positions.** -/
theorem wp_op {E : Stop → World → Prop} (h : Stands live w st.files) (hag : Agrees inode table st)
    (hsector : ∀ n, w.mem.sectorAt (inode n) = sector n)
    (hfits : (op.access (inode op.file) (st.pos op.file)).Fits w)
    (hfile : (op.access (inode op.file) (st.pos op.file)).OnFile w) :
    wp .space (op.run table) (Meets live inode sector st op w) E w := by
  have hcall := h.wp_run (E := E) hfits hfile
  cases op with
  | read n size =>
    obtain ⟨⟨i, hi⟩, hofs⟩ := hfits
    obtain ⟨h0, hl⟩ := hfile i hi
    have hlen := length_of_open h hi h0
    have hs : i.sector = sector n := (sectorAt_of_open hi).symm.trans (hsector n)
    simp only [FileOp.run, fileRead, wp_bind, hag.inode, hag.pos]
    simp only [FileOp.access, FileOp.file, Access.run, wp_bind, wp_pure, Access.model, hsector] at hcall
    refine wp_mono hcall (fun l w' hr => ?_) fun _ _ hE => hE
    obtain ⟨hbytes, hstands, hopen⟩ := hr
    cases hbytes
    refine (wp_pure _).mpr ((wp_pure _).mpr ⟨rfl, hag.move n _ (hag.inode n).symm ?_, hstands, hopen⟩)
    rw [← hs]
    simp only [FileOp.file] at hofs
    rw [wrap32_of_mem]
    · push_cast
      rfl
    · omega
    · rw [FileBytes.length_read]
      omega
  | readAt n size ofs =>
    simp only [FileOp.run, fileReadAt, wp_bind, hag.inode]
    simp only [FileOp.access, FileOp.file, Access.run, wp_bind, wp_pure, Access.model, hsector] at hcall
    refine wp_mono hcall (fun l w' hr => ?_) fun _ _ hE => hE
    obtain ⟨hbytes, hstands, hopen⟩ := hr
    cases hbytes
    exact (wp_pure _).mpr ⟨rfl, hag, hstands, hopen⟩
  | write n buffer size =>
    obtain ⟨_, hsize, hmax⟩ := hfits
    simp only [FileOp.file] at hmax
    simp only [FileOp.run, fileWrite, wp_bind, hag.inode, hag.pos]
    simp only [FileOp.access, FileOp.file, Access.run, wp_bind, wp_pure, Access.model, hsector] at hcall
    refine wp_mono hcall (fun k w' hr => ?_) fun _ _ hE => hE
    obtain ⟨hwritten, hstands, hopen⟩ := hr
    cases hwritten
    refine (wp_pure _).mpr ((wp_pure _).mpr ⟨rfl, hag.move n _ (hag.inode n).symm ?_, hstands, hopen⟩)
    rw [wrap32_of_mem]
    · push_cast
      rfl
    · omega
    · omega
  | writeAt n buffer size ofs =>
    simp only [FileOp.run, fileWriteAt, wp_bind, hag.inode]
    simp only [FileOp.access, FileOp.file, Access.run, wp_bind, wp_pure, Access.model, hsector] at hcall
    refine wp_mono hcall (fun k w' hr => ?_) fun _ _ hE => hE
    obtain ⟨hwritten, hstands, hopen⟩ := hr
    cases hwritten
    exact (wp_pure _).mpr ⟨rfl, ⟨hag.pos, hag.inode⟩, hstands, hopen⟩
  | seek n newPos =>
    rw [FileOp.run, wp_bind, fileSeek, if_pos (Int.natCast_nonneg newPos)]
    exact (wp_pure _).mpr ((wp_pure _).mpr ⟨rfl, hag.move n st.files rfl rfl, h, .refl w⟩)
  | tell n => exact (wp_pure _).mpr ⟨by rw [fileTell, hag.pos]; rfl, hag, h, .refl w⟩
  | length n =>
    obtain ⟨⟨i, hi⟩, _⟩ := hfits
    obtain ⟨h0, _⟩ := hfile i hi
    have hlen := length_of_open h hi h0
    rw [(sectorAt_of_open hi).symm.trans (hsector n)] at hlen
    simp only [FileOp.file] at hi
    rw [FileOp.run, wp_bind, fileLength, inodeLength, hag.inode, wp_bind, wp_deref_some hi]
    exact (wp_pure _).mpr ((wp_pure _).mpr ⟨by rw [← hlen]; rfl, hag, h, .refl w⟩)

/-! ## Runs of calls -/

/-- The calls one after the other, by induction on the list. -/
theorem wp_runOps (h : Stands live w st.files) (hag : Agrees inode table st)
    (hsector : ∀ n, w.mem.sectorAt (inode n) = sector n) (hfit : FitAll w inode sector ops st) :
    wp .space (runOps table ops) (fun r w' => r.1 = (modelOps sector ops st).1 ∧
      Agrees inode r.2 (modelOps sector ops st).2 ∧ Stands live w' (modelOps sector ops st).2.files)
      (fun _ _ => False) w := by
  induction ops generalizing w table st with
  | nil => exact (wp_pure _).mpr ⟨rfl, hag, h⟩
  | cons op ops ih =>
    obtain ⟨hfits, hfile, hrest⟩ := hfit
    refine wp_seq (wp_op h hag hsector hfits hfile) fun r w₁ hmeets => ?_
    obtain ⟨ha, hag₁, h₁, hopen⟩ := hmeets
    obtain ⟨a, table₁⟩ := r
    have hsector₁ : ∀ n, w₁.mem.sectorAt (inode n) = sector n := by
      intro n
      rw [hopen.sectorAt]
      exact hsector n
    refine wp_seq (ih h₁ hag₁ hsector₁ (hrest.mono hopen)) fun r w₂ hend => ?_
    obtain ⟨has, hag₂, h₂⟩ := hend
    obtain ⟨as, table₂⟩ := r
    have ha' : a = (op.model sector st).1 := ha
    have has' : as = (modelOps sector ops (op.model sector st).2).1 := has
    exact (wp_pure _).mpr ⟨by rw [ha', has', modelOps], hag₂, h₂⟩

def twoFiles : Table := fun _ => ⟨3, 0, false⟩

def writeSeekRead : List FileOp := [.write 0 (fun _ => 65) 600, .seek 1 10, .read 1 5, .tell 1]

theorem twoFiles_runs : (runArray (runOps twoFiles writeSeekRead) plainEnv Layer.opened.world).2.1.failed = false := by
  decide +kernel

theorem twoFiles_fit : FitAll Layer.opened.world (fun n => (twoFiles n).inode)
    (fun n => Layer.opened.world.mem.sectorAt (twoFiles n).inode) writeSeekRead
    ⟨contents Layer.opened.world, fun _ => 0⟩ := by
  obtain ⟨i, hi, hs, hdeny, hlen⟩ := Layer.opened_file
  have hfile : ∀ j, Layer.opened.world.mem.heap 3 = some j → j.sector ≠ 0 ∧ j.data.length ≤ 8517120 := by
    intro j hj
    obtain rfl := Option.some.inj (hi.symm.trans hj)
    exact ⟨by omega, by omega⟩
  refine ⟨⟨⟨i, hi, hdeny⟩, by decide, by decide⟩, hfile, ⟨⟨i, hi⟩, by decide⟩, hfile, ⟨⟨i, hi⟩, ?_⟩, hfile,
    ⟨⟨i, hi⟩, by decide⟩, hfile, trivial⟩
  show Function.update (Function.update (fun _ => 0) 0 600) 1 10 1 < 2 ^ 31
  simp

end Pintos.Filesys.Cursors
