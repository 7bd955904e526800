import Pintos.Filesys.Indices
import Pintos.Library.Trace
import Pintos.Threads.Vaddr

/-!
# Numbers from user processes

The size of `create`, `read` and `write` and the position of `seek` are 32-bit words, converted to
`off_t` on their way into the file system.  A run is any sequence of these calls on any open files;
between two calls the file system may change in any way.

Three calls go wrong: a `create` or a `seek` with a number from 2^31 on fails an assertion, and a `write`
whose last byte is at -512 or before in 32-bit arithmetic indexes `dir_blocks` in front of its start.  In
the runs without these, nothing does (`user_numbers_safe`).
-/

namespace Pintos.Userprog

open Pintos.Threads Pintos.Filesys

/-- The file system, the open files, and why the kernel has stopped. -/
structure OpenFiles where
  world : World
  files : ℕ → Option File
  stopped : Option Stop

/-- A call; `fd` stands for an open file of any process. -/
inductive NumberCall
  /-- `inode_create` on the sector that `filesys_create` has allocated. -/
  | create (sector : ℕ) (initialSize : Word)
  | «open» (fd inode : ℕ)
  | read (fd : ℕ) (size : Word)
  | write (fd : ℕ) (buffer : ℕ → UInt8) (size : Word)
  | seek (fd : ℕ) (position : Word)
  | close (fd : ℕ)
  /-- Everything else that happens to the file system. -/
  | other (w : World)

/-- What stops the kernel: `exit` and a page fault end a process only. -/
def halts {α : Type} : Except Stop α → Option Stop
  | .ok _ => none
  | .error (.exit _) => none
  | .error .pageFault => none
  | .error e => some e

namespace OpenFiles

/-- The state after a call that works on no open file. -/
def ends {α : Type} (s : OpenFiles) (r : Except Stop α) (w : World) : OpenFiles :=
  { s with world := w, stopped := halts r }

/-- The state after a call on `fd`. -/
def endsFile {α : Type} (s : OpenFiles) (fd : ℕ) : Except Stop (α × File) → World → OpenFiles
  | .ok (_, f), w => ⟨w, Function.update s.files fd (some f), none⟩
  | .error e, w => ⟨w, s.files, halts (.error e : Except Stop α)⟩

/-- `Step s c s'`: the call `c` may lead from `s` to `s'`. -/
inductive Step : OpenFiles → NumberCall → OpenFiles → Prop
  | create {s : OpenFiles} {sector : ℕ} {size : Word} {r : Except Stop Bool} {w : World}
      (h : s.stopped = none) (hw : Sized s.world.mem)
      (hr : Runs .any (inodeCreate sector size.toInt false) s.world r w) :
      Step s (.create sector size) (s.ends r w)
  | open {s : OpenFiles} (fd inode : ℕ) (h : s.stopped = none) :
      Step s (.open fd inode) { s with files := Function.update s.files fd (some ⟨inode, 0, false⟩) }
  | read {s : OpenFiles} {fd : ℕ} {f : File} {size : Word} {r : Except Stop (List UInt8 × File)}
      {w : World} (h : s.stopped = none) (hw : Sized s.world.mem) (hf : s.files fd = some f)
      (hr : Runs .any (Filesys.fileRead f size.toInt) s.world r w) :
      Step s (.read fd size) (s.endsFile fd r w)
  | write {s : OpenFiles} {fd : ℕ} {f : File} {buffer : ℕ → UInt8} {size : Word}
      {r : Except Stop (ℤ × File)} {w : World} (h : s.stopped = none) (hw : Sized s.world.mem)
      (hf : s.files fd = some f) (hr : Runs .any (fileWrite f buffer size.toInt) s.world r w) :
      Step s (.write fd buffer size) (s.endsFile fd r w)
  | seek {s : OpenFiles} {fd : ℕ} {f : File} {position : Word} {r : Except Stop File} {w : World}
      (h : s.stopped = none) (hf : s.files fd = some f)
      (hr : Runs .any (Filesys.fileSeek f position.toInt) s.world r w) :
      Step s (.seek fd position) (s.endsFile fd (r.map fun f => ((), f)) w)
  | close {s : OpenFiles} (fd : ℕ) (h : s.stopped = none) :
      Step s (.close fd) { s with files := Function.update s.files fd none }
  | other {s : OpenFiles} (w : World) (h : s.stopped = none) : Step s (.other w) { s with world := w }

/-- No file is open. -/
structure Start (s : OpenFiles) : Prop where
  files : ∀ fd, s.files fd = none
  stopped : s.stopped = none

/-- The number of a call is in order.  `write` does nothing to an inode that is write-denied. -/
def Fits (s : OpenFiles) : NumberCall → Prop
  | .create _ size => size.toNat < 2 ^ 31
  | .seek _ position => position.toNat < 2 ^ 31
  | .write fd _ size => ∀ f i, s.files fd = some f → s.world.mem.heap f.inode = some i →
      i.denyWriteCnt = 0 → -512 < wrap32 (wrap32 (f.pos + size.toInt) - 1)
  | _ => True

/-- A step with a number in order. -/
def FitsStep (s : OpenFiles) (c : NumberCall) (s' : OpenFiles) : Prop := Step s c s' ∧ s.Fits c

/-- Positions are not negative, and neither an assertion has failed nor an index left its array. -/
structure Safe (s : OpenFiles) : Prop where
  pos : ∀ fd f, s.files fd = some f → 0 ≤ f.pos ∧ f.pos < 2 ^ 31
  assertion : s.stopped ≠ some .assertion
  bounds : s.stopped ≠ some .outOfBounds

variable {s s' : OpenFiles} {c : NumberCall}

theorem halts_harmless {α : Type} {r : Except Stop α} (h : ∀ e, r = .error e → Harmless e) :
    halts r ≠ some .assertion ∧ halts r ≠ some .outOfBounds := by
  cases r with
  | ok a => exact ⟨nofun, nofun⟩
  | error e =>
    obtain ⟨h1, h2⟩ := h e rfl
    cases e with
    | assertion => exact absurd rfl h1
    | outOfBounds => exact absurd rfl h2
    | exit | panic | pageFault | useAfterFree | stackOverflow | diverges => exact ⟨nofun, nofun⟩

/-- What a function's weakest precondition says of its runs. -/
theorem of_wp {α : Type} {p : Fs α} {Q : α → Prop} {w w' : World} {r : Except Stop α}
    (h : wp .any p (fun a _ => Q a) (fun e _ => Harmless e) w) (hr : Runs .any p w r w') :
    (∀ a, r = .ok a → Q a) ∧ ∀ e, r = .error e → Harmless e := by
  have hsat := wp_iff_runs.mp h r w' hr
  constructor
  · rintro a rfl
    exact hsat
  · rintro e rfl
    exact hsat

/-- A call on an open file leaves its position in range. -/
theorem Safe.endsFile {α : Type} {r : Except Stop (α × File)} {fd : ℕ} (hs : s.Safe) (w : World)
    (hok : ∀ a, r = .ok a → 0 ≤ a.2.pos ∧ a.2.pos < 2 ^ 31) (he : ∀ e, r = .error e → Harmless e) :
    (s.endsFile fd r w).Safe := by
  cases r with
  | ok a =>
    refine ⟨fun n f hf => ?_, nofun, nofun⟩
    have hf : Function.update s.files fd (some a.2) n = some f := hf
    by_cases hn : n = fd
    · subst hn
      rw [Function.update_self] at hf
      cases hf
      exact hok a rfl
    · rw [Function.update_of_ne hn] at hf
      exact hs.pos n f hf
  | error e =>
    have hh := halts_harmless (α := α) (r := .error e) fun e' heq => by
      cases heq
      exact he e rfl
    exact ⟨hs.pos, hh.1, hh.2⟩

theorem toInt_nonneg {n : Word} (h : n.toNat < 2 ^ 31) : 0 ≤ n.toInt := by
  rw [BitVec.toInt_eq_toNat_cond]
  split <;> omega

/-- A position that has been advanced to below 2^31. -/
theorem wrap_pos {pos n : ℤ} (h0 : 0 ≤ pos) (hn : 0 ≤ n) (h : pos + n < 2 ^ 31) :
    0 ≤ wrap32 (pos + n) ∧ wrap32 (pos + n) < 2 ^ 31 := by
  rw [wrap32_of_mem (by omega) h]
  exact ⟨by omega, h⟩

theorem wp_fileRead_index {f : File} {size : ℤ} {w : World} (hw : Sized w.mem) (h0 : 0 ≤ f.pos)
    (h : f.pos < 2 ^ 31) : wp .any (Filesys.fileRead f size)
      (fun a _ => 0 ≤ a.2.pos ∧ a.2.pos < 2 ^ 31) (fun e _ => Harmless e) w := by
  refine wp_seq (wp_inodeReadAt_index hw h0 h) ?_
  rintro l _ ⟨_, hl⟩
  exact (wp_pure _).mpr (wrap_pos h0 (by omega) hl)

theorem wp_fileWrite_index {f : File} {buffer : ℕ → UInt8} {size : ℤ} {w : World} (hw : Sized w.mem)
    (h0 : 0 ≤ f.pos) (h : f.pos < 2 ^ 31)
    (hlast : ∀ i, w.mem.heap f.inode = some i → i.denyWriteCnt = 0 →
      -512 < wrap32 (wrap32 (f.pos + size) - 1)) :
    wp .any (fileWrite f buffer size)
      (fun a _ => 0 ≤ a.2.pos ∧ a.2.pos < 2 ^ 31) (fun e _ => Harmless e) w := by
  refine wp_seq (wp_inodeWriteAtDepth_index callDepth hw h0 h hlast) ?_
  rintro n _ ⟨⟨hn, hlt⟩, _⟩
  exact (wp_pure _).mpr (wrap_pos h0 hn hlt)

theorem wp_fileSeek_index {f : File} {newPos : ℤ} {w : World} (h0 : 0 ≤ newPos) (h : newPos < 2 ^ 31) :
    wp .any (Filesys.fileSeek f newPos) (fun f _ => 0 ≤ f.pos ∧ f.pos < 2 ^ 31) (fun e _ => Harmless e) w := by
  unfold Filesys.fileSeek
  rw [if_pos h0]
  exact (wp_pure _).mpr ⟨h0, h⟩

/-- Opening and closing. -/
theorem Safe.update (hs : s.Safe) (fd : ℕ) {o : Option File}
    (ho : ∀ f, o = some f → 0 ≤ f.pos ∧ f.pos < 2 ^ 31) :
    Safe { s with files := Function.update s.files fd o } := by
  refine ⟨fun n f hf => ?_, hs.assertion, hs.bounds⟩
  have hf : Function.update s.files fd o n = some f := hf
  by_cases hn : n = fd
  · subst hn
    rw [Function.update_self] at hf
    exact ho f hf
  · rw [Function.update_of_ne hn] at hf
    exact hs.pos n f hf

/-- **A call with a number in order keeps the kernel safe.** -/
theorem Safe.step (hs : s.Safe) (h : FitsStep s c s') : s'.Safe := by
  obtain ⟨hstep, hfits⟩ := h
  cases hstep with
  | @create sector size r w h hw hr =>
    have hquiet := Quiet.inodeCreate sector false (toInt_nonneg hfits) s.world hw
    have hend := of_wp (Q := fun _ => True) (wp_mono_ret hquiet fun _ _ _ => trivial) hr
    have hh := halts_harmless hend.2
    exact ⟨hs.pos, hh.1, hh.2⟩
  | «open» fd inode h =>
    refine hs.update fd fun f hf => ?_
    cases hf
    exact ⟨le_rfl, by norm_num⟩
  | @read fd f size r w h hw hf hr =>
    obtain ⟨h0, hlt⟩ := hs.pos fd f hf
    have hend := of_wp (wp_fileRead_index hw h0 hlt) hr
    exact hs.endsFile w hend.1 hend.2
  | @write fd f buffer size r w h hw hf hr =>
    obtain ⟨h0, hlt⟩ := hs.pos fd f hf
    have hend := of_wp (wp_fileWrite_index hw h0 hlt fun i hi => hfits f i hf hi) hr
    exact hs.endsFile w hend.1 hend.2
  | @seek fd f position r w h hf hr =>
    have hlt : position.toInt < 2 ^ 31 := by
      rw [BitVec.toInt_eq_toNat_cond]
      split <;> omega
    have hend := of_wp (wp_fileSeek_index (toInt_nonneg hfits) hlt) hr
    refine hs.endsFile w ?_ ?_
    · intro a ha
      cases r with
      | ok f =>
        cases ha
        exact hend.1 f rfl
      | error e => cases ha
    · intro e he
      cases r with
      | ok f => cases he
      | error e₁ =>
        have heq : e₁ = e := Except.error.inj he
        exact hend.2 e (by rw [heq])
  | close fd h => exact hs.update fd fun f hf => nomatch hf
  | other w h => exact ⟨hs.pos, hs.assertion, hs.bounds⟩

theorem Start.safe (h : s.Start) : s.Safe := by
  have hstopped := h.stopped
  refine ⟨fun fd f hf => ?_, fun he => ?_, fun he => ?_⟩
  · rw [h.files fd] at hf
    cases hf
  · rw [hstopped] at he
    cases he
  · rw [hstopped] at he
    cases he

end OpenFiles

open OpenFiles

/-- **Numbers from user processes.**  In every run of calls whose numbers are in order, the assertions of
`inode_create` and `file_seek` hold, and every index that `sector_number` uses is inside its array: no
check of an index fails, where `sector_number` is the function that checks them all. -/
theorem user_numbers_safe {s₀ s : OpenFiles} {cs : List NumberCall} (hstart : s₀.Start)
    (hrun : Trace FitsStep s₀ cs s) :
    (s.stopped ≠ some .assertion ∧ s.stopped ≠ some .outOfBounds) ∧
      ∀ d index, sectorNumber d index = sectorNumberChecked d index := by
  have hsafe : s.Safe := hrun.invariant (fun _ _ _ hs hstep => hs.step hstep) hstart.safe
  exact ⟨⟨hsafe.assertion, hsafe.bounds⟩, sectorNumber_eq_checked⟩

/-! ## Single runs -/

/-- Memory with an open inode of 512 bytes at address 3. -/
def smallFile : World :=
  let data : InodeDisk := (InodeDisk.setDirBlock Block.zero 0 6).setLength 512
  let heap := fun p => if p = 3 then some ⟨5, 1, false, 0, data⟩ else none
  ⟨⟨8, heap, 4, [3], ⟨8, fun _ => true⟩, none, none⟩, fun _ => Block.zero⟩

/-- That file system, and no file open. -/
def smallStart : OpenFiles := ⟨smallFile, fun _ => none, none⟩

theorem smallStart_start : smallStart.Start := ⟨fun _ => rfl, rfl⟩

/-- A seek to the last position there is. -/
theorem user_numbers_safe_seek :
    ∃ s : OpenFiles, s.stopped ≠ some .assertion ∧ s.stopped ≠ some .outOfBounds := by
  have hrun : ∃ s, Trace FitsStep smallStart [.open 0 3, .seek 0 0x7fffffff] s :=
    ⟨_, .cons ⟨.open 0 3 rfl, trivial⟩
      (.cons ⟨.seek rfl rfl ⟨rfl, rfl⟩, show (0x7fffffff : Word).toNat < 2 ^ 31 by decide⟩ (.nil _))⟩
  obtain ⟨s, hrun⟩ := hrun
  exact ⟨s, (user_numbers_safe smallStart_start hrun).1⟩

/-- The three failures: `create` and `seek` with 2^31, and a `write` of -600 bytes at position 0. -/
theorem user_numbers_fail :
    (∃ s, OpenFiles.Step smallStart (.create 7 0x80000000) s ∧ s.stopped = some .assertion) ∧
      (∃ s, Trace OpenFiles.Step smallStart [.open 0 3, .seek 0 0x80000000] s ∧ s.stopped = some .assertion) ∧
      ∃ s, Trace OpenFiles.Step smallStart [.open 0 3, .write 0 (fun _ => 0) 0xfffffda8] s ∧
        s.stopped = some .outOfBounds := by
  have hsized : Sized smallFile.mem := ⟨by decide, by decide⟩
  refine ⟨⟨_, .create (r := .error .assertion) rfl hsized ⟨rfl, rfl⟩, rfl⟩, ⟨_, .cons (.open 0 3 rfl)
    (.cons (.seek (r := .error .assertion) rfl rfl ⟨rfl, rfl⟩) (.nil _)), rfl⟩, ?_⟩
  have hwrite : Runs .any (fileWrite ⟨3, 0, false⟩ (fun _ => 0) (0xfffffda8 : Word).toInt) smallFile
      (.error .outOfBounds) smallFile :=
    ⟨_, _, ⟨rfl, rfl⟩, _, _, ⟨rfl, rfl⟩, rfl, rfl⟩
  exact ⟨_, .cons (.open 0 3 rfl) (.cons (.write rfl hsized rfl hwrite) (.nil _)), rfl⟩

end Pintos.Userprog
