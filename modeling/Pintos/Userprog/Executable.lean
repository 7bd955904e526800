import Pintos.Filesys.Calm
import Pintos.Filesys.Indices
import Pintos.Userprog.ProcessFiles

/-!
# Writing to a running executable

`load` closes the executable without having denied writes to it; writes are denied only by `open`, to a
process that opens a file under the very name of its thread.  So whenever a first program is loaded after
boot, its executable can be written to (`executables_protected_iff`): nothing has been written so far, the
inode of the executable denies no writes, and its first byte is in a sector of the device.

Where the inode does deny writes, `inode_write_at` does nothing (`unmodifiable_of_denied`).
-/

namespace Pintos.Userprog.ProcessFiles

open Pintos.Filesys

/-! ## Writing to an inode -/

/-- `inode_write_at` on the inode of a sector, got at by `inode_open` as by whatever path. -/
def writeInode (sector : ℕ) (buffer : ℕ → UInt8) (size offset : ℤ) : Fs ℤ := do
  match ← inodeOpen sector with
  | none => return 0
  | some p => inodeWriteAt p buffer size offset

/-- Every write to the inode of a sector returns 0 and leaves the disk as it is. -/
def Unmodifiable (w : World) (sector : ℕ) : Prop :=
  ∀ buffer size offset n w', Runs .any (writeInode sector buffer size offset) w (.ok n) w' →
    n = 0 ∧ w'.disk = w.disk

/-- The inode of a sector has a first byte, in a sector of the device. -/
def HasFirstByte (D : ℕ → Sector) (n sector : ℕ) : Prop :=
  0 < InodeDisk.length (D sector) ∧ InodeDisk.dirBlock (D sector) 0 < n

section FirstByte

variable {w : World} {p : ℕ} {i : Inode} {E : Stop → World → Prop}

theorem wp_byteToSector_first {Q : ℕ → World → Prop} (hi : w.mem.heap p = some i)
    (hlen : 0 < i.data.length) : wp .any (byteToSector p 0) Q E w ↔ Q (i.data.dirBlock 0) w := by
  rw [byteToSector, wp_bind, wp_deref_some hi, if_pos hlen, sectorNumber, if_pos (by decide),
    if_neg (by decide)]
  exact wp_pure _

theorem wp_inodeLength_first {Q : ℤ → World → Prop} (hi : w.mem.heap p = some i) :
    wp .any (inodeLength p) Q E w ↔ Q i.data.length w := by
  rw [inodeLength, wp_bind, wp_deref_some hi]
  exact wp_pure _

/-- The piece that the first pass of a read or a write handles, from the start of the inode. -/
theorem first_chunk {size : ℤ} (hlen : 0 < i.data.length) (h0 : 0 < size) (h : size < 512) :
    0 < min size (min (wrap32 (i.data.length - 0)) (512 - (0 : ℤ).tmod 512)) ∧
    min size (min (wrap32 (i.data.length - 0)) (512 - (0 : ℤ).tmod 512)) ≤ size := by
  have hbound := length_lt i.data
  rw [sub_zero, wrap32_of_mem (by omega) (by omega), Int.zero_tmod]
  omega

/-- **A byte can be written where no writes are denied.** -/
theorem write_first {Q : ℤ → World → Prop} {buffer : ℕ → UInt8} (hi : w.mem.heap p = some i)
    (hdeny : i.denyWriteCnt = 0) (hlen : 0 < i.data.length) (hsec : i.data.dirBlock 0 < w.mem.fsSize)
    (hsize : w.mem.fsSize < 2 ^ 32) (h : wp .any (inodeWriteAt p buffer 1 0) Q E w) :
    ∃ w', Q 1 w' := by
  have hbound := length_lt i.data
  have hchunk : min (1 : ℤ) (min (wrap32 (i.data.length - 0)) (512 - (0 : ℤ).tmod 512)) = 1 := by
    rw [sub_zero, wrap32_of_mem (by omega) (by omega), Int.zero_tmod]
    omega
  have hlast : wrap32 (wrap32 (0 + 1) - 1) = 0 := by decide
  rw [inodeWriteAt, callDepth, inodeWriteAtDepth, wp_bind, wp_deref_some hi, if_neg (by simpa using hdeny)] at h
  dsimp only at h
  rw [hlast, wp_bind, wp_byteToSector_first hi hlen, if_neg (by omega), show (1 : ℤ).toNat = 1 from rfl,
    inodeWriteLoop, if_neg (by decide), wp_bind, wp_byteToSector_first hi hlen] at h
  dsimp only at h
  rw [wp_bind, wp_inodeLength_first hi, hchunk, if_neg (by decide), if_neg (by decide), if_neg (by decide),
    wp_bind, wp_malloc] at h
  have h := h true trivial
  rw [if_neg (by decide), if_pos (by decide), wp_bind, wp_bufferCacheRead, if_pos hsec, if_neg (by decide),
    wp_bind, wp_bufferCacheWrite, if_pos hsec, wp_bind, inodeWriteLoop, wp_pure, wp_pure, add_zero] at h
  exact ⟨_, h⟩

/-- A read of the start of an inode that is not cut short has found a first byte. -/
theorem wp_inodeReadAt_first {size : ℤ} (h0 : 0 < size) (h : size < 512) :
    wp .any (inodeReadAt p size 0)
      (fun l w' => w' = w ∧ (l ≠ [] → ∃ i, w.mem.heap p = some i ∧ 0 < i.data.length ∧
        i.data.dirBlock 0 < w.mem.fsSize)) (fun _ w' => w' = w) w := by
  obtain ⟨fuel, hfuel⟩ : ∃ fuel, size.toNat = fuel + 1 := ⟨size.toNat - 1, by omega⟩
  rw [inodeReadAt, hfuel, inodeReadLoop, if_neg (by omega), wp_bind]
  cases hi : w.mem.heap p with
  | none =>
    rw [byteToSector, wp_bind, wp_deref]
    simp only [hi]
  | some i =>
    by_cases hlen : 0 < i.data.length
    · have hchunk := first_chunk hlen h0 h
      rw [wp_byteToSector_first hi hlen]
      dsimp only
      rw [wp_bind, wp_inodeLength_first hi, if_neg (by omega), if_neg (by omega), if_neg (by decide), wp_bind,
        wp_malloc]
      intro allocated _
      cases allocated with
      | false => exact (wp_pure _).mpr ⟨rfl, fun hnil => absurd rfl hnil⟩
      | true =>
        rw [if_neg (by decide), wp_bind, wp_bufferCacheRead]
        split
        · rename_i hsec
          rw [if_neg (by decide)]
          refine wp_seq (ReadOnly.inodeReadLoop _ _ _ _ _ w) ?_
          rintro rest w' rfl
          exact (wp_pure _).mpr ⟨rfl, fun _ => ⟨i, rfl, hlen, hsec⟩⟩
        · rfl
    · have hstop : min size (min (wrap32 (i.data.length - 0)) (512 - (0 : ℤ).tmod 512)) ≤ 0 := by
        have hbound : -2 ^ 31 ≤ i.data.length := (toInt32_bounds (i.data.word_lt 125)).1
        have hle : i.data.length ≤ 0 := not_lt.mp hlen
        rw [sub_zero, wrap32_of_mem hbound (by omega)]
        exact (min_le_right _ _).trans ((min_le_left _ _).trans hle)
      rw [byteToSector, wp_bind, wp_deref_some hi, if_neg hlen, wp_pure]
      dsimp only
      rw [wp_bind, wp_inodeLength_first hi, if_pos hstop]
      exact (wp_pure _).mpr ⟨rfl, fun hnil => absurd rfl hnil⟩

end FirstByte

/-! ## Denied writes -/

/-- **Where the inode of a sector denies writes, nothing is written.** -/
theorem unmodifiable_of_denied {w : World} {sector : ℕ}
    (hlive : ∀ p ∈ w.mem.openInodes, Live w.mem p)
    (hfound : ∃ p ∈ w.mem.openInodes, ∃ i, w.mem.heap p = some i ∧ i.sector = sector)
    (hdeny : ∀ p ∈ w.mem.openInodes, ∀ i, w.mem.heap p = some i → i.sector = sector → i.denyWriteCnt ≠ 0) :
    Unmodifiable w sector := by
  intro buffer size offset
  have hfind : ∀ {l : List ℕ}, (∀ p ∈ l, p ∈ w.mem.openInodes) →
      (∃ p ∈ l, ∃ i, w.mem.heap p = some i ∧ i.sector = sector) →
      wp .any (findOpen sector l) (fun r w' => w' = w ∧ ∃ p i, r = some p ∧ w.mem.heap p = some i ∧
        i.denyWriteCnt ≠ 0) (fun _ _ => True) w := by
    intro l
    induction l with
    | nil => exact fun _ h => absurd h (by simp)
    | cons p ps ih =>
      intro hl hex
      obtain ⟨i, hi⟩ := hlive p (hl p List.mem_cons_self)
      rw [findOpen, wp_bind, wp_deref_some hi]
      split
      · rename_i hs
        exact (wp_pure _).mpr ⟨rfl, p, i, rfl, hi, hdeny p (hl p List.mem_cons_self) i hi hs⟩
      · rename_i hs
        refine ih (fun q hq => hl q (List.mem_cons_of_mem _ hq)) ?_
        obtain ⟨q, hq, j, hj, hsector⟩ := hex
        rcases List.mem_cons.mp hq with rfl | hq
        · exact absurd hsector (by rwa [← Option.some.inj (hi.symm.trans hj)])
        · exact ⟨q, hq, j, hj, hsector⟩
  have h : wp .any (writeInode sector buffer size offset) (fun n w' => n = 0 ∧ w'.disk = w.disk)
      (fun _ _ => True) w := by
    rw [writeInode, wp_bind, inodeOpen, wp_bind, wp_getMem]
    refine wp_seq (hfind (fun _ hp => hp) hfound) ?_
    rintro _ _ ⟨rfl, p, i, rfl, hi, hne⟩
    dsimp only
    rw [inodeReopen, wp_bind, wp_deref_some hi, wp_bind, wp_assign]
    simp only [hi, wp_pure]
    rw [inodeWriteAt, callDepth, inodeWriteAtDepth, wp_bind, wp_deref_some (Function.update_self ..),
      if_pos hne]
    exact (wp_pure _).mpr ⟨rfl, rfl⟩
  exact fun n w' hr => wp_iff_runs.mp h _ _ hr

/-! ## Executables in a calm world -/

section Calm

variable {D : ℕ → Sector} {n sector : ℕ} {w : World}

/-- A list without dangling pointers is searched to its end. -/
theorem findOpen_finds (sector : ℕ) : ∀ {l : List ℕ}, (∀ p ∈ l, Live w.mem p) →
    ∃ r, (∀ Q E, wp .any (findOpen sector l) Q E w → Q r w) ∧
      ∀ p, r = some p → ∃ i, w.mem.heap p = some i ∧ i.sector = sector
  | [], _ => ⟨none, fun _ _ h => (wp_pure _).mp h, nofun⟩
  | p :: ps, h => by
    obtain ⟨i, hi⟩ := h p List.mem_cons_self
    by_cases hs : i.sector = sector
    · refine ⟨some p, fun Q E hwp => ?_, fun q hq => ⟨i, Option.some.inj hq ▸ hi, hs⟩⟩
      rw [findOpen, wp_bind, wp_deref_some hi, if_pos hs] at hwp
      exact (wp_pure _).mp hwp
    · obtain ⟨r, hr, hsector⟩ := findOpen_finds sector fun q hq => h q (List.mem_cons_of_mem _ hq)
      refine ⟨r, fun Q E hwp => hr Q E ?_, hsector⟩
      rwa [findOpen, wp_bind, wp_deref_some hi, if_neg hs] at hwp

/-- **In a calm world a first byte can be overwritten.** -/
theorem modifiable_of_calm (hw : Calm D n w) (hn : n < 2 ^ 32) (hs : sector < n)
    (hfirst : HasFirstByte D n sector) : ¬Unmodifiable w sector := by
  intro hun
  have h : wp .any (writeInode sector (fun _ => 0) 1 0) (fun n _ => n = 0) (fun _ _ => True) w :=
    wp_iff_runs.mpr fun r w' hr => by
      cases r with
      | ok m => exact (hun _ _ _ m w' hr).1
      | error e => trivial
  obtain ⟨hlen, hsec⟩ := hfirst
  obtain ⟨r, hr, hfound⟩ := findOpen_finds sector hw.listed
  rw [writeInode, inodeOpen, Prog.bind_bind, wp_bind, wp_getMem, Prog.bind_bind, wp_bind] at h
  have h := hr _ _ h
  cases r with
  | some p =>
    obtain ⟨i, hi, hsector⟩ := hfound p rfl
    obtain ⟨hdata, _⟩ := hw.data p i hi
    dsimp only at h
    rw [wp_bind, inodeReopen, wp_bind, wp_deref_some hi, wp_bind, wp_assign] at h
    simp only [hi, wp_pure] at h
    rw [hsector] at hdata
    obtain ⟨w', h1⟩ := write_first (i := { i with openCnt := i.openCnt + 1 }) (Function.update_self ..)
      (hw.kept p i hi).2 (by rw [hdata]; exact hlen) (by rw [hdata]; exact hw.size ▸ hsec)
      (by exact hw.size ▸ hn) h
    omega
  | none =>
    dsimp only at h
    rw [Prog.bind_bind, wp_bind, wp_malloc] at h
    have h := h true trivial
    rw [if_pos rfl, wp_bind, wp_bind, wp_bufferCacheRead, if_pos (hw.size ▸ hs), wp_bind, wp_getMem,
      wp_bind, wp_setMem, wp_pure] at h
    obtain ⟨w', h1⟩ := write_first (i := ⟨sector, 1, false, 0, w.disk sector⟩) (Function.update_self ..)
      rfl (by rw [hw.disk]; exact hlen) (by rw [hw.disk]; exact hw.size ▸ hsec) (by exact hw.size ▸ hn) h
    omega

end Calm

/-! ## Loading a program -/

section Load

variable {D : ℕ → Sector} {n : ℕ}

theorem readOnly_readSegments : ∀ (reads : List (ℤ × ℤ)) (file : File), ReadOnly (readSegments file reads)
  | [], _ => .ret _
  | _ :: reads, _ => .bind (.fileSeek _ _) fun _ => .bind (.fileRead _ _) fun r =>
      readOnly_readSegments reads r.2

/-- **`load` writes nothing, and what it loads has a first byte.** -/
theorem wp_load_calm (cmd : List UInt8) (reads : List (ℤ × ℤ)) (success : Bool) {w : World}
    (hw : Calm D n w) :
    wp .any (load cmd reads success)
      (fun r w' => Calm D n w' ∧ ∀ sector, r = some sector → sector < n ∧ HasFirstByte D n sector)
      (fun _ w' => Calm D n w') w := by
  have hnone : ∀ w, Calm D n w → wp .any (pure none : Fs (Option ℕ))
      (fun r w' => Calm D n w' ∧ ∀ sector, r = some sector → sector < n ∧ HasFirstByte D n sector)
      (fun _ w' => Calm D n w') w := fun w hw => (wp_pure _).mpr ⟨hw, nofun⟩
  rw [load, wp_bind, wp_malloc]
  intro allocated _
  cases allocated with
  | false => exact hnone w hw
  | true =>
    rw [if_pos rfl]
    refine wp_seq (Calmly.filesysOpen _ w hw) fun file w₁ h => ?_
    obtain ⟨hpos, hw₁⟩ := h
    cases file with
    | none => exact hnone w₁ hw₁
    | some file =>
      dsimp only
      rw [wp_bind, Filesys.fileRead, hpos file rfl, wp_bind]
      refine wp_mono (wp_inodeReadAt_first (by decide) (by decide)) ?_ fun _ w' h => by
        subst h
        exact hw₁
      rintro header w₂ ⟨rfl, hfirst⟩
      rw [wp_pure]
      dsimp only
      split
      · rename_i hvalid
        obtain ⟨i, hi, hlen, hsec⟩ := hfirst fun hnil => by simp [hnil] at hvalid
        obtain ⟨hdata, hsector⟩ := hw₁.data _ i hi
        rw [wp_bind]
        refine wp_mono (readOnly_readSegments _ _ w₂) ?_ fun _ w' h => by
          subst h
          exact hw₁
        rintro _ w₃ rfl
        rw [wp_bind, inodeGetInumber, wp_bind, wp_deref_some hi, wp_pure]
        refine wp_seq (Calmly.fileClose _ w₃ hw₁) fun _ w₄ h => (wp_pure _).mpr ⟨h.2, ?_⟩
        intro sector hs
        cases success with
        | false => cases hs
        | true =>
          obtain rfl : i.sector = sector := Option.some.inj hs
          rw [HasFirstByte, ← hdata]
          exact ⟨hsector, hlen, hw₁.size ▸ hsec⟩
      · exact wp_seq (Calmly.fileClose _ w₂ hw₁) fun _ w₄ h => hnone w₄ h.2

end Load

namespace Processes

/-! ## Runs -/

/-- The process runs the program in the inode of a sector: `load` has returned true, and it has not
exited. -/
def RunsProgram (p : Process) (sector : ℕ) : Prop :=
  p.executable = some sector ∧ p.stage ≠ .dying ∧ p.stage ≠ .exited

/-- No executable that is run can be written to. -/
def Protected (s : Processes) : Prop :=
  ∀ p ∈ s.procs, ∀ sector, RunsProgram p sector → Unmodifiable s.world sector

/-- No `load` has returned true so far. -/
def NoneLoaded (s : Processes) : Prop := ∀ p ∈ s.procs, p.executable = none

/-- A step that records the state it leads to. -/
def Visits (s : Processes) (l : (ℕ × Label) × Processes) (s' : Processes) : Prop :=
  Step s l.1 s' ∧ l.2 = s'

/-- The time before a program is loaded. -/
structure Early (D : ℕ → Sector) (n : ℕ) (s : Processes) : Prop where
  calm : Calm D n s.world
  unloaded : s.NoneLoaded

variable {D : ℕ → Sector} {n : ℕ} {s s' : Processes} {k : ℕ} {p p' : Process} {w : World}

theorem Boot.early (h : Boot s) : ∃ D n, n < 2 ^ 32 ∧ Early D n s := by
  obtain ⟨w₀, format, hblank, hr⟩ := h.init
  obtain ⟨D, hD⟩ := wp_iff_runs.mp (wp_filesysInit_calm hblank format) _ _ hr
  refine ⟨D, _, hblank.size.2, hD, fun p hp => ?_⟩
  rw [h.procs] at hp
  rw [List.mem_singleton.mp hp]
  rfl

/-- The new state of a process that the step has worked on. -/
theorem NoneLoaded.set (h : s.NoneLoaded) (hp : p.executable = none) {w : World} :
    NoneLoaded ⟨w, s.procs.set k p⟩ := fun q hq => by
  rcases List.mem_or_eq_of_mem_set hq with hq | rfl
  · exact h q hq
  · exact hp

theorem Early.put (h : Early D n s) (hw : Calm D n w) (hp : p.executable = none) :
    Early D n (s.put k p w) where
  calm := hw
  unloaded := h.unloaded.set (p := { p with
    cwd := w.mem.cwd
    taken := p.taken + (opened w.mem - opened s.world.mem) }) hp

theorem calmly_inheritCwd (cwd : Option Dir) : Calmly D n (inheritCwd cwd) fun _ => True := by
  cases cwd with
  | none => exact .dirOpenRoot
  | some cwd => exact .dirReopen cwd

theorem calmly_closeFiles : ∀ fds : List Fd, Calmly D n (closeFiles fds) fun _ => True
  | [] => .ret trivial
  | _ :: fds => .bind (.fileClose _) fun _ _ => calmly_closeFiles fds

/-- What a process does before a program has been loaded. -/
theorem wp_body_early {a : Act} (hw : Calm D n w) (hp : p.executable = none) (ha : s.Enabled k p a) :
    wp .any (a.body p) (fun p' w' => Calm D n w' ∧ ∀ sector, p'.executable = some sector →
      RunsProgram p' sector ∧ sector < n ∧ HasFirstByte D n sector) (fun _ w' => Calm D n w') w := by
  have hno : ∀ {q : Process}, q.executable = none → ∀ sector, q.executable = some sector →
      RunsProgram q sector ∧ sector < n ∧ HasFirstByte D n sector := fun hq sector hs => by
    rw [hq] at hs
    cases hs
  have hidle : ∀ {q : Fs Process}, Calmly D n q (fun p' => p'.executable = none) →
      wp .any q (fun p' w' => Calm D n w' ∧ ∀ sector, p'.executable = some sector →
        RunsProgram p' sector ∧ sector < n ∧ HasFirstByte D n sector) (fun _ w' => Calm D n w') w :=
    fun hq => wp_mono_ret (hq w hw) fun p' w' h => ⟨h.2, hno h.1⟩
  cases a with
  | load reads success =>
    obtain ⟨parent, cmd, hstage⟩ := ha
    rw [Act.body, hstage]
    refine wp_seq (wp_load_calm cmd reads success hw) fun r w' h => (wp_pure _).mpr ⟨h.1, ?_⟩
    intro sector hs
    obtain rfl : r = some sector := hs
    exact ⟨⟨rfl, nofun, nofun⟩, h.2 sector rfl⟩
  | inherit cwd =>
    refine hidle (.bind (calmly_inheritCwd cwd) fun d _ => .bind (.setCwd d) fun _ _ => .ret hp)
  | cleanup =>
    refine hidle (.bind (.bind (calmly_closeFiles p.fds) fun _ _ => .bind .getMem fun m _ => .dirClose _)
      fun _ _ => .bind (.setCwd none) fun _ _ => .ret hp)
  | «open» | close | chdir | read | write | seek | exit => simp [Enabled, hp] at ha

theorem wp_entry_early {a : Act} (hw : Calm D n w) (hp : p.executable = none) (ha : s.Enabled k p a) :
    wp .any (a.entry p) (fun _ _ => True) (fun _ w' => Calm D n w') w := by
  cases a with
  | load reads success =>
    obtain ⟨parent, cmd, hstage⟩ := ha
    rw [Act.entry, hstage]
    exact wp_seq (wp_load_calm cmd reads success hw) fun _ _ _ => (wp_pure _).mpr trivial
  | inherit | cleanup => exact (wp_pure _).mpr trivial
  | «open» | close | chdir | read | write | seek | exit => simp [Enabled, hp] at ha

/-- **A step before a program has been loaded**: it is still so afterwards, or the program that has been
loaded can be written to. -/
theorem Early.step (h : Early D n s) (hn : n < 2 ^ 32) {l : ℕ × Label} (hs : Step s l s') :
    Early D n s' ∨ ¬s'.NoneLoaded ∧ ¬s'.Protected := by
  have hseen : ∀ p : Process, Calm D n (seenBy s.world p) := fun p => h.calm.setCwd p.cwd
  cases hs with
  | @act k p p' a w hp ha hr =>
    have hnone := h.unloaded p (List.mem_of_getElem? hp)
    obtain ⟨hw, hprog⟩ := wp_iff_runs.mp (wp_body_early (hseen p) hnone ha) _ _ hr
    cases hexe : p'.executable with
    | none => exact .inl (h.put hw hexe)
    | some sector =>
      obtain ⟨hruns, hsec, hfirst⟩ := hprog sector hexe
      have hmem : { p' with
          cwd := w.mem.cwd
          taken := p'.taken + (opened w.mem - opened s.world.mem) } ∈ (s.put k p' w).procs :=
        List.mem_set (List.getElem?_eq_some_iff.mp hp).1 _
      refine .inr ⟨fun hno => ?_, fun hprot => ?_⟩
      · have := hno _ hmem
        rw [hexe] at this
        cases this
      · have hun : Unmodifiable w sector := hprot _ hmem sector ⟨hruns.1, hruns.2⟩
        exact modifiable_of_calm hw hn hsec hfirst hun
  | @fault k p a e w hp ha hr he =>
    have hnone := h.unloaded p (List.mem_of_getElem? hp)
    have hw := wp_iff_runs.mp (wp_entry_early (hseen p) hnone ha) _ _ hr
    exact .inl (h.put hw hnone)
  | @executeNone k p cmd w hp hstage hr =>
    obtain ⟨_, hw⟩ := wp_iff_runs.mp (Calmly.filesysOpen _ _ (hseen p)) _ _ hr
    exact .inl (h.put hw (h.unloaded p (List.mem_of_getElem? hp)))
  | @execute k p cmd f w hp hstage hr =>
    obtain ⟨_, hw⟩ := wp_iff_runs.mp (Calmly.filesysOpen _ _ (hseen p)) _ _ hr
    refine .inl ⟨hw, fun q hq => ?_⟩
    rcases List.mem_append.mp hq with hq | hq
    · exact h.unloaded.set (k := k) (p := { p with stage := .waiting s.procs.length }) (w := w)
        (h.unloaded p (List.mem_of_getElem? hp)) q hq
    · rw [List.mem_singleton.mp hq]
      rfl
  | @resume k c p q hp hstage hq hstart hload =>
    exact .inl ⟨h.calm, h.unloaded.set (p := { p with stage := .running })
      (h.unloaded p (List.mem_of_getElem? hp))⟩

/-- **No loaded executable is protected from writes.**  In a run from boot every executable that is run
is protected in every state if and only if no `load` of the run has returned true. -/
theorem executables_protected_iff {s₀ s : Processes} {ls : List ((ℕ × Label) × Processes)}
    (h₀ : Boot s₀) (hrun : Trace Visits s₀ ls s) :
    (∀ l ∈ ls, l.2.Protected) ↔ ∀ l ∈ ls, l.2.NoneLoaded := by
  obtain ⟨D, n, hn, hearly⟩ := h₀.early
  clear h₀
  induction hrun with
  | nil s => exact iff_of_true (fun _ h => absurd h List.not_mem_nil) fun _ h => absurd h List.not_mem_nil
  | @cons s s₁ s' l ls head tail ih =>
    obtain ⟨hstep, rfl⟩ := head
    rw [List.forall_mem_cons, List.forall_mem_cons]
    rcases hearly.step hn hstep with h | ⟨hno, hprot⟩
    · exact and_congr (iff_of_true (fun p hp sector hr => by
        have := h.unloaded p hp
        rw [hr.1] at this
        cases this) h.unloaded) (ih h)
    · exact iff_of_false (fun h => hprot h.1) fun h => hno h.1

/-! ### A machine with one program -/

/-- An executable header without program headers. -/
def elfHeader : List UInt8 :=
  [0x7f, 0x45, 0x4c, 0x46, 1, 1, 1, 0, 0, 0, 0, 0, 0, 0, 0, 0, 2, 0, 3, 0, 1, 0, 0, 0, 0, 0, 0, 0, 0, 0, 0, 0,
    0, 0, 0, 0, 0, 0, 0, 0, 0, 0, 32, 0, 0, 0, 0, 0, 0, 0, 0, 0]

/-- The formatted file system with the file `"a"` of 52 bytes in it; uninitialised objects hold ones. -/
def withFile : World :=
  (runArray (do
    filesysInit true
    filesysCreate [97] 52 false) ⟨fun _ => true, fun _ _ => 1, false⟩ (newMachine 16)).2.2

/-- A machine that is switched on with this disk, where the file is an executable. -/
def withProgram : World :=
  { newMachine 16 with
    disk := Function.update withFile.disk 5 (Block.mk fun i => (elfHeader[i]?).getD 0) }

theorem runs_any {α : Type} (p : Fs α) (w : World) {r : Except Stop α}
    (h : (runArray p plainEnv w).1 = r) : Runs .any p w r (runArray p plainEnv w).2.2 := by
  rw [← h]
  exact runs_runArray p ⟨fun _ => trivial, fun _ => trivial⟩ fun _ => trivial

/-- The initial thread has called `process_execute`. -/
def afterExecute (s : Processes) (cmd : List UInt8) (w : World) : Processes :=
  ⟨w, s.procs.set 0 { main with stage := .waiting s.procs.length } ++ [s.child 0 cmd w]⟩

/-- The new process has loaded a program. -/
def afterLoad (s : Processes) (cmd : List UInt8) (w₁ w₂ : World) (sector : ℕ) : Processes :=
  (s.afterExecute cmd w₁).put 1
    { s.child 0 cmd w₁ with executable := some sector, stage := .loaded 0 true } w₂

/-- The first process of all is created. -/
theorem trace_load {cmd : List UInt8} {f : File} {w₁ w₂ : World} {sector : ℕ} (hs : s.procs = [main])
    (h₁ : Runs .any (filesysOpen (command cmd)) (seenBy s.world main) (.ok (some f)) w₁)
    (h₂ : Runs .any (load cmd [] true) (seenBy w₁ (s.child 0 cmd w₁)) (.ok (some sector)) w₂) :
    Trace Visits s [((0, .execute cmd), s.afterExecute cmd w₁),
      ((1, .act (.load [] true)), s.afterLoad cmd w₁ w₂ sector)] (s.afterLoad cmd w₁ w₂ sector) := by
  have hmain : s.procs[0]? = some main := by rw [hs]; rfl
  have hchild : (s.afterExecute cmd w₁).procs[1]? = some (s.child 0 cmd w₁) := by
    rw [afterExecute, hs]
    rfl
  refine .cons ⟨.execute hmain rfl h₁, rfl⟩ (.single ⟨.act hchild ⟨0, cmd, rfl⟩ ?_, rfl⟩)
  exact h₂.bind ⟨rfl, rfl⟩

/-- A write after the load of a program succeeds. -/
theorem Boot.written_after_load {s : Processes} {cmd : List UInt8} {f : File} {w₁ w₂ w₃ : World}
    {sector : ℕ} (hs : Boot s)
    (h₁ : Runs .any (filesysOpen (command cmd)) (seenBy s.world main) (.ok (some f)) w₁)
    (h₂ : Runs .any (load cmd [] true) (seenBy w₁ (s.child 0 cmd w₁)) (.ok (some sector)) w₂)
    (h₃ : Runs .any (writeInode sector (fun _ => 0) 1 0) w₂ (.ok 1) w₃) :
    ∃ s₀ ls s, Boot s₀ ∧ Trace Visits s₀ ls s ∧ (∃ p ∈ s.procs, RunsProgram p sector) ∧
      ¬Unmodifiable s.world sector := by
  refine ⟨_, _, _, hs, trace_load hs.procs h₁ h₂, ?_, fun h => absurd (h _ _ _ _ _ h₃).1 one_ne_zero⟩
  rw [afterLoad, put, afterExecute, hs.procs]
  exact ⟨_, List.mem_cons_of_mem _ List.mem_cons_self, rfl, Stage.noConfusion, Stage.noConfusion⟩

/-- The machine is booted without formatting. -/
def booted : Processes := ⟨(runArray (filesysInit false) plainEnv withProgram).2.2, [main]⟩

/-- The file system after `process_execute ("a")`. -/
def executedWorld : World :=
  (runArray (filesysOpen (command [97])) plainEnv (seenBy booted.world main)).2.2

/-- The file system after the `load` of the new process. -/
def loadedWorld : World :=
  (runArray (load [97] [] true) plainEnv
    (seenBy executedWorld (booted.child 0 [97] executedWorld))).2.2

/-- The file system after a write of one byte. -/
def writtenWorld : World := (runArray (writeInode 4 (fun _ => 0) 1 0) plainEnv loadedWorld).2.2

/-- What the calls return, one after the other. -/
theorem answers : (runArray (filesysInit false) plainEnv withProgram).1 = .ok () ∧
    (runArray (filesysOpen (command [97])) plainEnv (seenBy booted.world main)).1 = .ok (some ⟨2, 0, false⟩) ∧
    (runArray (load [97] [] true) plainEnv (seenBy executedWorld (booted.child 0 [97] executedWorld))).1 =
      .ok (some 4) ∧
    (runArray (writeInode 4 (fun _ => 0) 1 0) plainEnv loadedWorld).1 = .ok 1 := by
  decide +kernel

theorem booted_boot : Boot booted where
  init := ⟨withProgram, false, ⟨fun _ => rfl, rfl, rfl, by decide⟩, runs_any _ _ answers.1⟩
  procs := rfl

theorem runs_executed : Runs .any (filesysOpen (command [97])) (seenBy booted.world main)
    (.ok (some ⟨2, 0, false⟩)) executedWorld := runs_any _ _ answers.2.1

theorem runs_loaded : Runs .any (load [97] [] true)
    (seenBy executedWorld (booted.child 0 [97] executedWorld)) (.ok (some 4)) loadedWorld :=
  runs_any _ _ answers.2.2.1

theorem runs_written : Runs .any (writeInode 4 (fun _ => 0) 1 0) loadedWorld (.ok 1) writtenWorld :=
  runs_any _ _ answers.2.2.2

theorem executables_protected_iff_loaded :
    (∀ l ∈ [((0, Label.execute [97]), booted.afterExecute [97] executedWorld),
      ((1, .act (.load [] true)), booted.afterLoad [97] executedWorld loadedWorld 4)], l.2.Protected) ↔
    ∀ l ∈ [((0, Label.execute [97]), booted.afterExecute [97] executedWorld),
      ((1, .act (.load [] true)), booted.afterLoad [97] executedWorld loadedWorld 4)], l.2.NoneLoaded :=
  executables_protected_iff booted_boot (trace_load rfl runs_executed runs_loaded)

/-- **A running executable is overwritten.**  Once `"a"` has been loaded, a write of one byte to its inode
returns 1. -/
theorem executable_written : ∃ s₀ ls s, Boot s₀ ∧ Trace Visits s₀ ls s ∧
    (∃ p ∈ s.procs, RunsProgram p 4) ∧ ¬Unmodifiable s.world 4 :=
  booted_boot.written_after_load runs_executed runs_loaded runs_written

end Processes

end Pintos.Userprog.ProcessFiles
