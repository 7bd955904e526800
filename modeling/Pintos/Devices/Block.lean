import Pintos.Devices.Partition
import Pintos.Library.Trace

/-!
# Block devices

`devices/block.c`, with the drivers of `devices/partition.c` and `devices/ide.c` behind it.  A block device is a disk, or
a partition of another block device, so a sector goes through one check for each of them.

* `unit` and `offset` say where on which disk a device begins.  The devices that `partition_scan` registers lie in the
  device that it has scanned (`partitionScan_fits`), whose checks are made with 32-bit numbers.
* `blocks_correct` is about whole runs: disks found, sectors read and written through any of the devices.

A driver serves a call as one atomic access to its disk.  The counters of the statistics are left out.
-/

namespace Pintos.Devices.Blocks

/-! ## The code -/

/-- `enum block_type` -/
inductive DeviceType
  | kernel
  | filesys
  | scratch
  | swap
  | raw
  | foreign
  deriving DecidableEq

def DeviceType.ofPartition : BlockType → DeviceType
  | .kernel => kernel
  | .filesys => filesys
  | .scratch => scratch
  | .swap => swap
  | .foreign => foreign

/-- `struct block` with `ide_operations` and its disk, or with `partition_operations` and its `struct partition`.  The
members do not change after `block_register`. -/
inductive Device
  | disk (type : DeviceType) (size : ℕ) (unit : ℕ)
  | partition (type : DeviceType) (size : ℕ) (block : Device) (start : ℕ)
  deriving DecidableEq

namespace Device

/-- `block_type` -/
def type : Device → DeviceType
  | disk type _ _ | partition type _ _ _ => type

/-- `block_size` -/
def size : Device → ℕ
  | disk _ size _ | partition _ size _ _ => size

end Device

/-- What stops the machine. -/
inductive Panic
  /-- `"Access past end of device %s (sector=%u, size=%u)"` -/
  | pastEnd (sector size : ℕ)
  /-- `ASSERT (block->type != BLOCK_FOREIGN)` -/
  | foreign
  /-- `ASSERT (sec_no < (1UL << 28))` in `select_sector`. -/
  | selectSector
  deriving DecidableEq

/-- The disks by their channel and position, and their sectors. -/
abbrev Disks := ℕ → ℕ → Sector

/-- `check_sector` -/
def checkSector (size sector : ℕ) : Except Panic Unit :=
  if size ≤ sector then .error (.pastEnd sector size) else .ok ()

/-- `ide_read` -/
def ideRead (disks : Disks) (unit sector : ℕ) : Except Panic Sector :=
  if sector < 2 ^ 28 then .ok (disks unit sector) else .error .selectSector

/-- `ide_write` -/
def ideWrite (disks : Disks) (unit sector : ℕ) (buffer : Sector) : Except Panic Disks :=
  if sector < 2 ^ 28 then .ok (Function.update disks unit (Function.update (disks unit) sector buffer))
  else .error .selectSector

/-- `block_read`, with `partition_read` for a partition. -/
def blockRead (disks : Disks) : Device → ℕ → Except Panic Sector
  | .disk _ size unit, sector => do
    checkSector size sector
    ideRead disks unit sector
  | .partition _ size block start, sector => do
    checkSector size sector
    blockRead disks block ((start + sector) % 2 ^ 32)

/-- `block_write`, with `partition_write` for a partition. -/
def blockWrite (disks : Disks) : Device → ℕ → Sector → Except Panic Disks
  | .disk type size unit, sector, buffer => do
    checkSector size sector
    if type = .foreign then .error .foreign else ideWrite disks unit sector buffer
  | .partition type size block start, sector, buffer => do
    checkSector size sector
    if type = .foreign then .error .foreign else blockWrite disks block ((start + sector) % 2 ^ 32) buffer

/-- The registered devices, in kernel probe order, and the disks. -/
structure Machine where
  allBlocks : List Device
  disks : Disks

namespace Machine

/-- The end of `identify_ata_device`, for a disk whose capacity is not ignored for safety. -/
def identify (m : Machine) (unit capacity fuel : ℕ) : Option Machine :=
  if 1024 * 1024 * 1024 / 512 ≤ capacity then some m
  else
    let block := Device.disk .raw capacity unit
    (partitionScan ⟨capacity, m.disks unit⟩ fuel).map fun st =>
      { m with
        allBlocks := m.allBlocks ++ block :: st.registered.map fun r =>
          .partition (.ofPartition r.2.1) r.2.2.size block r.2.2.start }

/-- The search of `locate_block_device` when no name is given. -/
def locateBlockDevice (m : Machine) (role : DeviceType) : Option Device := m.allBlocks.find? fun d => d.type = role

end Machine

/-- What the kernel does with block devices, and what it has read. -/
inductive Event
  | identify (unit capacity : ℕ)
  | read (d : Device) (sector : ℕ) (buffer : Sector)
  | write (d : Device) (sector : ℕ) (buffer : Sector)

/-- A step that does not panic. -/
inductive Step : Machine → Event → Machine → Prop
  | identify {m m' : Machine} {unit capacity fuel : ℕ} (h : m.identify unit capacity fuel = some m') :
      Step m (.identify unit capacity) m'
  | read {m : Machine} {d : Device} {sector : ℕ} {buffer : Sector} (hd : d ∈ m.allBlocks)
      (h : blockRead m.disks d sector = .ok buffer) : Step m (.read d sector buffer) m
  | write {m : Machine} {d : Device} {sector : ℕ} {buffer : Sector} {disks : Disks} (hd : d ∈ m.allBlocks)
      (h : blockWrite m.disks d sector buffer = .ok disks) :
      Step m (.write d sector buffer) { m with disks := disks }

/-! ## Where a device lies -/

namespace Device

/-- The disk. -/
def unit : Device → ℕ
  | disk _ _ unit => unit
  | partition _ _ block _ => block.unit

/-- The sector of the disk that is sector 0. -/
def offset : Device → ℕ
  | disk _ _ _ => 0
  | partition _ _ block start => block.offset + start

/-- A device that lies in the one below it, on a disk that is small enough. -/
def Fits : Device → Prop
  | disk type size _ => size < 2 ^ 21 ∧ type ≠ .foreign
  | partition _ size block start => start + size ≤ block.size ∧ block.type ≠ .foreign ∧ block.Fits

theorem Fits.size_lt {d : Device} (h : d.Fits) : d.size < 2 ^ 21 := by
  induction d with
  | disk type size unit => exact h.1
  | partition type size block start ih =>
    have hblock := ih h.2.2
    have hsize := h.1
    show size < 2 ^ 21
    omega

/-- What comes behind `check_sector`. -/
theorem checkSector_bind {α : Type} (size sector : ℕ) (k : Except Panic α) :
    (checkSector size sector >>= fun _ => k) = if sector < size then k else .error (.pastEnd sector size) := by
  unfold checkSector
  by_cases h : sector < size
  · rw [if_pos h, if_neg (Nat.not_le_of_lt h)]
    rfl
  · rw [if_neg h, if_pos (Nat.le_of_not_lt h)]
    rfl

/-- **A read gets the sector of the disk**, or panics past the end of the device. -/
theorem Fits.blockRead {d : Device} (h : d.Fits) (disks : Disks) (sector : ℕ) :
    blockRead disks d sector = if sector < d.size then .ok (disks d.unit (d.offset + sector))
      else .error (.pastEnd sector d.size) := by
  induction d generalizing sector with
  | disk type size unit =>
    have hsize : size < 2 ^ 21 := h.1
    rw [Blocks.blockRead, checkSector_bind]
    show (if sector < size then _ else _) = if sector < size then Except.ok (disks unit (0 + sector)) else _
    split
    · rw [ideRead, if_pos (by omega), Nat.zero_add]
    · rfl
  | partition type size block start ih =>
    obtain ⟨hfits, _, hblock⟩ := h
    have hlt := hblock.size_lt
    rw [Blocks.blockRead, checkSector_bind]
    show (if sector < size then _ else _) =
      if sector < size then Except.ok (disks block.unit (block.offset + start + sector)) else _
    split
    · have hin : start + sector < block.size := by omega
      rw [Nat.mod_eq_of_lt (by omega), ih hblock, if_pos hin, Nat.add_assoc]
    · rfl

/-- The disks after a write to the device. -/
def store (d : Device) (disks : Disks) (sector : ℕ) (buffer : Sector) : Disks :=
  Function.update disks d.unit (Function.update (disks d.unit) (d.offset + sector) buffer)

/-- **A write changes the sector of the disk**, or panics, past the end of the device or if the device is foreign. -/
theorem Fits.blockWrite {d : Device} (h : d.Fits) (disks : Disks) (sector : ℕ) (buffer : Sector) :
    blockWrite disks d sector buffer = if sector < d.size then
        if d.type = .foreign then .error .foreign else .ok (d.store disks sector buffer)
      else .error (.pastEnd sector d.size) := by
  induction d generalizing sector with
  | disk type size unit =>
    have hsize : size < 2 ^ 21 := h.1
    rw [Blocks.blockWrite, checkSector_bind]
    show (if sector < size then if type = .foreign then _ else _ else _) =
      if sector < size then if type = .foreign then _ else Except.ok (store (disk type size unit) disks sector buffer) else _
    split
    · rw [ideWrite, if_pos (show sector < 2 ^ 28 by omega), store, offset, Nat.zero_add]
      rfl
    · rfl
  | partition type size block start ih =>
    obtain ⟨hfits, htype, hblock⟩ := h
    have hlt := hblock.size_lt
    rw [Blocks.blockWrite, checkSector_bind]
    show (if sector < size then if type = .foreign then _ else _ else _) = if sector < size then
      if type = .foreign then _ else Except.ok (store (partition type size block start) disks sector buffer) else _
    split
    · have hin : start + sector < block.size := by omega
      rw [Nat.mod_eq_of_lt (by omega), ih hblock, if_pos hin, if_neg htype, store, store, offset, Nat.add_assoc]
      rfl
    · rfl

end Device

/-! ## What the scan registers -/

/-- The partitions registered so far lie on the device. -/
def Inside (d : BlockDevice) (st : Scan) : Prop := ∀ r ∈ st.registered, r.2.2.start + r.2.2.size ≤ d.blockSize

variable {d : BlockDevice} {st st' : Scan}

/-- **`found_partition`** registers what lies on the device, although it adds 32-bit numbers. -/
theorem Inside.foundPartition (h : Inside d st) (hsize : d.blockSize < 2 ^ 32) {p : Part} (hp : p.size < 2 ^ 32) :
    Inside d (st.foundPartition d p) := by
  unfold Scan.foundPartition
  dsimp only
  split
  · exact h
  · next hstart =>
    split
    · exact h
    · next hend =>
      intro r hr
      rcases List.mem_append.mp hr with hr | hr
      · exact h r hr
      · rw [List.mem_singleton.mp hr]
        simp only
        omega

theorem Inside.parsePartitions {recur : ℕ → ℕ → Scan → Option Scan} (hsize : d.blockSize < 2 ^ 32) {s p : ℕ}
    (hrecur : ∀ {s p st st'}, Inside d st → recur s p st = some st' → Inside d st') {es : List PartitionTableEntry}
    (hes : ∀ e ∈ es, e.size < 2 ^ 32) (h : Inside d st) (hparse : parsePartitions d recur s p es st = some st') :
    Inside d st' := by
  induction es generalizing st with
  | nil =>
    cases hparse
    exact h
  | cons e es ih =>
    have hrest : ∀ e ∈ es, e.size < 2 ^ 32 := fun e he => hes e (by simp [he])
    rw [Devices.parsePartitions] at hparse
    split at hparse
    · exact ih hrest h hparse
    · split at hparse
      · obtain ⟨st₁, hnested, hparse⟩ := Option.bind_eq_some_iff.mp hparse
        refine ih hrest ?_ hparse
        split at hnested
        · exact hrecur (show Inside d (st.printf _) from h) hnested
        · exact hrecur (show Inside d (st.printf _) from h) hnested
      · exact ih hrest (h.foundPartition hsize (hes e (by simp))) hparse

theorem Inside.readPartitionTable (hsize : d.blockSize < 2 ^ 32) {fuel s p : ℕ} (h : Inside d st)
    (hread : readPartitionTable d fuel s p st = some st') : Inside d st' := by
  induction fuel generalizing s p st st' with
  | zero => cases hread
  | succ fuel ih =>
    rw [Devices.readPartitionTable] at hread
    split at hread
    · cases hread
      exact h
    · dsimp only at hread
      split at hread
      · split at hread <;>
        · cases hread
          exact h
      · refine h.parsePartitions hsize (fun h hread => ih h hread) (fun e he => ?_) hread
        obtain ⟨i, _, rfl⟩ := List.mem_map.mp he
        exact Bytes.le32_lt ..

/-- **The partitions that a scan registers lie on the device.** -/
theorem partitionScan_fits (hsize : d.blockSize < 2 ^ 32) {fuel : ℕ} (h : partitionScan d fuel = some st) :
    Inside d st := by
  obtain ⟨st', hread, rfl⟩ := Option.map_eq_some_iff.mp h
  have hinside : Inside d st' := Inside.readPartitionTable hsize (by simp [Inside]) hread
  split
  · exact hinside
  · exact hinside

/-! ## Runs -/

/-- What an event does to the disks. -/
def Event.apply (disks : Disks) : Event → Disks
  | .write d sector buffer => d.store disks sector buffer
  | _ => disks

/-- The disks after some events. -/
def after (disks : Disks) (es : List Event) : Disks := es.foldl Event.apply disks

/-- The two devices have no sector in common. -/
def Apart (d d' : Device) : Prop :=
  d.unit ≠ d'.unit ∨ d.offset + d.size ≤ d'.offset ∨ d'.offset + d'.size ≤ d.offset

variable {m m' : Machine} {disks : Disks} {es : List Event} {e : Event}

theorem store_of_apart {d d' : Device} (h : Apart d d') {s s' : ℕ} (hs : s < d.size) (hs' : s' < d'.size)
    (disks : Disks) (buffer : Sector) :
    d'.store disks s' buffer d.unit (d.offset + s) = disks d.unit (d.offset + s) := by
  unfold Device.store
  by_cases hunit : d.unit = d'.unit
  · have hne : d.offset + s ≠ d'.offset + s' := by
      rcases h with hne | hle | hle
      · exact absurd hunit hne
      · omega
      · omega
    rw [hunit, Function.update_self, Function.update_of_ne hne]
  · rw [Function.update_of_ne hunit]

/-- **Finding a disk** registers devices that lie on it. -/
theorem identify_fits {unit capacity fuel : ℕ} (h : ∀ d ∈ m.allBlocks, d.Fits)
    (hm : m.identify unit capacity fuel = some m') : (∀ d ∈ m'.allBlocks, d.Fits) ∧ m'.disks = m.disks := by
  unfold Machine.identify at hm
  split at hm
  · cases hm
    exact ⟨h, rfl⟩
  · next hcapacity =>
    obtain ⟨st, hscan, rfl⟩ := Option.map_eq_some_iff.mp hm
    have hraw : (Device.disk .raw capacity unit).Fits := ⟨by omega, by decide⟩
    have hinside := partitionScan_fits (d := ⟨capacity, m.disks unit⟩) (show capacity < 2 ^ 32 by omega) hscan
    refine ⟨fun d hd => ?_, rfl⟩
    rcases List.mem_append.mp hd with hd | hd
    · exact h d hd
    · rcases List.mem_cons.mp hd with rfl | hd
      · exact hraw
      · obtain ⟨r, hr, rfl⟩ := List.mem_map.mp hd
        exact ⟨hinside r hr, by simp [Device.type], hraw⟩

/-- **A step.** -/
theorem Step.spec (h : ∀ d ∈ m.allBlocks, d.Fits) (hs : Step m e m') :
    (∀ d ∈ m'.allBlocks, d.Fits) ∧ m'.disks = e.apply m.disks ∧
      (∀ d s b, e = .read d s b → b = m.disks d.unit (d.offset + s)) ∧
      ∀ d s b, e = .write d s b → s < d.size := by
  cases hs with
  | identify hm =>
    obtain ⟨hfits, hdisks⟩ := identify_fits h hm
    exact ⟨hfits, hdisks, by simp, by simp⟩
  | @read d sector buffer hd hread =>
    rw [(h d hd).blockRead] at hread
    split at hread
    · obtain rfl := Except.ok.inj hread
      refine ⟨h, rfl, fun _ _ _ he => ?_, by simp⟩
      cases he
      rfl
    · cases hread
  | @write d sector buffer disks hd hwrite =>
    rw [(h d hd).blockWrite] at hwrite
    split at hwrite
    · next hlt =>
      split at hwrite
      · cases hwrite
      · obtain rfl := Except.ok.inj hwrite
        refine ⟨h, rfl, by simp, fun _ _ _ he => ?_⟩
        cases he
        exact hlt
    · cases hwrite

/-- **A run.**  By induction on the events. -/
theorem run_spec (h : Trace Step m es m') (hm : ∀ d ∈ m.allBlocks, d.Fits) :
    (∀ d ∈ m'.allBlocks, d.Fits) ∧ m'.disks = after m.disks es ∧
      (∀ before d s b rest, es = before ++ .read d s b :: rest → b = after m.disks before d.unit (d.offset + s)) ∧
      ∀ d s b, .write d s b ∈ es → s < d.size := by
  induction h with
  | nil m => exact ⟨hm, rfl, by simp, by simp⟩
  | @cons m m₁ m' e es hstep htail ih =>
    obtain ⟨hfits, hdisks, hread, hwrite⟩ := hstep.spec hm
    obtain ⟨hfits', hdisks', hread', hwrite'⟩ := ih hfits
    refine ⟨hfits', ?_, fun before d s b rest hes => ?_, fun d s b hmem => ?_⟩
    · rw [hdisks', hdisks]
      rfl
    · cases before with
      | nil =>
        rw [List.nil_append, List.cons.injEq] at hes
        exact hread d s b hes.1
      | cons e' before =>
        rw [List.cons_append, List.cons.injEq] at hes
        obtain ⟨rfl, hes⟩ := hes
        rw [hread' before d s b rest hes, hdisks]
        rfl
    · rcases List.mem_cons.mp hmem with rfl | hmem
      · exact hwrite d s b rfl
      · exact hwrite' d s b hmem

/-- Writes that all go elsewhere. -/
theorem after_apart {d : Device} (hwrite : ∀ d' s b, .write d' s b ∈ es → s < d'.size ∧ Apart d d') {s : ℕ}
    (hs : s < d.size) : after disks es d.unit (d.offset + s) = disks d.unit (d.offset + s) := by
  induction es generalizing disks with
  | nil => rfl
  | cons e es ih =>
    have hhead : e.apply disks d.unit (d.offset + s) = disks d.unit (d.offset + s) := by
      cases e with
      | write d' s' b =>
        obtain ⟨hs', hapart⟩ := hwrite d' s' b (by simp)
        exact store_of_apart hapart hs hs' disks b
      | _ => rfl
    exact (ih fun d' s' b hmem => hwrite d' s' b (by simp [hmem])).trans hhead

/-- **Every device is a window on its disk.**  In every run a read gets what was last written to the same sector of the
disk, through whichever device; a device serves just the sectors that it has, and writes unless it is foreign; and what
is written to other devices only, with no sector in common, never shows.  A device that is found for a role has its
type. -/
theorem blocks_correct (h : Trace Step ⟨[], disks⟩ es m) :
    (∀ before d s b rest, es = before ++ .read d s b :: rest → b = after disks before d.unit (d.offset + s)) ∧
    (∀ role d, m.locateBlockDevice role = some d → d ∈ m.allBlocks ∧ d.type = role) ∧
    ∀ d ∈ m.allBlocks,
      (∀ s, blockRead m.disks d s = if s < d.size then .ok (after disks es d.unit (d.offset + s))
        else .error (.pastEnd s d.size)) ∧
      (∀ s b, (∃ disks', blockWrite m.disks d s b = .ok disks') ↔ s < d.size ∧ d.type ≠ .foreign) ∧
      ((∀ d' s b, .write d' s b ∈ es → Apart d d') →
        ∀ s, s < d.size → blockRead m.disks d s = .ok (disks d.unit (d.offset + s))) := by
  obtain ⟨hfits, hdisks, hread, hwrite⟩ := run_spec h (by simp)
  refine ⟨hread, fun role d hd => ?_, fun d hd => ⟨fun s => ?_, fun s b => ?_, fun hapart s hs => ?_⟩⟩
  · exact ⟨List.mem_of_find?_eq_some hd, by simpa using List.find?_some hd⟩
  · rw [(hfits d hd).blockRead, hdisks]
  · rw [(hfits d hd).blockWrite]
    by_cases hs : s < d.size
    · by_cases htype : d.type = .foreign
      · simp [hs, htype]
      · simp [hs, htype]
    · simp [hs]
  · rw [(hfits d hd).blockRead, if_pos hs, hdisks,
      after_apart (fun d' s b hmem => ⟨hwrite d' s b hmem, hapart d' s b hmem⟩) hs]

/-- A disk of 100 sectors, each of which is a table with one partition, and that partition. -/
def disk100 : Device := .disk .raw 100 0

def filesys100 : Device := .partition .filesys 1 disk100 1

theorem identify_disk100 :
    ((Machine.mk [] fun _ _ => onePartition).identify 0 100 1).map Machine.allBlocks = some [disk100, filesys100] := by
  decide +kernel

/-- The partition reads what was written to it, and a read past its end panics. -/
theorem blocks_correct_disk100 : ∃ m : Machine,
    Trace Step ⟨[], fun _ _ => onePartition⟩ [.identify 0 100, .write filesys100 0 Block.zero] m ∧
    blockRead m.disks filesys100 0 = .ok Block.zero ∧ blockRead m.disks filesys100 1 = .error (.pastEnd 1 1) := by
  obtain ⟨m₁, hm₁, hblocks⟩ := Option.map_eq_some_iff.mp identify_disk100
  have hmem : filesys100 ∈ m₁.allBlocks := by
    rw [hblocks]
    decide
  have hfits : filesys100.Fits := ⟨by decide, by decide, by decide, by decide⟩
  have hwrite : blockWrite m₁.disks filesys100 0 Block.zero = .ok (filesys100.store m₁.disks 0 Block.zero) :=
    hfits.blockWrite m₁.disks 0 Block.zero
  have hrun : Trace Step ⟨[], fun _ _ => onePartition⟩ [.identify 0 100, .write filesys100 0 Block.zero] _ :=
    .cons (.identify hm₁) (.cons (.write hmem hwrite) (.nil _))
  obtain ⟨_, _, hdevices⟩ := blocks_correct hrun
  obtain ⟨hread, _, _⟩ := hdevices filesys100 hmem
  refine ⟨_, hrun, (hread 0).trans ?_, hread 1⟩
  simp [after, Event.apply, Device.store, filesys100, disk100, Device.unit, Device.offset, Device.size]

end Pintos.Devices.Blocks
