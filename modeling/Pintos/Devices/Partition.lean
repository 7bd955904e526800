import Pintos.Library.Bytes

/-!
# The partition scan

`partition_scan` of `devices/partition.c`.  `read_partition_table` checks that its `sector` is on the device and then
reads the table in sector 0, whatever `sector` is, so the tables of extended partitions are never read.

* `Chain` says which tables a device has and what their entries are, each table read from its own sector.
* On a device whose primary table has no extended partition on the device, the scan finds what `Chain` says.  Any other
  primary table is that of a device on which it does not (`partition_scan_iff`).

The memory for the tables and the partitions is there; `part_nr` counts without end.
-/

namespace Pintos.Devices

/-! ## Partition tables -/

/-- A sector of the device. -/
abbrev Sector := Block 512

/-- `struct block`, with the contents of the device. -/
structure BlockDevice where
  blockSize : ℕ
  sector : ℕ → Sector

/-- `struct partition_table_entry`, with the members that are looked at. -/
structure PartitionTableEntry where
  type : UInt8
  offset : ℕ
  size : ℕ
  deriving DecidableEq

/-- `pt->partitions[i]` -/
def partition (pt : Sector) (i : ℕ) : PartitionTableEntry where
  type := pt.get (446 + 16 * i + 4)
  offset := Bytes.le32 pt.get (446 + 16 * i + 8)
  size := Bytes.le32 pt.get (446 + 16 * i + 12)

/-- `pt->partitions` -/
def partitions (pt : Sector) : List PartitionTableEntry := (List.range 4).map (partition pt)

/-- `pt->signature == 0xaa55` -/
def signatureOk (pt : Sector) : Bool := pt.get 510 == 0x55 && pt.get 511 == 0xaa

namespace PartitionTableEntry

def empty (e : PartitionTableEntry) : Bool := e.size == 0 || e.type == 0

def extended (e : PartitionTableEntry) : Bool := e.type == 0x05 || e.type == 0x0f || e.type == 0x85 || e.type == 0xc5

end PartitionTableEntry

/-- The arguments of `found_partition` before the number. -/
structure Part where
  type : UInt8
  start : ℕ
  size : ℕ
  deriving DecidableEq

/-- `enum block_type`, as far as partitions have one. -/
inductive BlockType
  | kernel
  | filesys
  | scratch
  | swap
  | foreign
  deriving DecidableEq

/-- What the scan prints. -/
inductive Message
  /-- `"%s: Device contains no partitions"` -/
  | noPartitions
  /-- `"%s: Partition table at sector %u past end of device."` -/
  | tablePastEnd (sector : ℕ)
  /-- `"%s: Invalid partition table signature"` -/
  | invalidSignature
  /-- `"%s: Invalid extended partition table in sector %u"` -/
  | invalidExtended (sector : ℕ)
  /-- `"%s: Extended partition in sector %u"` -/
  | extendedPartition (sector : ℕ)
  /-- `"%s%d: Partition starts past end of device (sector %u)"` -/
  | startsPastEnd (partNr start : ℕ)
  /-- `"%s%d: Partition end (%u) past end of device (%u)"` -/
  | endPastEnd (partNr partEnd blockSize : ℕ)
  deriving DecidableEq

/-- `*part_nr`, the calls of `found_partition` with their numbers, the block devices registered, and the messages. -/
structure Scan where
  partNr : ℕ
  found : List (ℕ × Part)
  registered : List (ℕ × BlockType × Part)
  printed : List Message

namespace Scan

def printf (st : Scan) (m : Message) : Scan := { st with printed := st.printed ++ [m] }

/-- The block type for a partition type. -/
def blockType (partType : UInt8) : BlockType :=
  if partType = 0x20 then .kernel
  else if partType = 0x21 then .filesys
  else if partType = 0x22 then .scratch
  else if partType = 0x23 then .swap
  else .foreign

/-- `++*part_nr` and the call of `found_partition`. -/
def foundPartition (d : BlockDevice) (st : Scan) (p : Part) : Scan :=
  let partNr := st.partNr + 1
  let st := { st with partNr := partNr, found := st.found ++ [(partNr, p)] }
  if d.blockSize ≤ p.start then
    st.printf (.startsPastEnd partNr p.start)
  else if (p.start + p.size) % 2 ^ 32 < p.start ∨ d.blockSize < (p.start + p.size) % 2 ^ 32 then
    st.printf (.endPastEnd partNr ((p.start + p.size) % 2 ^ 32) d.blockSize)
  else
    { st with registered := st.registered ++ [(partNr, blockType p.type, p)] }

end Scan

/-- The call of `found_partition` for an entry of the table in `sector`. -/
def PartitionTableEntry.part (e : PartitionTableEntry) (sector : ℕ) : Part where
  type := e.type
  start := (e.offset + sector) % 2 ^ 32
  size := e.size

/-- The loop of `read_partition_table` over the entries. -/
def parsePartitions (d : BlockDevice) (recur : ℕ → ℕ → Scan → Option Scan) (sector primaryExtendedSector : ℕ) :
    List PartitionTableEntry → Scan → Option Scan
  | [], st => some st
  | e :: es, st =>
    if e.empty then
      parsePartitions d recur sector primaryExtendedSector es st
    else if e.extended then
      let st := st.printf (.extendedPartition sector)
      let nested :=
        if sector = 0 then recur e.offset e.offset st
        else recur ((e.offset + primaryExtendedSector) % 2 ^ 32) primaryExtendedSector st
      nested.bind fun st => parsePartitions d recur sector primaryExtendedSector es st
    else
      parsePartitions d recur sector primaryExtendedSector es (st.foundPartition d (e.part sector))

/-- `read_partition_table`; `none` when the recursion is deeper than the fuel. -/
def readPartitionTable (d : BlockDevice) : ℕ → ℕ → ℕ → Scan → Option Scan
  | 0, _, _, _ => none
  | fuel + 1, sector, primaryExtendedSector, st =>
    if d.blockSize ≤ sector then
      some (st.printf (.tablePastEnd sector))
    else
      -- block_read (block, 0, pt)
      let pt := d.sector 0
      if signatureOk pt = false then
        if primaryExtendedSector = 0 then some (st.printf .invalidSignature)
        else some (st.printf (.invalidExtended sector))
      else
        parsePartitions d (readPartitionTable d fuel) sector primaryExtendedSector (partitions pt) st

/-- `partition_scan` -/
def partitionScan (d : BlockDevice) (fuel : ℕ) : Option Scan :=
  (readPartitionTable d fuel 0 0 ⟨0, [], [], []⟩).map fun st =>
    if st.partNr = 0 then st.printf .noPartitions else st

/-! ## What there is to be found -/

/-- A table, or what is left of the entries of one. -/
inductive Place
  | table (sector primaryExtendedSector : ℕ)
  | entries (es : List PartitionTableEntry) (sector primaryExtendedSector : ℕ)

/-- The tables that hang on a place, by their sectors, and the partitions in them, in the order of the traversal.  Each
table is in its own sector.  A derivation is finite, so no table leads back to itself. -/
inductive Chain (d : BlockDevice) : Place → List ℕ → List Part → Prop
  | pastEnd {s p : ℕ} (h : d.blockSize ≤ s) : Chain d (.table s p) [] []
  | invalid {s p : ℕ} (h : s < d.blockSize) (hsign : signatureOk (d.sector s) = false) : Chain d (.table s p) [s] []
  | table {s p : ℕ} {ts : List ℕ} {ps : List Part} (h : s < d.blockSize) (hsign : signatureOk (d.sector s) = true)
      (hes : Chain d (.entries (partitions (d.sector s)) s p) ts ps) : Chain d (.table s p) (s :: ts) ps
  | nil {s p : ℕ} : Chain d (.entries [] s p) [] []
  | empty {e : PartitionTableEntry} {es : List PartitionTableEntry} {s p : ℕ} {ts : List ℕ} {ps : List Part}
      (h : e.empty = true) (hes : Chain d (.entries es s p) ts ps) : Chain d (.entries (e :: es) s p) ts ps
  | primary {e : PartitionTableEntry} {es : List PartitionTableEntry} {p : ℕ} {ts ts' : List ℕ} {ps ps' : List Part}
      (h : e.empty = false) (hext : e.extended = true) (htable : Chain d (.table e.offset e.offset) ts ps)
      (hes : Chain d (.entries es 0 p) ts' ps') : Chain d (.entries (e :: es) 0 p) (ts ++ ts') (ps ++ ps')
  | logical {e : PartitionTableEntry} {es : List PartitionTableEntry} {s p : ℕ} {ts ts' : List ℕ} {ps ps' : List Part}
      (hs : s ≠ 0) (h : e.empty = false) (hext : e.extended = true)
      (htable : Chain d (.table ((e.offset + p) % 2 ^ 32) p) ts ps) (hes : Chain d (.entries es s p) ts' ps') :
      Chain d (.entries (e :: es) s p) (ts ++ ts') (ps ++ ps')
  | partition {e : PartitionTableEntry} {es : List PartitionTableEntry} {s p : ℕ} {ts : List ℕ} {ps : List Part}
      (h : e.empty = false) (hext : e.extended = false) (hes : Chain d (.entries es s p) ts ps) :
      Chain d (.entries (e :: es) s p) ts (e.part s :: ps)

/-- A device whose tables are linked in a finite chain, no sector twice, with the partitions that they have. -/
structure Tables (d : BlockDevice) (ts : List ℕ) (ps : List Part) : Prop where
  chain : Chain d (.table 0 0) ts ps
  nodup : ts.Nodup

/-- Partitions with their numbers. -/
def numberFrom (k : ℕ) : List Part → List (ℕ × Part)
  | [] => []
  | p :: ps => (k + 1, p) :: numberFrom (k + 1) ps

/-- **The scan terminates and calls `found_partition` once for each partition**, in the order of the numbers. -/
def FindsAll (d : BlockDevice) (ps : List Part) : Prop :=
  ∃ fuel st, partitionScan d fuel = some st ∧ st.found = numberFrom 0 ps

/-- No extended partition in a valid primary table has its table on the device. -/
def OnlyPrimary (d : BlockDevice) : Prop :=
  signatureOk (d.sector 0) = true →
    ∀ e, e ∈ partitions (d.sector 0) → e.empty = false → e.extended = true → d.blockSize ≤ e.offset

/-! ## A primary table without extended partitions -/

section Proofs

variable {d : BlockDevice}

@[simp] theorem Scan.printf_partNr (st : Scan) (m : Message) : (st.printf m).partNr = st.partNr := rfl

@[simp] theorem Scan.printf_found (st : Scan) (m : Message) : (st.printf m).found = st.found := rfl

@[simp] theorem Scan.foundPartition_partNr (st : Scan) (p : Part) : (st.foundPartition d p).partNr = st.partNr + 1 := by
  unfold foundPartition
  dsimp only
  split
  · rfl
  · split <;> rfl

@[simp] theorem Scan.foundPartition_found (st : Scan) (p : Part) :
    (st.foundPartition d p).found = st.found ++ [(st.partNr + 1, p)] := by
  unfold foundPartition
  dsimp only
  split
  · rfl
  · split <;> rfl

@[simp] theorem length_numberFrom (k : ℕ) (ps : List Part) : (numberFrom k ps).length = ps.length := by
  induction ps generalizing k with
  | nil => rfl
  | cons p ps ih => simp [numberFrom, ih]

/-- The loop over the primary table, when every table it leads to is past the end of the device. -/
theorem parsePartitions_onlyPrimary {es : List PartitionTableEntry} {ts : List ℕ} {ps : List Part} {p : ℕ}
    (hoff : ∀ e, e ∈ es → e.empty = false → e.extended = true → d.blockSize ≤ e.offset)
    (h : Chain d (.entries es 0 p) ts ps) (st : Scan) :
    ∃ st', parsePartitions d (readPartitionTable d 1) 0 p es st = some st' ∧
      st'.partNr = st.partNr + ps.length ∧ st'.found = st.found ++ numberFrom st.partNr ps := by
  induction es generalizing ts ps st with
  | nil =>
    cases h
    exact ⟨st, rfl, by simp, by simp [numberFrom]⟩
  | cons e es ih =>
    have hrest : ∀ e', e' ∈ es → e'.empty = false → e'.extended = true → d.blockSize ≤ e'.offset :=
      fun e' he' => hoff e' (List.mem_cons_of_mem e he')
    unfold parsePartitions
    cases h with
    | empty hempty hes =>
      rw [if_pos hempty]
      exact ih hrest hes st
    | primary hempty hext htable hes =>
      have hpast : d.blockSize ≤ e.offset := hoff e (List.mem_cons_self) hempty hext
      have hread : ∀ st, readPartitionTable d 1 e.offset e.offset st = some (st.printf (.tablePastEnd e.offset)) :=
        fun st => if_pos hpast
      rw [if_neg (by simp [hempty]), if_pos hext]
      dsimp only
      rw [if_pos rfl, hread, Option.bind_some]
      cases htable with
      | pastEnd => exact ih hrest hes _
      | invalid hlt => omega
      | table hlt => omega
    | logical hs => exact absurd rfl hs
    | @partition _ _ _ _ ts ps hempty hext hes =>
      rw [if_neg (by simp [hempty]), if_neg (by simp [hext])]
      obtain ⟨st', hst', hnr, hfound⟩ := ih hrest hes (st.foundPartition d (e.part 0))
      refine ⟨st', hst', ?_, ?_⟩
      · rw [hnr, Scan.foundPartition_partNr, List.length_cons]
        omega
      · rw [hfound, Scan.foundPartition_found, Scan.foundPartition_partNr, numberFrom, List.append_assoc,
          List.singleton_append]

/-- **Without an extended partition on the device the scan finds every partition.** -/
theorem findsAll_of_onlyPrimary {ts : List ℕ} {ps : List Part} (honly : OnlyPrimary d)
    (h : Chain d (.table 0 0) ts ps) : FindsAll d ps := by
  have hread : ∃ st, readPartitionTable d 2 0 0 ⟨0, [], [], []⟩ = some st ∧ st.found = numberFrom 0 ps := by
    unfold readPartitionTable
    cases h with
    | pastEnd hpast => exact ⟨_, if_pos hpast, rfl⟩
    | invalid hlt hsign => exact ⟨_, by rw [if_neg (by omega), if_pos hsign, if_pos rfl], rfl⟩
    | table hlt hsign hes =>
      rw [if_neg (by omega), if_neg (by simp [hsign])]
      obtain ⟨st, hst, _, hfound⟩ := parsePartitions_onlyPrimary (honly hsign) hes ⟨0, [], [], []⟩
      exact ⟨st, hst, by rw [hfound, List.nil_append]⟩
  obtain ⟨st, hst, hfound⟩ := hread
  refine ⟨2, _, by rw [partitionScan, hst, Option.map_some], ?_⟩
  split
  · exact hfound
  · exact hfound

/-! ## A primary table with extended partitions -/

/-- The partitions in a table. -/
def partCount (es : List PartitionTableEntry) : ℕ := es.countP fun e => !e.empty && !e.extended

/-- The extended partitions in the primary table that have their table on the device. -/
def linkCount (d : BlockDevice) (es : List PartitionTableEntry) : ℕ :=
  es.countP fun e => !e.empty && e.extended && decide (e.offset < d.blockSize)

theorem partCount_cons (e : PartitionTableEntry) (es : List PartitionTableEntry) :
    partCount (e :: es) = partCount es + if e.empty = false ∧ e.extended = false then 1 else 0 := by
  simp [partCount, List.countP_cons]

theorem linkCount_cons (e : PartitionTableEntry) (es : List PartitionTableEntry) :
    linkCount d (e :: es) =
      linkCount d es + if e.empty = false ∧ e.extended = true ∧ e.offset < d.blockSize then 1 else 0 := by
  simp [linkCount, List.countP_cons, and_assoc]

/-- The loop makes one call for each partition in the table it has read, and those of the nested calls. -/
theorem parsePartitions_grows {recur : ℕ → ℕ → Scan → Option Scan} {n s p : ℕ}
    (hrecur : ∀ s p st st', recur s p st = some st' →
      st.found.length + (if s < d.blockSize then n else 0) ≤ st'.found.length)
    {es : List PartitionTableEntry} {st st' : Scan} (h : parsePartitions d recur s p es st = some st') :
    st.found.length + partCount es + (if s = 0 then n * linkCount d es else 0) ≤ st'.found.length := by
  induction es generalizing st with
  | nil =>
    cases h
    simp [partCount, linkCount]
  | cons e es ih =>
    unfold parsePartitions at h
    cases hempty : e.empty with
    | true =>
      rw [if_pos hempty] at h
      have hrest := ih h
      simpa [partCount_cons, linkCount_cons, hempty] using hrest
    | false =>
      rw [if_neg (by simp [hempty])] at h
      cases hext : e.extended with
      | true =>
        rw [if_pos hext] at h
        obtain ⟨st₁, h₁, h⟩ := Option.bind_eq_some_iff.mp h
        have hrest := ih h
        have hcount : partCount (e :: es) = partCount es := by
          simp [partCount_cons, hext]
        have hlink : linkCount d (e :: es) = linkCount d es + if e.offset < d.blockSize then 1 else 0 := by
          simp [linkCount_cons, hempty, hext]
        rw [hcount, hlink]
        by_cases hs : s = 0
        · rw [if_pos hs] at h₁ hrest ⊢
          have hnested := hrecur _ _ _ _ h₁
          rw [Scan.printf_found] at hnested
          rw [Nat.mul_add]
          split at hnested
          · rw [if_pos ‹_›]
            omega
          · rw [if_neg ‹_›]
            omega
        · rw [if_neg hs] at h₁ hrest ⊢
          have hnested := hrecur _ _ _ _ h₁
          rw [Scan.printf_found] at hnested
          omega
      | false =>
        rw [if_neg (by simp [hext])] at h
        have hrest := ih h
        rw [Scan.foundPartition_found, List.length_append] at hrest
        have hcount : partCount (e :: es) = partCount es + 1 := by
          simp [partCount_cons, hempty, hext]
        have hlink : linkCount d (e :: es) = linkCount d es := by
          simp [linkCount_cons, hext]
        rw [hcount, hlink]
        simp only [List.length_singleton] at hrest
        omega

/-- Each call on the device makes the calls for the primary table again. -/
theorem readPartitionTable_grows (hsign : signatureOk (d.sector 0) = true) {fuel s p : ℕ} {st st' : Scan}
    (h : readPartitionTable d fuel s p st = some st') :
    st.found.length + (if s < d.blockSize then partCount (partitions (d.sector 0)) else 0) ≤ st'.found.length := by
  induction fuel generalizing s p st st' with
  | zero => cases h
  | succ fuel ih =>
    unfold readPartitionTable at h
    by_cases hs : d.blockSize ≤ s
    · rw [if_pos hs] at h
      cases h
      rw [if_neg (by omega)]
      exact le_refl _
    · rw [if_neg hs, if_neg (by simp [hsign])] at h
      have hgrows := parsePartitions_grows (fun _ _ _ _ => ih) h
      rw [if_pos (by omega)]
      omega

/-- With no partition in the primary table, no call is made. -/
theorem parsePartitions_none {recur : ℕ → ℕ → Scan → Option Scan} {s p : ℕ}
    (hrecur : ∀ s p st st', recur s p st = some st' → st'.found = st.found)
    {es : List PartitionTableEntry} (hes : partCount es = 0) {st st' : Scan}
    (h : parsePartitions d recur s p es st = some st') : st'.found = st.found := by
  induction es generalizing st with
  | nil =>
    cases h
    rfl
  | cons e es ih =>
    unfold parsePartitions at h
    cases hempty : e.empty with
    | true =>
      rw [if_pos hempty] at h
      exact ih (by simpa [partCount_cons, hempty] using hes) h
    | false =>
      rw [if_neg (by simp [hempty])] at h
      cases hext : e.extended with
      | true =>
        rw [if_pos hext] at h
        obtain ⟨st₁, h₁, h⟩ := Option.bind_eq_some_iff.mp h
        rw [ih (by simpa [partCount_cons, hext] using hes) h]
        by_cases hs : s = 0
        · rw [if_pos hs] at h₁
          exact hrecur _ _ (st.printf _) _ h₁
        · rw [if_neg hs] at h₁
          exact hrecur _ _ (st.printf _) _ h₁
      | false => simp [partCount_cons, hempty, hext] at hes

theorem readPartitionTable_none (hes : partCount (partitions (d.sector 0)) = 0) {fuel s p : ℕ} {st st' : Scan}
    (h : readPartitionTable d fuel s p st = some st') : st'.found = st.found := by
  induction fuel generalizing s p st st' with
  | zero => cases h
  | succ fuel ih =>
    unfold readPartitionTable at h
    split at h
    · cases h
      rfl
    · dsimp only at h
      split at h
      · split at h
        · cases h
          rfl
        · cases h
          rfl
      · exact parsePartitions_none (fun _ _ _ _ => ih) hes h

/-- How many calls there can be, by the entries of the primary table. -/
theorem FindsAll.count {ps : List Part} (h : FindsAll d ps) (hsize : 0 < d.blockSize)
    (hsign : signatureOk (d.sector 0) = true) :
    partCount (partitions (d.sector 0)) * (1 + linkCount d (partitions (d.sector 0))) ≤ ps.length ∧
    (partCount (partitions (d.sector 0)) = 0 → ps.length = 0) := by
  obtain ⟨fuel, st, hst, hfound⟩ := h
  obtain ⟨st₁, h₁, rfl⟩ := Option.map_eq_some_iff.mp hst
  have hlength : st₁.found.length = ps.length := by
    rw [← length_numberFrom 0 ps, ← hfound]
    split <;> rfl
  refine ⟨?_, ?_⟩
  · cases fuel with
    | zero => cases h₁
    | succ fuel =>
      unfold readPartitionTable at h₁
      rw [if_neg (by omega), if_neg (by simp [hsign])] at h₁
      have hgrows := parsePartitions_grows (fun _ _ _ _ => readPartitionTable_grows hsign) h₁
      rw [if_pos rfl, List.length_nil] at hgrows
      rw [Nat.mul_add]
      omega
  · intro hes
    rw [← hlength, readPartitionTable_none hes h₁, List.length_nil]

/-- A device with the same primary table and one table in all other sectors. -/
def BlockDevice.withTables (d : BlockDevice) (table : Sector) : BlockDevice where
  blockSize := d.blockSize
  sector := fun s => if s = 0 then d.sector 0 else table

theorem BlockDevice.withTables_zero (d : BlockDevice) (table : Sector) :
    (d.withTables table).sector 0 = d.sector 0 := rfl

theorem BlockDevice.withTables_of_ne (d : BlockDevice) (table : Sector) {s : ℕ} (hs : s ≠ 0) :
    (d.withTables table).sector s = table := if_neg hs

/-- A table with a single partition. -/
def onePartition : Sector :=
  Block.mk fun i => if i = 450 then 0x21 else if i = 454 then 1 else if i = 458 then 1
    else if i = 510 then 0x55 else if i = 511 then 0xaa else 0

/-- The links of the primary table lead to tables of `k` partitions each. -/
theorem Chain.withTables {table : Sector} {k p : ℕ}
    (htable : ∀ o, o ≠ 0 → o < d.blockSize → ∃ ps, Chain (d.withTables table) (.table o o) [o] ps ∧ ps.length = k)
    {es : List PartitionTableEntry} {ts : List ℕ} {ps : List Part} (h : Chain d (.entries es 0 p) ts ps)
    (hzero : 0 ∉ ts) :
    ∃ ts' ps', Chain (d.withTables table) (.entries es 0 p) ts' ps' ∧ ts'.Sublist ts ∧
      ps'.length = partCount es + k * linkCount d es := by
  induction es generalizing ts ps with
  | nil =>
    cases h
    exact ⟨[], [], .nil, List.Sublist.refl [], by simp [partCount, linkCount]⟩
  | cons e es ih =>
    cases h with
    | empty hempty hes =>
      obtain ⟨ts', ps', hchain, hsub, hlength⟩ := ih hes hzero
      exact ⟨ts', ps', .empty hempty hchain, hsub, by simpa [partCount_cons, linkCount_cons, hempty] using hlength⟩
    | @primary _ _ _ ts₁ ts₂ _ _ hempty hext hlink hes =>
      obtain ⟨hzero₁, hzero₂⟩ := not_or.mp (fun h => hzero (List.mem_append.mpr h))
      obtain ⟨ts', ps', hchain, hsub, hlength⟩ := ih hes hzero₂
      have hcount : partCount (e :: es) = partCount es := by
        simp [partCount_cons, hext]
      by_cases hoff : d.blockSize ≤ e.offset
      · refine ⟨[] ++ ts', [] ++ ps', .primary hempty hext (.pastEnd hoff) hchain, ?_, ?_⟩
        · exact hsub.trans (List.sublist_append_right ts₁ ts₂)
        · have hlink' : linkCount d (e :: es) = linkCount d es := by
            simp [linkCount_cons, hempty, hext, hoff]
          rw [hcount, hlink']
          exact hlength
      · have hmem : [e.offset].Sublist ts₁ := by
          cases hlink with
          | pastEnd hpast => exact absurd hpast hoff
          | invalid => exact List.Sublist.refl _
          | table => exact List.singleton_sublist.mpr List.mem_cons_self
        have hne : e.offset ≠ 0 := by
          intro ho
          rw [ho] at hmem
          exact hzero₁ (List.singleton_sublist.mp hmem)
        obtain ⟨ps₁, htab, hk⟩ := htable e.offset hne (by omega)
        refine ⟨[e.offset] ++ ts', ps₁ ++ ps', .primary hempty hext htab hchain, hmem.append hsub, ?_⟩
        have hlink' : linkCount d (e :: es) = linkCount d es + 1 := by
          simp [linkCount_cons, hempty, hext, Nat.lt_of_not_le hoff]
        rw [List.length_append, hk, hlength, hcount, hlink', Nat.mul_add]
        omega
    | logical hs => exact absurd rfl hs
    | partition hempty hext hes =>
      obtain ⟨ts', ps', hchain, hsub, hlength⟩ := ih hes hzero
      refine ⟨ts', e.part 0 :: ps', .partition hempty hext hchain, hsub, ?_⟩
      have hcount : partCount (e :: es) = partCount es + 1 := by
        simp [partCount_cons, hempty, hext]
      have hlink : linkCount d (e :: es) = linkCount d es := by
        simp [linkCount_cons, hext]
      rw [List.length_cons, hlength, hcount, hlink]
      omega

theorem chain_zero {o : ℕ} (hne : o ≠ 0) (hlt : o < d.blockSize) :
    Chain (d.withTables Block.zero) (.table o o) [o] [] := by
  apply Chain.invalid
  · exact hlt
  · rw [BlockDevice.withTables_of_ne d _ hne]
    decide

theorem chain_onePartition {o : ℕ} (hne : o ≠ 0) (hlt : o < d.blockSize) :
    Chain (d.withTables onePartition) (.table o o) [o] [⟨0x21, (1 + o) % 2 ^ 32, 1⟩] := by
  have hsector : (d.withTables onePartition).sector o = onePartition := d.withTables_of_ne _ hne
  have hentries : partitions onePartition = [⟨0x21, 1, 1⟩, ⟨0, 0, 0⟩, ⟨0, 0, 0⟩, ⟨0, 0, 0⟩] := by decide
  apply Chain.table
  · exact hlt
  · rw [hsector]
    decide
  · rw [hsector, hentries]
    exact .partition rfl rfl (.empty rfl (.empty rfl (.empty rfl .nil)))

/-- A primary table with an extended partition on the device is that of a device on which the scan goes wrong. -/
theorem exists_not_findsAll {ts : List ℕ} {ps : List Part} (h : Tables d ts ps) (hnot : ¬OnlyPrimary d) :
    ∃ d' ts' ps', d'.blockSize = d.blockSize ∧ d'.sector 0 = d.sector 0 ∧ Tables d' ts' ps' ∧ ¬FindsAll d' ps' := by
  simp only [OnlyPrimary, not_forall, not_le] at hnot
  obtain ⟨hsign, e, he, hempty, hext, hoff⟩ := hnot
  have hlink : 0 < linkCount d (partitions (d.sector 0)) :=
    List.countP_pos_iff.mpr ⟨e, he, by simp [hempty, hext, hoff]⟩
  obtain ⟨hchain, hnodup⟩ := h
  cases hchain with
  | pastEnd hpast => omega
  | invalid _ hsign' => rw [hsign] at hsign'; cases hsign'
  | @table _ _ ts _ hsize _ hes =>
    obtain ⟨hzero, hnodup⟩ := List.nodup_cons.mp hnodup
    -- the other tables have a partition exactly if the primary table has none
    have hleaf : ∃ table k, k ≠ partCount (partitions (d.sector 0)) ∧ (k = 0 ∨ partCount (partitions (d.sector 0)) = 0) ∧
        ∀ o, o ≠ 0 → o < d.blockSize → ∃ ps, Chain (d.withTables table) (.table o o) [o] ps ∧ ps.length = k := by
      by_cases hnone : partCount (partitions (d.sector 0)) = 0
      · exact ⟨onePartition, 1, by omega, .inr hnone, fun o ho hlt => ⟨_, chain_onePartition ho hlt, rfl⟩⟩
      · exact ⟨Block.zero, 0, by omega, .inl rfl, fun o ho hlt => ⟨_, chain_zero ho hlt, rfl⟩⟩
    obtain ⟨table, k, hk, hzeros, htable⟩ := hleaf
    obtain ⟨ts', ps', hchain', hsub, hlength⟩ := Chain.withTables htable hes hzero
    have hsector := d.withTables_zero table
    refine ⟨d.withTables table, 0 :: ts', ps', rfl, hsector, ⟨?_, ?_⟩, ?_⟩
    · exact .table hsize (by rw [hsector, hsign]) (by rw [hsector]; exact hchain')
    · exact List.nodup_cons.mpr ⟨fun hmem => hzero (hsub.subset hmem), hsub.nodup hnodup⟩
    · intro hfinds
      obtain ⟨hmany, hnone⟩ := hfinds.count hsize (by rw [hsector, hsign])
      have hsame : linkCount (d.withTables table) = linkCount d := rfl
      rw [hsector, hsame, hlength] at hmany
      rw [hsector, hlength] at hnone
      rcases hzeros with rfl | hp
      · have hpos : 0 < partCount (partitions (d.sector 0)) := by omega
        have := Nat.mul_pos hpos hlink
        rw [Nat.mul_add] at hmany
        omega
      · have := Nat.mul_pos (show 0 < k by omega) hlink
        have := hnone hp
        omega

/-- **The scan finds what there is exactly if no extended partition in the primary table is on the device**: then on
every device with this primary table, and otherwise not on all of them. -/
theorem partition_scan_iff {ts : List ℕ} {ps : List Part} (h : Tables d ts ps) :
    OnlyPrimary d ↔ ∀ d' ts' ps', d'.blockSize = d.blockSize → d'.sector 0 = d.sector 0 → Tables d' ts' ps' →
      FindsAll d' ps' := by
  constructor
  · intro honly d' ts' ps' hsize hsector h'
    have honly' : OnlyPrimary d' := by
      unfold OnlyPrimary
      rw [hsize, hsector]
      exact honly
    exact findsAll_of_onlyPrimary honly' h'.chain
  · intro hall
    by_contra hnot
    obtain ⟨d', ts', ps', hsize, hsector, h', hfails⟩ := exists_not_findsAll h hnot
    exact hfails (hall d' ts' ps' hsize hsector h')

end Proofs

/-- 40 sectors, with one extended partition that has one logical partition. -/
def logicalDevice : BlockDevice where
  blockSize := 40
  sector := fun s =>
    if s = 0 then
      Block.mk fun i => if i = 450 then 0x05 else if i = 454 then 10 else if i = 458 then 20
        else if i = 510 then 0x55 else if i = 511 then 0xaa else 0
    else onePartition

theorem tables_logicalDevice : Tables logicalDevice [0, 10] [⟨0x21, 11, 1⟩] := by
  have hprimary : partitions (logicalDevice.sector 0) = [⟨0x05, 10, 20⟩, ⟨0, 0, 0⟩, ⟨0, 0, 0⟩, ⟨0, 0, 0⟩] := by decide
  have hlogical : partitions (logicalDevice.sector 10) = [⟨0x21, 1, 1⟩, ⟨0, 0, 0⟩, ⟨0, 0, 0⟩, ⟨0, 0, 0⟩] := by decide
  have hnested : Chain logicalDevice (.table 10 10) [10] [⟨0x21, 11, 1⟩] := by
    apply Chain.table
    · decide
    · decide
    · rw [hlogical]
      exact .partition rfl rfl (.empty rfl (.empty rfl (.empty rfl .nil)))
  refine ⟨?_, by decide⟩
  apply Chain.table
  · decide
  · decide
  · have hrest : Chain logicalDevice (.entries [⟨0, 0, 0⟩, ⟨0, 0, 0⟩, ⟨0, 0, 0⟩] 0 0) [] [] :=
      .empty rfl (.empty rfl (.empty rfl .nil))
    rw [hprimary]
    exact Chain.primary (e := ⟨0x05, 10, 20⟩) rfl rfl hnested hrest

theorem partition_scan_iff_logicalDevice :
    OnlyPrimary logicalDevice ↔ ∀ d' ts' ps', d'.blockSize = logicalDevice.blockSize →
      d'.sector 0 = logicalDevice.sector 0 → Tables d' ts' ps' → FindsAll d' ps' :=
  partition_scan_iff tables_logicalDevice

/-- The scan does not come to the logical partition. -/
theorem logical_partition_not_found : ¬∀ d ts ps, Tables d ts ps → FindsAll d ps := by
  intro hall
  have hfinds := hall logicalDevice _ _ tables_logicalDevice
  have hnone := (hfinds.count (by decide) (by decide)).2 (by decide)
  cases hnone

end Pintos.Devices
