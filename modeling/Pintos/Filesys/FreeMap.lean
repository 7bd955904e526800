import Pintos.Filesys.State

/-!
# The free map

`lib/kernel/bitmap.c` as far as the file system uses it, and `filesys/free-map.c`.  Every change of the
free map is written to its file at once with `bitmap_write`, which is a call of `inode_write_at`; that
function in turn allocates sectors.  The functions here take `bitmapWrite` as an argument, and
`Pintos.Filesys.Inode` ties the knot.
-/

namespace Pintos.Filesys

/-! ## `lib/kernel/bitmap.c` -/

namespace Bitmap

/-- `bitmap_set_multiple` -/
def setMultiple (b : Bitmap) (start cnt : ℕ) (value : Bool) : Bitmap :=
  { b with bits := fun i => if start ≤ i ∧ i < start + cnt then value else b.bits i }

/-- `bitmap_create`; `garbage` is what the freshly allocated elements hold. -/
def create (bitCnt : ℕ) (garbage : ℕ → Bool) : Bitmap :=
  setMultiple ⟨bitCnt, garbage⟩ 0 bitCnt false

/-- `bitmap_mark` -/
def mark (b : Bitmap) (i : ℕ) : Bitmap := { b with bits := Function.update b.bits i true }

/-- `bitmap_contains`, past its assertions. -/
def contains (b : Bitmap) (start cnt : ℕ) (value : Bool) : Bool :=
  (List.range cnt).any fun i => b.bits (start + i) == value

/-- `bitmap_scan`; `BITMAP_ERROR` is `none`. -/
def scan (b : Bitmap) (start cnt : ℕ) (value : Bool) : Option ℕ :=
  if cnt ≤ b.bitCnt then
    (List.range' start (b.bitCnt - cnt + 1 - start)).find? fun i => !b.contains i cnt (!value)
  else none

/-- `bitmap_scan_and_flip` -/
def scanAndFlip (b : Bitmap) (start cnt : ℕ) (value : Bool) : Option ℕ × Bitmap :=
  match b.scan start cnt value with
  | some i => (some i, b.setMultiple i cnt (!value))
  | none => (none, b)

/-- `byte_cnt`, the size of the elements in bytes; also `bitmap_file_size`. -/
def byteCnt (b : Bitmap) : ℕ := 4 * ((b.bitCnt + 31) / 32)

/-- Byte `j` of the elements: an element is stored little-endian, and bit 0 is its lowest. -/
def byte (b : Bitmap) (j : ℕ) : UInt8 :=
  UInt8.ofNat (Nat.ofBits fun k : Fin 8 => b.bits (8 * j + k))

/-- The bitmap `bitmap_read` makes of the bytes of a file, with `last_mask` applied. -/
def ofBytes (bitCnt : ℕ) (f : ℕ → UInt8) : Bitmap :=
  ⟨bitCnt, fun i => decide (i < bitCnt) && (f (i / 8)).toNat.testBit (i % 8)⟩

end Bitmap

/-! ## `filesys/free-map.c` -/

/-- `free_map_allocate`; `none` is `false`, and a sector is what goes to `*SECTORP`. -/
def freeMapAllocateWith (bitmapWrite : Fs Bool) (cnt : ℕ) : Fs (Option ℕ) := do
  let m ← getMem
  match m.freeMap.scanAndFlip 0 cnt false with
  | (none, _) =>
    noSector
    return none
  | (some sector, freeMap) =>
    setMem { m with freeMap := freeMap }
    if m.freeMapFile.isSome then
      if ← bitmapWrite then
        return some sector
      else
        let m ← getMem
        setMem { m with freeMap := m.freeMap.setMultiple sector cnt false }
        noSector
        return none
    else return some sector

/-- `free_map_release` -/
def freeMapReleaseWith (bitmapWrite : Fs Bool) (sector cnt : ℕ) : Fs Unit := do
  let m ← getMem
  -- `bitmap_all` has assertions of its own on the range
  if m.freeMap.bitCnt < sector + cnt ∨ m.freeMap.contains sector cnt false then
    .stop .assertion
  else
    setMem { m with freeMap := m.freeMap.setMultiple sector cnt false }
    let _ ← bitmapWrite
    return

end Pintos.Filesys
