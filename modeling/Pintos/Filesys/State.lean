import Pintos.Library.Prog
import Pintos.Library.Bytes
import Pintos.Filesys.Cache

/-!
# The state of the file system and the operations of its code

A kernel function of `filesys/` is a program `Fs α` over a few operations: the two calls into the
buffer cache, a call into the memory allocator, a look at an uninitialised object, and reading and
writing the kernel memory `Mem` that these functions share.

* `Runs` are the runs of a program on a plain array of sectors, with the answers of the allocator and
  the contents of uninitialised objects left open up to a `Policy`; `RunsCached` are its runs on the
  buffer cache of `Pintos.Filesys.Cache`, and `RunsCached.toWorld` shows that they are runs on the
  array of the cache's contents.
* `wp` is the weakest precondition over `Runs`.
* `runArray` computes one run, for given answers.

The sizes of the source are written as numbers: `BLOCK_SECTOR_SIZE` is 512, `DIRECT` 123, `INDIRECT`
128 (so an inode has at most 123 + 128 + 128 * 128 = 16635 data blocks), `NAME_MAX` 14, and a
`struct dir_entry` has 20 bytes.

The device is `fsSize` sectors long.  `block_read` panics past its end; a sector past the end is never
in the cache, so the check can stand in front of the cache (`bufferCacheRead`).
-/

namespace Pintos.Filesys

/-- `FREE_MAP_SECTOR` -/
abbrev freeMapSector : ℕ := 0

/-- `ROOT_DIR_SECTOR` -/
abbrev rootDirSector : ℕ := 1

/-- `INODE_MAGIC` -/
abbrev inodeMagic : ℕ := 0x494e4f44

/-- The contents of one sector. -/
abbrev Sector := Block 512

/-! ## Kernel memory -/

/-- `struct inode_disk`, the bytes of its sector: `d_indir_block` and `indir_block`, 123 words of
`dir_blocks`, then `length`, `magic` and `is_dir`. -/
abbrev InodeDisk := Sector

namespace InodeDisk

def dIndirBlock (d : InodeDisk) : ℕ := d.word 0
def indirBlock (d : InodeDisk) : ℕ := d.word 1
def dirBlock (d : InodeDisk) (i : ℕ) : ℕ := d.word (i + 2)
def length (d : InodeDisk) : ℤ := toInt32 (d.word 125)
def isDir (d : InodeDisk) : Bool := d.get 508 != 0

def setDIndirBlock (d : InodeDisk) (s : ℕ) : InodeDisk := d.setWord 0 s
def setIndirBlock (d : InodeDisk) (s : ℕ) : InodeDisk := d.setWord 1 s
def setDirBlock (d : InodeDisk) (i s : ℕ) : InodeDisk := d.setWord (i + 2) s
def setLength (d : InodeDisk) (len : ℤ) : InodeDisk := d.setWord 125 (ofInt32 len)
def setMagic (d : InodeDisk) (m : ℕ) : InodeDisk := d.setWord 126 m
def setIsDir (d : InodeDisk) (b : Bool) : InodeDisk := d.splice 508 1 fun _ => if b then 1 else 0

end InodeDisk

/-- `struct inode` -/
structure Inode where
  sector : ℕ
  openCnt : ℤ
  removed : Bool
  denyWriteCnt : ℤ
  data : InodeDisk

/-- `struct file`; `inode` is an address. -/
structure File where
  inode : ℕ
  pos : ℤ
  denyWrite : Bool
  deriving DecidableEq

/-- `struct dir` -/
structure Dir where
  inode : ℕ
  pos : ℤ
  deriving DecidableEq

/-- `struct bitmap`: `bitCnt` bits; the bits from there to the end of the last element exist too. -/
structure Bitmap where
  bitCnt : ℕ
  bits : ℕ → Bool

/-- The memory the functions of `filesys/` share: `struct inode` objects by address (a freed one is
`none`, and no address is used twice), `open_inodes`, `free_map`, `free_map_file`, the working
directory of the current thread, and the size of `fs_device`. -/
structure Mem where
  fsSize : ℕ
  heap : ℕ → Option Inode
  next : ℕ
  openInodes : List ℕ
  freeMap : Bitmap
  freeMapFile : Option File
  cwd : Option Dir

/-! ## Operations -/

/-- Why a function does not return to its caller: the process exits, the kernel panics (a failed
`ASSERT`, a `PANIC`), an access faults or goes to freed memory or outside its object, or a recursion
or a loop has no end. -/
inductive Stop
  | exit (status : ℤ)
  | assertion
  | panic
  | pageFault
  | useAfterFree
  | outOfBounds
  | stackOverflow
  | diverges
  deriving DecidableEq

inductive Op
  | cacheRead (sector : ℕ)
  | cacheWrite (sector : ℕ) (data : Sector)
  | malloc
  | junk
  | noSector
  | getMem
  | setMem (m : Mem)

/-- What an operation answers: the data of a sector, whether an allocation succeeds, the bytes an
uninitialised object happens to hold, or the memory.  `noSector` does nothing: it marks the points
where the allocation of a sector fails. -/
abbrev Op.Ans : Op → Type
  | .cacheRead _ => Sector
  | .cacheWrite _ _ => Unit
  | .malloc => Bool
  | .junk => ℕ → UInt8
  | .noSector => Unit
  | .getMem => Mem
  | .setMem _ => Unit

/-- A function of the file system code. -/
abbrev Fs (α : Type) := Prog Op Op.Ans Stop α

/-- Memory and the sectors of the device, as the code sees them through the cache. -/
structure World where
  mem : Mem
  disk : ℕ → Sector

/-- Memory and the buffer cache in front of the device. -/
structure CachedWorld where
  mem : Mem
  cache : Cache.CoherentCache Sector

/-- The array of sectors a cached state stands for. -/
def CachedWorld.toWorld (w : CachedWorld) : World := ⟨w.mem, w.cache.contents⟩

variable {α β : Type}

/-- What may happen outside: which outcomes a memory allocation may have, what an uninitialised object
may hold, and whether the allocation of a sector may fail. -/
structure Policy where
  malloc : Bool → Prop
  junk : (ℕ → UInt8) → Prop
  noSector : Prop

/-- Anything may happen. -/
def Policy.any : Policy := ⟨fun _ => True, fun _ => True, True⟩

/-- No memory allocation fails. -/
def Policy.memory : Policy := ⟨fun b => b = true, fun _ => True, True⟩

/-- No memory allocation and no sector allocation fails. -/
def Policy.space : Policy := ⟨fun b => b = true, fun _ => True, False⟩

/-- The admitted answers of each operation on a plain array of sectors. -/
def effect (P : Policy) : Prog.Effect Op Op.Ans World
  | .cacheRead s, w, x, w' => x = w.disk s ∧ w' = w
  | .cacheWrite s d, w, _, w' => w' = { w with disk := Function.update w.disk s d }
  | .malloc, w, b, w' => P.malloc b ∧ w' = w
  | .junk, w, g, w' => P.junk g ∧ w' = w
  | .noSector, w, _, w' => P.noSector ∧ w' = w
  | .getMem, w, m, w' => m = w.mem ∧ w' = w
  | .setMem m, w, _, w' => w' = { w with mem := m }

/-- The admitted answers of each operation on the buffer cache. -/
def cachedEffect (P : Policy) : Prog.Effect Op Op.Ans CachedWorld
  | .cacheRead s, w, x, w' => x = (w.cache.read s).1 ∧ w' = { w with cache := (w.cache.read s).2 }
  | .cacheWrite s d, w, _, w' => w' = { w with cache := w.cache.write s d }
  | .malloc, w, b, w' => P.malloc b ∧ w' = w
  | .junk, w, g, w' => P.junk g ∧ w' = w
  | .noSector, w, _, w' => P.noSector ∧ w' = w
  | .getMem, w, m, w' => m = w.mem ∧ w' = w
  | .setMem m, w, _, w' => w' = { w with mem := m }

/-- `p` run from `w` may end with `r` in `w'`. -/
def Runs (P : Policy) (p : Fs α) (w : World) (r : Except Stop α) (w' : World) : Prop :=
  Prog.Ends (effect P) p w r w'

/-- `p` run from `w` on the buffer cache may end with `r` in `w'`. -/
def RunsCached (P : Policy) (p : Fs α) (w : CachedWorld) (r : Except Stop α) (w' : CachedWorld) :
    Prop := Prog.Ends (cachedEffect P) p w r w'

/-- **The cache refines the array.**  Every run on the buffer cache is one on the array of its
contents. -/
theorem RunsCached.toWorld {P : Policy} {p : Fs α} {w w' : CachedWorld} {r : Except Stop α}
    (h : RunsCached P p w r w') : Runs P p w.toWorld r w'.toWorld := by
  have hsim : ∀ o (s : World) (t : CachedWorld) x t', s = t.toWorld → cachedEffect P o t x t' →
      ∃ s', effect P o s x s' ∧ s' = t'.toWorld := by
    rintro o s t x t' rfl ht
    cases o with
    | cacheRead i =>
      obtain ⟨rfl, rfl⟩ := ht
      obtain ⟨h₁, h₂⟩ := t.cache.read_eq i
      refine ⟨_, ⟨h₁, rfl⟩, ?_⟩
      rw [CachedWorld.toWorld, CachedWorld.toWorld, h₂]
    | cacheWrite i d =>
      obtain rfl : t' = _ := ht
      refine ⟨_, rfl, ?_⟩
      simp only [CachedWorld.toWorld, t.cache.write_eq i d]
    | malloc =>
      obtain ⟨hb, rfl⟩ := ht
      exact ⟨_, ⟨hb, rfl⟩, rfl⟩
    | junk =>
      obtain ⟨hg, rfl⟩ := ht
      exact ⟨_, ⟨hg, rfl⟩, rfl⟩
    | noSector =>
      obtain ⟨hf, rfl⟩ := ht
      exact ⟨_, ⟨hf, rfl⟩, rfl⟩
    | getMem =>
      obtain ⟨rfl, rfl⟩ := ht
      exact ⟨_, ⟨rfl, rfl⟩, rfl⟩
    | setMem m =>
      obtain rfl : t' = _ := ht
      exact ⟨_, rfl, rfl⟩
  obtain ⟨s', hs', rfl⟩ := Prog.Ends.simulate hsim rfl h
  exact hs'

/-! ### Running a program -/

/-- What the outside does in one run: the outcome of each memory allocation and the bytes of each
uninitialised object, in the order in which they are met, and whether a sector allocation has failed
so far. -/
structure Env where
  malloc : ℕ → Bool
  junk : ℕ → ℕ → UInt8
  failed : Bool

def Env.nextMalloc (e : Env) : Env := { e with malloc := fun n => e.malloc (n + 1) }

def Env.nextJunk (e : Env) : Env := { e with junk := fun n => e.junk (n + 1) }

/-- The operations on a plain array of sectors. -/
def arrayHandler : Prog.Handler Op Op.Ans (Env × World)
  | .cacheRead s, (e, w) => (w.disk s, (e, w))
  | .cacheWrite s d, (e, w) => ((), (e, { w with disk := Function.update w.disk s d }))
  | .malloc, (e, w) => (e.malloc 0, (e.nextMalloc, w))
  | .junk, (e, w) => (e.junk 0, (e.nextJunk, w))
  | .noSector, (e, w) => ((), ({ e with failed := true }, w))
  | .getMem, (e, w) => (w.mem, (e, w))
  | .setMem m, (e, w) => ((), (e, { w with mem := m }))

def runArray (p : Fs α) (e : Env) (w : World) : Except Stop α × Env × World :=
  Prog.run arrayHandler p (e, w)

/-- An environment that keeps to a policy. -/
structure Policy.Admits (P : Policy) (e : Env) : Prop where
  malloc : ∀ n, P.malloc (e.malloc n)
  junk : ∀ n, P.junk (e.junk n)

theorem runArray_failed (p : Fs α) {e : Env} {w : World} (h : e.failed = true) :
    (runArray p e w).2.1.failed = true := by
  induction p generalizing e w with
  | ret a => exact h
  | stop r => exact h
  | call o k ih => cases o <;> exact ih _ (by first | exact h | rfl)

/-- The run of the array handler is one of the runs of the program. -/
theorem runs_runArray {P : Policy} (p : Fs α) {e : Env} {w : World} (he : P.Admits e)
    (hf : (runArray p e w).2.1.failed = true → P.noSector) :
    Runs P p w (runArray p e w).1 (runArray p e w).2.2 := by
  induction p generalizing e w with
  | ret a => exact ⟨rfl, rfl⟩
  | stop r => exact ⟨rfl, rfl⟩
  | call o k ih =>
    cases o with
    | cacheRead s => exact ⟨_, w, ⟨rfl, rfl⟩, ih _ he hf⟩
    | cacheWrite s d => exact ⟨_, _, rfl, ih _ he hf⟩
    | malloc =>
      exact ⟨_, w, ⟨he.malloc 0, rfl⟩, ih _ ⟨fun n => he.malloc (n + 1), he.junk⟩ hf⟩
    | junk => exact ⟨_, w, ⟨he.junk 0, rfl⟩, ih _ ⟨he.malloc, fun n => he.junk (n + 1)⟩ hf⟩
    | noSector =>
      have hmet := runArray_failed (k ()) (e := { e with failed := true }) (w := w) rfl
      exact ⟨(), w, ⟨hf hmet, rfl⟩, ih () ⟨he.malloc, he.junk⟩ hf⟩
    | getMem => exact ⟨_, w, ⟨rfl, rfl⟩, ih _ he hf⟩
    | setMem m => exact ⟨_, _, rfl, ih _ he hf⟩

/-! ## Weakest preconditions -/

/-- `wp P p Q E w`: every run of `p` from `w` returns in `Q` or stops in `E`. -/
def wp (P : Policy) (p : Fs α) (Q : α → World → Prop) (E : Stop → World → Prop) (w : World) :
    Prop :=
  Prog.wp (effect P) p Q E w

section Rules

variable {P : Policy} {Q Q' : α → World → Prop} {E E' : Stop → World → Prop} {w : World}

@[simp] theorem wp_ret (a : α) : wp P (.ret a) Q E w ↔ Q a w := Iff.rfl

@[simp] theorem wp_pure (a : α) : wp P (pure a) Q E w ↔ Q a w := Iff.rfl

@[simp] theorem wp_stop (r : Stop) : wp P (.stop r) Q E w ↔ E r w := Iff.rfl

@[simp] theorem wp_bind (p : Fs β) (f : β → Fs α) :
    wp P (p >>= f) Q E w ↔ wp P p (fun b w' => wp P (f b) Q E w') E w := Prog.wp_bind p f

theorem wp_mono {p : Fs α} (h : wp P p Q E w) (hQ : ∀ a w', Q a w' → Q' a w')
    (hE : ∀ r w', E r w' → E' r w') : wp P p Q' E' w := Prog.wp_mono h hQ hE

theorem wp_mono_ret {p : Fs α} (h : wp P p Q E w) (hQ : ∀ a w', Q a w' → Q' a w') :
    wp P p Q' E w := Prog.wp_mono_ret h hQ

theorem wp_seq {p : Fs β} {f : β → Fs α} {I : β → World → Prop} (h : wp P p I E w)
    (hf : ∀ b w', I b w' → wp P (f b) Q E w') : wp P (p >>= f) Q E w := Prog.wp_seq h hf

theorem wp_forUpTo {body : ℕ → β → Fs (β ⊕ α)} {Q : β ⊕ α → World → Prop}
    (I : ℕ → β → World → Prop) {m : ℕ}
    (hbody : ∀ j b w, j < m → I j b w →
      wp P (body j b) (fun r w' => match r with
        | .inl b' => I (j + 1) b' w'
        | .inr c => Q (.inr c) w') E w)
    (hexit : ∀ b w, I m b w → Q (.inl b) w) (n i : ℕ) (b : β) (w : World) (him : i + n = m)
    (hI : I i b w) : wp P (Prog.forUpTo body n i b) Q E w :=
  Prog.wp_forUpTo I (fun j b w hj hI => Prog.wp_mono_ret (hbody j b w hj hI) fun r _ h => by
    cases r <;> exact h) hexit n i b w him hI

end Rules

theorem wp_iff_runs {P : Policy} {p : Fs α} {Q : α → World → Prop} {E : Stop → World → Prop}
    {w : World} : wp P p Q E w ↔ ∀ r w', Runs P p w r w' → Prog.Sat Q E r w' :=
  Prog.wp_iff_ends

/-! ## The operations as functions -/

def getMem : Fs Mem := Prog.perform Op.getMem

def setMem (m : Mem) : Fs Unit := Prog.perform (Op.setMem m)

def malloc : Fs Bool := Prog.perform Op.malloc

def junk : Fs (ℕ → UInt8) := Prog.perform Op.junk

def noSector : Fs Unit := Prog.perform Op.noSector

/-- `buffer_cache_read`, with the range check of `block_read`. -/
def bufferCacheRead (sector : ℕ) : Fs Sector := do
  let m ← getMem
  if sector < m.fsSize then Prog.perform (Op.cacheRead sector) else .stop .panic

/-- `buffer_cache_write`, with the range check of `block_read`. -/
def bufferCacheWrite (sector : ℕ) (data : Sector) : Fs Unit := do
  let m ← getMem
  if sector < m.fsSize then Prog.perform (Op.cacheWrite sector data) else .stop .panic

/-- Reading the `struct inode` at an address. -/
def deref (p : ℕ) : Fs Inode := do
  let m ← getMem
  match m.heap p with
  | some i => return i
  | none => .stop .useAfterFree

/-- Writing the `struct inode` at an address. -/
def assign (p : ℕ) (i : Inode) : Fs Unit := do
  let m ← getMem
  match m.heap p with
  | some _ => setMem { m with heap := Function.update m.heap p (some i) }
  | none => .stop .useAfterFree

section Rules

variable {P : Policy} {E : Stop → World → Prop} {w : World}

@[simp] theorem wp_getMem {Q : Mem → World → Prop} : wp P getMem Q E w ↔ Q w.mem w :=
  ⟨fun h => h w.mem w ⟨rfl, rfl⟩, by rintro h x w' ⟨rfl, rfl⟩; exact h⟩

@[simp] theorem wp_setMem {m : Mem} {Q : Unit → World → Prop} :
    wp P (setMem m) Q E w ↔ Q () { w with mem := m } :=
  ⟨fun h => h () _ rfl, by rintro h x w' rfl; exact h⟩

@[simp] theorem wp_malloc {Q : Bool → World → Prop} :
    wp P malloc Q E w ↔ ∀ b, P.malloc b → Q b w :=
  ⟨fun h b hb => h b w ⟨hb, rfl⟩, by rintro h x w' ⟨hx, rfl⟩; exact h x hx⟩

@[simp] theorem wp_junk {Q : (ℕ → UInt8) → World → Prop} :
    wp P junk Q E w ↔ ∀ g, P.junk g → Q g w :=
  ⟨fun h g hg => h g w ⟨hg, rfl⟩, by rintro h x w' ⟨hx, rfl⟩; exact h x hx⟩

@[simp] theorem wp_noSector {Q : Unit → World → Prop} :
    wp P noSector Q E w ↔ (P.noSector → Q () w) :=
  ⟨fun h hf => h () w ⟨hf, rfl⟩, by rintro h x w' ⟨hf, rfl⟩; exact h hf⟩

@[simp] theorem wp_bufferCacheRead {s : ℕ} {Q : Sector → World → Prop} :
    wp P (bufferCacheRead s) Q E w ↔ if s < w.mem.fsSize then Q (w.disk s) w else E .panic w := by
  simp only [bufferCacheRead, wp_bind, wp_getMem]
  by_cases hs : s < w.mem.fsSize
  · rw [if_pos hs, if_pos hs]
    exact ⟨fun h => h _ _ ⟨rfl, rfl⟩, by rintro h x w' ⟨rfl, rfl⟩; exact h⟩
  · rw [if_neg hs, if_neg hs]
    exact Iff.rfl

@[simp] theorem wp_bufferCacheWrite {s : ℕ} {d : Sector} {Q : Unit → World → Prop} :
    wp P (bufferCacheWrite s d) Q E w ↔
      if s < w.mem.fsSize then Q () { w with disk := Function.update w.disk s d } else E .panic w := by
  simp only [bufferCacheWrite, wp_bind, wp_getMem]
  by_cases hs : s < w.mem.fsSize
  · rw [if_pos hs, if_pos hs]
    exact ⟨fun h => h () _ rfl, by rintro h x w' rfl; exact h⟩
  · rw [if_neg hs, if_neg hs]
    exact Iff.rfl

@[simp] theorem wp_deref {p : ℕ} {Q : Inode → World → Prop} :
    wp P (deref p) Q E w ↔ match w.mem.heap p with
      | some i => Q i w
      | none => E .useAfterFree w := by
  simp only [deref, wp_bind, wp_getMem]
  split <;> exact Iff.rfl

theorem wp_deref_some {p : ℕ} {i : Inode} {Q : Inode → World → Prop} (h : w.mem.heap p = some i) :
    wp P (deref p) Q E w ↔ Q i w := by
  rw [wp_deref, h]

@[simp] theorem wp_assign {p : ℕ} {i : Inode} {Q : Unit → World → Prop} :
    wp P (assign p i) Q E w ↔ match w.mem.heap p with
      | some _ => Q () { w with mem := { w.mem with heap := Function.update w.mem.heap p (some i) } }
      | none => E .useAfterFree w := by
  simp only [assign, wp_bind, wp_getMem]
  split
  · exact wp_setMem
  · exact Iff.rfl

end Rules

-- from here on `wp` is handled through its rules only
attribute [irreducible] wp

end Pintos.Filesys
