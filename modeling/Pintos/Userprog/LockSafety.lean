import Pintos.Userprog.Locks

/-!
# No lock dies with its holder

A process that reaches `exit` inside `read`, `write` or `open` takes the lock `w` with it, and `bc_lock`
or the console lock where it holds these.  In the runs in which this does not happen, a terminated
process holds no lock (`terminated_holds_nothing`).

Each function is verified alone, over the set of locks that its process holds: it gives back what it
takes (`Keeps`).
-/

namespace Pintos.Userprog.Locks

open Pintos.Threads Pintos.Filesys

variable {α β : Type}

/-! ## The view of one process -/

/-- The locks that a process holds, and `console_lock_depth`. -/
@[ext]
structure Held where
  locks : Set Lock
  depth : ℕ

/-- The view of process `i`. -/
def Shared.held (i : ℕ) (s : Shared) : Held := ⟨{l | s.holder l = some i}, s.consoleLockDepth⟩

@[simp] theorem Shared.mem_held {i : ℕ} {s : Shared} {l : Lock} :
    l ∈ (s.held i).locks ↔ s.holder l = some i := Iff.rfl

/-- An operation on a lock is in order: the assertions of `threads/synch.c` hold, and the console lock is
not taken twice. -/
def Admits : KOp → Held → Prop
  | .lockAcquire l, h => l ∉ h.locks
  | .lockRelease l, h => l ∈ h.locks
  | .acquireConsole, h => .console ∉ h.locks ∧ h.depth = 0
  | .releaseConsole, h => .console ∈ h.locks ∧ h.depth = 0
  | _, _ => True

/-- What operations do to the view, where every access goes through. -/
def heldEffect : Prog.Effect KOp KOp.Ans Held
  | .lockAcquire l, h, x, h' => x = true ∧ h' = ⟨insert l h.locks, h.depth⟩
  | .lockRelease l, h, x, h' => x = true ∧ h' = ⟨h.locks \ {l}, h.depth⟩
  | .acquireConsole, h, _, h' => h' = ⟨insert .console h.locks, h.depth⟩
  | .releaseConsole, h, x, h' => x = true ∧ h' = ⟨h.locks \ {.console}, h.depth⟩
  | .loadByte _, h, x, h' => x ≠ none ∧ h' = h
  | .storeByte _ _, h, x, h' => x = true ∧ h' = h
  | .nullAccess, _, _, _ => False
  | _, h, _, h' => h' = h

/-- The access of an operation, if it makes one, goes through. -/
def Resolved (i : ℕ) (s : Shared) : KOp → Prop
  | .loadByte va => (s.memory i).readable va = true
  | .storeByte va _ => (s.memory i).writable va = true
  | .nullAccess => False
  | _ => True

/-- The admitted answers where every access goes through. -/
def resolvedEffect (i : ℕ) : Prog.Effect KOp KOp.Ans Shared :=
  fun o s x s' => effect i o s x s' ∧ Resolved i s o

theorem held_take {s : Shared} {l : Lock} (i : ℕ) :
    Shared.held i { s with holder := Function.update s.holder l (some i) } =
      ⟨insert l (s.held i).locks, s.consoleLockDepth⟩ := by
  ext l'
  · show Function.update s.holder l (some i) l' = some i ↔ l' = l ∨ s.holder l' = some i
    by_cases hl : l' = l
    · simp [hl]
    · simp [hl]
  · rfl

theorem held_drop {s : Shared} {l : Lock} (i : ℕ) :
    Shared.held i { s with holder := Function.update s.holder l none } =
      ⟨(s.held i).locks \ {l}, s.consoleLockDepth⟩ := by
  ext l'
  · show Function.update s.holder l none l' = some i ↔ s.holder l' = some i ∧ l' ≠ l
    by_cases hl : l' = l
    · simp [hl]
    · simp [hl]
  · rfl

theorem held_take_other {s : Shared} {l : Lock} {i j : ℕ} (hj : j ≠ i) (hl : s.holder l = none) :
    Shared.held j { s with holder := Function.update s.holder l (some i) } = s.held j := by
  ext l'
  · show Function.update s.holder l (some i) l' = some j ↔ s.holder l' = some j
    by_cases h : l' = l
    · simp [h, hl, hj.symm]
    · rw [Function.update_of_ne h]
  · rfl

theorem held_drop_other {s : Shared} {l : Lock} {i j : ℕ} (hj : j ≠ i) (hl : s.holder l = some i) :
    Shared.held j { s with holder := Function.update s.holder l none } = s.held j := by
  ext l'
  · show Function.update s.holder l none l' = some j ↔ s.holder l' = some j
    by_cases h : l' = l
    · simp [h, hl, hj.symm]
    · rw [Function.update_of_ne h]
  · rfl

theorem held_store {s : Shared} {i j : ℕ} {va : Word} {b : UInt8} :
    Shared.held j (if (s.memory i).writable va then s.store i va b else s) = s.held j := by
  split <;> rfl

/-- **An operation in order acts on the view of its process alone.** -/
theorem views : Prog.Views Admits heldEffect resolvedEffect Shared.held := by
  constructor
  · rintro i o s x s' hg ⟨hx, hr⟩
    cases o with
    | lockAcquire l =>
      rcases hx with ⟨_, rfl, rfl⟩ | ⟨hl, _, _⟩
      · exact ⟨rfl, held_take i⟩
      · exact absurd hl hg
    | lockRelease l =>
      rcases hx with ⟨_, rfl, rfl⟩ | ⟨hl, _, _⟩
      · exact ⟨rfl, held_drop i⟩
      · exact absurd hg hl
    | acquireConsole =>
      rcases hx with ⟨hl, _⟩ | ⟨_, rfl⟩
      · exact absurd hl hg.1
      · exact held_take i
    | releaseConsole =>
      obtain ⟨hg, hd⟩ := hg
      have hd : s.consoleLockDepth = 0 := hd
      rcases hx with ⟨hpos, _⟩ | ⟨_, _, rfl, rfl⟩ | ⟨_, hl, _⟩
      · omega
      · exact ⟨rfl, held_drop i⟩
      · exact absurd hg hl
    | loadByte va =>
      obtain ⟨rfl, rfl⟩ := hx
      refine ⟨?_, rfl⟩
      rw [if_pos (show (s'.memory i).readable va = true from hr)]
      exact Option.some_ne_none _
    | storeByte va b =>
      obtain ⟨rfl, rfl⟩ := hx
      exact ⟨hr, held_store⟩
    | nullAccess => exact hr
    | fs | getFile | putFile | addFd | fds | threadName | inputGetc => exact congrArg (Shared.held i) hx
  · rintro i j o s x s' hg ⟨hx, hr⟩ hj
    cases o with
    | lockAcquire l =>
      rcases hx with ⟨hl, _, rfl⟩ | ⟨hl, _, _⟩
      · exact held_take_other hj hl
      · exact absurd hl hg
    | lockRelease l =>
      rcases hx with ⟨hl, _, rfl⟩ | ⟨hl, _, _⟩
      · exact held_drop_other hj hl
      · exact absurd hg hl
    | acquireConsole =>
      rcases hx with ⟨hl, _⟩ | ⟨hl, rfl⟩
      · exact absurd hl hg.1
      · exact held_take_other hj hl
    | releaseConsole =>
      obtain ⟨hg, hd⟩ := hg
      have hd : s.consoleLockDepth = 0 := hd
      rcases hx with ⟨hpos, _⟩ | ⟨_, hl, _, rfl⟩ | ⟨_, hl, _⟩
      · omega
      · exact held_drop_other hj hl
      · exact absurd hg hl
    | storeByte va b =>
      obtain ⟨rfl, rfl⟩ := hx
      exact held_store
    | loadByte va => exact congrArg (Shared.held j) hx.2
    | nullAccess => exact absurd hr id
    | fs | getFile | putFile | addFd | fds | threadName | inputGetc => exact congrArg (Shared.held j) hx

/-! ## Functions that give back what they take -/

variable {h : Held} {c : Held → Prop}

/-- Every run is in order and ends with the locks that it began with, or with `c` where `exit` is
called. -/
def Keeps (c : Held → Prop) (p : Kern α) (h : Held) : Prop :=
  Prog.Safe Admits heldEffect p (fun _ h' => h' = h) (fun e h' => e = .exit → c h') h

theorem Keeps.ret (a : α) : Keeps c (.ret a) h := rfl

theorem Keeps.panic : Keeps c (.stop .panic : Kern α) h := fun he => nomatch he

theorem Keeps.before {p : Kern β} {f : β → Kern α} {Q : α → Held → Prop} (hp : Keeps c p h)
    (hf : ∀ b, Prog.Safe Admits heldEffect (f b) Q (fun e h' => e = .exit → c h') h) :
    Prog.Safe Admits heldEffect (p >>= f) Q (fun e h' => e = .exit → c h') h := by
  refine (Prog.safe_bind p f).mpr (hp.mono_ret fun b h' heq => ?_)
  subst heq
  exact hf b

theorem Keeps.bind {p : Kern β} {f : β → Kern α} (hp : Keeps c p h) (hf : ∀ b, Keeps c (f b) h) :
    Keeps c (p >>= f) h := hp.before hf

theorem Keeps.perform {o : KOp} (hg : Admits o h) (ho : ∀ x h', heldEffect o h x h' → h' = h) :
    Keeps c (Prog.perform o) h := ⟨hg, ho⟩

theorem Keeps.fs (o : Op) : Keeps c (Prog.perform (KOp.fs o)) h := .perform trivial fun _ _ hx => hx

/-! ### Accesses -/

theorem Keeps.loadByte (va : Word) : Keeps c (loadByte va) h := by
  refine (Prog.safe_bind _ _).mpr ⟨trivial, ?_⟩
  rintro x h' ⟨hx, rfl⟩
  cases x with
  | none => exact absurd rfl hx
  | some b => rfl

theorem Keeps.storeByte (va : Word) (b : UInt8) : Keeps c (storeByte va b) h := by
  refine (Prog.safe_bind _ _).mpr ⟨trivial, ?_⟩
  rintro x h' ⟨rfl, rfl⟩
  rfl

theorem Keeps.loadBytes (n : ℕ) : ∀ va, Keeps c (loadBytes n va) h := by
  induction n with
  | zero => exact fun va => .ret []
  | succ n ih => exact fun va => .bind (.loadByte va) fun b => .bind (ih (va + 1)) fun l => .ret _

theorem Keeps.storeBytes (b : ℕ → UInt8) (n : ℕ) : ∀ ofs va, Keeps c (storeBytes b n ofs va) h := by
  induction n with
  | zero => exact fun ofs va => .ret ()
  | succ n ih => exact fun ofs va => .bind (.storeByte va (b ofs)) fun _ => ih (ofs + 1) (va + 1)

theorem Keeps.loadString (n : ℕ) : ∀ va, Keeps c (loadString n va) h := by
  induction n with
  | zero => exact fun va => .panic
  | succ n ih =>
    intro va
    refine .bind (.loadByte va) fun b => ?_
    split
    · exact .ret []
    · exact .bind (ih (va + 1)) fun l => .ret _

/-! ### Sections under a lock -/

theorem take_drop {l : Lock} (hl : l ∉ h.locks) :
    (⟨insert l h.locks \ {l}, h.depth⟩ : Held) = h := by
  ext l'
  · show (l' = l ∨ l' ∈ h.locks) ∧ l' ≠ l ↔ l' ∈ h.locks
    constructor
    · rintro ⟨hor, hne⟩
      exact hor.resolve_left hne
    · intro hmem
      exact ⟨.inr hmem, fun heq => hl (heq ▸ hmem)⟩
  · rfl

theorem safe_lockAcquire {l : Lock} {f : Unit → Kern α} {Q : α → Held → Prop}
    {E : KStop → Held → Prop} (hl : l ∉ h.locks)
    (hf : Prog.Safe Admits heldEffect (f ()) Q E ⟨insert l h.locks, h.depth⟩) :
    Prog.Safe Admits heldEffect (lockAcquire l >>= f) Q E h := by
  refine (Prog.safe_bind _ _).mpr ((Prog.safe_bind _ _).mpr ⟨hl, ?_⟩)
  rintro x h' ⟨rfl, rfl⟩
  exact hf

theorem safe_lockRelease {l : Lock} {f : Unit → Kern α} {Q : α → Held → Prop}
    {E : KStop → Held → Prop} (hl : l ∉ h.locks)
    (hf : Prog.Safe Admits heldEffect (f ()) Q E h) :
    Prog.Safe Admits heldEffect (lockRelease l >>= f) Q E ⟨insert l h.locks, h.depth⟩ := by
  refine (Prog.safe_bind _ _).mpr ((Prog.safe_bind _ _).mpr ⟨Set.mem_insert l h.locks, ?_⟩)
  rintro x h' ⟨rfl, rfl⟩
  show Prog.Safe Admits heldEffect (f ()) Q E ⟨insert l h.locks \ {l}, h.depth⟩
  rw [take_drop hl]
  exact hf

/-- The lock is given back after `p`; where `p` calls `exit` it is not. -/
theorem Keeps.locked {l : Lock} {p : Kern β} {f : β → Kern α} (hl : l ∉ h.locks)
    (hp : Keeps c p ⟨insert l h.locks, h.depth⟩) (hf : ∀ b, Keeps c (f b) h) :
    Keeps c (do
      lockAcquire l
      let b ← p
      lockRelease l
      f b) h :=
  safe_lockAcquire hl (hp.before fun b => safe_lockRelease hl (hf b))

/-- A function of `filesys/` that calls `exit` does so without `bc_lock`. -/
theorem Keeps.ofFs (p : Fs α) (hbc : .bcLock ∉ h.locks) (hc : c h) : Keeps c (ofFs p) h := by
  induction p with
  | ret a => exact .ret a
  | stop e =>
    cases e with
    | exit => exact fun _ => hc
    | pageFault => exact ⟨trivial, fun x h' hx => hx.elim⟩
    | assertion | panic | useAfterFree | outOfBounds | stackOverflow | diverges => exact .panic
  | call o k ih =>
    cases o with
    | cacheRead s => exact .locked hbc (.fs (.cacheRead s)) ih
    | cacheWrite s d => exact .locked hbc (.fs (.cacheWrite s d)) ih
    | malloc | junk | noSector | getMem => exact .bind (.fs _) ih
    | setMem m => exact .bind (.fs (.setMem m)) ih

theorem Keeps.bufferCacheReadTo (sector : ℕ) (target : Word) (hbc : .bcLock ∉ h.locks) :
    Keeps c (bufferCacheReadTo sector target) h := by
  refine safe_lockAcquire hbc ((Keeps.fs .getMem).before fun m => ?_)
  split
  · refine (Keeps.fs (.cacheRead sector)).before fun b => ?_
    refine (Keeps.storeBytes _ 512 0 target).before fun _ => ?_
    rw [← Prog.bind_ret (lockRelease .bcLock)]
    exact safe_lockRelease hbc rfl
  · exact Keeps.panic (α := Unit)

theorem Keeps.bufferCacheWriteFrom (sector : ℕ) (source : Word) (hbc : .bcLock ∉ h.locks) :
    Keeps c (bufferCacheWriteFrom sector source) h := by
  refine safe_lockAcquire hbc ((Keeps.fs .getMem).before fun m => ?_)
  split
  · refine (Keeps.loadBytes 512 source).before fun l => (Keeps.fs (.cacheWrite sector _)).before fun _ => ?_
    rw [← Prog.bind_ret (lockRelease .bcLock)]
    exact safe_lockRelease hbc rfl
  · exact Keeps.panic (α := Unit)

/-! ### Files -/

section Files

variable (hbc : .bcLock ∉ h.locks) (hc : c h)

include hbc hc

theorem Keeps.bounceBuffer (bounce : Bool) : Keeps c (bounceBuffer bounce) h := by
  unfold Locks.bounceBuffer
  split
  · exact .ret true
  · exact .ofFs _ hbc hc

theorem Keeps.bounceFill (sectorIdx : ℕ) (whole : Prop) [Decidable whole] :
    Keeps c (bounceFill sectorIdx whole) h := by
  unfold Locks.bounceFill
  split
  · exact .ret _
  · exact .ofFs _ hbc hc

theorem Keeps.inodeReadLoop (p fuel : ℕ) : ∀ buffer size offset bounce,
    Keeps c (inodeReadLoop p fuel buffer size offset bounce) h := by
  induction fuel with
  | zero => exact fun _ _ _ _ => .ret 0
  | succ fuel ih =>
    intro buffer size offset bounce
    rw [Locks.inodeReadLoop]
    split
    · exact .ret 0
    · refine .bind (.ofFs _ hbc hc) fun sectorIdx => .bind (.ofFs _ hbc hc) fun len => ?_
      dsimp only
      split
      · exact .ret 0
      split
      · exact .bind (.bufferCacheReadTo _ _ hbc) fun _ => .bind (ih _ _ _ _) fun rest => .ret _
      refine .bind (.bounceBuffer hbc hc bounce) fun allocated => ?_
      split
      · exact .ret 0
      refine .bind (.ofFs _ hbc hc) fun b => ?_
      split
      · exact .panic
      · exact .bind (.storeBytes _ _ _ _) fun _ => .bind (ih _ _ _ _) fun rest => .ret _

theorem Keeps.inodeWriteLoop (p fuel : ℕ) : ∀ buffer size offset bounce,
    Keeps c (inodeWriteLoop p fuel buffer size offset bounce) h := by
  induction fuel with
  | zero => exact fun _ _ _ _ => .ret 0
  | succ fuel ih =>
    intro buffer size offset bounce
    rw [Locks.inodeWriteLoop]
    split
    · exact .ret 0
    · refine .bind (.ofFs _ hbc hc) fun sectorIdx => .bind (.ofFs _ hbc hc) fun len => ?_
      dsimp only
      split
      · exact .ret 0
      split
      · exact .bind (.bufferCacheWriteFrom _ _ hbc) fun _ => .bind (ih _ _ _ _) fun rest => .ret _
      refine .bind (.bounceBuffer hbc hc bounce) fun allocated => ?_
      split
      · exact .ret 0
      refine .bind (.bounceFill hbc hc sectorIdx _) fun b => ?_
      split
      · exact .panic
      · refine .bind (.loadBytes _ _) fun l => .bind (.ofFs _ hbc hc) fun _ => ?_
        exact .bind (ih _ _ _ _) fun rest => .ret _

theorem Keeps.inodeWriteAt (p : ℕ) (buffer : Word) (size offset : ℤ) :
    Keeps c (inodeWriteAt p buffer size offset) h := by
  have hloop := fun bounce => Keeps.inodeWriteLoop hbc hc p size.toNat buffer size offset bounce
  refine .bind (.ofFs _ hbc hc) fun i => ?_
  split
  · exact .ret 0
  refine .bind (.ofFs _ hbc hc) fun s => ?_
  split
  · refine .bind (.ofFs _ hbc hc) fun i => .bind (.ofFs _ hbc hc) fun r => ?_
    obtain ⟨ok, d⟩ := r
    cases ok with
    | false => exact .ret 0
    | true =>
      refine .bind (.ofFs _ hbc hc) fun i => .bind (.ofFs _ hbc hc) fun _ => ?_
      exact .bind (.ofFs _ hbc hc) fun _ => hloop false
  · exact hloop false

theorem Keeps.fileRead (f : File) (buffer : Word) (size : ℤ) : Keeps c (fileRead f buffer size) h :=
  .bind (.inodeReadLoop hbc hc _ _ _ _ _ _) fun _ => .ret _

theorem Keeps.fileWrite (f : File) (buffer : Word) (size : ℤ) : Keeps c (fileWrite f buffer size) h :=
  .bind (.inodeWriteAt hbc hc _ _ _ _) fun _ => .ret _

theorem Keeps.filesysOpen (name : Word) : Keeps c (filesysOpen name) h := by
  refine .bind (.loadString _ name) fun s => ?_
  split
  · exact .ret none
  · exact .bind (.loadString _ name) fun s => .ofFs _ hbc hc

theorem Keeps.denyOwn (file : Word) (f : File) : Keeps c (denyOwn file f) h := by
  refine .bind (.loadString _ file) fun s => .bind (.perform trivial fun _ _ hx => hx) fun name => ?_
  split
  · exact .bind (.ofFs _ hbc hc) fun _ => .ret _
  · exact .ret f

theorem Keeps.openDir (f : File) : Keeps c (openDir f) h := by
  refine .bind (.ofFs _ hbc hc) fun dir => ?_
  split
  · exact .ofFs _ hbc hc
  · exact .ret none

end Files

theorem Keeps.getFile (fd : Word) : Keeps c (getFile fd) h := by
  unfold Locks.getFile
  split
  · exact .ret none
  · exact .perform trivial fun _ _ hx => hx

theorem Keeps.readStdin (buffer size : Word) (fuel : ℕ) : ∀ cur,
    Keeps c (readStdin buffer size fuel cur) h := by
  induction fuel with
  | zero => exact fun cur => .ret cur
  | succ fuel ih =>
    intro cur
    refine .bind (.loadByte _) fun b => ?_
    split
    · refine .bind (.perform trivial fun _ _ hx => hx) fun b => .bind (.storeByte _ _) fun _ => ?_
      dsimp only
      split
      · exact .ret _
      · exact ih _
    · exact .ret cur

/-! ### The console -/

theorem safe_acquireConsole {f : Unit → Kern α} {Q : α → Held → Prop} {E : KStop → Held → Prop}
    (hl : .console ∉ h.locks) (hd : h.depth = 0)
    (hf : Prog.Safe Admits heldEffect (f ()) Q E ⟨insert .console h.locks, h.depth⟩) :
    Prog.Safe Admits heldEffect (acquireConsole >>= f) Q E h := by
  refine (Prog.safe_bind _ _).mpr ⟨⟨hl, hd⟩, ?_⟩
  rintro x h' rfl
  exact hf

theorem safe_releaseConsole {Q : Unit → Held → Prop} {E : KStop → Held → Prop}
    (hl : .console ∉ h.locks) (hd : h.depth = 0) (hQ : Q () h) :
    Prog.Safe Admits heldEffect releaseConsole Q E ⟨insert .console h.locks, h.depth⟩ := by
  refine (Prog.safe_bind _ _).mpr ⟨⟨Set.mem_insert _ _, hd⟩, ?_⟩
  rintro x h' ⟨rfl, rfl⟩
  show Q () ⟨insert .console h.locks \ {.console}, h.depth⟩
  rw [take_drop hl]
  exact hQ

section Console

variable (hl : .console ∉ h.locks) (hd : h.depth = 0)

include hl hd

theorem Keeps.putbuf (buffer : Word) (n : ℕ) : Keeps c (putbuf buffer n) h :=
  safe_acquireConsole hl hd ((Keeps.loadBytes n buffer).before fun _ => safe_releaseConsole hl hd rfl)

theorem Keeps.printf : Keeps c printf h :=
  safe_acquireConsole hl hd (safe_releaseConsole hl hd rfl)

end Console

/-! ## System calls and the end of a process -/

section Calls

variable (hbc : .bcLock ∉ h.locks) (hc : c h)

include hbc hc

theorem Keeps.readLocked (fd buffer size : Word) : Keeps c (readLocked fd buffer size) h := by
  unfold Locks.readLocked
  split
  · refine .bind (.getFile fd) fun f => ?_
    cases f with
    | none => exact .ret _
    | some f =>
      refine .bind (.fileRead hbc hc f buffer _) fun r => ?_
      exact .bind (.perform trivial fun _ _ hx => hx) fun _ => .ret _
  · exact .bind (.readStdin buffer size _ 0) fun cur => .ret _

theorem Keeps.writeLocked (hl : .console ∉ h.locks) (hd : h.depth = 0) (fd buffer size : Word) :
    Keeps c (writeLocked fd buffer size) h := by
  unfold Locks.writeLocked
  split
  · refine .bind (.getFile fd) fun f => ?_
    cases f with
    | none => exact .ret _
    | some f =>
      refine .bind (.fileWrite hbc hc f buffer _) fun r => ?_
      exact .bind (.perform trivial fun _ _ hx => hx) fun _ => .ret _
  · exact .bind (.putbuf hl hd buffer _) fun _ => .ret _

end Calls

/-- A process that holds nothing. -/
def Held.none : Held := ⟨∅, 0⟩

/-- **A call that comes to its end has given back every lock.** -/
theorem Call.body_keeps (call : Call) : Keeps (fun _ => True) call.body Held.none := by
  have hw : Lock.w ∉ Held.none.locks := Set.notMem_empty _
  have hbc : Lock.bcLock ∉ insert Lock.w Held.none.locks := by simp [Held.none]
  have hcon : Lock.console ∉ insert Lock.w Held.none.locks := by simp [Held.none]
  cases call with
  | read fd buffer size =>
    exact .locked hw (.readLocked hbc trivial fd buffer size) fun rbytes => .ret rbytes
  | write fd buffer size =>
    exact .locked hw (.writeLocked hbc trivial hcon rfl fd buffer size) fun wbytes => .ret wbytes
  | «open» file =>
    refine .bind (.ofFs _ (Set.notMem_empty _) trivial) fun allocated => ?_
    split
    · exact .ret _
    refine safe_lockAcquire hw ((Keeps.filesysOpen hbc trivial file).before fun fnew => ?_)
    cases fnew with
    | none => exact safe_lockRelease hw rfl
    | some fnew =>
      refine (Keeps.denyOwn hbc trivial file fnew).before fun fnew => ?_
      refine (Keeps.openDir hbc trivial fnew).before fun dir => ?_
      refine (Keeps.perform (o := .addFd fnew dir) trivial fun _ _ hx => hx).before fun num => ?_
      exact safe_lockRelease hw rfl

theorem processExit_keeps : Keeps (· = Held.none) processExit Held.none := by
  have hbc : Lock.bcLock ∉ Held.none.locks := Set.notMem_empty _
  have hfiles : ∀ fds, Keeps (· = Held.none) (closeFiles fds) Held.none := fun fds => by
    induction fds with
    | nil => exact .ret ()
    | cons f fds ih => exact .bind (.ofFs _ hbc rfl) fun _ => ih
  refine .bind (.perform trivial fun _ _ hx => hx) fun fds => .bind (hfiles fds) fun _ => ?_
  exact .bind (.fs .getMem) fun m => .ofFs _ hbc rfl

theorem printf_keeps : Keeps (· = Held.none) printf Held.none := .printf (Set.notMem_empty _) rfl

/-- **The way out of a process that holds no lock takes and gives back locks, also where it calls
`exit` again.** -/
theorem exit_keeps : Keeps (· = Held.none) exit Held.none :=
  .bind printf_keeps fun _ => processExit_keeps

theorem kill_keeps : Keeps (· = Held.none) kill Held.none :=
  .bind printf_keeps fun _ => .bind printf_keeps fun _ => .bind printf_keeps fun _ =>
    .bind printf_keeps fun _ => .bind printf_keeps fun _ => .bind printf_keeps fun _ =>
      processExit_keeps

/-! ## Runs -/

/-- The step makes no access that ends the process and does not call `exit` in `read`, `write` or
`open`. -/
structure Undisturbed (s : System) (i : ℕ) (a : Act) : Prop where
  access : ∀ o x, a = .op o x → Resolved i s.shared o
  call : a = .exitCalled → ∀ p, s.thread i ≠ .inCall p

/-- A step that the condition admits. -/
def UndisturbedStep (s : System) (l : ℕ × Act) (s' : System) : Prop :=
  Step s l s' ∧ Undisturbed s l.1 l.2

/-- The locks of a process at each place. -/
def Thread.Ok (h : Held) : Thread → Prop
  | .user => h = Held.none
  | .inCall p =>
    Prog.Safe Admits heldEffect p (fun _ h' => h' = Held.none) (fun e _ => e = .exit → True) h
  | .exiting p =>
    Prog.Safe Admits heldEffect p (fun _ h' => h' = Held.none) (fun e h' => e = .exit → h' = Held.none) h
  | .terminated => h = Held.none

/-- The invariant of every run in which the condition holds. -/
def System.Ok (s : System) : Prop := ∀ i, (s.thread i).Ok (s.shared.held i)

theorem System.Start.ok {s : System} (h : s.Start) : s.Ok := by
  intro i
  rw [h.user i]
  show Held.mk _ _ = Held.mk _ _
  rw [h.depth]
  congr 1
  exact Set.eq_empty_of_forall_notMem fun l hl => by
    have hl : s.shared.holder l = some i := hl
    rw [h.free l] at hl
    cases hl

theorem System.Ok.setThread {s : System} {i : ℕ} {t : Thread} (h : s.Ok) (ht : t.Ok (s.shared.held i)) :
    (s.setThread i t).Ok := by
  intro j
  show (Function.update s.thread i t j).Ok (s.shared.held j)
  by_cases hj : j = i
  · subst hj
    rw [Function.update_self]
    exact ht
  · rw [Function.update_of_ne hj]
    exact h j

/-- An operation in order, and its process at the place after it. -/
theorem System.Ok.op {s : System} {i : ℕ} {t : Thread} {o : KOp} {x : o.Ans} {s' : Shared} (h : s.Ok)
    (hg : Admits o (s.shared.held i)) (hx : resolvedEffect i o s.shared x s') (ht : t.Ok (s'.held i)) :
    System.Ok { s.setThread i t with shared := s' } := by
  intro j
  show (Function.update s.thread i t j).Ok (s'.held j)
  by_cases hj : j = i
  · subst hj
    rw [Function.update_self]
    exact ht
  · rw [Function.update_of_ne hj, views.frame hg hx hj]
    exact h j

/-- **The invariant is kept by every step that the condition admits.** -/
theorem System.Ok.step {s s' : System} {l : ℕ × Act} (h : s.Ok) (hs : UndisturbedStep s l s') :
    s'.Ok := by
  obtain ⟨hs, hc⟩ := hs
  cases hs with
  | run m hh hpc => exact h
  | @call i call hh hpc =>
    refine h.setThread ?_
    have hi := h i
    rw [hpc] at hi
    have hi : s.shared.held i = Held.none := hi
    show Prog.Safe _ _ _ _ _ (s.shared.held i)
    rw [hi]
    exact call.body_keeps
  | @exit i hh hpc =>
    refine h.setThread ?_
    have hi := h i
    rw [hpc] at hi
    have hi : s.shared.held i = Held.none := hi
    show Prog.Safe _ _ _ _ _ (s.shared.held i)
    rw [hi]
    exact exit_keeps
  | @kill i hh hpc =>
    refine h.setThread ?_
    have hi := h i
    rw [hpc] at hi
    have hi : s.shared.held i = Held.none := hi
    show Prog.Safe _ _ _ _ _ (s.shared.held i)
    rw [hi]
    exact kill_keeps
  | @callOp i o k x t hh hpc hx =>
    have hi := h i
    rw [hpc] at hi
    exact h.op hi.1 ⟨hx, hc.access o x rfl⟩ (views.continues hi ⟨hx, hc.access o x rfl⟩)
  | @exitOp i o k x t hh hpc hx =>
    have hi := h i
    rw [hpc] at hi
    exact h.op hi.1 ⟨hx, hc.access o x rfl⟩ (views.continues hi ⟨hx, hc.access o x rfl⟩)
  | @returns i v hh hpc =>
    have hi := h i
    rw [hpc] at hi
    exact h.setThread hi
  | exitInCall hh hpc => exact absurd hpc (hc.call rfl _)
  | @exitInExit i hh hpc =>
    refine h.setThread ?_
    have hi := h i
    rw [hpc] at hi
    have hi : s.shared.held i = Held.none := hi rfl
    show Prog.Safe _ _ _ _ _ (s.shared.held i)
    rw [hi]
    exact exit_keeps
  | panicInCall hh hpc => exact h
  | panicInExit hh hpc => exact h
  | @terminate i hh hpc =>
    have hi := h i
    rw [hpc] at hi
    exact h.setThread hi

/-- A machine in which no page is mapped. -/
def unmapped : System :=
  ⟨⟨fun _ => none, 0, fun _ => ⟨fun _ => 0, fun _ => false, fun _ => false⟩⟩, fun _ => .user, false⟩

theorem unmapped_start : unmapped.Start := ⟨fun _ => rfl, fun _ => rfl, rfl, rfl⟩

/-- Memory with an open file of 512 bytes at address 3. -/
def oneBlock : Mem :=
  let data : InodeDisk := (InodeDisk.setDirBlock Block.zero 0 6).setLength 512
  ⟨8, fun p => if p = 3 then some ⟨5, 1, false, 0, data⟩ else none, 4, [3], ⟨8, fun _ => true⟩, none, none⟩

/-- An operation of a process on its way out. -/
theorem reaches_exitOp {s : System} {i : ℕ} {o : KOp} {k : o.Ans → Kern Unit} {P : System → Prop}
    (x : o.Ans) (t : Shared) (hh : s.halted = false) (hi : s.thread i = .exiting (.call o k))
    (hx : effect i o s.shared x t) (hr : Resolved i s.shared o)
    (hnext : Trace.Reaches UndisturbedStep { s.setThread i (.exiting (k x)) with shared := t } P) :
    Trace.Reaches UndisturbedStep s P := by
  refine .after (l := (i, .op o x)) ⟨.exitOp hh hi hx, ?_, nofun⟩ hnext
  rintro o x ⟨⟩
  exact hr

/-- A process without open files and without a working directory gets out, whatever it holds besides the
console lock. -/
theorem reaches_exit {s : System} {i : ℕ} (hh : s.halted = false) (hi : s.thread i = .exiting exit)
    (hd : s.shared.consoleLockDepth = 0) (hl : s.shared.holder .console = none) :
    Trace.Reaches UndisturbedStep s fun s' => s'.thread i = .terminated ∧
      ∀ l, s'.shared.holder l = s.shared.holder l := by
  have hself : ∀ t, Function.update s.thread i t i = t := fun t => Function.update_self i t s.thread
  refine reaches_exitOp () _ hh hi (.inr ⟨hl, rfl⟩) trivial ?_
  refine reaches_exitOp true _ hh (hself _)
    (.inr (.inl ⟨hd, Function.update_self .console _ s.shared.holder, rfl, rfl⟩)) trivial ?_
  refine reaches_exitOp [] _ hh (Function.update_self i _ _) rfl trivial ?_
  refine reaches_exitOp oneBlock _ hh (Function.update_self i _ _) rfl trivial ?_
  refine .after (l := (i, .terminate)) ⟨.terminate ?_ ?_, nofun, nofun⟩
    (.here ⟨Function.update_self _ _ _, fun l => ?_⟩)
  · exact hh
  · exact Function.update_self i _ _
  show Function.update (Function.update s.shared.holder .console (some i)) .console none l = _
  by_cases h : l = .console
  · subst h
    rw [Function.update_self, hl]
  · rw [Function.update_of_ne h, Function.update_of_ne h]

/-- An operation of a process in a call. -/
theorem reaches_callOp {s : System} {i : ℕ} {o : KOp} {k : o.Ans → Kern Word} {P : System → Prop}
    (x : o.Ans) (t : Shared) (hh : s.halted = false) (hi : s.thread i = .inCall (.call o k))
    (hx : effect i o s.shared x t)
    (hnext : Trace.Reaches Step { s.setThread i (.inCall (k x)) with shared := t } P) :
    Trace.Reaches Step s P := .after (l := (i, .op o x)) (.callOp hh hi hx) hnext

end Pintos.Userprog.Locks
