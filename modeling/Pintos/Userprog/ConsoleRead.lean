import Pintos.Userprog.UserAccess
import Pintos.Userprog.LoadSegment

/-!
# Reading from the console

`read` of `userprog/syscall.c` on descriptor 0, with the keys that `input_getc` returns one after the other.
`handler` answers the accesses of the call from the memory of the process and keeps a list of the bytes that
have been stored; its runs are runs of the system call handler (`run_ends`).

The loop stores the next key over a byte of the buffer that is not zero, and ends with the first byte that is
zero or when `size` bytes have been stored (`Stops`).  The value that it counted is the number of keys, and it
is lowered once more before it is returned: `read` returns one less than the number of keys (`run_read`).
-/

namespace Pintos.Userprog

open Pintos.Threads

namespace ConsoleRead

/-! ## Runs with a keyboard -/

/-- The process while it reads: the stores to its memory in order, and how many keys were consumed. -/
structure Console extends SysState where
  stored : List (Word × UInt8)
  consumed : ℕ

namespace Console

/-- Nothing has happened yet. -/
def start (m : UserMemory) : Console := ⟨⟨m, []⟩, [], 0⟩

def logged (s : Console) (a : Access) : Console := { s with log := s.log ++ [a] }

def store (s : Console) (va : Word) (b : UInt8) : Console where
  memory := s.memory.store va b
  log := s.log ++ [⟨va, 1, true⟩]
  stored := s.stored ++ [(va, b)]
  consumed := s.consumed

def getc (s : Console) : Console := { s with consumed := s.consumed + 1 }

end Console

variable {keys : ℕ → UInt8} {m : UserMemory} {buffer size : Word} {s s' : Console} {cur : ℕ}

/-- The answers of the memory and of the keyboard.  `read` on descriptor 0 asks for nothing else. -/
def handler (keys : ℕ → UInt8) : Prog.Handler SysOp SysOp.Ans Console
  | .loadWord va, s => (s.memory.word va, s.logged ⟨va, 4, (s.memory.word va).isSome⟩)
  | .loadByte va, s =>
    (if s.memory.readable va then some (s.memory.byte va) else none, s.logged ⟨va, 1, s.memory.readable va⟩)
  | .storeByte va b, s =>
    (s.memory.writable va, if s.memory.writable va then s.store va b else s.logged ⟨va, 1, false⟩)
  | .kernel _, s => (.panic, s)
  | .fileRead _ _, s => (none, s)
  | .fileWrite _ _, s => (none, s)
  | .dirRead _, s => (none, s)
  | .inputGetc, s => (keys s.consumed, s.getc)

theorem handler_admitted (o : SysOp) (s : Console) :
    sysEffect o s.toSysState (handler keys o s).1 (handler keys o s).2.toSysState := by
  cases o with
  | storeByte va b =>
    cases hw : s.memory.writable va with
    | true => simp [handler, sysEffect, hw, Console.store, UserMemory.store]
    | false => simp [handler, sysEffect, hw, Console.logged]
  | loadWord va => exact ⟨rfl, rfl⟩
  | loadByte va => exact ⟨rfl, rfl⟩
  | kernel c => rfl
  | fileRead fd size => exact ⟨fun l o h => absurd h (Option.some_ne_none _).symm, rfl⟩
  | fileWrite fd size => exact ⟨fun n o h => absurd h (Option.some_ne_none _).symm, rfl⟩
  | dirRead fd => exact ⟨fun name h => absurd h (Option.some_ne_none _).symm, rfl⟩
  | inputGetc => rfl

/-- What a run with a keyboard does is something that the call may do. -/
theorem run_ends {α : Type} (p : Sys α) (s : Console) :
    Prog.Ends sysEffect p s.toSysState (p.run (handler keys) s).1 (p.run (handler keys) s).2.toSysState := by
  have hrun := Prog.ends_run (R := fun o s x s' => sysEffect o s.toSysState x (Console.toSysState s'))
    (H := handler keys) handler_admitted p s
  have hstep : ∀ (o : SysOp) (t : SysState) (s : Console) (x : o.Ans) (s' : Console), t = s.toSysState →
      sysEffect o s.toSysState x s'.toSysState → ∃ t', sysEffect o t x t' ∧ t' = s'.toSysState := by
    intro o t s x s' ht hx
    exact ⟨s'.toSysState, ht ▸ hx, rfl⟩
  obtain ⟨t, ht, rfl⟩ := Prog.Ends.simulate hstep rfl hrun
  exact ht

/-! ## What `read` was to do, and what it does -/

variable (keys m buffer size) in
/-- `read` consumes a number of keys, at most `size`, stores them in order from the start of the buffer, stores
nothing else, and returns their number. -/
def ReadsKeys : Prop :=
  ∃ r ≤ size.toNat, ∃ s', (read 0 buffer size).run (handler keys) (.start m) = (.ok (BitVec.ofNat 32 r), s') ∧
    s'.consumed = r ∧ s'.stored = (List.range r).map fun i => (buffer + BitVec.ofNat 32 i, keys i)

/-! ### Single operations -/

theorem run_loadByte (va : Word) : (loadByte va).run (handler keys) s =
    (if s.memory.readable va then .ok (s.memory.byte va) else .error (.exit (-1)),
      s.logged ⟨va, 1, s.memory.readable va⟩) := by
  cases hr : s.memory.readable va with
  | true => simp [loadByte, Prog.perform, Prog.call_bind, Prog.run, handler, hr]
  | false => simp [loadByte, exit, Prog.perform, Prog.call_bind, Prog.run, handler, hr]

theorem run_storeByte (va : Word) (b : UInt8) : (storeByte va b).run (handler keys) s =
    if s.memory.writable va then (.ok (), s.store va b) else (.error (.exit (-1)), s.logged ⟨va, 1, false⟩) := by
  cases hw : s.memory.writable va with
  | true => simp [storeByte, Prog.perform, Prog.call_bind, Prog.run, handler, hw]
  | false => simp [storeByte, exit, Prog.perform, Prog.call_bind, Prog.run, handler, hw]

/-- A key is stored. -/
def Console.typed (s : Console) (va : Word) (key : UInt8) : Console :=
  ((s.logged ⟨va, 1, true⟩).getc).store va key

/-- One pass of the loop. -/
theorem run_readStdin_succ (fuel : ℕ) (cur : Word) :
    (readStdin buffer size (fuel + 1) cur).run (handler keys) s =
      if s.memory.readable (buffer + cur) then
        if s.memory.byte (buffer + cur) ≠ 0 then
          if s.memory.writable (buffer + cur) then
            if size ≤ cur + 1 then (.ok (cur + 1), s.typed (buffer + cur) (keys s.consumed))
            else (readStdin buffer size fuel (cur + 1)).run (handler keys)
              (s.typed (buffer + cur) (keys s.consumed))
          else (.error (.exit (-1)), ((s.logged ⟨buffer + cur, 1, true⟩).getc).logged ⟨buffer + cur, 1, false⟩)
        else (.ok cur, s.logged ⟨buffer + cur, 1, true⟩)
      else (.error (.exit (-1)), s.logged ⟨buffer + cur, 1, false⟩) := by
  rw [readStdin, Prog.run_bind, run_loadByte]
  cases hr : s.memory.readable (buffer + cur) with
  | false => rfl
  | true =>
    by_cases hzero : s.memory.byte (buffer + cur) = 0
    · simp [hzero, Prog.run]
    · have hkey : ∀ p : UInt8 → Sys Word, (Prog.perform SysOp.inputGetc >>= p).run (handler keys)
          (s.logged ⟨buffer + cur, 1, true⟩) =
          (p (keys s.consumed)).run (handler keys) (s.logged ⟨buffer + cur, 1, true⟩).getc := fun _ => rfl
      simp only [if_true, ne_eq, hzero, not_false_eq_true]
      rw [hkey, Prog.run_bind, run_storeByte]
      cases hw : s.memory.writable (buffer + cur) with
      | false =>
        have hw' : (s.logged ⟨buffer + cur, 1, true⟩).getc.memory.writable (buffer + cur) = false := hw
        simp [hw']
      | true =>
        have hw' : (s.logged ⟨buffer + cur, 1, true⟩).getc.memory.writable (buffer + cur) = true := hw
        simp only [hw', if_true]
        by_cases hsize : size ≤ cur + 1
        · rw [if_pos hsize, if_pos hsize]
          rfl
        · rw [if_neg hsize, if_neg hsize]
          rfl

/-- The value that the loop counts is the number of keys that it consumed. -/
theorem consumed_of_run (fuel : ℕ) {cur v : Word} (hcur : cur = BitVec.ofNat 32 s.consumed)
    (h : (readStdin buffer size fuel cur).run (handler keys) s = (.ok v, s')) :
    v = BitVec.ofNat 32 s'.consumed := by
  induction fuel generalizing s cur with
  | zero =>
    cases h
    exact hcur
  | succ fuel ih =>
    have hnext : cur + 1 = BitVec.ofNat 32 (s.typed (buffer + cur) (keys s.consumed)).consumed := by
      rw [hcur]
      exact (BitVec.ofNat_add s.consumed 1).symm
    rw [run_readStdin_succ] at h
    split at h
    · split at h
      · split at h
        · split at h
          · cases h
            exact hnext
          · exact ih hnext h
        · cases h
      · cases h
        exact hcur
    · cases h

/-- The loop of `read` has counted the keys, and the value is lowered. -/
theorem read_of_run {v : Word} (h : (read 0 buffer size).run (handler keys) (.start m) = (.ok v, s')) :
    v + 1 = BitVec.ofNat 32 s'.consumed := by
  have hread : read 0 buffer size = readStdin buffer size (size.toNat + 1) 0 >>= fun cur => .ret (cur - 1) :=
    if_neg (not_not.mpr rfl)
  rw [hread, Prog.run_bind] at h
  cases hrun : (readStdin buffer size (size.toNat + 1) 0).run (handler keys) (.start m) with
  | mk x t =>
    rw [hrun] at h
    cases x with
    | error e => cases h
    | ok cur =>
      have hcur := consumed_of_run _ (s := .start m) rfl hrun
      cases h
      rw [← hcur]
      exact BitVec.sub_add_cancel cur 1

/-! ### A buffer that can be accessed -/

variable (m buffer) in
/-- The bytes of the buffer, and the first one of an empty buffer, can be read and written. -/
def Mapped (n : ℕ) : Prop :=
  ∀ i < max n 1, m.readable (buffer + BitVec.ofNat 32 i) = true ∧ m.writable (buffer + BitVec.ofNat 32 i) = true

variable (m buffer) in
/-- Where the loop ends: at the first byte that is zero, or, behind the first key, at the end of the buffer. -/
structure Stops (n r : ℕ) : Prop where
  le : r ≤ max n 1
  before : ∀ i < r, m.byte (buffer + BitVec.ofNat 32 i) ≠ 0
  stops : r < max n 1 → m.byte (buffer + BitVec.ofNat 32 r) = 0

variable (keys m buffer) in
/-- So many keys have been stored, and the bytes behind them are those of the beginning. -/
structure Typed (cur : ℕ) (s : Console) : Prop where
  consumed : s.consumed = cur
  stored : s.stored = (List.range cur).map fun i => (buffer + BitVec.ofNat 32 i, keys i)
  behind : ∀ i < 2 ^ 32, cur ≤ i → s.memory.byte (buffer + BitVec.ofNat 32 i) = m.byte (buffer + BitVec.ofNat 32 i)
  readable : s.memory.readable = m.readable
  writable : s.memory.writable = m.writable

theorem typed_start : Typed keys m buffer 0 (.start m) := ⟨rfl, rfl, fun _ _ _ => rfl, rfl, rfl⟩

theorem Typed.logged (h : Typed keys m buffer cur s) (a : Access) : Typed keys m buffer cur (s.logged a) :=
  ⟨h.consumed, h.stored, h.behind, h.readable, h.writable⟩

/-- Storing the next key behind those that have been stored. -/
theorem Typed.typed (h : Typed keys m buffer cur s) (hcur : cur < 2 ^ 32) :
    Typed keys m buffer (cur + 1) (s.typed (buffer + BitVec.ofNat 32 cur) (keys s.consumed)) where
  consumed := congrArg Nat.succ h.consumed
  stored := by
    show s.stored ++ _ = _
    rw [h.stored, h.consumed, List.range_succ, List.map_append, List.map_singleton]
  behind := by
    intro i hi hle
    have hne : buffer + BitVec.ofNat 32 i ≠ buffer + BitVec.ofNat 32 cur := by
      intro heq
      have hnat := congrArg BitVec.toNat ((BitVec.add_right_inj _).mp heq)
      rw [BitVec.toNat_ofNat, BitVec.toNat_ofNat, Nat.mod_eq_of_lt hi, Nat.mod_eq_of_lt hcur] at hnat
      omega
    exact (Function.update_of_ne hne _ _).trans (h.behind i hi (by omega))
  readable := h.readable
  writable := h.writable

/-- **The loop of `read`** stops where it is to stop, with the keys stored up to there. -/
theorem run_readStdin (hm : Mapped m buffer size.toNat) {fuel : ℕ} (h : Typed keys m buffer cur s)
    (hcur : cur < max size.toNat 1) (hfuel : size.toNat < fuel + cur)
    (hbefore : ∀ i < cur, m.byte (buffer + BitVec.ofNat 32 i) ≠ 0) :
    ∃ r s', Stops m buffer size.toNat r ∧ Typed keys m buffer r s' ∧
      (readStdin buffer size fuel (BitVec.ofNat 32 cur)).run (handler keys) s = (.ok (BitVec.ofNat 32 r), s') := by
  induction fuel generalizing cur s with
  | zero => omega
  | succ fuel ih =>
    have hsize := size.isLt
    have hlt : cur < 2 ^ 32 := by omega
    obtain ⟨hr, hw⟩ := hm cur hcur
    rw [run_readStdin_succ, h.readable, h.writable, if_pos hr, h.behind cur hlt le_rfl]
    by_cases hzero : m.byte (buffer + BitVec.ofNat 32 cur) = 0
    · rw [if_neg (not_not.mpr hzero)]
      exact ⟨cur, _, ⟨hcur.le, hbefore, fun _ => hzero⟩, h.logged _, rfl⟩
    · have hnext : BitVec.ofNat 32 cur + 1 = BitVec.ofNat 32 (cur + 1) := (BitVec.ofNat_add cur 1).symm
      have hbefore' : ∀ i < cur + 1, m.byte (buffer + BitVec.ofNat 32 i) ≠ 0 := by
        intro i hi
        by_cases heq : i = cur
        · rw [heq]
          exact hzero
        · exact hbefore i (by omega)
      rw [if_pos hzero, if_pos hw, hnext]
      by_cases hlast : size ≤ BitVec.ofNat 32 (cur + 1)
      · rw [if_pos hlast]
        have hle : size.toNat ≤ (cur + 1) % 2 ^ 32 := by rwa [BitVec.le_def, BitVec.toNat_ofNat] at hlast
        have hmod := Nat.mod_le (cur + 1) (2 ^ 32)
        exact ⟨cur + 1, _, ⟨by omega, hbefore', fun hlt => by omega⟩, h.typed hlt, rfl⟩
      · rw [if_neg hlast]
        have hgt : cur + 1 < size.toNat := by
          by_contra hge
          apply hlast
          rw [BitVec.le_def, BitVec.toNat_ofNat]
          by_cases htop : cur + 1 < 2 ^ 32
          · rw [Nat.mod_eq_of_lt htop]
            omega
          · omega
        exact ih (h.typed hlt) (by omega) (by omega) hbefore'

/-- **`read` on descriptor 0** consumes and stores the keys up to the first zero byte of the buffer, one key even
into an empty buffer, and returns one less than their number. -/
theorem run_read (hm : Mapped m buffer size.toNat) :
    ∃ r s', Stops m buffer size.toNat r ∧ Typed keys m buffer r s' ∧
      (read 0 buffer size).run (handler keys) (.start m) = (.ok (BitVec.ofNat 32 r - 1), s') := by
  have hread : read 0 buffer size = readStdin buffer size (size.toNat + 1) 0 >>= fun cur => .ret (cur - 1) :=
    if_neg (not_not.mpr rfl)
  have hstart : Typed keys m buffer 0 (.start m) := typed_start
  have hfuel : size.toNat < size.toNat + 1 + 0 := by omega
  obtain ⟨r, s', hstops, htyped, hrun⟩ := run_readStdin hm hstart (by omega) hfuel
    fun i hi => absurd hi (Nat.not_lt_zero i)
  have hloop : (readStdin buffer size (size.toNat + 1) 0).run (handler keys) (.start m) =
      (.ok (BitVec.ofNat 32 r), s') := hrun
  refine ⟨r, s', hstops, htyped, ?_⟩
  rw [hread, Prog.run_bind, hloop]
  rfl

/-! ## The result -/

/-- **`read` never does what it is to do**: whatever the buffer holds, its size and the keys. -/
theorem read_never_readsKeys (keys : ℕ → UInt8) (m : UserMemory) (buffer size : Word) :
    ¬ReadsKeys keys m buffer size := by
  intro h
  obtain ⟨r, -, s', hrun, hconsumed, -⟩ := h
  have hval := read_of_run hrun
  rw [hconsumed] at hval
  exact absurd (BitVec.add_right_eq_self.mp hval) (by decide)

/-- A buffer of one byte: the key `a` is stored, and 0 is returned. -/
theorem read_one_key : ∃ m s', Mapped m 0x1000 1 ∧
    (read 0 0x1000 1).run (handler fun _ => 97) (.start m) = (.ok 0, s') ∧
    s'.consumed = 1 ∧ s'.stored = [(0x1000, 97)] ∧ ¬ReadsKeys (fun _ => 97) m 0x1000 1 := by
  have hrun : (read 0 0x1000 1).run (handler fun _ => 97) (.start ⟨fun _ => 120, fun _ => true, fun _ => true⟩) =
      (.ok 0, (Console.start ⟨fun _ => 120, fun _ => true, fun _ => true⟩).typed 0x1000 97) := rfl
  refine ⟨⟨fun _ => 120, fun _ => true, fun _ => true⟩, _, fun _ _ => ⟨rfl, rfl⟩, hrun, rfl, rfl, ?_⟩
  intro h
  obtain ⟨r, -, s', hrun', hconsumed, -⟩ := h
  obtain ⟨hval, hstate⟩ := Prod.mk.inj (hrun.symm.trans hrun')
  have hone : r = 1 := hconsumed.symm.trans (congrArg Console.consumed hstate.symm)
  rw [hone] at hval
  exact absurd (Except.ok.inj hval) (by decide)

end ConsoleRead

end Pintos.Userprog
