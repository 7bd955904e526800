import Pintos.Userprog.Syscall

/-!
# Accesses in user space

Which memory a system call touches is decided by the stack pointer, the words at it, and, for `read`,
`write` and `readdir`, the buffer.  `syscall_confined_iff` says exactly when no access of a call goes
through at or above `PHYS_BASE`.

The proof computes `Safe`, the weakest precondition of the property, access by access: accesses below
`PHYS_BASE` can be forgotten (`safe_append`), and one that went through above it is never repaired
(`not_safe_of_performed`).
-/

namespace Pintos.Userprog

open Pintos.Threads

variable {α β : Type} {m : UserMemory} {s : SysState}

/-! ### The weakest precondition of confinement -/

/-- An access that is fine when a run has ended with `r`: it was below `PHYS_BASE`, or it has failed and
ended the process with status -1. -/
def Access.Fine (r : Except SysStop α) (a : Access) : Prop :=
  a.Below ∨ (a.performed = false ∧ r = .error (.exit (-1)))

/-- Every run of `p` from `s` ends with a log of fine accesses. -/
def Safe (p : Sys α) (s : SysState) : Prop :=
  Prog.wp sysEffect p (fun _ s' => ∀ a ∈ s'.log, a.Below)
    (fun e s' => ∀ a ∈ s'.log, a.Below ∨ (a.performed = false ∧ e = .exit (-1))) s

theorem safe_iff {p : Sys α} : Safe p ⟨m, []⟩ ↔
    ∀ r s', SysRuns p m r s' → ∀ a ∈ s'.log, a.Fine r := by
  have hwp := Prog.wp_iff_ends (R := sysEffect) (p := p) (s := ⟨m, []⟩)
    (Q := fun _ s' => ∀ a ∈ s'.log, a.Below)
    (E := fun e s' => ∀ a ∈ s'.log, a.Below ∨ (a.performed = false ∧ e = .exit (-1)))
  refine hwp.trans (forall_congr' fun r => forall_congr' fun s' => imp_congr_right fun _ => ?_)
  cases r with
  | ok a => simp [Prog.Sat, Access.Fine]
  | error e => simp [Prog.Sat, Access.Fine]

/-- The log grows by accesses that do not depend on it. -/
theorem sysEffect_append {o : SysOp} {m : UserMemory} {log : List Access} {x : o.Ans} {s' : SysState} :
    sysEffect o ⟨m, log⟩ x s' ↔ ∃ t, sysEffect o ⟨m, []⟩ x t ∧ s' = ⟨t.memory, log ++ t.log⟩ := by
  cases o <;> simp [sysEffect, and_assoc]

/-- Accesses below `PHYS_BASE` can be forgotten. -/
theorem safe_append {p : Sys α} {log log' : List Access} (h : ∀ a ∈ log, a.Below) :
    Safe p ⟨m, log ++ log'⟩ ↔ Safe p ⟨m, log'⟩ := by
  induction p generalizing m log' with
  | ret a =>
    show (∀ a ∈ log ++ log', a.Below) ↔ ∀ a ∈ log', a.Below
    simp only [List.mem_append, or_imp, forall_and]
    exact and_iff_right h
  | stop e =>
    show (∀ a ∈ log ++ log', _) ↔ ∀ a ∈ log', _
    simp only [List.mem_append, or_imp, forall_and]
    exact and_iff_right fun a ha => .inl (h a ha)
  | call o k ih =>
    show (∀ x s', sysEffect o _ x s' → Safe (k x) s') ↔ ∀ x s', sysEffect o _ x s' → Safe (k x) s'
    constructor
    · intro hs x s' hx
      obtain ⟨t, ht, rfl⟩ := sysEffect_append.mp hx
      have := hs x _ (sysEffect_append.mpr ⟨t, ht, rfl⟩)
      rw [List.append_assoc] at this
      exact (ih x).mp this
    · intro hs x s' hx
      obtain ⟨t, ht, rfl⟩ := sysEffect_append.mp hx
      rw [List.append_assoc]
      exact (ih x).mpr (hs x _ (sysEffect_append.mpr ⟨t, ht, rfl⟩))

theorem exists_answer (o : SysOp) (s : SysState) :
    ∃ x s', sysEffect o s x s' ∧ ∀ a ∈ s.log, a ∈ s'.log := by
  cases o with
  | loadWord va => exact ⟨_, _, ⟨rfl, rfl⟩, fun a ha => List.mem_append_left _ ha⟩
  | loadByte va => exact ⟨_, _, ⟨rfl, rfl⟩, fun a ha => List.mem_append_left _ ha⟩
  | storeByte va b => exact ⟨_, _, ⟨rfl, rfl⟩, fun a ha => List.mem_append_left _ ha⟩
  | kernel c => exact ⟨.exit, s, rfl, fun a ha => ha⟩
  | fileRead fd size => exact ⟨none, s, ⟨fun _ _ h => (nomatch h), rfl⟩, fun a ha => ha⟩
  | fileWrite fd size => exact ⟨none, s, ⟨fun _ _ h => (nomatch h), rfl⟩, fun a ha => ha⟩
  | dirRead fd => exact ⟨none, s, ⟨fun _ h => (nomatch h), rfl⟩, fun a ha => ha⟩
  | inputGetc => exact ⟨0, s, rfl, fun a ha => ha⟩

/-- An access above `PHYS_BASE` that went through stays in the log. -/
theorem not_safe_of_performed {p : Sys α} {a : Access} (ha : a ∈ s.log) (hp : a.performed = true)
    (hb : ¬a.Below) : ¬Safe p s := by
  induction p generalizing s with
  | ret b => exact fun h => hb (h a ha)
  | stop e =>
    intro h
    rcases h a ha with h | ⟨h, _⟩
    · exact hb h
    · rw [hp] at h
      cases h
  | call o k ih =>
    intro h
    obtain ⟨x, s', hx, hlog⟩ := exists_answer o s
    exact ih x (hlog a ha) (h x s' hx)

/-! ### Single accesses -/

namespace UserMemory

/-- The word at an address lies below `PHYS_BASE` or cannot be read. -/
def InUser (m : UserMemory) (va : Word) : Prop := va.toNat + 4 ≤ 0xc0000000 ∨ m.word va = none

/-- Memory after a store. -/
def store (m : UserMemory) (va : Word) (b : UInt8) : UserMemory :=
  { m with byte := Function.update m.byte va b }

end UserMemory

/-- One access and the rest of the run. -/
theorem safe_after {p : Sys α} {a : Access} (hp : a.performed = true) :
    Safe p ⟨m, [a]⟩ ↔ a.Below ∧ Safe p ⟨m, []⟩ := by
  by_cases hb : a.Below
  · rw [show [a] = [a] ++ [] from rfl, safe_append (by simpa using hb)]
    exact (and_iff_right hb).symm
  · constructor
    · intro h
      exact absurd h (not_safe_of_performed (List.mem_singleton_self a) hp hb)
    · intro h
      exact absurd h.1 hb

/-- An access that fails ends the process with status -1. -/
theorem safe_failed {a : Access} (hp : a.performed = false) : Safe (exit (-1) : Sys α) ⟨m, [a]⟩ := by
  intro b hb
  obtain rfl := List.mem_singleton.mp hb
  exact .inr ⟨hp, rfl⟩

theorem below_byte {va : Word} {b : Bool} : (⟨va, 1, b⟩ : Access).Below ↔ va.toNat < 0xc0000000 :=
  Nat.succ_le_iff

theorem safe_loadWord {va : Word} {k : Word → Sys α} : Safe (loadWord va >>= k) ⟨m, []⟩ ↔
    m.InUser va ∧ ∀ w, m.word va = some w → Safe (k w) ⟨m, []⟩ := by
  have hop : Safe (loadWord va >>= k) ⟨m, []⟩ ↔ match m.word va with
      | some w => Safe (k w) ⟨m, [⟨va, 4, true⟩]⟩
      | none => Safe (exit (-1) : Sys α) ⟨m, [⟨va, 4, false⟩]⟩ := by
    constructor
    · intro h
      have h := h _ _ ⟨rfl, rfl⟩
      cases hw : m.word va <;> rw [hw] at h <;> exact h
    · rintro h x s' ⟨rfl, rfl⟩
      cases hw : m.word va <;> rw [hw] at h <;> exact h
  rw [hop]
  unfold UserMemory.InUser
  cases hw : m.word va with
  | none => simpa using safe_failed rfl
  | some w => simp [safe_after, Access.Below]

theorem safe_loadByte {va : Word} {k : UInt8 → Sys α} : Safe (loadByte va >>= k) ⟨m, []⟩ ↔
    (m.readable va = true → va.toNat < 0xc0000000 ∧ Safe (k (m.byte va)) ⟨m, []⟩) := by
  have hop : Safe (loadByte va >>= k) ⟨m, []⟩ ↔ if m.readable va then
      Safe (k (m.byte va)) ⟨m, [⟨va, 1, true⟩]⟩
    else Safe (exit (-1) : Sys α) ⟨m, [⟨va, 1, false⟩]⟩ := by
    constructor
    · intro h
      have h := h _ _ ⟨rfl, rfl⟩
      cases hw : m.readable va <;> rw [hw] at h <;> exact h
    · rintro h x s' ⟨rfl, rfl⟩
      cases hw : m.readable va <;> rw [hw] at h <;> exact h
  rw [hop]
  cases hw : m.readable va with
  | false => simpa using safe_failed rfl
  | true => simp [safe_after, below_byte]

theorem safe_storeByte {va : Word} {b : UInt8} {k : Unit → Sys α} :
    Safe (storeByte va b >>= k) ⟨m, []⟩ ↔
      (m.writable va = true → va.toNat < 0xc0000000 ∧ Safe (k ()) ⟨m.store va b, []⟩) := by
  have hop : Safe (storeByte va b >>= k) ⟨m, []⟩ ↔ if m.writable va then
      Safe (k ()) ⟨m.store va b, [⟨va, 1, true⟩]⟩
    else Safe (exit (-1) : Sys α) ⟨m, [⟨va, 1, false⟩]⟩ := by
    constructor
    · intro h
      have h := h _ _ ⟨rfl, rfl⟩
      cases hw : m.writable va <;> rw [hw] at h <;> exact h
    · rintro h x s' ⟨rfl, rfl⟩
      cases hw : m.writable va <;> rw [hw] at h <;> exact h
  rw [hop]
  cases hw : m.writable va with
  | false => simpa using safe_failed rfl
  | true => simp [safe_after, below_byte]

theorem safe_perform {o : SysOp} {k : o.Ans → Sys α} :
    Safe (Prog.perform o >>= k) s ↔ ∀ x s', sysEffect o s x s' → Safe (k x) s' := Iff.rfl

theorem safe_inputGetc {k : UInt8 → Sys α} :
    Safe (Prog.perform SysOp.inputGetc >>= k) ⟨m, []⟩ ↔ ∀ c, Safe (k c) ⟨m, []⟩ := by
  constructor
  · intro h c
    exact h c _ rfl
  · rintro h c s' rfl
    exact h c

theorem safe_finish {o : Outcome β} {k : β → Sys α} (h : ∀ b, Safe (k b) ⟨m, []⟩) :
    Safe (finish o >>= k) ⟨m, []⟩ := by
  cases o with
  | value b => exact h b
  | exit => exact fun a ha => (List.not_mem_nil ha).elim
  | panic => exact fun a ha => (List.not_mem_nil ha).elim

theorem safe_ret (a : α) : Safe (Prog.ret a) ⟨m, []⟩ := fun _ h => (List.not_mem_nil h).elim

theorem safe_stop (e : SysStop) : Safe (Prog.stop e : Sys α) ⟨m, []⟩ :=
  fun _ h => (List.not_mem_nil h).elim

/-! ### Buffers -/

/-- `n` single accesses from `va` on, of which none fails below `PHYS_BASE`, get to `PHYS_BASE`, and the
access there goes through as well. -/
def Reaches (ok : Word → Bool) (va : Word) (n : ℕ) : Prop :=
  0xc0000000 < va.toNat + n ∧ ∀ a : Word, va.toNat ≤ a.toNat → a.toNat ≤ 0xc0000000 → ok a = true

theorem toNat_succ {va : Word} (h : va.toNat < 0xc0000000) : (va + 1).toNat = va.toNat + 1 := by
  rw [BitVec.toNat_add_of_lt]
  · rfl
  · show va.toNat + 1 < _
    omega

theorem reaches_succ {ok : Word → Bool} {va : Word} {n : ℕ} (h : va.toNat < 0xc0000000) :
    Reaches ok va (n + 1) ↔ ok va = true ∧ Reaches ok (va + 1) n := by
  unfold Reaches
  rw [toNat_succ h]
  constructor
  · rintro ⟨hn, hok⟩
    exact ⟨hok va le_rfl (by omega), by omega, fun a ha => hok a (by omega)⟩
  · rintro ⟨hva, hn, hok⟩
    refine ⟨by omega, fun a ha ha' => ?_⟩
    by_cases heq : a.toNat = va.toNat
    · rw [BitVec.eq_of_toNat_eq heq, hva]
    · exact hok a (by omega) ha'

theorem reaches_base {ok : Word → Bool} {va : Word} {n : ℕ} (h : va.toNat = 0xc0000000) :
    Reaches ok va (n + 1) ↔ ok va = true := by
  constructor
  · rintro ⟨_, hok⟩
    exact hok va le_rfl (by omega)
  · intro hok
    refine ⟨by omega, fun a ha ha' => ?_⟩
    rwa [BitVec.eq_of_toNat_eq (by omega : a.toNat = va.toNat)]

theorem not_reaches_zero {ok : Word → Bool} {va : Word} (h : va.toNat ≤ 0xc0000000) :
    ¬Reaches ok va 0 := fun hr => by
  have := hr.1
  omega

theorem safe_loadBytes {n : ℕ} {k : Unit → Sys α} (hk : Safe (k ()) ⟨m, []⟩) :
    ∀ {va : Word}, va.toNat ≤ 0xc0000000 →
      (Safe (loadBytes n va >>= k) ⟨m, []⟩ ↔ ¬Reaches m.readable va n) := by
  induction n with
  | zero =>
    intro va hva
    exact ⟨fun _ => not_reaches_zero hva, fun _ => hk⟩
  | succ n ih =>
    intro va hva
    rw [loadBytes, Prog.bind_bind, safe_loadByte]
    by_cases hlt : va.toNat < 0xc0000000
    · rw [reaches_succ hlt, ih (by rw [toNat_succ hlt]; omega)]
      tauto
    · rw [reaches_base (by omega)]
      tauto

theorem safe_storeBytes {l : List UInt8} {k : Unit → Sys α} (hk : ∀ m, Safe (k ()) ⟨m, []⟩) :
    ∀ {m : UserMemory} {va : Word}, va.toNat ≤ 0xc0000000 →
      (Safe (storeBytes l va >>= k) ⟨m, []⟩ ↔ ¬Reaches m.writable va l.length) := by
  induction l with
  | nil =>
    intro m va hva
    exact ⟨fun _ => not_reaches_zero hva, fun _ => hk m⟩
  | cons b l ih =>
    intro m va hva
    rw [storeBytes, Prog.bind_bind, safe_storeByte, List.length_cons]
    by_cases hlt : va.toNat < 0xc0000000
    · rw [reaches_succ hlt, ih (by rw [toNat_succ hlt]; omega)]
      show (_ → _ ∧ ¬Reaches m.writable _ _) ↔ _
      tauto
    · rw [reaches_base (by omega)]
      tauto

/-- The loop of `read` on descriptor 0, with `n` bytes to go from `va` on, gets to `PHYS_BASE`: it meets
no zero byte, and no access fails. -/
def StdinReaches (m : UserMemory) (va : Word) (n : ℕ) : Prop :=
  0xc0000000 < va.toNat + n ∧ m.readable physBase = true ∧ ∀ a : Word, va.toNat ≤ a.toNat →
    a.toNat < 0xc0000000 → m.readable a = true ∧ m.byte a ≠ 0 ∧ m.writable a = true

theorem stdinReaches_succ {m : UserMemory} {va : Word} {n : ℕ} (c : UInt8)
    (h : va.toNat < 0xc0000000) : StdinReaches m va (n + 1) ↔
      (m.readable va = true ∧ m.byte va ≠ 0 ∧ m.writable va = true) ∧
        StdinReaches (m.store va c) (va + 1) n := by
  have hbyte : ∀ a : Word, va.toNat + 1 ≤ a.toNat → (m.store va c).byte a = m.byte a := fun a ha => by
    refine Function.update_of_ne (fun heq => ?_) _ _
    rw [heq] at ha
    omega
  unfold StdinReaches
  rw [toNat_succ h]
  constructor
  · rintro ⟨hn, hbase, hok⟩
    refine ⟨hok va le_rfl h, by omega, hbase, fun a ha ha' => ?_⟩
    rw [hbyte a ha]
    exact hok a (by omega) ha'
  · rintro ⟨hva, hn, hbase, hok⟩
    refine ⟨by omega, hbase, fun a ha ha' => ?_⟩
    by_cases heq : a.toNat = va.toNat
    · rw [BitVec.eq_of_toNat_eq heq]
      exact hva
    · have := hok a (by omega) ha'
      rwa [hbyte a (by omega)] at this

theorem safe_readStdin {buffer size : Word} {k : Word → Sys α} (hk : ∀ m a, Safe (k a) ⟨m, []⟩) {fuel : ℕ} :
    ∀ {m : UserMemory} {cur : Word}, size.toNat < fuel + cur.toNat →
      (cur = 0 ∨ cur.toNat < size.toNat) → (buffer + cur).toNat = buffer.toNat + cur.toNat →
      buffer.toNat < 0xc0000000 → buffer.toNat + cur.toNat ≤ 0xc0000000 →
      (Safe (readStdin buffer size fuel cur >>= k) ⟨m, []⟩ ↔
        ¬StdinReaches m (buffer + cur) (size.toNat - cur.toNat)) := by
  induction fuel with
  | zero =>
    intro m cur hfuel hcur
    rcases hcur with rfl | hcur
    · exact absurd hfuel (by simp)
    · omega
  | succ fuel ih =>
    intro m cur hfuel hcur haddr hbuf hva
    set va := buffer + cur with hvadef
    rw [readStdin, Prog.bind_bind, safe_loadByte]
    by_cases hlt : va.toNat < 0xc0000000
    · by_cases hzero : m.byte va = 0
      · -- a zero byte ends the loop
        constructor
        · rintro _ ⟨_, _, hok⟩
          exact (hok va le_rfl hlt).2.1 hzero
        · intro _ _
          refine ⟨hlt, ?_⟩
          rw [if_neg (by simpa using hzero)]
          exact hk m cur
      · rw [if_pos hzero, Prog.bind_bind, safe_inputGetc]
        by_cases hlast : size ≤ cur + 1
        · have hsize : size.toNat ≤ cur.toNat + 1 := by
            rw [BitVec.le_def, BitVec.toNat_add] at hlast
            exact hlast.trans (Nat.mod_le _ _)
          constructor
          · rintro _ ⟨hn, _⟩
            omega
          · refine fun _ _ => ⟨hlt, fun c => ?_⟩
            rw [Prog.bind_bind, safe_storeByte, if_pos hlast]
            exact fun _ => ⟨hlt, hk _ _⟩
        · have hcur1 : (cur + 1).toNat = cur.toNat + 1 := toNat_succ (by omega)
          have hmore : cur.toNat + 1 < size.toNat := by
            rw [BitVec.le_def, hcur1] at hlast
            omega
          have hva1 : buffer + (cur + 1) = va + 1 := by
            rw [hvadef, BitVec.add_assoc]
          have hih : ∀ c : UInt8, Safe (readStdin buffer size fuel (cur + 1) >>= k) ⟨m.store va c, []⟩ ↔
              ¬StdinReaches (m.store va c) (va + 1) (size.toNat - (cur.toNat + 1)) := fun c => by
            have := @ih (m.store va c) (cur + 1) (by omega) (.inr (by omega))
              (by rw [hva1, toNat_succ hlt]; omega) hbuf (by omega)
            rwa [hva1, hcur1] at this
          have hstep : ∀ c : UInt8, (Safe ((storeByte va c >>= fun _ =>
                if size ≤ cur + 1 then (pure (cur + 1) : Sys Word)
                else readStdin buffer size fuel (cur + 1)) >>= k) ⟨m, []⟩ ↔
              (m.writable va = true →
                ¬StdinReaches (m.store va c) (va + 1) (size.toNat - (cur.toNat + 1)))) := fun c => by
            rw [Prog.bind_bind, safe_storeByte, if_neg hlast, hih c]
            exact imp_congr_right fun _ => and_iff_right hlt
          have hsub : size.toNat - cur.toNat = size.toNat - (cur.toNat + 1) + 1 := by omega
          rw [hsub]
          constructor
          · intro h hr
            obtain ⟨⟨hread, _, hwrite⟩, hr⟩ := (stdinReaches_succ 0 hlt).mp hr
            exact (hstep 0).mp ((h hread).2 0) hwrite hr
          · refine fun h hread => ⟨hlt, fun c => (hstep c).mpr fun hwrite hr => h ?_⟩
            exact (stdinReaches_succ c hlt).mpr ⟨⟨hread, hzero, hwrite⟩, hr⟩
    · have hbase : va = physBase := BitVec.eq_of_toNat_eq (by rw [toNat_physBase]; omega)
      have hcur' : cur.toNat < size.toNat := by
        rcases hcur with rfl | hcur
        · have : (0 : Word).toNat = 0 := rfl
          omega
        · exact hcur
      constructor
      · rintro h ⟨_, hread, _⟩
        rw [← hbase] at hread
        exact hlt (h hread).1
      · intro h hread
        refine absurd ⟨by omega, ?_, fun a ha ha' => absurd ha' (by omega)⟩ h
        rwa [← hbase]

/-! ### System calls -/

/-- The buffer that a system call with the arguments `p` accesses stays below `PHYS_BASE`. -/
def Syscall.BufferStays (m : UserMemory) (p : ℕ → Word) : Syscall → Prop
  | .read =>
    if p 0 = 0 then ¬StdinReaches m (p 1) (p 2).toNat
    else (p 0).toInt < 3 ∨ ¬Reaches m.writable (p 1) (offSize (p 2))
  | .write =>
    if p 0 = 1 then ¬Reaches m.readable (p 1) (p 2).toNat
    else (p 0).toInt < 3 ∨ ¬Reaches m.readable (p 1) (offSize (p 2))
  | .readdir => (p 0).toInt < 3 ∨ ¬Reaches m.writable (p 1) 15
  | _ => True

theorem safe_passOn {c : KernelCall} {k : Option Word → Sys α} (hk : ∀ a, Safe (k a) ⟨m, []⟩) :
    Safe (passOn c >>= k) ⟨m, []⟩ := by
  rw [passOn, Prog.bind_bind, safe_perform]
  rintro o s' rfl
  rw [Prog.bind_bind]
  exact safe_finish fun b => hk _

theorem Reaches.mono {ok : Word → Bool} {va : Word} {n n' : ℕ} (h : Reaches ok va n) (hn : n ≤ n') :
    Reaches ok va n' := ⟨by have := h.1; omega, h.2⟩

theorem safe_read {fd buffer size : Word} {k : Word → Sys α} (hk : ∀ m a, Safe (k a) ⟨m, []⟩)
    (hbuf : buffer.toNat < 0xc0000000) : Safe (read fd buffer size >>= k) ⟨m, []⟩ ↔
      if fd = 0 then ¬StdinReaches m buffer size.toNat
      else fd.toInt < 3 ∨ ¬Reaches m.writable buffer (offSize size) := by
  unfold read
  by_cases hfd : fd = 0
  · rw [if_neg (by simpa using hfd), if_pos hfd, Prog.bind_bind]
    have := @safe_readStdin _ buffer size (fun cur => pure (cur - 1) >>= k) (fun m a => hk m _) (size.toNat + 1) m 0
      (by simp) (.inl rfl) (by simp) hbuf (by simp; omega)
    simpa using this
  · rw [if_pos hfd, if_neg hfd]
    by_cases hlow : fd.toInt < 3
    · rw [if_pos hlow]
      exact ⟨fun _ => .inl hlow, fun _ => hk m _⟩
    · have hstore : ∀ (l : List UInt8) (o : Outcome Unit), Safe ((storeBytes l buffer >>= fun _ => finish o >>= fun _ =>
          (pure (BitVec.ofNat 32 l.length) : Sys Word)) >>= k) ⟨m, []⟩ ↔
          ¬Reaches m.writable buffer l.length := fun l o => by
        rw [Prog.bind_bind]
        refine safe_storeBytes (fun m => ?_) hbuf.le
        rw [Prog.bind_bind]
        exact safe_finish fun _ => hk m _
      rw [if_neg hlow, Prog.bind_bind, safe_perform]
      constructor
      · intro h
        refine .inr fun hr => ?_
        have := h (some (List.replicate (offSize size) 0, .value ())) _
          ⟨by rintro l o ⟨⟩; simp, rfl⟩
        exact (hstore _ _).mp this (by simpa using hr)
      · rintro h x s' ⟨hx, rfl⟩
        cases x with
        | none => exact hk m _
        | some lo =>
          refine (hstore lo.1 lo.2).mpr fun hr => ?_
          exact (h.resolve_left hlow) (hr.mono (hx _ _ rfl))

theorem safe_write {fd buffer size : Word} {k : Word → Sys α} (hk : ∀ a, Safe (k a) ⟨m, []⟩)
    (hbuf : buffer.toNat < 0xc0000000) : Safe (write fd buffer size >>= k) ⟨m, []⟩ ↔
      if fd = 1 then ¬Reaches m.readable buffer size.toNat
      else fd.toInt < 3 ∨ ¬Reaches m.readable buffer (offSize size) := by
  unfold write
  by_cases hfd : fd = 1
  · rw [if_neg (by simpa using hfd), if_pos hfd, Prog.bind_bind]
    exact safe_loadBytes (hk _) hbuf.le
  · rw [if_pos hfd, if_neg hfd]
    by_cases hlow : fd.toInt < 3
    · rw [if_pos hlow]
      exact ⟨fun _ => .inl hlow, fun _ => hk _⟩
    · have hload : ∀ (n : ℕ) (o : Outcome Unit), Safe ((loadBytes n buffer >>= fun _ => finish o >>= fun _ =>
          (pure (BitVec.ofNat 32 n) : Sys Word)) >>= k) ⟨m, []⟩ ↔
          ¬Reaches m.readable buffer n := fun n o => by
        rw [Prog.bind_bind]
        refine safe_loadBytes ?_ hbuf.le
        rw [Prog.bind_bind]
        exact safe_finish fun _ => hk _
      rw [if_neg hlow, Prog.bind_bind, safe_perform]
      constructor
      · intro h
        refine .inr fun hr => ?_
        have := h (some (offSize size, .value ())) _ ⟨by rintro n o ⟨⟩; exact le_rfl, rfl⟩
        exact (hload _ _).mp this hr
      · rintro h x s' ⟨hx, rfl⟩
        cases x with
        | none => exact hk _
        | some no =>
          refine (hload no.1 no.2).mpr fun hr => ?_
          exact (h.resolve_left hlow) (hr.mono (hx _ _ rfl))

theorem safe_readdir {fd name : Word} {k : Word → Sys α} (hk : ∀ m a, Safe (k a) ⟨m, []⟩)
    (hname : name.toNat < 0xc0000000) : Safe (readdir fd name >>= k) ⟨m, []⟩ ↔
      fd.toInt < 3 ∨ ¬Reaches m.writable name 15 := by
  unfold readdir
  by_cases hlow : fd.toInt < 3
  · rw [if_pos hlow]
    exact ⟨fun _ => .inl hlow, fun _ => hk m _⟩
  · have hstore : ∀ entry : List UInt8, Safe ((storeBytes (entry ++ [0]) name >>= fun _ =>
        (pure 1 : Sys Word)) >>= k) ⟨m, []⟩ ↔ ¬Reaches m.writable name (entry.length + 1) := fun entry => by
      rw [Prog.bind_bind]
      have := safe_storeBytes (l := entry ++ [0]) (m := m) (k := fun _ => k 1)
        (fun m => hk m 1) hname.le
      rwa [List.length_append] at this
    have hentry : ∀ entry : List UInt8, name ≠ 0 → Safe ((if name = 0 then (.stop .panic : Sys Word) else
        storeBytes (entry ++ [0]) name >>= fun _ => pure 1) >>= k) ⟨m, []⟩ →
        ¬Reaches m.writable name (entry.length + 1) := fun entry hne h => by
      rw [if_neg hne] at h
      exact (hstore entry).mp h
    rw [if_neg hlow, Prog.bind_bind, safe_perform]
    constructor
    · intro h
      refine .inr fun hr => ?_
      have hne : name ≠ 0 := by
        rintro rfl
        have := hr.1
        simp at this
      have h := h (some (.value (some (List.replicate 14 0)))) _ ⟨by rintro l ⟨⟩; simp, rfl⟩
      exact hentry _ hne h (by simpa using hr)
    · rintro h x s' ⟨hx, rfl⟩
      cases x with
      | none => exact hk m _
      | some o =>
        cases o with
        | exit => exact safe_stop _
        | panic => exact safe_stop _
        | value entry =>
          cases entry with
          | none => exact hk m _
          | some entry =>
            show Safe ((if name = 0 then (.stop .panic : Sys Word) else
              storeBytes (entry ++ [0]) name >>= fun _ => pure 1) >>= k) ⟨m, []⟩
            by_cases hne : name = 0
            · rw [if_pos hne]
              exact safe_stop _
            · rw [if_neg hne]
              refine (hstore entry).mpr fun hr => (h.resolve_left hlow) (hr.mono ?_)
              have := hx _ rfl
              omega

theorem safe_body {c : Syscall} {p : ℕ → Word} (hp : ∀ i, i < c.argCount → (p i).toNat < 0xc0000000) :
    Safe (c.body p) ⟨m, []⟩ ↔ c.BufferStays m p := by
  have hpass : ∀ (k : KernelCall), Safe (passOn k) ⟨m, []⟩ := fun k => by
    rw [← Prog.bind_ret (passOn k)]
    exact safe_passOn fun a => safe_ret a
  have hnone : ∀ (k : KernelCall), Safe (passOn k >>= fun _ => (pure none : Sys (Option Word))) ⟨m, []⟩ :=
    fun k => safe_passOn fun a => safe_ret none
  have hnull : ∀ (k : KernelCall), Safe (if p 0 = 0 then exit (-1) else passOn k) ⟨m, []⟩ := fun k => by
    split
    · exact safe_stop _
    · exact hpass k
  cases c with
  | halt => exact iff_of_true (safe_stop _) trivial
  | exit => exact iff_of_true (safe_stop _) trivial
  | create => exact iff_of_true (hnull _) trivial
  | remove => exact iff_of_true (hnull _) trivial
  | «open» => exact iff_of_true (hnull _) trivial
  | seek => exact iff_of_true (hnone _) trivial
  | close => exact iff_of_true (hnone _) trivial
  | fibo => exact iff_of_true (safe_ret _) trivial
  | maxfour => exact iff_of_true (safe_ret _) trivial
  | read => exact safe_read (fun m a => safe_ret _) (hp 1 (by decide))
  | write => exact safe_write (fun a => safe_ret _) (hp 1 (by decide))
  | readdir => exact safe_readdir (fun m a => safe_ret _) (hp 1 (by decide))
  | exec | wait | filesize | tell | chdir | mkdir | isdir | inumber =>
    exact iff_of_true (hpass _) trivial

/-! ### The arguments on the stack -/

/-- The first arguments at `esp` are `p`, and each of them passes `protect_user_memory`. -/
def Fetched (m : UserMemory) (esp : Word) (p : List Word) : Prop :=
  ∀ i w, p[i]? = some w → m.word (argAddr esp i) = some w ∧ isUserVaddr w = true

theorem Fetched.snoc {esp : Word} {p : List Word} {w : Word} (h : Fetched m esp p)
    (hw : m.word (argAddr esp p.length) = some w) (huser : isUserVaddr w = true) :
    Fetched m esp (p ++ [w]) := by
  intro i v hv
  by_cases hi : i < p.length
  · rw [List.getElem?_append_left hi] at hv
    exact h i v hv
  · rw [List.getElem?_append_right (by omega), List.getElem?_singleton] at hv
    split at hv
    · next h0 =>
      obtain rfl : w = v := Option.some.inj hv
      rw [show i = p.length by omega]
      exact ⟨hw, huser⟩
    · cases hv

/-- The arguments are the same wherever two lists of them reach. -/
theorem Fetched.prefix_eq {esp : Word} {p q : List Word} (hp : Fetched m esp p) (hq : Fetched m esp q)
    {i : ℕ} (hip : i < p.length) (hiq : i < q.length) : p[i] = q[i] := by
  have h₁ := (hp i _ (List.getElem?_eq_getElem hip)).1
  have h₂ := (hq i _ (List.getElem?_eq_getElem hiq)).1
  exact Option.some.inj (h₁.symm.trans h₂)

theorem Fetched.eq_of_length {esp : Word} {p q : List Word} (hp : Fetched m esp p)
    (hq : Fetched m esp q) (h : p.length = q.length) : p = q :=
  List.ext_getElem h fun _ hip hiq => hp.prefix_eq hq hip hiq

theorem Fetched.take {esp : Word} {p : List Word} (hp : Fetched m esp p) (n : ℕ) :
    Fetched m esp (p.take n) := by
  intro i w hw
  rw [List.getElem?_take] at hw
  split at hw
  · exact hp i w hw
  · cases hw

theorem safe_fetchArgs {esp : Word} {n : ℕ} {k : List Word → Sys α} : ∀ {p : List Word},
    Fetched m esp p → (Safe (fetchArgs esp n p >>= k) ⟨m, []⟩ ↔
      (∀ q, Fetched m esp q → p.length ≤ q.length → q.length < p.length + n →
        m.InUser (argAddr esp q.length)) ∧
      ∀ q, Fetched m esp q → q.length = p.length + n → Safe (k q) ⟨m, []⟩) := by
  induction n with
  | zero =>
    intro p hp
    constructor
    · intro h
      refine ⟨fun q _ hle hlt => absurd hlt (by omega), fun q hq hlen => ?_⟩
      rw [hq.eq_of_length hp hlen]
      exact h
    · intro h
      exact h.2 p hp rfl
  | succ n ih =>
    intro p hp
    have hstep : ∀ w, m.word (argAddr esp p.length) = some w →
        (Safe ((protectUserMemory w >>= fun _ => fetchArgs esp n (p ++ [w])) >>= k) ⟨m, []⟩ ↔
          (isUserVaddr w = true → Safe (fetchArgs esp n (p ++ [w]) >>= k) ⟨m, []⟩)) := fun w _ => by
      unfold protectUserMemory
      cases isUserVaddr w with
      | false => exact iff_of_true (safe_stop _) (fun h => nomatch h)
      | true => exact ⟨fun h _ => h, fun h => h rfl⟩
    rw [fetchArgs, Prog.bind_bind, safe_loadWord]
    constructor
    · rintro ⟨huser, h⟩
      have hrest : ∀ q, Fetched m esp q → p.length < q.length → ∃ w, Fetched m esp (p ++ [w]) ∧
          Safe (fetchArgs esp n (p ++ [w]) >>= k) ⟨m, []⟩ := fun q hq hlt => by
        obtain ⟨hw, hwu⟩ := hq p.length _ (List.getElem?_eq_getElem hlt)
        exact ⟨_, hp.snoc hw hwu, (hstep _ hw).mp (h _ hw) hwu⟩
      refine ⟨fun q hq hle hlt => ?_, fun q hq hlen => ?_⟩
      · by_cases heq : q.length = p.length
        · rwa [heq]
        · obtain ⟨w, hpw, hs⟩ := hrest q hq (by omega)
          exact ((ih hpw).mp hs).1 q hq (by simp; omega) (by simp; omega)
      · obtain ⟨w, hpw, hs⟩ := hrest q hq (by omega)
        exact ((ih hpw).mp hs).2 q hq (by simp; omega)
    · rintro ⟨huser, hk⟩
      refine ⟨huser p hp le_rfl (by omega), fun w hw => (hstep w hw).mpr fun hwu => ?_⟩
      refine (ih (hp.snoc hw hwu)).mpr ⟨fun q hq hle hlt => ?_, fun q hq hlen => ?_⟩
      · simp only [List.length_append, List.length_singleton] at hle hlt
        exact huser q hq (by omega) (by omega)
      · simp only [List.length_append, List.length_singleton] at hlen
        exact hk q hq (by omega)

/-- No access of the system call at `esp` goes through at or above `PHYS_BASE`; one that is attempted
there ends the process with status -1. -/
def Confined (m : UserMemory) (esp : Word) : Prop :=
  ∀ r s', SysRuns (syscallHandler esp) m r s' → ∀ a ∈ s'.log, a.Fine r

/-- The words at `esp` that the handler gets to lie below `PHYS_BASE` or cannot be read, and the buffer
that it gets to stays below. -/
structure ArgumentsStay (m : UserMemory) (esp : Word) : Prop where
  number : m.InUser esp
  args : ∀ n c, m.word esp = some n → Syscall.ofNumber n = some c → ∀ p, Fetched m esp p →
    p.length < c.argCount → m.InUser (argAddr esp p.length)
  buffer : ∀ n c, m.word esp = some n → Syscall.ofNumber n = some c → ∀ p, Fetched m esp p →
    p.length = c.argCount → c.BufferStays m fun i => (p[i]?).getD 0

theorem safe_call {esp : Word} {c : Syscall} : Safe (fetchArgs esp c.argCount [] >>= fun p =>
      c.body fun i => (p[i]?).getD 0) ⟨m, []⟩ ↔
    (∀ p, Fetched m esp p → p.length < c.argCount → m.InUser (argAddr esp p.length)) ∧
    ∀ p, Fetched m esp p → p.length = c.argCount → c.BufferStays m fun i => (p[i]?).getD 0 := by
  have hnil : Fetched m esp [] := fun i w h => nomatch h
  rw [safe_fetchArgs hnil]
  simp only [List.length_nil, Nat.zero_le, Nat.zero_add, true_implies]
  refine and_congr_right fun _ => forall_congr' fun p => imp_congr_right fun hp =>
    imp_congr_right fun hlen => safe_body fun i hi => ?_
  have hget := List.getElem?_eq_getElem (l := p) (i := i) (by omega)
  rw [hget]
  exact isUserVaddr_iff.mp (hp i _ hget).2

/-- **When a system call stays in user space.**  All accesses that go through lie below `PHYS_BASE`, and
any other ends the process with status -1, exactly if the words and the buffer do. -/
theorem syscall_confined_iff (m : UserMemory) (esp : Word) : Confined m esp ↔ ArgumentsStay m esp := by
  have hsafe : Confined m esp ↔ Safe (syscallHandler esp) ⟨m, []⟩ := safe_iff.symm
  rw [hsafe, syscallHandler, safe_loadWord]
  constructor
  · rintro ⟨huser, h⟩
    have hcall : ∀ n c, m.word esp = some n → Syscall.ofNumber n = some c → _ := fun n c hn hc => by
      have h := h n hn
      rw [hc] at h
      exact safe_call.mp h
    exact ⟨huser, fun n c hn hc => (hcall n c hn hc).1, fun n c hn hc => (hcall n c hn hc).2⟩
  · intro h
    refine ⟨h.number, fun n hn => ?_⟩
    cases hc : Syscall.ofNumber n with
    | none => exact safe_ret none
    | some c => exact safe_call.mpr ⟨h.args n c hn hc, h.buffer n c hn hc⟩

/-- A process with one page of stack, below the memory of the kernel: the last word of the page is the
number of `wait`. -/
def lastWordMemory : UserMemory where
  byte va := if va = 0xbffffffc#32 then 3 else 0
  readable va := decide (0xbffff000#32 ≤ va)
  writable va := decide (0xbffff000#32 ≤ va)

/-- `wait` with its number in the last word of the stack reads its argument from kernel memory. -/
theorem lastWord_not_confined : ¬Confined lastWordMemory 0xbffffffc := by
  intro h
  have hrun : SysRuns (syscallHandler 0xbffffffc) lastWordMemory (.ok (some 0))
      ⟨lastWordMemory, [⟨0xbffffffc, 4, true⟩, ⟨0xc0000000, 4, true⟩]⟩ := by
    refine ⟨some 3, _, ⟨by decide, rfl⟩, ?_⟩
    refine ⟨some 0, _, ⟨by decide, rfl⟩, ?_⟩
    exact ⟨.value 0, _, rfl, rfl, rfl⟩
  have := h _ _ hrun ⟨0xc0000000, 4, true⟩ (by decide)
  exact absurd this (by unfold Access.Fine; decide)

end Pintos.Userprog
