import Pintos.Library.Bytes
import Pintos.Library.Trace

/-!
# The disk driver

`ide_read` and `ide_write` of `devices/ide.c` on one channel with two disks: any number of threads, the interrupt handler
and the controller take turns, and each access to a port is a step of its own.

* `Phase` is what the ATA standard lets a controller do with the two commands of the driver: it is busy for as long as it
  likes, and interrupts when the sector can be read, or has been written.
* The lock and the semaphore are those of `threads/synch.c`: one holder, and a count.
* `ide_correct`: the calls are atomic reads and writes of sectors, in the order of their `log`; a read never fails; and
  some thread, the controller or the handler can always go on, so no interrupt is missed.

`wait_until_idle` goes on after 1000 rounds, and `wait_while_busy` gives up after 3000.
-/

namespace Pintos.Devices.Ide

/-! ## The controller -/

/-- The contents of a sector. -/
abbrev Sector := Block 512

/-- What the controller does: BSY is set in `seeking`, `preparing` and `storing`, and DRQ in `dataIn` and `dataOut`. -/
inductive Phase
  | idle
  | seeking (dev : Bool) (lba : ℕ)
  | dataIn (buf : Sector)
  | preparing (dev : Bool) (lba : ℕ)
  | dataOut (dev : Bool) (lba : ℕ)
  | storing (dev : Bool) (lba : ℕ) (buf : Sector)

namespace Phase

/-- `STA_BSY` -/
def bsy : Phase → Bool
  | seeking _ _ | preparing _ _ | storing _ _ _ => true
  | _ => false

/-- `STA_DRQ` -/
def drq : Phase → Bool
  | dataIn _ | dataOut _ _ => true
  | _ => false

end Phase

/-! ## The driver -/

/-- `DEV_LBA` -/
def devLba : UInt8 := 0x40

/-- `DEV_DEV` -/
def devDev : UInt8 := 0x10

/-- `DEV_MBS` and, for the slave, `DEV_DEV`. -/
def deviceBits (dev : Bool) : UInt8 := if dev then 0xa0 ||| devDev else 0xa0

/-- A call of `ide_read`, or of `ide_write` with its buffer. -/
structure Op where
  dev : Bool
  sec : ℕ
  data : Option Sector

/-- The `outb`s of `select_sector`: the offset of the register and the byte. -/
def Op.selection (op : Op) : List (ℕ × UInt8) :=
  [(2, 1), (3, UInt8.ofNat op.sec), (4, UInt8.ofNat (op.sec >>> 8)), (5, UInt8.ofNat (op.sec >>> 16)),
    (6, deviceBits op.dev ||| devLba ||| UInt8.ofNat (op.sec >>> 24))]

/-- Where a thread is between `lock_acquire` and `lock_release`. -/
inductive Stage
  /-- The first `wait_until_idle` of `select_device_wait`, after `n` rounds. -/
  | idle₁ (n : ℕ)
  /-- `select_device` -/
  | select
  | idle₂ (n : ℕ)
  /-- The `outb`s that are left. -/
  | out (rest : List (ℕ × UInt8))
  /-- `c->expecting_interrupt = true` -/
  | expect
  | command
  /-- `sema_down (&c->completion_wait)` -/
  | wait
  /-- `wait_while_busy`, after `n` rounds. -/
  | poll (n : ℕ)
  /-- `input_sector` or `output_sector`. -/
  | transfer
  | release

inductive Pc
  | outside
  | lock (op : Op)
  | inside (op : Op) (st : Stage)

/-- The assertion or the panic that stops the machine. -/
inductive Failure
  | sectorNumber
  | readFailed
  | writeFailed
  deriving DecidableEq

/-- A call that has been served, and what it has read. -/
structure Served where
  thread : ℕ
  op : Op
  result : Option Sector

/-- The registers of the controller by their offsets, its interrupt line and the disks; `struct channel`; the threads.
`log` has the calls in the order in which they were served. -/
structure Channel where
  reg : ℕ → UInt8
  phase : Phase
  intrq : Bool
  platter : Bool → ℕ → Sector
  expecting : Bool
  completion : ℕ
  holder : Option ℕ
  pc : ℕ → Pc
  failure : Option Failure
  log : List Served

namespace Channel

/-- `DEV_DEV` and the LBA of the registers. -/
def address (s : Channel) : Bool × ℕ :=
  (s.reg 6 &&& devDev != 0,
    (s.reg 3).toNat + 2 ^ 8 * (s.reg 4).toNat + 2 ^ 16 * (s.reg 5).toNat + 2 ^ 24 * (s.reg 6 &&& 0x0f).toNat)

def outb (s : Channel) (p : ℕ × UInt8) : Channel := { s with reg := Function.update s.reg p.1 p.2 }

/-- `CMD_READ_SECTOR_RETRY` or `CMD_WRITE_SECTOR_RETRY`; a controller that is not idle ignores it. -/
def command (s : Channel) (data : Option Sector) : Channel :=
  match s.phase, data with
  | .idle, none => { s with phase := .seeking s.address.1 s.address.2 }
  | .idle, some _ => { s with phase := .preparing s.address.1 s.address.2 }
  | _, _ => s

/-- `insw`, which takes the sector that the controller has, and zeros if it has none. -/
def insw (s : Channel) : Sector × Channel :=
  match s.phase with
  | .dataIn buf => (buf, { s with phase := .idle })
  | _ => (Block.zero, s)

/-- `outsw` -/
def outsw (s : Channel) (buf : Sector) : Channel :=
  match s.phase with
  | .dataOut dev lba => { s with phase := .storing dev lba buf }
  | _ => s

def store (platter : Bool → ℕ → Sector) (dev : Bool) (lba : ℕ) (buf : Sector) : Bool → ℕ → Sector :=
  Function.update platter dev (Function.update (platter dev) lba buf)

def goto (s : Channel) (t : ℕ) (p : Pc) : Channel := { s with pc := Function.update s.pc t p }

def fail (s : Channel) (f : Failure) : Channel := { s with failure := some f }

def serve (s : Channel) (t : ℕ) (op : Op) (result : Option Sector) : Channel :=
  { s with log := s.log ++ [⟨t, op, result⟩] }

/-- A round of `wait_until_idle`.  Reading the status clears a pending interrupt. -/
def untilIdle (s : Channel) (t : ℕ) (op : Op) (n : ℕ) (again next : Stage) : Channel :=
  let s := { s with intrq := false }
  if (s.phase.bsy || s.phase.drq) && n + 1 < 1000 then s.goto t (.inside op again) else s.goto t (.inside op next)

/-- The panic of a call. -/
def ioFailed (s : Channel) (op : Op) : Channel := s.fail (if op.data.isSome then .writeFailed else .readFailed)

/-- What a thread does next between `lock_acquire` and `lock_release`. -/
def advance (s : Channel) (t : ℕ) (op : Op) : Stage → Option Channel
  | .idle₁ n => some (s.untilIdle t op n (.idle₁ (n + 1)) .select)
  | .select => some ((s.outb (6, deviceBits op.dev)).goto t (.inside op (.idle₂ 0)))
  | .idle₂ n => some (s.untilIdle t op n (.idle₂ (n + 1)) (.out op.selection))
  | .out (p :: rest) => some ((s.outb p).goto t (.inside op (.out rest)))
  | .out [] => some (s.goto t (.inside op .expect))
  | .expect => some ({ s with expecting := true }.goto t (.inside op .command))
  | .command => some ((s.command op.data).goto t (.inside op (if op.data.isSome then .poll 0 else .wait)))
  | .wait =>
    if s.completion = 0 then none
    else
      let s := { s with completion := s.completion - 1 }
      match op.data with
      | none => some (s.goto t (.inside op (.poll 0)))
      | some _ => some ((s.serve t op none).goto t (.inside op .release))
  | .poll n =>
    if s.phase.bsy then
      if n + 1 < 3000 then some (s.goto t (.inside op (.poll (n + 1)))) else some (s.ioFailed op)
    else if s.phase.drq then some (s.goto t (.inside op .transfer))
    else some (s.ioFailed op)
  | .transfer =>
    match op.data with
    | none => some ((s.insw.2.serve t op (some s.insw.1)).goto t (.inside op .release))
    | some buf => some ((s.outsw buf).goto t (.inside op .wait))
  | .release => some ({ s with holder := none }.goto t .outside)

/-- A step of a thread that is in a call. -/
def thread (s : Channel) (t : ℕ) : Option Channel :=
  match s.pc t with
  | .outside => none
  | .lock op =>
    match s.holder with
    | some _ => none
    | none =>
      -- the assertion of select_sector
      if op.sec < 2 ^ 28 then some ({ s with holder := some t }.goto t (.inside op (.idle₁ 0)))
      else some (s.fail .sectorNumber)
  | .inside op st => s.advance t op st

/-- The controller comes to the end of what it does. -/
def device (s : Channel) : Option Channel :=
  match s.phase with
  | .seeking dev lba => some { s with phase := .dataIn (s.platter dev lba), intrq := true }
  | .preparing dev lba => some { s with phase := .dataOut dev lba }
  | .storing dev lba buf => some { s with phase := .idle, platter := store s.platter dev lba buf, intrq := true }
  | _ => none

/-- `interrupt_handler` -/
def interruptHandler (s : Channel) : Channel :=
  if s.expecting then { s with intrq := false, completion := s.completion + 1 } else { s with intrq := false }

end Channel

inductive Event
  | call (t : ℕ) (op : Op)
  | thread (t : ℕ)
  | device
  | interrupt

namespace Channel

def step (s : Channel) (e : Event) : Option Channel :=
  if s.failure = none then
    match e with
    | .call t op =>
      match s.pc t with
      | .outside => some (s.goto t (.lock op))
      | _ => none
    | .thread t => s.thread t
    | .device => s.device
    | .interrupt => if s.intrq then some s.interruptHandler else none
  else none

def Step (s : Channel) (e : Event) (s' : Channel) : Prop := s.step e = some s'

/-- `ide_init` is through, and nobody has made a call. -/
def ready (reg : ℕ → UInt8) (expecting : Bool) (platter : Bool → ℕ → Sector) : Channel :=
  ⟨reg, .idle, false, platter, expecting, 0, none, fun _ => .outside, none, []⟩

/-! ## Atomic calls -/

/-- What a call does to the disks. -/
def apply (platter : Bool → ℕ → Sector) (e : Served) : Bool → ℕ → Sector :=
  match e.op.data with
  | none => platter
  | some buf => store platter e.op.dev e.op.sec buf

/-- The disks after the calls of a log. -/
def replay (platter : Bool → ℕ → Sector) (log : List Served) : Bool → ℕ → Sector := log.foldl apply platter

/-- Each call of the log has read what the calls before it have left. -/
def Consistent (platter : Bool → ℕ → Sector) (log : List Served) : Prop :=
  ∀ before e after, log = before ++ e :: after → e.op.data = none →
    e.result = some (replay platter before e.op.dev e.op.sec)

variable {s s' : Channel} {platter R : Bool → ℕ → Sector} {op : Op} {st : Stage} {t u : ℕ} {e : Event} {log : List Served}

theorem replay_concat (platter : Bool → ℕ → Sector) (log : List Served) (e : Served) :
    replay platter (log ++ [e]) = apply (replay platter log) e := by
  simp [replay]

theorem Consistent.concat (h : Consistent platter log) {e : Served}
    (he : e.op.data = none → e.result = some (replay platter log e.op.dev e.op.sec)) :
    Consistent platter (log ++ [e]) := by
  intro before e' after hlog hread
  rcases List.eq_nil_or_concat' after with rfl | ⟨after, last, rfl⟩
  · obtain ⟨rfl, hlast⟩ := List.append_inj' hlog rfl
    obtain rfl := List.singleton_inj.mp hlast
    exact he hread
  · rw [← List.cons_append, ← List.append_assoc] at hlog
    exact h before e' after (List.append_inj' hlog rfl).1 hread

/-! ## The registers -/

theorem selection_inj {p q : ℕ × UInt8} (hp : p ∈ op.selection) (hq : q ∈ op.selection) (h : p.1 = q.1) : p = q := by
  simp only [Op.selection, List.mem_cons, List.not_mem_nil, or_false] at hp hq
  rcases hp with rfl | rfl | rfl | rfl | rfl <;> rcases hq with rfl | rfl | rfl | rfl | rfl <;> simp_all

theorem device_bits (dev : Bool) (high : Fin 16) :
    ((deviceBits dev ||| devLba ||| UInt8.ofNat high) &&& devDev != 0) = dev ∧
      ((deviceBits dev ||| devLba ||| UInt8.ofNat high) &&& 0x0f).toNat = high := by
  revert dev high
  decide

/-- **The controller finds the sector that was selected.** -/
theorem address_selection (hsec : op.sec < 2 ^ 28) (h : ∀ p ∈ op.selection, s.reg p.1 = p.2) :
    s.address = (op.dev, op.sec) := by
  obtain ⟨high, hhigh⟩ : ∃ high : Fin 16, op.sec >>> 24 = high := by
    refine ⟨⟨op.sec >>> 24, ?_⟩, rfl⟩
    rw [Nat.shiftRight_eq_div_pow]
    omega
  obtain ⟨hdev, hlow⟩ := device_bits op.dev high
  simp only [Op.selection, List.mem_cons, List.not_mem_nil, or_false, forall_eq_or_imp, forall_eq, hhigh] at h
  obtain ⟨_, h3, h4, h5, h6⟩ := h
  rw [address, h3, h4, h5, h6, hdev, hlow, Prod.mk.injEq]
  refine ⟨rfl, ?_⟩
  rw [← hhigh]
  simp only [UInt8.toNat_ofNat', Nat.shiftRight_eq_div_pow]
  omega

/-! ## The invariant -/

/-- No interrupt is on its way. -/
def Quiet (s : Channel) : Prop := s.intrq = false ∧ s.completion = 0

/-- The controller has nothing to do either. -/
def Rest (s : Channel) : Prop := s.Quiet ∧ s.phase = .idle

/-- The interrupt is on its way, or the semaphore has been upped for it. -/
def Signalled (s : Channel) : Prop := s.intrq = true ∧ s.completion = 0 ∨ s.intrq = false ∧ s.completion = 1

/-- The registers select the sector. -/
def Selected (s : Channel) (op : Op) : Prop := ∀ p ∈ op.selection, s.reg p.1 = p.2

/-- What holds at each stage of a call, when the calls before it have left `R`. -/
def At (s : Channel) (R : Bool → ℕ → Sector) (op : Op) : Stage → Prop
  | .idle₁ _ | .select | .idle₂ _ | .release => Rest s ∧ s.platter = R
  | .out rest => Rest s ∧ s.platter = R ∧ (∀ p ∈ rest, p ∈ op.selection) ∧
      ∀ p ∈ op.selection, p ∈ rest ∨ s.reg p.1 = p.2
  | .expect => Rest s ∧ s.platter = R ∧ Selected s op
  | .command => Rest s ∧ s.platter = R ∧ Selected s op ∧ s.expecting = true
  | .wait => s.expecting = true ∧
      match op.data with
      | none => s.platter = R ∧ (Quiet s ∧ s.phase = .seeking op.dev op.sec ∨
          Signalled s ∧ s.phase = .dataIn (R op.dev op.sec))
      | some buf => Quiet s ∧ s.platter = R ∧ s.phase = .storing op.dev op.sec buf ∨
          Signalled s ∧ s.platter = store R op.dev op.sec buf ∧ s.phase = .idle
  | .poll _ => s.expecting = true ∧ Quiet s ∧ s.platter = R ∧
      match op.data with
      | none => s.phase = .dataIn (R op.dev op.sec)
      | some _ => s.phase = .preparing op.dev op.sec ∨ s.phase = .dataOut op.dev op.sec
  | .transfer => s.expecting = true ∧ Quiet s ∧ s.platter = R ∧
      match op.data with
      | none => s.phase = .dataIn (R op.dev op.sec)
      | some _ => s.phase = .dataOut op.dev op.sec

/-- One thread at most is inside, and it is where the controller thinks that it is. -/
structure Inv (platter : Bool → ℕ → Sector) (s : Channel) : Prop where
  holder : ∀ t, s.holder = some t ↔ ∃ op st, s.pc t = .inside op st
  rest : s.holder = none → Rest s ∧ s.platter = replay platter s.log
  inside : ∀ t op st, s.pc t = .inside op st → op.sec < 2 ^ 28 ∧ At s (replay platter s.log) op st
  log : Consistent platter s.log

theorem ready_inv (reg : ℕ → UInt8) (expecting : Bool) (platter : Bool → ℕ → Sector) :
    Inv platter (ready reg expecting platter) where
  holder t := by simp [ready]
  rest _ := ⟨⟨⟨rfl, rfl⟩, rfl⟩, rfl⟩
  inside t op st h := by cases h
  log before e after h := by simp [ready] at h

theorem pc_goto (s : Channel) (t u : ℕ) (p : Pc) : (s.goto t p).pc u = if u = t then p else s.pc u :=
  Function.update_apply ..

/-- The thread inside goes on. -/
theorem Inv.goto (h : Inv platter s) (hpc : s.pc t = .inside op st) {st' : Stage} (hpc' : s'.pc = s.pc)
    (hholder : s'.holder = s.holder) (hlog : Consistent platter s'.log)
    (hat : At (s'.goto t (.inside op st')) (replay platter s'.log) op st') :
    Inv platter (s'.goto t (.inside op st')) := by
  have ht : s.holder = some t := (h.holder t).mpr ⟨op, st, hpc⟩
  have honly : ∀ u op' st', u ≠ t → s.pc u ≠ .inside op' st' := by
    intro u op' st' hu hin
    have hsome := (h.holder u).mpr ⟨op', st', hin⟩
    rw [ht] at hsome
    exact hu (Option.some.inj hsome).symm
  refine ⟨fun u => ?_, fun hnone => ?_, fun u op' st'' hu => ?_, hlog⟩
  · show s'.holder = some u ↔ _
    rw [hholder, pc_goto]
    by_cases hu : u = t
    · simp [hu, ht]
    · simp only [if_neg hu, hpc']
      exact h.holder u
  · have hnone' : s'.holder = none := hnone
    rw [hholder, ht] at hnone'
    cases hnone'
  · rw [pc_goto] at hu
    split at hu
    · cases hu
      exact ⟨(h.inside t op st hpc).1, hat⟩
    · next hne =>
      rw [hpc'] at hu
      exact absurd hu (honly u op' st'' hne)

/-- A thread that is outside, or waits for the lock, moves. -/
theorem Inv.outside (h : Inv platter s) {p : Pc} (hpc : ∀ op st, s.pc t ≠ .inside op st)
    (hp : ∀ op st, p ≠ .inside op st) : Inv platter (s.goto t p) := by
  refine ⟨fun u => ?_, h.rest, fun u op' st' hu => ?_, h.log⟩
  · rw [pc_goto]
    by_cases hu : u = t
    · simp only [if_pos hu]
      apply iff_of_false
      · intro hsome
        obtain ⟨op, st, hin⟩ := (h.holder u).mp hsome
        exact hpc op st (hu ▸ hin)
      · rintro ⟨op, st, hin⟩
        exact hp op st hin
    · simp only [if_neg hu]
      exact h.holder u
  · rw [pc_goto] at hu
    split at hu
    · exact absurd hu (hp op' st')
    · exact h.inside u op' st' hu

/-- `lock_acquire` -/
theorem Inv.acquire (h : Inv platter s) (hholder : s.holder = none) (hsec : op.sec < 2 ^ 28) :
    Inv platter ({ s with holder := some t }.goto t (.inside op (.idle₁ 0))) := by
  obtain ⟨hrest, hplatter⟩ := h.rest hholder
  have hnone : ∀ u op' st', s.pc u ≠ .inside op' st' := by
    intro u op' st' hin
    have hsome := (h.holder u).mpr ⟨op', st', hin⟩
    rw [hholder] at hsome
    cases hsome
  refine ⟨fun u => ?_, fun hno => ?_, fun u op' st' hu => ?_, h.log⟩
  · show some t = some u ↔ _
    rw [pc_goto]
    by_cases hu : u = t
    · simp [hu]
    · simp only [if_neg hu]
      apply iff_of_false
      · exact fun heq => hu (Option.some.inj heq).symm
      · rintro ⟨op', st', hin⟩
        exact hnone u op' st' hin
  · cases hno
  · rw [pc_goto] at hu
    split at hu
    · cases hu
      exact ⟨hsec, hrest, hplatter⟩
    · exact absurd hu (hnone u op' st')

/-- `lock_release` -/
theorem Inv.unlock (h : Inv platter s) (hpc : s.pc t = .inside op .release) :
    Inv platter ({ s with holder := none }.goto t .outside) := by
  obtain ⟨_, hrest, hplatter⟩ := h.inside t op .release hpc
  have ht : s.holder = some t := (h.holder t).mpr ⟨op, .release, hpc⟩
  have honly : ∀ u op' st', u ≠ t → s.pc u ≠ .inside op' st' := by
    intro u op' st' hu hin
    have hsome := (h.holder u).mpr ⟨op', st', hin⟩
    rw [ht] at hsome
    exact hu (Option.some.inj hsome).symm
  refine ⟨fun u => ?_, fun _ => ⟨hrest, hplatter⟩, fun u op' st' hu => ?_, h.log⟩
  · rw [pc_goto]
    apply iff_of_false
    · intro hno
      cases hno
    · rintro ⟨op', st', hin⟩
      split at hin
      · cases hin
      · next hu => exact honly u op' st' hu hin
  · rw [pc_goto] at hu
    split at hu
    · cases hu
    · next hne => exact absurd hu (honly u op' st' hne)

/-- No read has failed. -/
def Sound (platter : Bool → ℕ → Sector) (s : Channel) : Prop := Inv platter s ∧ s.failure ≠ some .readFailed

/-- The thread inside goes on, and nothing fails. -/
theorem Inv.sound (h : Inv platter s) (hf : s.failure = none) (hpc : s.pc t = .inside op st) {st' : Stage}
    (hpc' : s'.pc = s.pc) (hholder : s'.holder = s.holder) (hfail : s'.failure = s.failure)
    (hlog : Consistent platter s'.log) (hat : At s' (replay platter s'.log) op st') :
    Sound platter (s'.goto t (.inside op st')) := by
  refine ⟨h.goto hpc hpc' hholder hlog ?_, ?_⟩
  · cases st' <;> exact hat
  · show s'.failure ≠ _
    simp [hfail, hf]

/-- The controller is idle whenever a thread waits for that. -/
theorem Inv.untilIdle (h : Inv platter s) (hf : s.failure = none) (hpc : s.pc t = .inside op st) (hrest : s.Rest) {n : ℕ}
    {again next : Stage}
    (hat : ∀ s' : Channel, s'.Rest → s'.platter = s.platter → At s' (replay platter s.log) op next) :
    Sound platter (s.untilIdle t op n again next) := by
  obtain ⟨⟨_, hcompletion⟩, hphase⟩ := hrest
  have hgoto : s.untilIdle t op n again next = { s with intrq := false }.goto t (.inside op next) := by
    simp [Channel.untilIdle, hphase, Phase.bsy, Phase.drq]
  rw [hgoto]
  exact h.sound hf hpc rfl rfl rfl h.log (hat _ ⟨⟨rfl, hcompletion⟩, hphase⟩ rfl)

/-- One more `outb` of `select_sector`. -/
theorem At.out {p : ℕ × UInt8} {rest : List (ℕ × UInt8)} (h : At s R op (.out (p :: rest))) :
    At (s.outb p) R op (.out rest) := by
  obtain ⟨hrest, hplatter, hsub, hdone⟩ := h
  refine ⟨hrest, hplatter, fun q hq => hsub q (by simp [hq]), fun q hq => ?_⟩
  have hp := hsub p (by simp)
  by_cases hkey : q.1 = p.1
  · obtain rfl := selection_inj hq hp hkey
    right
    exact Function.update_self ..
  · rcases hdone q hq with hmem | hreg
    · exact .inl ((List.mem_cons.mp hmem).resolve_left fun heq => hkey (by rw [heq]))
    · right
      exact (Function.update_of_ne hkey ..).trans hreg

/-- The semaphore has been upped when a thread comes through `sema_down`. -/
theorem Signalled.down (h : s.Signalled) (hcompletion : s.completion ≠ 0) :
    s.intrq = false ∧ s.completion - 1 = 0 := by
  rcases h with ⟨_, hzero⟩ | ⟨hintrq, hone⟩
  · exact absurd hzero hcompletion
  · exact ⟨hintrq, by rw [hone]⟩

theorem Inv.ioFailed (h : Inv platter s) {buf : Sector} (hdata : op.data = some buf) : Sound platter (s.ioFailed op) := by
  refine ⟨⟨h.holder, h.rest, h.inside, h.log⟩, ?_⟩
  simp [Channel.ioFailed, hdata, Channel.fail]

/-- **The thread inside takes a step.** -/
theorem Inv.advance (h : Inv platter s) (hf : s.failure = none) (hpc : s.pc t = .inside op st)
    (hs : s.advance t op st = some s') : Sound platter s' := by
  obtain ⟨hsec, hat⟩ := h.inside t op st hpc
  cases st with
  | idle₁ n =>
    cases hs
    exact h.untilIdle hf hpc hat.1 fun s' hrest hplatter => ⟨hrest, hplatter.trans hat.2⟩
  | select =>
    cases hs
    exact h.sound hf hpc rfl rfl rfl h.log hat
  | idle₂ n =>
    cases hs
    refine h.untilIdle hf hpc hat.1 fun s' hrest hplatter => ?_
    exact ⟨hrest, hplatter.trans hat.2, fun p hp => hp, fun p hp => .inl hp⟩
  | out rest =>
    cases rest with
    | nil =>
      cases hs
      obtain ⟨hrest, hplatter, _, hdone⟩ := hat
      exact h.sound hf hpc rfl rfl rfl h.log ⟨hrest, hplatter, fun p hp => (hdone p hp).resolve_left (by simp)⟩
    | cons p rest =>
      cases hs
      exact h.sound hf hpc rfl rfl rfl h.log hat.out
  | expect =>
    cases hs
    obtain ⟨hrest, hplatter, hsel⟩ := hat
    exact h.sound hf hpc rfl rfl rfl h.log ⟨hrest, hplatter, hsel, rfl⟩
  | command =>
    cases hs
    obtain ⟨⟨hquiet, hphase⟩, hplatter, hsel, hexpecting⟩ := hat
    have haddress := address_selection hsec hsel
    cases hdata : op.data with
    | none =>
      have hcommand : s.command none = { s with phase := .seeking op.dev op.sec } := by
        simp [Channel.command, hphase, haddress]
      rw [hcommand]
      refine h.sound hf hpc rfl rfl rfl h.log ⟨hexpecting, ?_⟩
      rw [hdata]
      exact ⟨hplatter, .inl ⟨hquiet, rfl⟩⟩
    | some buf =>
      have hcommand : s.command (some buf) = { s with phase := .preparing op.dev op.sec } := by
        simp [Channel.command, hphase, haddress]
      rw [hcommand]
      refine h.sound hf hpc rfl rfl rfl h.log ⟨hexpecting, hquiet, hplatter, ?_⟩
      rw [hdata]
      exact .inl rfl
  | wait =>
    obtain ⟨hexpecting, hat⟩ := hat
    simp only [Channel.advance] at hs
    split at hs
    · cases hs
    · next hcompletion =>
      cases hdata : op.data with
      | none =>
        rw [hdata] at hat hs
        cases hs
        obtain ⟨hplatter, ⟨⟨_, hzero⟩, _⟩ | ⟨hsignalled, hphase⟩⟩ := hat
        · exact absurd hzero hcompletion
        · refine h.sound hf hpc rfl rfl rfl h.log ⟨hexpecting, hsignalled.down hcompletion, hplatter, ?_⟩
          rw [hdata]
          exact hphase
      | some buf =>
        rw [hdata] at hat hs
        cases hs
        rcases hat with ⟨⟨_, hzero⟩, _⟩ | ⟨hsignalled, hplatter, hphase⟩
        · exact absurd hzero hcompletion
        · refine h.sound hf hpc rfl rfl rfl (h.log.concat fun hread => ?_)
            ⟨⟨hsignalled.down hcompletion, hphase⟩, ?_⟩
          · rw [hdata] at hread
            cases hread
          · show s.platter = replay platter (s.log ++ [_])
            rw [replay_concat, hplatter, apply, hdata]
  | poll n =>
    obtain ⟨hexpecting, hquiet, hplatter, hat⟩ := hat
    simp only [Channel.advance] at hs
    cases hdata : op.data with
    | none =>
      rw [hdata] at hat
      have hphase : s.phase = .dataIn (replay platter s.log op.dev op.sec) := hat
      simp only [hphase, Phase.bsy, Phase.drq, Bool.false_eq_true, if_false, if_true, Option.some.injEq] at hs
      rw [← hs]
      refine h.sound hf hpc rfl rfl rfl h.log ⟨hexpecting, hquiet, hplatter, ?_⟩
      rw [hdata]
      exact hphase
    | some buf =>
      rw [hdata] at hat
      rcases hat with hphase | hphase
      · simp only [hphase, Phase.bsy, if_true] at hs
        split at hs
        · cases hs
          refine h.sound hf hpc rfl rfl rfl h.log ⟨hexpecting, hquiet, hplatter, ?_⟩
          rw [hdata]
          exact .inl hphase
        · cases hs
          exact h.ioFailed hdata
      · simp only [hphase, Phase.bsy, Phase.drq, Bool.false_eq_true, if_false, if_true, Option.some.injEq] at hs
        rw [← hs]
        refine h.sound hf hpc rfl rfl rfl h.log ⟨hexpecting, hquiet, hplatter, ?_⟩
        rw [hdata]
        exact hphase
  | transfer =>
    obtain ⟨hexpecting, hquiet, hplatter, hat⟩ := hat
    simp only [Channel.advance] at hs
    cases hdata : op.data with
    | none =>
      rw [hdata] at hat hs
      have hphase : s.phase = .dataIn (replay platter s.log op.dev op.sec) := hat
      have hinsw : s.insw = (replay platter s.log op.dev op.sec, { s with phase := .idle }) := by
        simp [Channel.insw, hphase]
      rw [hinsw] at hs
      cases hs
      refine h.sound hf hpc rfl rfl rfl (h.log.concat fun _ => rfl) ⟨⟨hquiet, rfl⟩, ?_⟩
      show s.platter = replay platter (s.log ++ [_])
      rw [replay_concat, hplatter, apply, hdata]
    | some buf =>
      rw [hdata] at hat hs
      have hphase : s.phase = .dataOut op.dev op.sec := hat
      have houtsw : s.outsw buf = { s with phase := .storing op.dev op.sec buf } := by
        simp [Channel.outsw, hphase]
      simp only [houtsw, Option.some.injEq] at hs
      rw [← hs]
      refine h.sound hf hpc rfl rfl rfl h.log ⟨hexpecting, ?_⟩
      rw [hdata]
      exact .inl ⟨hquiet, hplatter, rfl⟩
  | release =>
    cases hs
    refine ⟨h.unlock hpc, ?_⟩
    show s.failure ≠ _
    simp [hf]

/-- The controller or the handler has made a step for the thread inside. -/
theorem Inv.hardware (h : Inv platter s) (hin : s.pc t = .inside op st) (hpc : s'.pc = s.pc) (hholder : s'.holder = s.holder)
    (hlog : s'.log = s.log) (hat : At s' (replay platter s.log) op st) : Inv platter s' := by
  have ht : s.holder = some t := (h.holder t).mpr ⟨op, st, hin⟩
  refine ⟨fun u => ?_, fun hnone => ?_, fun u op' st' hu => ?_, hlog ▸ h.log⟩
  · rw [hholder, hpc]
    exact h.holder u
  · rw [hholder, ht] at hnone
    cases hnone
  · rw [hpc] at hu
    have hsome := (h.holder u).mpr ⟨op', st', hu⟩
    rw [ht] at hsome
    obtain rfl := Option.some.inj hsome
    rw [hin] at hu
    cases hu
    exact ⟨(h.inside _ _ _ hin).1, hlog ▸ hat⟩

/-- Something is going on, so a thread is inside. -/
theorem Inv.busy (h : Inv platter s) (hbusy : ¬s.Rest) : ∃ t op st, s.pc t = .inside op st := by
  cases hholder : s.holder with
  | none => exact absurd (h.rest hholder).1 hbusy
  | some t =>
    obtain ⟨op, st, hin⟩ := (h.holder t).mp hholder
    exact ⟨t, op, st, hin⟩

variable {dev : Bool} {lba : ℕ} {buf : Sector}

theorem At.seeking (h : At s R op st) (hphase : s.phase = .seeking dev lba) :
    st = .wait ∧ s.expecting = true ∧ op.data = none ∧ s.platter = R ∧ s.Quiet ∧ op.dev = dev ∧ op.sec = lba := by
  cases st <;> simp only [At, Rest, hphase, reduceCtorEq, and_false, false_and] at h
  all_goals
    obtain ⟨hexpecting, h⟩ := h
    cases hdata : op.data <;> simp_all

theorem At.preparing (h : At s R op st) (hphase : s.phase = .preparing dev lba) :
    (∃ n, st = .poll n) ∧ s.expecting = true ∧ op.data.isSome = true ∧ s.platter = R ∧ s.Quiet ∧ op.dev = dev ∧
      op.sec = lba := by
  cases st <;> simp only [At, Rest, hphase, reduceCtorEq, and_false, false_and] at h
  all_goals
    obtain ⟨hexpecting, h⟩ := h
    cases hdata : op.data <;> simp_all

theorem At.storing (h : At s R op st) (hphase : s.phase = .storing dev lba buf) :
    st = .wait ∧ s.expecting = true ∧ op.data = some buf ∧ s.platter = R ∧ s.Quiet ∧ op.dev = dev ∧ op.sec = lba := by
  cases st <;> simp only [At, Rest, hphase, reduceCtorEq, and_false, false_and] at h
  all_goals
    obtain ⟨hexpecting, h⟩ := h
    cases hdata : op.data <;> simp_all

/-- An interrupt comes only to a thread that waits for it. -/
theorem At.interrupt (h : At s R op st) (hintrq : s.intrq = true) : st = .wait ∧ s.expecting = true ∧ s.completion = 0 := by
  cases st <;> simp only [At, Rest, Quiet, hintrq, reduceCtorEq, and_false, false_and] at h
  all_goals
    obtain ⟨hexpecting, h⟩ := h
    cases hdata : op.data <;> simp_all [Signalled]

/-- **The controller goes on.** -/
theorem Inv.device (h : Inv platter s) (hs : s.device = some s') : Inv platter s' ∧ s'.failure = s.failure := by
  unfold Channel.device at hs
  split at hs
  · next dev lba hphase =>
    cases hs
    obtain ⟨t, op, st, hin⟩ := h.busy (by simp [Rest, hphase])
    obtain ⟨rfl, hexpecting, hdata, hplatter, hquiet, rfl, rfl⟩ := (h.inside t op st hin).2.seeking hphase
    refine ⟨h.hardware hin rfl rfl rfl ⟨hexpecting, ?_⟩, rfl⟩
    rw [hdata]
    exact ⟨hplatter, .inr ⟨.inl ⟨rfl, hquiet.2⟩, by simp [hplatter]⟩⟩
  · next dev lba hphase =>
    cases hs
    obtain ⟨t, op, st, hin⟩ := h.busy (by simp [Rest, hphase])
    obtain ⟨⟨n, rfl⟩, hexpecting, hdata, hplatter, hquiet, rfl, rfl⟩ := (h.inside t op st hin).2.preparing hphase
    obtain ⟨buf, hbuf⟩ := Option.isSome_iff_exists.mp hdata
    refine ⟨h.hardware hin rfl rfl rfl ⟨hexpecting, hquiet, hplatter, ?_⟩, rfl⟩
    rw [hbuf]
    exact .inr rfl
  · next dev lba buf hphase =>
    cases hs
    obtain ⟨t, op, st, hin⟩ := h.busy (by simp [Rest, hphase])
    obtain ⟨rfl, hexpecting, hdata, hplatter, hquiet, rfl, rfl⟩ := (h.inside t op st hin).2.storing hphase
    refine ⟨h.hardware hin rfl rfl rfl ⟨hexpecting, ?_⟩, rfl⟩
    rw [hdata]
    exact .inr ⟨.inl ⟨rfl, hquiet.2⟩, by simp [hplatter], rfl⟩
  · cases hs

/-- **The interrupt handler** ups the semaphore for the thread that waits. -/
theorem Inv.interruptHandler (h : Inv platter s) (hintrq : s.intrq = true) :
    Inv platter s.interruptHandler ∧ s.interruptHandler.failure = s.failure := by
  obtain ⟨t, op, st, hin⟩ := h.busy (by simp [Rest, Quiet, hintrq])
  have hat := (h.inside t op st hin).2
  obtain ⟨rfl, hexpecting, hcompletion⟩ := hat.interrupt hintrq
  have hhandler : s.interruptHandler = { s with intrq := false, completion := 1 } := by
    simp [Channel.interruptHandler, hexpecting, hcompletion]
  rw [hhandler]
  refine ⟨h.hardware hin rfl rfl rfl ⟨hexpecting, ?_⟩, rfl⟩
  have hat' := hat.2
  have hbusy : ¬s.Quiet := by simp [Quiet, hintrq]
  cases hdata : op.data with
  | none =>
    rw [hdata] at hat'
    obtain ⟨hplatter, ⟨hquiet, _⟩ | ⟨_, hphase⟩⟩ := hat'
    · exact absurd hquiet hbusy
    · exact ⟨hplatter, .inr ⟨.inr ⟨rfl, rfl⟩, hphase⟩⟩
  | some buf =>
    rw [hdata] at hat'
    rcases hat' with ⟨hquiet, _⟩ | ⟨_, hplatter, hphase⟩
    · exact absurd hquiet hbusy
    · exact .inr ⟨.inr ⟨rfl, rfl⟩, hplatter, hphase⟩

/-- **Every step.** -/
theorem Sound.step (h : Sound platter s) (hs : s.Step e s') : Sound platter s' := by
  obtain ⟨hinv, _⟩ := h
  unfold Step Channel.step at hs
  split at hs
  · next hf =>
    cases e with
    | call t op =>
      dsimp only at hs
      split at hs
      · next hpc =>
        cases hs
        refine ⟨hinv.outside (by simp [hpc]) (by simp), ?_⟩
        show s.failure ≠ _
        simp [hf]
      · cases hs
    | thread t =>
      dsimp only [Channel.thread] at hs
      split at hs
      · cases hs
      · next op hpc =>
        split at hs
        · cases hs
        · next hholder =>
          split at hs
          · next hsec =>
            cases hs
            refine ⟨hinv.acquire hholder hsec, ?_⟩
            show s.failure ≠ _
            simp [hf]
          · cases hs
            exact ⟨⟨hinv.holder, hinv.rest, hinv.inside, hinv.log⟩, by simp [Channel.fail]⟩
      · next op st hpc => exact hinv.advance hf hpc hs
    | device =>
      obtain ⟨hinv', hfail⟩ := hinv.device hs
      exact ⟨hinv', by simp [hfail, hf]⟩
    | interrupt =>
      dsimp only at hs
      split at hs
      · next hintrq =>
        cases hs
        obtain ⟨hinv', hfail⟩ := hinv.interruptHandler hintrq
        exact ⟨hinv', by simp [hfail, hf]⟩
      · cases hs
  · cases hs

theorem advance_isSome (s : Channel) (t : ℕ) (op : Op) (h : st = .wait → s.completion ≠ 0) :
    ∃ s', s.advance t op st = some s' := by
  cases st with
  | out rest => cases rest <;> exact ⟨_, rfl⟩
  | wait =>
    simp only [Channel.advance, if_neg (h rfl)]
    cases op.data <;> exact ⟨_, rfl⟩
  | poll n =>
    simp only [Channel.advance]
    split
    · split <;> exact ⟨_, rfl⟩
    · split <;> exact ⟨_, rfl⟩
  | transfer =>
    simp only [Channel.advance]
    cases op.data <;> exact ⟨_, rfl⟩
  | _ => exact ⟨_, rfl⟩

/-- A thread in `sema_down` that is not through has the controller or an interrupt to wait for. -/
theorem At.awaited (h : At s R op .wait) (hcompletion : s.completion = 0) :
    s.intrq = true ∨ ∃ s', s.device = some s' := by
  have hsignalled : s.Signalled → s.intrq = true := by
    rintro (⟨hintrq, _⟩ | ⟨_, hone⟩)
    · exact hintrq
    · rw [hcompletion] at hone
      cases hone
  obtain ⟨_, h⟩ := h
  cases hdata : op.data with
  | none =>
    rw [hdata] at h
    obtain ⟨_, ⟨_, hphase⟩ | ⟨hsig, _⟩⟩ := h
    · exact .inr ⟨_, by simp only [Channel.device, hphase]; rfl⟩
    · exact .inl (hsignalled hsig)
  | some buf =>
    rw [hdata] at h
    rcases h with ⟨_, _, hphase⟩ | ⟨hsig, _⟩
    · exact .inr ⟨_, by simp only [Channel.device, hphase]; rfl⟩
    · exact .inl (hsignalled hsig)

/-- **A thread in a call, or before the lock, is not left alone.** -/
theorem Inv.progress (h : Inv platter s) (hf : s.failure = none) (ht : s.pc t ≠ .outside) :
    ∃ e s', (∀ u op, e ≠ .call u op) ∧ s.Step e s' := by
  have hthread : ∀ {u : ℕ} {s' : Channel}, s.thread u = some s' → s.Step (.thread u) s' := fun hs =>
    (if_pos hf).trans hs
  cases hholder : s.holder with
  | none =>
    cases hpc : s.pc t with
    | outside => exact absurd hpc ht
    | inside op st =>
      have hsome := (h.holder t).mpr ⟨op, st, hpc⟩
      rw [hholder] at hsome
      cases hsome
    | lock op =>
      have hlock : ∃ s', s.thread t = some s' := by
        simp only [Channel.thread, hpc, hholder]
        split <;> exact ⟨_, rfl⟩
      obtain ⟨s', hs'⟩ := hlock
      exact ⟨.thread t, s', by simp, hthread hs'⟩
  | some u =>
    obtain ⟨op, st, hin⟩ := (h.holder u).mp hholder
    by_cases hwait : st = .wait ∧ s.completion = 0
    · obtain ⟨rfl, hcompletion⟩ := hwait
      rcases (h.inside u op _ hin).2.awaited hcompletion with hintrq | ⟨s', hs'⟩
      · exact ⟨.interrupt, s.interruptHandler, by simp, by simp [Step, Channel.step, hf, hintrq]⟩
      · exact ⟨.device, s', by simp, (if_pos hf).trans hs'⟩
    · have hready : st = .wait → s.completion ≠ 0 := fun hst hzero => hwait ⟨hst, hzero⟩
      obtain ⟨s', hs'⟩ := advance_isSome s u op hready
      refine ⟨.thread u, s', by simp, hthread ?_⟩
      simp only [Channel.thread, hin]
      exact hs'

/-- **The driver serves calls one after the other.**  Whatever threads, controller and interrupts do, each read gets what
the writes before it have left; no read fails; between the calls the disks hold what was written; and as long as the
machine goes on, a thread that has made a call has not been forgotten. -/
theorem ide_correct {reg : ℕ → UInt8} {expecting : Bool} {platter : Bool → ℕ → Sector} {es : List Event}
    (h : Trace Step (ready reg expecting platter) es s) :
    Consistent platter s.log ∧ s.failure ≠ some .readFailed ∧ (s.holder = none → s.platter = replay platter s.log) ∧
      (s.failure = none → ∀ t, s.pc t ≠ .outside → ∃ e s', (∀ u op, e ≠ .call u op) ∧ s.Step e s') := by
  have hsound : Sound platter s :=
    h.invariant (fun _ _ _ hI hs => hI.step hs) ⟨ready_inv reg expecting platter, by simp [ready]⟩
  obtain ⟨hinv, hread⟩ := hsound
  exact ⟨hinv.log, hread, fun hno => (hinv.rest hno).2, fun hf t ht => hinv.progress hf ht⟩

/-- The state after some steps. -/
def run : Channel → List Event → Option Channel
  | s, [] => some s
  | s, e :: es => (s.step e).bind fun s => run s es

theorem run_trace {es : List Event} (h : run s es = some s') : Trace Step s es s' := by
  induction es generalizing s with
  | nil =>
    cases h
    exact .nil _
  | cons e es ih =>
    obtain ⟨s₁, hstep, hrun⟩ := Option.bind_eq_some_iff.mp h
    exact .cons hstep (ih hrun)

/-- A sector of sevens. -/
def sevens : Sector := Block.mk fun _ => 7

/-- The steps of a thread in `ide_write` with the controller in between. -/
def writing : List Event :=
  .call 0 ⟨true, 5, some sevens⟩ :: (List.replicate 12 (.thread 0)).append (.device :: .thread 0 :: .thread 0 :: .device ::
    .interrupt :: [.thread 0, .thread 0])

/-- The steps of another one in `ide_read`. -/
def reading : List Event :=
  .call 1 ⟨true, 5, none⟩ :: (List.replicate 12 (.thread 1)).append
    (.device :: .interrupt :: List.replicate 4 (.thread 1))

/-- The first bytes that were read. -/
def firstBytes (log : List Served) : List (ℕ × Option UInt8) := log.map fun e => (e.thread, e.result.map fun b => b.get 0)

/-- The second thread reads what the first one has written. -/
theorem ide_correct_run : ∃ s : Channel, firstBytes s.log = [(0, none), (1, some 7)] ∧
    Consistent (fun _ _ => Block.zero) s.log ∧ s.failure ≠ some .readFailed ∧
    (s.holder = none → s.platter = replay (fun _ _ => Block.zero) s.log) ∧
    (s.failure = none → ∀ t, s.pc t ≠ .outside → ∃ e s', (∀ u op, e ≠ .call u op) ∧ s.Step e s') := by
  have hrun : (run (ready (fun _ => 0) false fun _ _ => Block.zero) (writing.append reading)).map
      (fun s => firstBytes s.log) = some [(0, none), (1, some 7)] := by decide +kernel
  obtain ⟨s, hs, hlog⟩ := Option.map_eq_some_iff.mp hrun
  exact ⟨s, hlog, ide_correct (run_trace hs)⟩

end Channel

end Pintos.Devices.Ide
