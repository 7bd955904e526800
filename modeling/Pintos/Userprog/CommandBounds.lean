import Pintos.Userprog.CommandWords

/-!
# Where a command line fits

The arrays that `process_execute`, `load` and `makeup_stack` fill have a fixed size, and every copy into them
is as long as its source; the second half of `makeup_stack` goes back over `argv` and stays in it.  So it is
the command line that decides, array by array, and for the last two arrays what is in the memory behind it.
-/

namespace Pintos.Userprog.CommandLine

open Words

variable {α β : Type} {base n : ℕ} {line : List UInt8} {x : Except Fault α} {f : α → Except Fault β} {a : α}

/-- The array behind which a run stores. -/
def stray : Except Fault α → Option Buffer
  | .error (.outside array) => some array
  | .error .page => none
  | .ok _ => none

theorem stray_bind (hx : stray x = none) (hf : ∀ a, stray (f a) = none) : stray (x >>= f) = none := by
  cases x with
  | ok a => exact hf a
  | error fault =>
    cases fault with
    | outside array => exact hx
    | page => rfl

theorem stray_bind_pure (x : Except Fault α) (g : α → β) : stray (x >>= fun a => pure (g a)) = stray x := by
  cases x with
  | ok a => rfl
  | error fault => cases fault <;> rfl

@[simp] theorem stray_check_page (o : Option α) : stray (check .page o) = none := by
  cases o with
  | none => rfl
  | some a => rfl

@[simp] theorem stray_pure (a : α) : stray (pure a : Except Fault α) = none := rfl

theorem stray_string (bs : List UInt8) : stray (string bs) = none := by
  induction bs with
  | nil => rfl
  | cons b bs ih =>
    rw [string]
    split
    · rfl
    · exact stray_bind ih fun _ => rfl

/-! ## The second half of `makeup_stack` -/

theorem stray_pushString (s : Stack) (arg : List UInt8) : stray (pushString s arg) = none := by
  apply stray_bind
  · rw [strlcpy_eq s.mem _ (Nat.lt_succ_self _)]
    cases s.mem.puts (s.esp - (arg.length + 1)) (arg ++ [0]) with
    | none => rfl
    | some mem => rfl
  · intro a
    rfl

theorem stray_push32 (s : Stack) (v : ℕ) : stray (push32 s v) = none :=
  stray_bind (stray_check_page _) fun _ => rfl

theorem stray_pushZeros (n : ℕ) (s : Stack) : stray (pushZeros n s) = none := by
  induction n generalizing s with
  | zero => rfl
  | succ n ih => exact stray_bind (stray_bind (stray_check_page _) fun _ => rfl) ih

theorem stray_pushAddrs (argv : Region ℕ 0 256) (n : ℕ) (s : Stack) : stray (pushAddrs argv n s) = none := by
  induction n generalizing s with
  | zero => rfl
  | succ n ih =>
    apply stray_bind (stray_check_page _)
    intro p
    exact stray_bind (stray_push32 s p) ih

/-- The pointers that the loop over the arguments replaces have been stored before. -/
theorem stray_pushArgs (mem : Region UInt8 base 1024) (hn : n ≤ 256) (argv : Region ℕ 0 256) (tlen : ℕ)
    (s : Stack) : stray (pushArgs mem n argv tlen s) = none := by
  induction n generalizing argv tlen s with
  | zero => rfl
  | succ i ih =>
    apply stray_bind (stray_check_page _)
    intro p
    apply stray_bind (stray_string _)
    intro arg
    apply stray_bind (stray_pushString s arg)
    intro s'
    obtain ⟨argv', hput⟩ := argv.put_of_mem s'.esp (Nat.zero_le i) (by omega)
    rw [hput]
    exact ih (by omega) argv' _ s'

theorem stray_layOut (s : Stack) (argv : Region ℕ 0 256) (mem : Region UInt8 base 1024) (hn : n ≤ 256) :
    stray (layOut s argv n mem) = none := by
  apply stray_bind (stray_pushArgs mem hn argv 0 s)
  rintro ⟨argv', tlen, s'⟩
  apply stray_bind (stray_pushZeros _ s')
  intro s₁
  apply stray_bind (stray_push32 s₁ 0)
  intro s₂
  apply stray_bind (stray_pushAddrs argv' n s₂)
  intro s₃
  apply stray_bind (stray_push32 s₃ _)
  intro s₄
  apply stray_bind (stray_push32 s₄ n)
  intro s₅
  exact stray_push32 s₅ 0

theorem stray_makeupStack (s : Stack) (argv : Region ℕ 0 256) (mem : Region UInt8 base 1024) (h0 : 0 ∉ line)
    (hlen : line.length < 1024) :
    stray (makeupStack s argv mem line) = none ↔ Room 1024 0 (scratchText mem line) := by
  have hout := cutWords_outcome argv mem h0 hlen
  rw [makeupStack]
  revert hout
  generalize cutWords argv mem line = o
  intro hout
  cases o with
  | ok r =>
    obtain ⟨argv', argc, mem'⟩ := r
    obtain ⟨hroom, -, hargc, -⟩ := hout
    have hcount := hroom.count
    rw [Nat.zero_add, ← hargc] at hcount
    exact ⟨fun _ => hroom, fun _ => stray_layOut s argv' mem' hcount⟩
  | error fault =>
    cases fault with
    | outside array => exact ⟨fun h => absurd h (Option.some_ne_none array), fun h => absurd h hout⟩
    | page => exact ⟨fun _ => hout.1, fun _ => rfl⟩

/-! ## The calls -/

/-- Where the command line fits.  `load` is the one to run where `process_execute` has found the file. -/
structure Fits (c : Setting base) (line : List UInt8) : Prop where
  execute : line.length < 256
  load : c.opens (line.takeWhile (· ≠ 32)) = true → c.threadCreate = true → c.pagedirCreate = true →
    line.length < 50 ∧ (c.loads (line.takeWhile (· ≠ 32)) = true → Room 1024 0 (scratchText c.buf line))

theorem stray_load (c : Setting base) (h0 : 0 ∉ line) :
    stray (load c line) = none ↔ (c.pagedirCreate = true → line.length < 50 ∧
      (c.loads (line.takeWhile (· ≠ 32)) = true → Room 1024 0 (scratchText c.buf line))) := by
  rw [load]
  split
  · case isTrue hpagedir =>
    rw [cutName_eq c.loadCommand h0]
    by_cases hlen : line.length < 50
    · rw [if_pos hlen]
      by_cases hloads : c.loads (line.takeWhile (· ≠ 32)) = true
      · have hstack := stray_makeupStack ⟨physBase, c.stack⟩ c.argv c.buf h0 (by omega)
        rw [← stray_bind_pure _ some] at hstack
        simp only [bind, Except.bind, hloads, if_true] at hstack ⊢
        rw [hstack]
        exact ⟨fun h _ => ⟨hlen, fun _ => h⟩, fun h => (h hpagedir).2 trivial⟩
      · simp only [bind, Except.bind, hloads]
        exact ⟨fun _ _ => ⟨hlen, fun h => absurd h Bool.false_ne_true⟩, fun _ => rfl⟩
    · rw [if_neg hlen]
      exact ⟨fun h => absurd h (Option.some_ne_none _), fun h => absurd (h hpagedir).1 hlen⟩
  · case isFalse hpagedir => exact ⟨fun _ h => absurd h hpagedir, fun _ => rfl⟩

/-- Every store of a command line is in its array if and only if there is no page for the copy of the command
line, or the command line fits. -/
theorem execute_inside_iff (c : Setting base) (h0 : 0 ∉ line) (hlen : line.length < 4096) :
    stray (processExecute c line) = none ↔ (c.fnCopy.isSome = true → Fits c line) := by
  cases hpage : c.fnCopy with
  | none =>
    rw [processExecute, hpage]
    exact ⟨fun _ h => absurd h Bool.false_ne_true, fun _ => rfl⟩
  | some page =>
    obtain ⟨copy, hcopy, hcells⟩ := exists_copy page hlen
    have hstring : string copy.cells = .ok line := by
      rw [hcells]
      exact string_append h0 _
    rw [processExecute, hpage]
    dsimp only
    rw [strlcpy_eq page 0 hlen, cutName_eq c.command h0]
    have hputs : check (α := Region UInt8 0 4096) .page (page.puts 0 (line ++ [0])) = .ok copy := by rw [hcopy]; rfl
    rw [hputs]
    by_cases hlt : line.length < 256
    · rw [if_pos hlt]
      by_cases hcall : (c.opens (line.takeWhile (· ≠ 32)) && c.threadCreate) = true
      · obtain ⟨hopens, hthread⟩ := Bool.and_eq_true_iff.mp hcall
        have hload := stray_load c h0
        simp only [Except.map, bind, Except.bind, hcall, if_true, hstring]
        rw [hload]
        constructor
        · intro h _
          exact ⟨hlt, fun _ _ => h⟩
        · intro h
          exact (h rfl).load hopens hthread
      · simp only [Except.map, bind, Except.bind, hcall]
        constructor
        · intro _ _
          exact ⟨hlt, fun hopens hthread => absurd (Bool.and_eq_true_iff.mpr ⟨hopens, hthread⟩) hcall⟩
        · intro _
          rfl
    · rw [if_neg hlt]
      exact ⟨fun h => absurd h (Option.some_ne_none _), fun h => absurd (h rfl).execute hlt⟩

/-- A machine whose memory is zero and whose calls succeed. -/
def Setting.zero : Setting 0 where
  fnCopy := some (.starting [] 0)
  command := .starting [] 0
  opens := fun _ => true
  threadCreate := true
  pagedirCreate := true
  loadCommand := .starting [] 0
  loads := fun _ => true
  argv := .starting [] 0
  buf := .starting [] 0
  stack := .starting [] 0

/-- The command line `ls`. -/
theorem execute_inside_ls : stray (processExecute Setting.zero [108, 115]) = none := by
  apply (execute_inside_iff Setting.zero (by decide) (by decide)).mpr
  intro _
  refine ⟨by decide, fun _ _ _ => ⟨by decide, fun _ => ?_⟩⟩
  have htext : scratchText Setting.zero.buf [108, 115] = [108, 115] ++ 32 :: (List.replicate 0 32 ++ []) := rfl
  rw [htext, room_word (by decide) (by decide)]
  exact ⟨by decide, by decide, room_of_notMem List.not_mem_nil (by decide)⟩

/-- A command line of 256 bytes in `process_execute`, and one of 50 bytes in `load`. -/
theorem execute_outside :
    stray (processExecute Setting.zero (List.replicate 256 97)) = some .executeCommand ∧
      stray (processExecute Setting.zero (List.replicate 50 97)) = some .loadCommand := by decide +kernel

end Pintos.Userprog.CommandLine
