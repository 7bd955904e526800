import Mathlib.Data.List.Basic
import Mathlib.Data.Nat.Notation
import Mathlib.Logic.Function.Basic

/-!
# A processor with a stack

The registers of a 32-bit processor, a memory of words, and the few instructions that save and restore registers on a
stack.  Code without jumps is a list of them (`run`); `eip` is where the last `ret` has gone to.  Addresses are those of
aligned words, so that two of them never overlap.
-/

namespace StackMachine

inductive Reg
  | eax
  | ecx
  | edx
  | ebx
  | esp
  | ebp
  | esi
  | edi
  deriving DecidableEq

structure Cpu where
  reg : Reg → ℕ
  eip : ℕ
  mem : ℕ → ℕ

inductive Instr
  | pushl (r : Reg)
  | popl (r : Reg)
  /-- A constant into a register. -/
  | movl (k : ℕ) (r : Reg)
  /-- The word at `disp + base` into a register. -/
  | load (disp : ℕ) (base r : Reg)
  /-- The word at `base + index` into a register. -/
  | loadIndexed (base index r : Reg)
  | storeIndexed (r base index : Reg)
  | addl (k : ℕ) (r : Reg)
  | ret
  deriving DecidableEq

namespace Cpu

variable (c : Cpu)

def set (r : Reg) (k : ℕ) : Cpu := { c with reg := Function.update c.reg r k }

def store (a k : ℕ) : Cpu := { c with mem := Function.update c.mem a k }

def push (k : ℕ) : Cpu := (c.store (c.reg .esp - 4) k).set .esp (c.reg .esp - 4)

def exec : Instr → Cpu
  | .pushl r => c.push (c.reg r)
  | .popl r => (c.set .esp (c.reg .esp + 4)).set r (c.mem (c.reg .esp))
  | .movl k r => c.set r k
  | .load disp base r => c.set r (c.mem (disp + c.reg base))
  | .loadIndexed base index r => c.set r (c.mem (c.reg base + c.reg index))
  | .storeIndexed r base index => c.store (c.reg base + c.reg index) (c.reg r)
  | .addl k r => c.set r (c.reg r + k)
  | .ret => { c.set .esp (c.reg .esp + 4) with eip := c.mem (c.reg .esp) }

def run (code : List Instr) : Cpu := code.foldl exec c

variable {c} {r r' : Reg} {k : ℕ}

@[simp] theorem set_reg_self : (c.set r k).reg r = k := Function.update_self ..

@[simp] theorem set_reg_of_ne (h : r' ≠ r) : (c.set r k).reg r' = c.reg r' := Function.update_of_ne h ..

@[simp] theorem set_mem : (c.set r k).mem = c.mem := rfl

@[simp] theorem set_eip : (c.set r k).eip = c.eip := rfl

@[simp] theorem store_reg {a : ℕ} : (c.store a k).reg = c.reg := rfl

@[simp] theorem store_eip {a : ℕ} : (c.store a k).eip = c.eip := rfl

@[simp] theorem store_mem {a : ℕ} : (c.store a k).mem = Function.update c.mem a k := rfl

@[simp] theorem run_nil : c.run [] = c := rfl

@[simp] theorem run_cons (i : Instr) (code : List Instr) : c.run (i :: code) = (c.exec i).run code := rfl

theorem run_append (code code' : List Instr) : c.run (code ++ code') = (c.run code).run code' := List.foldl_append

end Cpu

end StackMachine
