import Pintos.Library.Bytes

/-!
# Checked arithmetic

A `Checked` value is what a machine computes with `int`s of 32 bits, and whether every result on the way to it
was in the range of the type.
-/

namespace Pintos

structure Checked (α : Type) where
  value : α
  fits : Bool

/-- The range of an `int`. -/
def Int32Range (z : ℤ) : Prop := -2 ^ 31 ≤ z ∧ z < 2 ^ 31

instance (z : ℤ) : Decidable (Int32Range z) := inferInstanceAs (Decidable (_ ∧ _))

namespace Checked

variable {α β : Type}

instance : Monad Checked where
  pure a := ⟨a, true⟩
  bind c f := ⟨(f c.value).value, c.fits && (f c.value).fits⟩

/-- The result `z` of an operation on `int`s. -/
def int (z : ℤ) : Checked ℤ := ⟨wrap32 z, decide (Int32Range z)⟩

@[simp] theorem value_pure (a : α) : (pure a : Checked α).value = a := rfl

@[simp] theorem fits_pure (a : α) : (pure a : Checked α).fits = true := rfl

@[simp] theorem value_bind (c : Checked α) (f : α → Checked β) : (c >>= f).value = (f c.value).value := rfl

@[simp] theorem fits_bind (c : Checked α) (f : α → Checked β) :
    (c >>= f).fits = true ↔ c.fits = true ∧ (f c.value).fits = true := Bool.and_eq_true_iff

@[simp] theorem fits_int {z : ℤ} : (int z).fits = true ↔ Int32Range z := decide_eq_true_iff

theorem value_int {z : ℤ} (h : Int32Range z) : (int z).value = z := wrap32_of_mem h.1 h.2

/-! ## Exact results -/

/-- Every result on the way is in the range, and the last one is `a`. -/
def Exact (c : Checked α) (a : α) : Prop := c.fits = true ∧ c.value = a

variable {c : Checked α} {f : α → Checked β} {a : α} {b : β}

theorem exact_pure (a : α) : (pure a : Checked α).Exact a := ⟨rfl, rfl⟩

theorem exact_int {z : ℤ} (h : Int32Range z) : (int z).Exact z := ⟨fits_int.mpr h, value_int h⟩

theorem Exact.bind (hc : c.Exact a) (hf : (f a).Exact b) : (c >>= f).Exact b := by
  obtain ⟨hfits, rfl⟩ := hc
  exact ⟨(fits_bind c f).mpr ⟨hfits, hf.1⟩, hf.2⟩

theorem Exact.map (hc : c.Exact a) (g : α → β) : (c >>= fun x => pure (g x)).Exact (g a) := hc.bind (exact_pure _)

end Checked

end Pintos
