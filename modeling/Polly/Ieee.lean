import Mathlib

/-!
# Ieee — binary floating point words

A `Format` has a sign bit, some exponent bits and some fraction bits.  A word is its bit pattern;
one whose exponent bits are not all set is finite and stands for an exact rational, `magnitude` with
the sign bit.

* `magnitude_cases`: a finite word is a whole number or below the power of two where the fraction
  bits run out.
-/

namespace Ieee

structure Format where
  expBits : ℕ
  fracBits : ℕ

namespace Format

def width (F : Format) : ℕ := F.fracBits + F.expBits + 1

def bias (F : Format) : ℤ := 2 ^ (F.expBits - 1) - 1

end Format

/-- `float`. -/
def binary32 : Format := ⟨8, 23⟩

/-- `double`. -/
def binary64 : Format := ⟨11, 52⟩

variable {F : Format} (x : BitVec F.width)

/-- The sign bit. -/
def negative : Bool := x.msb

def exponent : ℕ := x.toNat / 2 ^ F.fracBits % 2 ^ F.expBits

def fraction : ℕ := x.toNat % 2 ^ F.fracBits

/-- Neither an infinity nor a NaN. -/
def Finite : Prop := exponent x ≠ 2 ^ F.expBits - 1

instance : Decidable (Finite x) := inferInstanceAs (Decidable (_ ≠ _))

/-- The fraction with the hidden bit, which subnormal words do not have. -/
def significand : ℕ := if exponent x = 0 then fraction x else 2 ^ F.fracBits + fraction x

/-- The power of two a unit of the significand stands for. -/
def power : ℤ := max (exponent x) 1 - F.bias - F.fracBits

def magnitude : ℚ := significand x * 2 ^ power x

theorem significand_lt : significand x < 2 ^ (F.fracBits + 1) := by
  have hlt : fraction x < 2 ^ F.fracBits := Nat.mod_lt _ (Nat.two_pow_pos _)
  rw [significand, Nat.pow_succ]
  split_ifs <;> omega

theorem magnitude_nonneg : 0 ≤ magnitude x := by
  unfold magnitude
  positivity

/-- From where the fraction bits run out on, a word is a whole number. -/
theorem magnitude_cases :
    (∃ n : ℕ, magnitude x = n) ∨ magnitude x < 2 ^ (F.fracBits + 1) := by
  rcases le_or_gt 0 (power x) with hpos | hneg
  · left
    obtain ⟨k, hk⟩ := Int.eq_ofNat_of_zero_le hpos
    refine ⟨significand x * 2 ^ k, ?_⟩
    rw [magnitude, hk]
    push_cast
    rw [zpow_natCast]
  · right
    have hunit : (2 : ℚ) ^ power x ≤ 1 := zpow_le_one_of_nonpos₀ (by norm_num) hneg.le
    have hsig : (significand x : ℚ) < 2 ^ (F.fracBits + 1) := by exact_mod_cast significand_lt x
    calc magnitude x = significand x * 2 ^ power x := rfl
      _ ≤ significand x * 1 := by gcongr
      _ = significand x := mul_one _
      _ < 2 ^ (F.fracBits + 1) := hsig

end Ieee
