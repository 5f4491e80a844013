import Polly.LogStream

/-!
# FmtSize — numbers in the scratch buffer of `Fmt` (`log/log_stream.h`, `log/log_stream.cc`)

All overloads of `operator<<` for characters and numbers go through a `Fmt`, whose constructor
asserts that the text fits its 32 bytes.  `FmtArg` are the arguments of these overloads, with the
formats of the source; a `float` is promoted to `double`, which has all its values, so both are
rendered from the exact number.

* `fmt_fits_iff`: characters and integers always fit, a floating point number exactly if its integer
  part has at most 24 digits, or 23 and a sign.
-/

namespace Polly

open Printf

/-! ### The arguments -/

inductive FmtArg where
  | char (v : BitVec 8)
  | unsignedChar (v : BitVec 8)
  | int (ty : IntType) (v : BitVec ty.width)
  | float (x : BitVec Ieee.binary32.width)
  | double (x : BitVec Ieee.binary64.width)

namespace FmtArg

/-- What snprintf(3) makes of the argument, with the format of its overload. -/
def printed : FmtArg → Option (List UInt8)
  | .char v => sprintf "%c" [slot v.toInt]
  | .unsignedChar v => sprintf "%uc" [slot v.toNat]
  | .int ty v => sprintf ty.format [slot (ty.value v)]
  | .float x => sprintfFloating "%f" x
  | .double x => sprintfFloating "%f" x

def fmt (a : FmtArg) : Option Fmt := a.printed.bind Fmt.ofText

/-- The text of the argument. -/
def text : FmtArg → List UInt8
  | .char v => [UInt8.ofBitVec v]
  | .unsignedChar v => numeral v.toNat ++ bytes "c".toList
  | .int ty v => numeral (ty.shown (slot (ty.value v))) ++ ty.stray
  | .float x => floating x
  | .double x => floating x

theorem sprintfFloating_eq {F : Ieee.Format} (x : BitVec F.width) :
    sprintfFloating "%f" x = some (floating x) := if_pos rfl

theorem printed_eq (a : FmtArg) : a.printed = some a.text := by
  cases a with
  | char v => exact LogStream.sprintf_char v
  | unsignedChar v => exact LogStream.sprintf_unsignedChar v
  | int ty v => exact ty.sprintf_format _
  | float x => exact sprintfFloating_eq x
  | double x => exact sprintfFloating_eq x

theorem fmt_eq (a : FmtArg) : a.fmt = Fmt.ofText a.text := by
  rw [fmt, printed_eq, Option.bind_some]

end FmtArg

/-- `operator<<` of characters and numbers. -/
def LogStream.insertArg (s : LogStream) (a : FmtArg) : Option LogStream := a.fmt.bind s.insertFmt

namespace LogStream

theorem insertFormat_eq_ofText (s : LogStream) (fmt : String) (val : BitVec 64) :
    s.insertFormat fmt val = ((sprintf fmt [val]).bind Fmt.ofText).bind s.insertFmt := by
  rw [insertFormat, Fmt.new_eq_ofText]

theorem insertArg_char (s : LogStream) (v : BitVec 8) : s.insertArg (.char v) = s.insertChar v :=
  (s.insertFormat_eq_ofText _ _).symm

theorem insertArg_unsignedChar (s : LogStream) (v : BitVec 8) :
    s.insertArg (.unsignedChar v) = s.insertUnsignedChar v := (s.insertFormat_eq_ofText _ _).symm

theorem insertArg_int (s : LogStream) (ty : IntType) (v : BitVec ty.width) :
    s.insertArg (.int ty v) = s.insert ty v := (s.insertFormat_eq_ofText _ _).symm

end LogStream

/-! ### The length of floating point numbers -/

section Floating

variable {F : Ieee.Format} {x : BitVec F.width}

/-- Below a power of ten by which the text fits, one less with a sign. -/
def ShortFloating (x : BitVec F.width) : Prop :=
  Ieee.Finite x → Ieee.magnitude x < if Ieee.negative x then 10 ^ 23 else 10 ^ 24

theorem length_floating_of_not_finite (h : ¬Ieee.Finite x) : (floating x).length < kFmtSize := by
  rw [floating, if_neg h]
  split_ifs <;> decide

theorem length_floating_lt_iff (hfrac : F.fracBits ≤ 52) :
    (floating x).length < kFmtSize ↔ ShortFloating x := by
  by_cases hfin : Ieee.Finite x
  · have hpow : ∀ k, 23 ≤ k → 2 ^ (F.fracBits + 1) < 10 ^ k := by
      intro k hk
      calc 2 ^ (F.fracBits + 1) ≤ 2 ^ 53 := Nat.pow_le_pow_right (by decide) (by omega)
        _ < 10 ^ 23 := by decide
        _ ≤ 10 ^ k := Nat.pow_le_pow_right (by decide) hk
    have key : ∀ (neg : Bool) (k : ℕ), 23 ≤ k → neg.toNat + k + 7 = kFmtSize - 1 →
        ((fixed neg (Ieee.magnitude x)).length ≤ kFmtSize - 1 ↔ Ieee.magnitude x < 10 ^ k) := by
      intro neg k hk hsum
      rw [← hsum, length_fixed_le_iff (by omega), nearestEven_magnitude_lt_iff x (hpow k hk)]
    rw [ShortFloating, floating, if_pos hfin, Nat.lt_iff_le_pred (by decide)]
    simp only [hfin, true_imp_iff]
    cases Ieee.negative x with
    | false => exact key false 24 (by decide) rfl
    | true => exact key true 23 (by decide) rfl
  · exact iff_of_true (length_floating_of_not_finite hfin) fun h => absurd h hfin

end Floating

namespace FmtArg

/-- All arguments but large floating point numbers. -/
def Short : FmtArg → Prop
  | .char _ | .unsignedChar _ | .int _ _ => True
  | .float x => ShortFloating x
  | .double x => ShortFloating x

theorem length_text_lt_iff (a : FmtArg) : a.text.length < kFmtSize ↔ a.Short := by
  cases a with
  | char v => exact iff_of_true (by rw [text, List.length_singleton]; decide) trivial
  | unsignedChar v => exact iff_of_true (LogStream.length_unsignedChar v) trivial
  | int ty v => exact iff_of_true (ty.length_printed _) trivial
  | float x => exact length_floating_lt_iff (by decide)
  | double x => exact length_floating_lt_iff (by decide)

/-- **Numbers fit the scratch buffer**: the length snprintf reports is below the size of `buf_`, so
that the assertion holds and the appended slice is the text, within the bytes of `buf_`, exactly if
the argument is a character, an integer, or a floating point number that is infinite, no number, or
below 10²⁴ in magnitude, 10²³ with a sign. -/
theorem fmt_fits_iff (a : FmtArg) :
    (∃ out f, a.printed = some out ∧ out.length < kFmtSize ∧ a.fmt = some f ∧ f.slice = out ∧
      f.length = out.length ∧ f.length < f.buf.length ∧ f.buf.length ≤ kFmtSize) ↔ a.Short := by
  rw [← length_text_lt_iff]
  constructor
  · rintro ⟨out, f, hout, hlen, -⟩
    rw [printed_eq] at hout
    cases hout
    exact hlen
  · intro hlen
    obtain ⟨f, hf⟩ := Option.isSome_iff_exists.mp (Fmt.ofText_isSome_iff.mpr hlen)
    obtain ⟨hslice, hlength⟩ := Fmt.ofText_some hf
    exact ⟨a.text, f, a.printed_eq, hlen, a.fmt_eq.trans hf, hslice, hlength⟩

theorem fmt_eq_none_iff (a : FmtArg) : a.fmt = none ↔ kFmtSize ≤ a.text.length := by
  rw [fmt_eq, ← Option.not_isSome_iff_eq_none, Fmt.ofText_isSome_iff, not_lt]

/-- 2⁸⁰ has 25 digits: with the point and six more the text has no room for its terminator, as a
`float` and as a `double`. -/
theorem fmt_two_pow_80 :
    (FmtArg.float 0x67800000#32).printed = some (bytes "1208925819614629174706176.000000".toList) ∧
      (FmtArg.float 0x67800000#32).fmt = none ∧
      (FmtArg.double 0x44F0000000000000#64).printed =
        some (bytes "1208925819614629174706176.000000".toList) ∧
      (FmtArg.double 0x44F0000000000000#64).fmt = none ∧
      (bytes "1208925819614629174706176.000000".toList).length = kFmtSize := by
  have hfloat : (FmtArg.float 0x67800000#32).text =
      bytes "1208925819614629174706176.000000".toList := by decide +kernel
  have hdouble : (FmtArg.double 0x44F0000000000000#64).text =
      bytes "1208925819614629174706176.000000".toList := by decide +kernel
  have hlen : (bytes "1208925819614629174706176.000000".toList).length = kFmtSize := by decide
  refine ⟨?_, ?_, ?_, ?_, hlen⟩
  · rw [printed_eq, hfloat]
  · rw [fmt_eq_none_iff, hfloat, hlen]
  · rw [printed_eq, hdouble]
  · rw [fmt_eq_none_iff, hdouble, hlen]

end FmtArg

end Polly
