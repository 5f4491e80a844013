import Polly.FixedBuffer
import Polly.Printf

/-!
# LogStream — formatted insertion (`log/log_stream.h`, `log/log_stream.cc`)

A `LogStream` is a fixed buffer that the `operator<<` overloads append to.  The overloads for
numbers go through a `Fmt`, which is what snprintf(3) makes of the overload's own format; its
assertion that the text fits its 32 bytes refuses (`none`), and so does that of the buffer.  The
integer types are those of LP64.

* `insert_eq`: what an integer overload appends.
* `insert_decimal_iff`: for which types and values that is the decimal numeral.
-/

namespace Polly

open Printf

structure LogStream where
  buffer : FixedBuffer kSmallBufferSize

namespace LogStream

def new : LogStream := ⟨FixedBuffer.new⟩

def append (s : LogStream) (bs : List UInt8) : Option LogStream := (s.buffer.append bs).map mk

def slice (s : LogStream) : List UInt8 := s.buffer.slice

/-- `append` adds the bytes, if there is space for them. -/
theorem append_eq {s : LogStream} {bs : List UInt8} (h : bs.length ≤ s.buffer.space) :
    ∃ s', s.append bs = some s' ∧ s'.slice = s.slice ++ bs := by
  obtain ⟨b, hb⟩ := Option.isSome_iff_exists.mp (FixedBuffer.append_isSome.mpr h)
  exact ⟨⟨b⟩, by rw [append, hb]; rfl, FixedBuffer.slice_append hb⟩

theorem append_some {s s' : LogStream} {bs : List UInt8} (h : s.append bs = some s') :
    bs.length ≤ s.buffer.space ∧ s'.slice = s.slice ++ bs := by
  obtain ⟨b, hb, rfl⟩ := Option.map_eq_some_iff.mp h
  exact ⟨FixedBuffer.append_isSome.mp (by rw [hb]; rfl), FixedBuffer.slice_append hb⟩

end LogStream

/-! ### Fmt -/

/-- `sizeof buf_`. -/
def kFmtSize : ℕ := 32

/-- The bytes snprintf(3) left in `buf_` and the length it returned. -/
structure Fmt where
  buf : List UInt8
  length : ℕ
  length_lt : length < kFmtSize

namespace Fmt

def new (fmt : String) (val : BitVec 64) : Option Fmt :=
  (snprintf kFmtSize fmt [val]).bind fun (buf, length) =>
    if h : length < kFmtSize then some ⟨buf, length, h⟩ else none

/-- `Slice(fmt.data(), fmt.length())`. -/
def slice (f : Fmt) : List UInt8 := f.buf.take f.length

/-- The rest of the constructor, after snprintf(3) has made `out` of the format. -/
def ofText (out : List UInt8) : Option Fmt :=
  if h : out.length < kFmtSize then some ⟨out.take (kFmtSize - 1) ++ [0], out.length, h⟩ else none

theorem new_eq_ofText (fmt : String) (val : BitVec 64) :
    new fmt val = (sprintf fmt [val]).bind ofText := by
  unfold new snprintf
  rw [Option.bind_map]
  rfl

theorem ofText_isSome_iff {out : List UInt8} : (ofText out).isSome ↔ out.length < kFmtSize := by
  unfold ofText
  split_ifs with h <;> simp [h]

/-- A text that fits stands in `buf_` as a whole, with its terminator. -/
theorem ofText_some {out : List UInt8} {f : Fmt} (h : ofText out = some f) :
    f.slice = out ∧ f.length = out.length ∧ f.length < f.buf.length ∧ f.buf.length ≤ kFmtSize := by
  unfold ofText at h
  split_ifs at h with hlen
  cases h
  have hle : out.length ≤ kFmtSize - 1 := Nat.le_pred_of_lt hlen
  have htake : out.take (kFmtSize - 1) = out := List.take_of_length_le hle
  refine ⟨?_, rfl, ?_, ?_⟩
  · rw [slice, htake, List.take_left]
  · rw [htake, List.length_append]
    exact Nat.lt_succ_self _
  · rw [htake, List.length_append]
    exact hlen

/-- A text that fits is not cut. -/
theorem new_eq {fmt : String} {val : BitVec 64} {out : List UInt8}
    (hout : sprintf fmt [val] = some out) (hlen : out.length < kFmtSize) :
    ∃ f, new fmt val = some f ∧ f.slice = out := by
  obtain ⟨f, hf⟩ := Option.isSome_iff_exists.mp (ofText_isSome_iff.mpr hlen)
  exact ⟨f, by rw [new_eq_ofText, hout, Option.bind_some, hf], (ofText_some hf).1⟩

end Fmt

/-! ### The integer overloads -/

inductive IntType where
  | short | unsignedShort | int | unsignedInt
  | long | unsignedLong | longLong | unsignedLongLong
  deriving DecidableEq, Repr

namespace IntType

def width : IntType → ℕ
  | short | unsignedShort => 16
  | int | unsignedInt => 32
  | long | unsignedLong | longLong | unsignedLongLong => 64

def signed : IntType → Bool
  | short | int | long | longLong => true
  | unsignedShort | unsignedInt | unsignedLong | unsignedLongLong => false

/-- The number a value of the type stands for. -/
def value (ty : IntType) (v : BitVec ty.width) : ℤ := if ty.signed then v.toInt else v.toNat

/-- The format of the overload. -/
def format : IntType → String
  | short => "%d"
  | unsignedShort => "%d"
  | int => "%d"
  | unsignedInt => "%d"
  | long => "%ld"
  | unsignedLong => "%uld"
  | longLong => "%lld"
  | unsignedLongLong => "%ulld"

end IntType

namespace LogStream

/-- `operator<<(const Fmt &)`. -/
def insertFmt (s : LogStream) (f : Fmt) : Option LogStream := s.append f.slice

/-- The `operator<<` that formats one promoted argument. -/
def insertFormat (s : LogStream) (fmt : String) (val : BitVec 64) : Option LogStream :=
  (Fmt.new fmt val).bind s.insertFmt

/-- `operator<<` of the integer types. -/
def insert (s : LogStream) (ty : IntType) (v : BitVec ty.width) : Option LogStream :=
  s.insertFormat ty.format (slot (ty.value v))

/-- `operator<<(bool)`. -/
def insertBool (s : LogStream) (v : Bool) : Option LogStream :=
  s.append (bytes (if v then "1" else "0").toList)

/-- `operator<<(char)`. -/
def insertChar (s : LogStream) (v : BitVec 8) : Option LogStream :=
  s.insertFormat "%c" (slot v.toInt)

/-- `operator<<(unsigned char)`. -/
def insertUnsignedChar (s : LogStream) (v : BitVec 8) : Option LogStream :=
  s.insertFormat "%uc" (slot v.toNat)

theorem insertFormat_eq {s : LogStream} {fmt : String} {val : BitVec 64} {out : List UInt8}
    (hout : sprintf fmt [val] = some out) (hlen : out.length < kFmtSize) :
    s.insertFormat fmt val = s.append out := by
  obtain ⟨f, hf, hslice⟩ := Fmt.new_eq hout hlen
  rw [insertFormat, hf, Option.bind_some, insertFmt, hslice]

end LogStream

namespace IntType

/-- The number the overload's conversion shows. -/
def shown (ty : IntType) (x : BitVec 64) : ℤ :=
  match ty with
  | short | unsignedShort | int | unsignedInt => (x.setWidth 32).toInt
  | unsignedLong | unsignedLongLong => (x.setWidth 32).toNat
  | long | longLong => (x.setWidth 64).toInt

/-- What the overload's format has after the conversion. -/
def stray : IntType → List UInt8
  | unsignedLong => bytes "ld".toList
  | unsignedLongLong => bytes "lld".toList
  | short | unsignedShort | int | unsignedInt | long | longLong => []

theorem sprintf_format (ty : IntType) (x : BitVec 64) :
    sprintf ty.format [x] = some (numeral (ty.shown x) ++ ty.stray) := by
  cases ty <;> rfl

theorem natAbs_shown (ty : IntType) (x : BitVec 64) : (ty.shown x).natAbs < 10 ^ 20 := by
  have hlow := (x.setWidth 32).le_toInt
  have hhigh := (x.setWidth 32).toInt_lt
  have hnat := (x.setWidth 32).isLt
  have hlow' := (x.setWidth 64).le_toInt
  have hhigh' := (x.setWidth 64).toInt_lt
  cases ty <;> simp only [shown] <;> omega

theorem length_printed (ty : IntType) (x : BitVec 64) :
    (numeral (ty.shown x) ++ ty.stray).length < kFmtSize := by
  have hnumeral := length_numeral_le (by decide) (ty.natAbs_shown x)
  have hstray : ty.stray.length ≤ 3 := by cases ty <;> decide
  rw [List.length_append, kFmtSize]
  omega

theorem value_signed {ty : IntType} (h : ty.signed = true) (v : BitVec ty.width) :
    -2 ^ (ty.width - 1) ≤ ty.value v ∧ ty.value v < 2 ^ (ty.width - 1) := by
  rw [value, if_pos h]
  exact ⟨v.le_toInt, v.toInt_lt⟩

theorem value_unsigned {ty : IntType} (h : ty.signed = false) (v : BitVec ty.width) :
    0 ≤ ty.value v ∧ ty.value v < 2 ^ ty.width := by
  rw [value, h, if_neg Bool.false_ne_true]
  exact ⟨Int.natCast_nonneg _, by exact_mod_cast v.isLt⟩

/-- The conversions of the overloads without stray letters show the value, but for large values of
an `unsigned int`. -/
theorem shown_slot_iff {ty : IntType} (v : BitVec ty.width) (hstray : ty.stray = []) :
    ty.shown (slot (ty.value v)) = ty.value v ↔ (ty = .unsignedInt → ty.value v < 2 ^ 31) := by
  cases ty with
  | short =>
    have hv : -2 ^ 15 ≤ value .short v ∧ value .short v < 2 ^ 15 := value_signed rfl v
    exact iff_of_true (toInt_slot_of_int (by omega) (by omega)) nofun
  | unsignedShort =>
    have hv : 0 ≤ value .unsignedShort v ∧ value .unsignedShort v < 2 ^ 16 := value_unsigned rfl v
    exact iff_of_true (toInt_slot_of_int (by omega) (by omega)) nofun
  | int =>
    have hv : -2 ^ 31 ≤ value .int v ∧ value .int v < 2 ^ 31 := value_signed rfl v
    exact iff_of_true (toInt_slot_of_int hv.1 hv.2) nofun
  | unsignedInt =>
    have hv : 0 ≤ value .unsignedInt v ∧ value .unsignedInt v < 2 ^ 32 := value_unsigned rfl v
    simp only [shown, true_imp_iff]
    rw [toInt_slot_int (by omega) hv.2]
    split_ifs <;> omega
  | long =>
    have hv : -2 ^ 63 ≤ value .long v ∧ value .long v < 2 ^ 63 := value_signed rfl v
    exact iff_of_true (toInt_slot_long hv.1 hv.2) nofun
  | longLong =>
    have hv : -2 ^ 63 ≤ value .longLong v ∧ value .longLong v < 2 ^ 63 := value_signed rfl v
    exact iff_of_true (toInt_slot_long hv.1 hv.2) nofun
  | unsignedLong => cases hstray
  | unsignedLongLong => cases hstray

/-- Stray letters are seen in the text. -/
theorem stray_eq_nil_of_numeral {ty : IntType} {z z' : ℤ} (h : numeral z ++ ty.stray = numeral z') :
    ty.stray = [] := by
  refine List.eq_nil_iff_forall_not_mem.mpr fun b hb => ?_
  have hlt : b.toNat < 58 := mem_numeral (z := z') (by rw [← h]; exact List.mem_append_right _ hb)
  have hletters : (ty.stray.all fun b => decide (58 ≤ b.toNat)) = true := by cases ty <;> decide
  have hge := of_decide_eq_true (List.all_eq_true.mp hletters b hb)
  omega

theorem stray_eq_nil_iff (ty : IntType) :
    ty.stray = [] ↔ ty ≠ .unsignedLong ∧ ty ≠ .unsignedLongLong := by
  cases ty <;> decide

end IntType

namespace LogStream

/-- What an integer overload appends. -/
theorem insert_eq (s : LogStream) (ty : IntType) (v : BitVec ty.width) :
    s.insert ty v = s.append (numeral (ty.shown (slot (ty.value v))) ++ ty.stray) :=
  insertFormat_eq (ty.sprintf_format _) (ty.length_printed _)

/-- **Integers are logged in decimal**, such that the appended text reads back as the value, exactly
if the type is neither `unsigned long` nor `unsigned long long`, an `unsigned int` is below 2³¹, and
the stream has space for the numeral. -/
theorem insert_decimal_iff (s : LogStream) (ty : IntType) (v : BitVec ty.width) :
    (∃ s' out, s.insert ty v = some s' ∧ s'.slice = s.slice ++ out ∧
        out = numeral (ty.value v) ∧ (text out).toInt? = some (ty.value v)) ↔
      ty ≠ .unsignedLong ∧ ty ≠ .unsignedLongLong ∧
        (ty = .unsignedInt → ty.value v < 2 ^ 31) ∧
        (numeral (ty.value v)).length ≤ s.buffer.space := by
  rw [insert_eq]
  constructor
  · rintro ⟨s', out, hinsert, hslice, rfl, -⟩
    obtain ⟨hspace, hslice'⟩ := append_some hinsert
    have htext := List.append_cancel_left (hslice'.symm.trans hslice)
    have hstray := IntType.stray_eq_nil_of_numeral htext
    obtain ⟨hlong, hlongLong⟩ := ty.stray_eq_nil_iff.mp hstray
    rw [hstray, List.append_nil] at htext
    refine ⟨hlong, hlongLong, ?_, ?_⟩
    · exact (IntType.shown_slot_iff v hstray).mp (numeral_injective htext)
    · rw [hstray, List.append_nil, htext] at hspace
      exact hspace
  · rintro ⟨hlong, hlongLong, hint, hspace⟩
    have hstray := ty.stray_eq_nil_iff.mpr ⟨hlong, hlongLong⟩
    rw [hstray, List.append_nil, (IntType.shown_slot_iff v hstray).mpr hint]
    obtain ⟨s', happend, hslice⟩ := append_eq hspace
    exact ⟨s', _, happend, hslice, rfl, toInt_numeral _⟩

/-- The largest `unsigned int` is logged as -1, and zero as an `unsigned long` or an
`unsigned long long` with letters behind it. -/
theorem insert_not_decimal :
    (∃ s', new.insert .unsignedInt 4294967295#32 = some s' ∧
      IntType.value .unsignedInt 4294967295#32 = 4294967295 ∧ s'.slice = bytes "-1".toList ∧
      (text s'.slice).toInt? = some (-1)) ∧
    (∃ s', new.insert .unsignedLong 0#64 = some s' ∧ s'.slice = bytes "0ld".toList ∧
      numeral (IntType.value .unsignedLong 0#64) = bytes "0".toList) ∧
    ∃ s', new.insert .unsignedLongLong 0#64 = some s' ∧ s'.slice = bytes "0lld".toList ∧
      numeral (IntType.value .unsignedLongLong 0#64) = bytes "0".toList := by
  have key : ∀ ty v, ∃ s', new.insert ty v = some s' ∧
      s'.slice = numeral (ty.shown (slot (ty.value v))) ++ ty.stray := by
    intro ty v
    rw [insert_eq]
    exact append_eq ((ty.length_printed _).le.trans (by decide))
  obtain ⟨s₁, h₁, hslice₁⟩ := key .unsignedInt 4294967295#32
  obtain ⟨s₂, h₂, hslice₂⟩ := key .unsignedLong 0#64
  obtain ⟨s₃, h₃, hslice₃⟩ := key .unsignedLongLong 0#64
  have hminus : s₁.slice = numeral (-1) := by
    rw [hslice₁]
    decide +kernel
  refine ⟨⟨s₁, h₁, rfl, ?_, ?_⟩, ⟨s₂, h₂, ?_, by decide +kernel⟩, s₃, h₃, ?_, by decide +kernel⟩
  · rw [hminus]
    decide +kernel
  · rw [hminus, toInt_numeral]
  · rw [hslice₂]
    decide +kernel
  · rw [hslice₃]
    decide +kernel

/-! ### The other overloads -/

theorem insertBool_eq (s : LogStream) (v : Bool) : s.insertBool v = s.append (numeral v.toNat) := by
  cases v <;> rfl

/-- `%c` shows the low byte of the promoted argument. -/
theorem sprintf_char (v : BitVec 8) : sprintf "%c" [slot v.toInt] = some [UInt8.ofBitVec v] := by
  have hlow : (slot v.toInt).setWidth 8 = v := by
    apply BitVec.eq_of_toNat_eq
    rw [BitVec.toNat_setWidth, slot, BitVec.toNat_ofInt, BitVec.toInt_eq_toNat_cond]
    have hlt := v.isLt
    split_ifs <;> omega
  have hout : sprintf "%c" [slot v.toInt] = some [UInt8.ofBitVec ((slot v.toInt).setWidth 8)] := rfl
  rwa [hlow] at hout

theorem sprintf_unsignedChar (v : BitVec 8) :
    sprintf "%uc" [slot v.toNat] = some (numeral v.toNat ++ bytes "c".toList) := by
  have hlt := v.isLt
  have hout : sprintf "%uc" [slot v.toNat] =
      some (numeral ((slot v.toNat).setWidth 32).toNat ++ bytes "c".toList) := rfl
  rwa [toNat_slot_unsigned, Int.emod_eq_of_lt (by omega) (by omega)] at hout

theorem length_unsignedChar (v : BitVec 8) :
    (numeral v.toNat ++ bytes "c".toList).length < kFmtSize := by
  have hlt := v.isLt
  have hlen : (numeral v.toNat).length ≤ 3 + 1 := length_numeral_le (by decide) (by omega)
  have hletter : (bytes "c".toList).length = 1 := rfl
  rw [List.length_append, kFmtSize]
  omega

theorem insertChar_eq (s : LogStream) (v : BitVec 8) :
    s.insertChar v = s.append [UInt8.ofBitVec v] :=
  insertFormat_eq (sprintf_char v) (by rw [List.length_singleton]; decide)

/-- The format for `unsigned char` shows the code of the character, with a letter behind it. -/
theorem insertUnsignedChar_eq (s : LogStream) (v : BitVec 8) :
    s.insertUnsignedChar v = s.append (numeral v.toNat ++ bytes "c".toList) :=
  insertFormat_eq (sprintf_unsignedChar v) (length_unsignedChar v)

end LogStream

end Polly
