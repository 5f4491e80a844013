import Polly.Ieee

/-!
# Printf — conversions of printf(3)

Formats are read into directives, and a list of directives is rendered with the arguments of the
call.  An argument is a slot of 64 bits, and a conversion looks at as many low bits of it as its
type has (LP64: 32 for an `int`, 64 for a `long` and a `long long`), whatever type was passed.
Numbers are rendered as decimal numerals, texts are lists of bytes.

* `toInt_numeral`: a numeral spells its number.
* `mem_numeral`, `length_numeral_le`: its bytes and its length.
* `toInt_slot_int`, `toNat_slot_unsigned`, `toInt_slot_long`: the number a conversion shows.
* `length_fixed_le_iff`: the length of a `%f` conversion, by the integer part it shows.
-/

namespace Printf

/-! ### Numerals -/

/-- The bytes of an ASCII text. -/
def bytes (cs : List Char) : List UInt8 := cs.map Char.toUInt8

/-- The text some bytes spell. -/
def text (bs : List UInt8) : String := String.ofList (bs.map Char.ofUInt8)

/-- The decimal numeral of a number. -/
def numeral (z : ℤ) : List UInt8 := bytes z.repr.toList

theorem toNat_lt_of_isDigit {c : Char} (h : c.isDigit = true) : c.toNat < 58 := by
  simp only [Char.isDigit, ge_iff_le, Bool.and_eq_true, decide_eq_true_eq] at h
  exact Nat.lt_succ_of_le (UInt32.le_iff_toNat_le.mp h.2)

/-- The characters of a numeral: none is a letter. -/
theorem mem_repr {z : ℤ} {c : Char} (h : c ∈ z.repr.toList) : c.toNat < 58 := by
  have hdigits : ∀ n : ℕ, c ∈ n.repr.toList → c.toNat < 58 := by
    intro n hn
    rw [Nat.toList_repr] at hn
    exact toNat_lt_of_isDigit (Nat.isDigit_of_mem_toDigits (by decide) (by decide) hn)
  rw [Int.repr_eq_if] at h
  split_ifs at h
  · exact hdigits _ h
  · rw [String.toList_append, List.mem_append] at h
    rcases h with h | h
    · obtain rfl : c = '-' := by simpa using h
      decide
    · exact hdigits _ h

theorem ofUInt8_toUInt8 {c : Char} (h : c.toNat < 256) : Char.ofUInt8 c.toUInt8 = c := by
  apply Char.ext
  apply UInt32.toNat_inj.mp
  exact Nat.mod_eq_of_lt h

theorem text_numeral (z : ℤ) : text (numeral z) = z.repr := by
  have hchars : (bytes z.repr.toList).map Char.ofUInt8 = z.repr.toList := by
    rw [bytes, List.map_map]
    refine (List.map_congr_left fun c hc => ?_).trans (List.map_id _)
    exact ofUInt8_toUInt8 ((mem_repr hc).trans (by decide))
  rw [text, numeral, hchars, String.ofList_toList]

/-- A numeral spells its number. -/
theorem toInt_numeral (z : ℤ) : (text (numeral z)).toInt? = some z := by
  rw [text_numeral, Int.toInt?_repr]

theorem numeral_injective : Function.Injective numeral := by
  intro z z' h
  have htext := congrArg text h
  rw [text_numeral, text_numeral] at htext
  exact Int.repr_injective htext

theorem mem_numeral {z : ℤ} {b : UInt8} (h : b ∈ numeral z) : b.toNat < 58 := by
  obtain ⟨c, hc, rfl⟩ := List.mem_map.mp h
  have hlt := mem_repr hc
  exact (Nat.mod_le _ _).trans_lt hlt

theorem length_numeral_le {z : ℤ} {k : ℕ} (hk : 0 < k) (h : z.natAbs < 10 ^ k) :
    (numeral z).length ≤ k + 1 := by
  have hdigits : ∀ n : ℕ, n < 10 ^ k → n.repr.toList.length ≤ k := by
    intro n hn
    rw [Nat.toList_repr]
    exact (Nat.length_toDigits_le_iff (by decide) hk).mpr hn
  rw [numeral, bytes, List.length_map, Int.repr_eq_if]
  split_ifs with hz
  · exact (hdigits _ (by omega)).trans (Nat.le_succ k)
  · rw [String.toList_append, List.length_append]
    have hlen := hdigits (-z).toNat (by omega)
    have hsign : "-".toList.length = 1 := rfl
    omega

/-! ### Formats -/

inductive Directive where
  /-- an ordinary character, which is copied -/
  | byte (b : UInt8)
  /-- a signed decimal of that many bits -/
  | d (bits : ℕ)
  /-- an unsigned decimal -/
  | u (bits : ℕ)
  /-- the character itself -/
  | c
  deriving DecidableEq, Repr

/-- The directives of a format; `none` if it has a conversion that is not modelled. -/
def parse : List Char → Option (List Directive)
  | [] => some []
  | '%' :: 'd' :: cs => (parse cs).map (.d 32 :: ·)
  | '%' :: 'u' :: cs => (parse cs).map (.u 32 :: ·)
  | '%' :: 'c' :: cs => (parse cs).map (.c :: ·)
  | '%' :: 'l' :: 'd' :: cs => (parse cs).map (.d 64 :: ·)
  | '%' :: 'l' :: 'l' :: 'd' :: cs => (parse cs).map (.d 64 :: ·)
  | '%' :: _ => none
  | c :: cs => (parse cs).map (.byte c.toUInt8 :: ·)

/-- The text of a list of directives; `none` if there are more conversions than arguments. -/
def render : List Directive → List (BitVec 64) → Option (List UInt8)
  | [], _ => some []
  | .byte b :: ds, xs => (render ds xs).map (b :: ·)
  | .d bits :: ds, x :: xs => (render ds xs).map (numeral (x.setWidth bits).toInt ++ ·)
  | .u bits :: ds, x :: xs => (render ds xs).map (numeral (x.setWidth bits).toNat ++ ·)
  | .c :: ds, x :: xs => (render ds xs).map (UInt8.ofBitVec (x.setWidth 8) :: ·)
  | _ :: _, [] => none

/-- The text of a format. -/
def sprintf (fmt : String) (args : List (BitVec 64)) : Option (List UInt8) :=
  (parse fmt.toList).bind (render · args)

/-- snprintf(3): what it leaves in a buffer of `size` bytes, and the length the text has without
the cut. -/
def snprintf (size : ℕ) (fmt : String) (args : List (BitVec 64)) : Option (List UInt8 × ℕ) :=
  (sprintf fmt args).map fun out => (out.take (size - 1) ++ [0], out.length)

/-! ### Slots -/

section Slots

variable {z : ℤ}

/-- The slot of a number. -/
def slot (z : ℤ) : BitVec 64 := BitVec.ofInt 64 z

/-- An `int` conversion shows the number modulo 2³², ... -/
theorem toInt_slot_int (hlow : -2 ^ 31 ≤ z) (hhigh : z < 2 ^ 32) :
    ((slot z).setWidth 32).toInt = if z < 2 ^ 31 then z else z - 2 ^ 32 := by
  rw [BitVec.toInt_setWidth, slot, BitVec.toNat_ofInt, Int.bmod_def]
  split_ifs <;> omega

theorem toInt_slot_of_int (hlow : -2 ^ 31 ≤ z) (hhigh : z < 2 ^ 31) :
    ((slot z).setWidth 32).toInt = z := by
  rw [toInt_slot_int hlow (by omega), if_pos hhigh]

theorem toNat_slot_unsigned (z : ℤ) : (((slot z).setWidth 32).toNat : ℤ) = z % 2 ^ 32 := by
  rw [BitVec.toNat_setWidth, slot, BitVec.toNat_ofInt]
  omega

/-- ... and a `long` conversion modulo 2⁶⁴. -/
theorem toInt_slot_long (hlow : -2 ^ 63 ≤ z) (hhigh : z < 2 ^ 63) :
    ((slot z).setWidth 64).toInt = z := by
  rw [BitVec.setWidth_eq, slot, BitVec.toInt_ofInt, Int.bmod_def]
  split_ifs <;> omega

end Slots

/-! ### Padding -/

/-- A conversion with a field width (`%4d`). -/
def spaced (width : ℕ) (z : ℤ) : List UInt8 := (numeral z).leftpad width ' '.toUInt8

/-- A conversion with a field width that is filled with zeros behind the sign (`%02d`). -/
def zeroed (width : ℕ) (z : ℤ) : List UInt8 :=
  if z < 0 then '-'.toUInt8 :: (numeral (-z)).leftpad (width - 1) '0'.toUInt8
  else (numeral z).leftpad width '0'.toUInt8

/-! ### Floating point -/

/-- The nearest whole number, the even one of two. -/
def nearestEven (q : ℚ) : ℕ :=
  if q - ⌊q⌋₊ < 1 / 2 ∨ q - ⌊q⌋₊ = 1 / 2 ∧ Even ⌊q⌋₊ then ⌊q⌋₊ else ⌊q⌋₊ + 1

/-- The `%f` conversion of a number: the sign, the integer part, a point and six digits. -/
def fixed (neg : Bool) (q : ℚ) : List UInt8 :=
  let n := nearestEven (q * 10 ^ 6)
  (if neg then ['-'.toUInt8] else []) ++ numeral (n / 10 ^ 6 : ℕ) ++ ['.'.toUInt8] ++
    zeroed 6 (n % 10 ^ 6 : ℕ)

/-- The `%f` conversion of a floating point word. -/
def floating {F : Ieee.Format} (x : BitVec F.width) : List UInt8 :=
  if Ieee.Finite x then fixed (Ieee.negative x) (Ieee.magnitude x)
  else (if Ieee.negative x then ['-'.toUInt8] else []) ++
    bytes (if Ieee.fraction x = 0 then "inf" else "nan").toList

/-- The text of a format with one floating point argument; `none` for all formats but `%f`. -/
def sprintfFloating {F : Ieee.Format} (fmt : String) (x : BitVec F.width) : Option (List UInt8) :=
  if fmt = "%f" then some (floating x) else none

theorem nearestEven_natCast (n : ℕ) : nearestEven n = n := by
  rw [nearestEven, Nat.floor_natCast, sub_self, if_pos (Or.inl (by norm_num))]

theorem nearestEven_le {q : ℚ} {n : ℕ} (hq : 0 ≤ q) (hlt : q < n) : nearestEven q ≤ n := by
  have hfloor : ⌊q⌋₊ < n := (Nat.floor_lt hq).mpr hlt
  rw [nearestEven]
  split_ifs <;> omega

theorem length_numeral_natCast_le_iff {n k : ℕ} (hk : 0 < k) :
    (numeral n).length ≤ k ↔ n < 10 ^ k := by
  rw [numeral, bytes, List.length_map, ← Nat.length_toDigits_le_iff (by decide) hk,
    ← Nat.toList_repr]
  rfl

/-- A number in a column of its width. -/
theorem length_zeroed {width n : ℕ} (hwidth : 0 < width) (h : n < 10 ^ width) :
    (zeroed width n).length = width := by
  have hlen := (length_numeral_natCast_le_iff hwidth).mpr h
  rw [zeroed, if_neg (not_lt.mpr (Int.natCast_nonneg n)), List.length_leftpad]
  omega

/-- The length of a `%f` conversion is that of the integer part it shows and of the sign, and
seven. -/
theorem length_fixed_le_iff {neg : Bool} {q : ℚ} {k : ℕ} (hk : 0 < k) :
    (fixed neg q).length ≤ neg.toNat + k + 7 ↔ nearestEven (q * 10 ^ 6) / 10 ^ 6 < 10 ^ k := by
  have hfrac := length_zeroed (by decide)
    (Nat.mod_lt (nearestEven (q * 10 ^ 6)) (by decide : 0 < 10 ^ 6))
  rw [← length_numeral_natCast_le_iff hk, fixed]
  simp only [List.length_append, List.length_singleton, hfrac]
  cases neg
  · simp only [Bool.toNat_false, Bool.false_eq_true, if_false, List.length_nil]
    omega
  · simp only [Bool.toNat_true, if_true, List.length_singleton]
    omega

/-- The integer part a word shows is its own, up to powers of ten where its fraction bits have run
out: rounding does not carry over there. -/
theorem nearestEven_magnitude_lt_iff {F : Ieee.Format} (x : BitVec F.width) {k : ℕ}
    (hfrac : 2 ^ (F.fracBits + 1) < 10 ^ k) :
    nearestEven (Ieee.magnitude x * 10 ^ 6) / 10 ^ 6 < 10 ^ k ↔ Ieee.magnitude x < 10 ^ k := by
  rcases Ieee.magnitude_cases x with ⟨n, hn⟩ | hlt
  · have hwhole : nearestEven (Ieee.magnitude x * 10 ^ 6) = n * 10 ^ 6 := by
      rw [hn, ← nearestEven_natCast (n * 10 ^ 6)]
      push_cast
      rfl
    rw [hwhole, Nat.mul_div_cancel n (by decide), hn]
    exact_mod_cast Iff.rfl
  · have hscaled : Ieee.magnitude x * 10 ^ 6 < (2 ^ (F.fracBits + 1) * 10 ^ 6 : ℕ) := by
      rw [Nat.cast_mul, Nat.cast_pow, Nat.cast_pow]
      exact mul_lt_mul_of_pos_right hlt (by norm_num)
    have hnonneg : 0 ≤ Ieee.magnitude x * 10 ^ 6 := by
      have hx := Ieee.magnitude_nonneg x
      positivity
    have hle := nearestEven_le hnonneg hscaled
    have hpow : (2 : ℚ) ^ (F.fracBits + 1) < 10 ^ k := by exact_mod_cast hfrac
    refine iff_of_true ?_ (hlt.trans hpow)
    exact (Nat.div_le_of_le_mul (by rw [Nat.mul_comm]; exact hle)).trans_lt hfrac

end Printf
