import Polly.Printf

/-!
# Columns — numbers in columns of fixed width

A number that fits its column is padded with zeros to exactly its width, so texts of columns are
compared like the lists of their numbers.

* `split_first`, `split_last`: texts with separators can be read in one way only.
* `mem_zeroed`, `zeroed_lt`: one number.
* `length_columns`, `columns_lt`: a row of columns with separators.
-/

namespace Printf

/-! ### Comparing texts -/

/-- Texts of one length are told apart before anything that follows them. -/
theorem append_lt_append {α : Type*} [LT α] {a b : List α} (hlen : a.length = b.length)
    (h : a < b) (s t : List α) : a ++ s < b ++ t := by
  rw [← List.lex_lt] at h ⊢
  induction h with
  | nil => simp at hlen
  | rel hlt => exact List.Lex.rel hlt
  | cons _ ih => exact List.Lex.cons (ih (by simpa using hlen))

/-- A text is cut at the first occurrence of a separator, ... -/
theorem split_first {α : Type*} {a : α} {x y r r' : List α} (hx : a ∉ x) (hy : a ∉ y)
    (h : x ++ a :: r = y ++ a :: r') : x = y ∧ r = r' := by
  rcases List.append_eq_append_iff.mp h with ⟨c, rfl, hc⟩ | ⟨c, rfl, hc⟩
  · cases c with
    | nil => simpa using hc
    | cons b c =>
      obtain ⟨rfl, -⟩ := List.cons_eq_cons.mp hc
      simp at hy
  · cases c with
    | nil => simpa [eq_comm] using hc
    | cons b c =>
      obtain ⟨rfl, -⟩ := List.cons_eq_cons.mp hc
      simp at hx

/-- ... and at the last one. -/
theorem split_last {α : Type*} {a : α} {x y r r' : List α} (hr : a ∉ r) (hr' : a ∉ r')
    (h : x ++ a :: r = y ++ a :: r') : x = y ∧ r = r' := by
  have hrev := congrArg List.reverse h
  simp only [List.reverse_append, List.reverse_cons, List.append_assoc, List.singleton_append]
    at hrev
  obtain ⟨hr, hx⟩ := split_first (by simpa using hr) (by simpa using hr') hrev
  exact ⟨List.reverse_injective hx, List.reverse_injective hr⟩

/-! ### Numerals -/

/-- The bytes of a numeral: digits and the sign. -/
theorem le_of_mem_numeral {z : ℤ} {b : UInt8} (h : b ∈ numeral z) : 45 ≤ b.toNat := by
  have hdigits : ∀ (n : ℕ) (c : Char), c ∈ n.repr.toList → 48 ≤ c.toNat := by
    intro n c hc
    rw [Nat.toList_repr] at hc
    have hdigit := Nat.isDigit_of_mem_toDigits (by decide) (by decide) hc
    simp only [Char.isDigit, ge_iff_le, Bool.and_eq_true, decide_eq_true_eq] at hdigit
    exact UInt32.le_iff_toNat_le.mp hdigit.1
  have hchars : ∀ c ∈ z.repr.toList, 45 ≤ c.toNat := by
    intro c hc
    rw [Int.repr_eq_if] at hc
    split_ifs at hc
    · exact (show 45 ≤ 48 by decide).trans (hdigits _ c hc)
    · rw [String.toList_append, List.mem_append] at hc
      rcases hc with hc | hc
      · obtain rfl : c = '-' := by simpa using hc
        decide
      · exact (show 45 ≤ 48 by decide).trans (hdigits _ c hc)
  obtain ⟨c, hc, rfl⟩ := List.mem_map.mp h
  have hlow := hchars c hc
  have hhigh := mem_repr hc
  change 45 ≤ c.toNat % 256
  omega

theorem zero_notMem_numeral (z : ℤ) : 0 ∉ numeral z := fun h =>
  absurd (le_of_mem_numeral h) (by decide)

/-! ### One column -/

def digit (d : ℕ) : UInt8 := d.digitChar.toUInt8

theorem toNat_digit {d : ℕ} (h : d < 10) : (digit d).toNat = 48 + d := by
  have hchar := Nat.toNat_digitChar_of_lt_ten h
  change d.digitChar.toNat % 256 = _
  omega

theorem numeral_natCast (n : ℕ) : numeral n = bytes (Nat.toDigits 10 n) := by
  rw [numeral, Int.repr_eq_if, if_pos (Int.natCast_nonneg n), Int.toNat_natCast, Nat.toList_repr]

theorem zeroed_natCast (width n : ℕ) :
    zeroed width n = (bytes (Nat.toDigits 10 n)).leftpad width (digit 0) := by
  rw [zeroed, if_neg (by omega), numeral_natCast]
  rfl

/-- The last digit of a column, and the column before it. -/
theorem zeroed_succ {width : ℕ} (hwidth : 0 < width) (n : ℕ) :
    zeroed (width + 1) n = zeroed width (n / 10 : ℕ) ++ [digit (n % 10)] := by
  rw [zeroed_natCast, zeroed_natCast]
  rcases lt_or_ge n 10 with hn | hn
  · have hwidth' : width = (width - 1) + 1 := by omega
    rw [Nat.toDigits_of_lt_base hn, Nat.div_eq_of_lt hn, Nat.mod_eq_of_lt hn,
      Nat.toDigits_of_lt_base (by decide)]
    simp only [List.leftpad, bytes, List.map_cons, List.map_nil, List.length_singleton,
      Nat.add_sub_cancel]
    conv_lhs => rw [hwidth', List.replicate_succ']
    rfl
  · rw [Nat.toDigits_of_base_le (by decide) hn]
    simp [List.leftpad, bytes, digit]

theorem zeroed_one {n : ℕ} (h : n < 10) : zeroed 1 n = [digit n] := by
  rw [zeroed_natCast, Nat.toDigits_of_lt_base h]
  rfl

/-- A numeral that fills its column is not padded. -/
theorem leftpad_numeral {width n : ℕ} (hwidth : 0 < width) (h : 10 ^ width ≤ n) (b : UInt8) :
    (numeral n).leftpad (width + 1) b = numeral n := by
  have hlen : ¬(numeral n).length ≤ width := by
    rw [length_numeral_natCast_le_iff hwidth]
    exact not_lt.mpr h
  rw [List.leftpad, Nat.sub_eq_zero_of_le (not_le.mp hlen), List.replicate_zero, List.nil_append]

/-- The bytes of a column are digits. -/
theorem mem_zeroed {width n : ℕ} {b : UInt8} (hwidth : 0 < width) (h : n < 10 ^ width)
    (hb : b ∈ zeroed width n) : 48 ≤ b.toNat ∧ b.toNat < 58 := by
  have hdigit : ∀ d < 10, 48 ≤ (digit d).toNat ∧ (digit d).toNat < 58 := by
    intro d hd
    rw [toNat_digit hd]
    omega
  induction width, hwidth using Nat.le_induction generalizing n with
  | base =>
    have hn : n < 10 := by simpa using h
    rw [zeroed_one hn, List.mem_singleton] at hb
    exact hb ▸ hdigit n hn
  | succ width hwidth ih =>
    rw [zeroed_succ hwidth, List.mem_append, List.mem_singleton] at hb
    rcases hb with hb | hb
    · exact ih (Nat.div_lt_of_lt_mul (by rwa [← pow_succ'])) hb
    · exact hb ▸ hdigit _ (Nat.mod_lt n (by decide))

/-- Columns of one width are compared like their numbers. -/
theorem zeroed_lt {width n m : ℕ} (hwidth : 0 < width) (h : n < m) (hm : m < 10 ^ width) :
    zeroed width n < zeroed width m := by
  have hdigit : ∀ d d', d < d' → d' < 10 → digit d < digit d' := by
    intro d d' hd hd'
    rw [UInt8.lt_iff_toNat_lt, toNat_digit (hd.trans hd'), toNat_digit hd']
    omega
  induction width, hwidth using Nat.le_induction generalizing n m with
  | base =>
    have hm' : m < 10 := by simpa using hm
    rw [zeroed_one hm', zeroed_one (h.trans hm'), List.cons_lt_cons_iff]
    exact Or.inl (hdigit n m h hm')
  | succ width hwidth ih =>
    rw [pow_succ'] at hm
    have hdiv : m / 10 < 10 ^ width := Nat.div_lt_of_lt_mul hm
    rw [zeroed_succ hwidth, zeroed_succ hwidth]
    rcases (Nat.div_le_div_right h.le : n / 10 ≤ m / 10).lt_or_eq with hlt | heq
    · refine append_lt_append ?_ (ih hlt hdiv) _ _
      rw [length_zeroed hwidth hdiv, length_zeroed hwidth (hlt.trans hdiv)]
    · rw [heq]
      refine List.append_left_lt ?_
      rw [List.cons_lt_cons_iff]
      exact Or.inl (hdigit _ _ (by omega) (Nat.mod_lt m (by decide)))

/-! ### A row of columns -/

/-- The text of a row: each number in a column of its width, and what stands behind it. -/
def columns : List (ℕ × List UInt8) → List ℤ → List UInt8
  | (width, sep) :: cs, v :: vs => zeroed width v ++ (sep ++ columns cs vs)
  | _, _ => []

/-- The numbers fit columns of these widths. -/
def Fits (widths : List ℕ) (vs : List ℤ) : Prop :=
  List.Forall₂ (fun width v => 0 < width ∧ 0 ≤ v ∧ v < 10 ^ width) widths vs

section Rows

variable {cs : List (ℕ × List UInt8)} {vs vs' : List ℤ}

theorem length_columns (h : Fits (cs.map Prod.fst) vs) :
    (columns cs vs).length = (cs.map fun c => c.1 + c.2.length).sum := by
  rw [Fits, List.forall₂_map_left_iff] at h
  induction h with
  | nil => rfl
  | @cons c v cs vs hc _ ih =>
    obtain ⟨hwidth, hv, hlt⟩ := hc
    lift v to ℕ using hv
    have hlen := length_zeroed hwidth (by exact_mod_cast hlt : v < 10 ^ c.1)
    simp only [columns, List.length_append, List.map_cons, List.sum_cons, hlen, ih]
    omega

/-- A row holds digits and separators. -/
theorem mem_columns {b : UInt8} (h : Fits (cs.map Prod.fst) vs) (hb : b ∈ columns cs vs) :
    48 ≤ b.toNat ∧ b.toNat < 58 ∨ ∃ c ∈ cs, b ∈ c.2 := by
  rw [Fits, List.forall₂_map_left_iff] at h
  induction h with
  | nil => cases hb
  | @cons c v cs vs hc _ ih =>
    obtain ⟨hwidth, hv, hlt⟩ := hc
    lift v to ℕ using hv
    simp only [columns, List.mem_append] at hb
    rcases hb with hb | hb | hb
    · exact Or.inl (mem_zeroed hwidth (by exact_mod_cast hlt) hb)
    · exact Or.inr ⟨c, List.mem_cons_self, hb⟩
    · exact (ih hb).imp_right fun ⟨c', hc', hb'⟩ => ⟨c', List.mem_cons_of_mem _ hc', hb'⟩

/-- **Rows are compared like their numbers**, from the left. -/
theorem columns_lt (h : Fits (cs.map Prod.fst) vs) (h' : Fits (cs.map Prod.fst) vs')
    (hlt : vs < vs') : columns cs vs < columns cs vs' := by
  rw [Fits, List.forall₂_map_left_iff] at h h'
  rw [← List.lex_lt] at hlt
  induction hlt generalizing cs with
  | nil =>
    cases h
    cases h'
  | @rel v l v' l' hv =>
    obtain ⟨c, cs, hc, -, rfl⟩ := List.forall₂_cons_right_iff.mp h
    obtain ⟨⟨hwidth, hv', hlt'⟩, -⟩ := List.forall₂_cons.mp h'
    lift v to ℕ using hc.2.1
    lift v' to ℕ using hv'
    have hvv : v < v' := by exact_mod_cast hv
    have hv' : v' < 10 ^ c.1 := by exact_mod_cast hlt'
    refine append_lt_append ?_ (zeroed_lt hwidth hvv hv') _ _
    rw [length_zeroed hwidth hv', length_zeroed hwidth (hvv.trans hv')]
  | cons _ ih =>
    obtain ⟨c, cs, -, hrest, rfl⟩ := List.forall₂_cons_right_iff.mp h
    exact List.append_left_lt (List.append_left_lt
      (ih hrest (List.forall₂_cons.mp h').2))

end Rows

end Printf
