import Polly.Calendar
import Polly.Columns
import Polly.Logger

/-!
# Timestamps — broken-down times and their texts (`util/timestamp.cc`)

gmtime_r(3) splits the seconds since 1970 into a date of the Gregorian calendar and a time of the
day.  From 1970 to the end of 9999 (`Dated`) all parts fit the columns they are printed in, so the
texts of `toFormatedString` are compared like the timestamps.

* `gmtime_lt`: later seconds have later broken-down times.
* `toFormatedString_lt_iff`: the text with microseconds, and the text without them.
-/

namespace Polly

open Printf Calendar CString

/-! ### Broken-down times -/

/-- The first of January 1970. -/
def epochDay : ℤ := 135140

def daySeconds : ℤ := 86400

/-- gmtime_r(3). -/
def gmtime (t : ℤ) : Tm :=
  let date := civil (epochDay + t / daySeconds)
  let second := t % daySeconds
  { year := date.year - 1900
    mon := date.month
    mday := date.day + 1
    hour := second / 3600
    min := second % 3600 / 60
    sec := second % 60 }

/-- The numbers that are printed of a broken-down time. -/
def Tm.printed (tm : Tm) : List ℤ :=
  [tm.year + 1900, tm.mon + 1, tm.mday, tm.hour, tm.min, tm.sec]

section GmTime

variable {t t' : ℤ}

/-- Later seconds have later broken-down times. -/
theorem gmtime_lt (h : t < t') : (gmtime t).printed < (gmtime t').printed := by
  have hday : t / daySeconds ≤ t' / daySeconds := Int.ediv_le_ediv (by decide) h.le
  rcases hday.lt_or_eq with hday | hday
  · have hdate := civil_lt (show epochDay + t / daySeconds < epochDay + t' / daySeconds by omega)
    simp only [Date.fields, List.cons_lt_cons_iff, List.not_lt_nil, and_false, or_false] at hdate
    simp only [Tm.printed, gmtime, List.cons_lt_cons_iff]
    omega
  · simp only [Tm.printed, gmtime, hday, List.cons_lt_cons_iff, and_false, or_false, lt_irrefl,
      true_and, false_or]
    unfold daySeconds at hday ⊢
    omega

/-- The seconds from 1970 to the end of the year 9999. -/
def Dated (t : ℤ) : Prop := 0 ≤ t ∧ t < 253402300800

instance (t : ℤ) : Decidable (Dated t) := inferInstanceAs (Decidable (_ ∧ _))

theorem gmtime_zero : (gmtime 0).printed = [1970, 1, 1, 0, 0, 0] := by decide +kernel

theorem gmtime_last : (gmtime 253402300799).printed = [9999, 12, 31, 23, 59, 59] := by
  decide +kernel

theorem gmtime_year (h : Dated t) :
    1970 ≤ (gmtime t).year + 1900 ∧ (gmtime t).year + 1900 ≤ 9999 := by
  obtain ⟨hlow, hhigh⟩ := h
  constructor
  · rcases hlow.lt_or_eq with hlt | rfl
    · have hyear := gmtime_lt hlt
      rw [gmtime_zero] at hyear
      simp only [Tm.printed, List.cons_lt_cons_iff] at hyear
      omega
    · decide +kernel
  · rcases (show t ≤ 253402300799 by omega).lt_or_eq with hlt | rfl
    · have hyear := gmtime_lt hlt
      rw [gmtime_last] at hyear
      simp only [Tm.printed, List.cons_lt_cons_iff] at hyear
      omega
    · decide +kernel

/-- Every part fits its column. -/
theorem gmtime_fits (h : Dated t) : Fits [4, 2, 2, 2, 2, 2] (gmtime t).printed := by
  obtain ⟨hlow, hhigh⟩ := gmtime_year h
  obtain ⟨hmonth, hday⟩ := civil_bounds (epochDay + t / daySeconds)
  have hnonneg : 0 ≤ t % daySeconds := Int.emod_nonneg t (by decide)
  have hsecond : t % daySeconds < 86400 := Int.emod_lt_of_pos t (by decide)
  have hmon : (gmtime t).mon = (civil (epochDay + t / daySeconds)).month := rfl
  have hmday : (gmtime t).mday = (civil (epochDay + t / daySeconds)).day + 1 := rfl
  have hhour : (gmtime t).hour = t % daySeconds / 3600 := rfl
  have hmin : (gmtime t).min = t % daySeconds % 3600 / 60 := rfl
  have hsec : (gmtime t).sec = t % daySeconds % 60 := rfl
  simp only [Fits, Tm.printed, List.forall₂_cons, List.forall₂_nil_left_iff, and_true]
  omega

example : gmtime 1514764800 = ⟨118, 0, 1, 0, 0, 0⟩ := by decide +kernel

example : gmtime 951868799 = ⟨100, 1, 29, 23, 59, 59⟩ := by decide +kernel

end GmTime

/-! ### Texts -/

/-- `Timestamp::toFormatedString`. -/
def Timestamp.toFormatedString (ts : Timestamp) (showMicroseconds : Bool) : List UInt8 :=
  Polly.toFormatedString ts (gmtime (ts.tdiv kMicroSecondsPerSecond)) showMicroseconds

/-- The columns of the format. -/
def formatColumns : Bool → List (ℕ × List UInt8)
  | true => [(4, []), (2, []), (2, bytes " ".toList), (2, bytes ":".toList), (2, bytes ":".toList),
      (2, bytes ".".toList), (6, [])]
  | false => [(4, []), (2, []), (2, bytes " ".toList), (2, bytes ":".toList), (2, bytes ":".toList),
      (2, [])]

/-- The numbers of the columns. -/
def Timestamp.printed (ts : Timestamp) (showMicroseconds : Bool) : List ℤ :=
  (gmtime (ts / kMicroSecondsPerSecond)).printed ++
    if showMicroseconds then [ts % kMicroSecondsPerSecond] else []

section Texts

variable {ts ts' : Timestamp} {showMicroseconds : Bool}

/-- The year fills its column, ... -/
theorem zeroed_year {year : ℤ} (h : 1970 ≤ year) : zeroed 4 year = numeral year := by
  lift year to ℕ using by omega
  rw [zeroed, if_neg (by omega), leftpad_numeral (by decide) (by omega)]

/-- ... so `%4d` prints no blanks. -/
theorem spaced_year {year : ℤ} (h : 1970 ≤ year) : spaced 4 year = zeroed 4 year := by
  rw [zeroed_year h]
  lift year to ℕ using by omega
  rw [spaced, leftpad_numeral (by decide) (by omega)]

theorem Timestamp.printed_fits (h : Dated (ts / kMicroSecondsPerSecond)) (b : Bool) :
    Fits ((formatColumns b).map Prod.fst) (ts.printed b) := by
  have hnonneg : 0 ≤ ts % kMicroSecondsPerSecond := Int.emod_nonneg ts (by decide)
  have hlt : ts % kMicroSecondsPerSecond < 10 ^ 6 := Int.emod_lt_of_pos ts (by decide)
  cases b with
  | false => exact List.rel_append (gmtime_fits h) List.Forall₂.nil
  | true =>
    have hmicro : Fits [6] [ts % kMicroSecondsPerSecond] :=
      List.Forall₂.cons ⟨by decide, hnonneg, hlt⟩ List.Forall₂.nil
    exact List.rel_append (gmtime_fits h) hmicro

/-- The text in columns; the buffer holds all of it. -/
theorem Timestamp.toFormatedString_eq (h : Dated (ts / kMicroSecondsPerSecond)) (b : Bool) :
    ts.toFormatedString b = columns (formatColumns b) (ts.printed b) := by
  have hts : (0 : ℤ) ≤ ts := by
    have hlow := h.1
    unfold kMicroSecondsPerSecond at hlow
    omega
  have hfits := ts.printed_fits h b
  have hout : ts.toFormatedString b =
      cstr ((columns (formatColumns b) (ts.printed b)).take 31 ++ [0]) := by
    unfold Timestamp.toFormatedString Polly.toFormatedString
    rw [Int.tdiv_eq_ediv_of_nonneg hts, Int.tmod_eq_emod_of_nonneg hts,
      spaced_year (gmtime_year h).1]
    cases b <;> simp [formatColumns, Timestamp.printed, Tm.printed, columns]
  have hlen : (columns (formatColumns b) (ts.printed b)).length ≤ 31 := by
    rw [length_columns hfits]
    cases b <;> decide
  have hzero : 0 ∉ columns (formatColumns b) (ts.printed b) := by
    intro hmem
    rcases mem_columns hfits hmem with ⟨hlow, -⟩ | ⟨c, hc, hmem⟩
    · exact absurd hlow (by decide)
    · have hseps : ∀ c ∈ formatColumns b, 0 ∉ c.2 := by cases b <;> decide
      exact hseps c hc hmem
  rw [hout, List.take_of_length_le hlen, cstr_terminated hzero]

/-- Texts of different seconds, or of different microseconds if they are shown. -/
theorem Timestamp.toFormatedString_lt (h : Dated (ts / kMicroSecondsPerSecond))
    (h' : Dated (ts' / kMicroSecondsPerSecond)) (b : Bool)
    (hlt : ts / kMicroSecondsPerSecond < ts' / kMicroSecondsPerSecond ∨ b = true ∧ ts < ts') :
    ts.toFormatedString b < ts'.toFormatedString b := by
  rw [toFormatedString_eq h, toFormatedString_eq h']
  refine columns_lt (printed_fits h b) (printed_fits h' b) ?_
  rcases lt_or_ge (ts / kMicroSecondsPerSecond) (ts' / kMicroSecondsPerSecond) with hsec | hsec
  · refine append_lt_append ?_ (gmtime_lt hsec) _ _
    rfl
  · obtain ⟨rfl, hts⟩ := hlt.resolve_left (not_lt.mpr hsec)
    have heq : ts / kMicroSecondsPerSecond = ts' / kMicroSecondsPerSecond :=
      (Int.ediv_le_ediv (by decide) hts.le).antisymm hsec
    have hmicro : ts % kMicroSecondsPerSecond < ts' % kMicroSecondsPerSecond := by
      have h₁ := Int.emod_add_mul_ediv ts kMicroSecondsPerSecond
      have h₂ := Int.emod_add_mul_ediv ts' kMicroSecondsPerSecond
      rw [heq] at h₁
      linarith
    unfold Timestamp.printed
    rw [heq]
    exact List.append_left_lt (List.cons_lt_cons_iff.mpr (Or.inl hmicro))

/-- **Formatted timestamps sort by time**, from 1970 to the end of 9999: the texts with microseconds
are compared like the timestamps, those without like their seconds. -/
theorem Timestamp.toFormatedString_lt_iff (h : Dated (ts / kMicroSecondsPerSecond))
    (h' : Dated (ts' / kMicroSecondsPerSecond)) :
    (ts.toFormatedString true < ts'.toFormatedString true ↔ ts < ts') ∧
      (ts.toFormatedString false < ts'.toFormatedString false ↔
        ts / kMicroSecondsPerSecond < ts' / kMicroSecondsPerSecond) := by
  constructor
  · refine ⟨fun hlt => ?_, fun hlt => toFormatedString_lt h h' true (Or.inr ⟨rfl, hlt⟩)⟩
    by_contra hge
    rcases (not_lt.mp hge).lt_or_eq with hgt | rfl
    · exact List.lt_asymm hlt (toFormatedString_lt h' h true (Or.inr ⟨rfl, hgt⟩))
    · exact List.lt_irrefl _ hlt
  · refine ⟨fun hlt => ?_, fun hlt => toFormatedString_lt h h' false (Or.inl hlt)⟩
    by_contra hge
    rcases (not_lt.mp hge).lt_or_eq with hgt | heq
    · exact List.lt_asymm hlt (toFormatedString_lt h' h false (Or.inl hgt))
    · rw [toFormatedString_eq h, toFormatedString_eq h', Timestamp.printed, Timestamp.printed,
        heq] at hlt
      exact List.lt_irrefl _ hlt

/-- The last microsecond of 1999 and the first one of 2000. -/
theorem toFormatedString_lt_newYear :
    Timestamp.toFormatedString 946684799999999 true = bytes "19991231 23:59:59.999999".toList ∧
    Timestamp.toFormatedString 946684799999999 true <
      Timestamp.toFormatedString 946684800000000 true :=
  ⟨by decide +kernel,
    (Timestamp.toFormatedString_lt_iff (by decide) (by decide)).1.mpr (by decide)⟩

end Texts

end Polly
