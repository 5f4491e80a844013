import Mathlib

/-!
# Calendar — the days of the Gregorian calendar

Days are counted from the first of January 1600 and laid out in eras of 400 years, years and months;
`locate` finds the place of a number in a row of buckets, and is all that years and months need.

* `locate_strictMono`: later numbers have later places.
* `civil_lt`: later days have later dates, compared by year, month and day.
* `civil_bounds`: months and days are in their ranges.
-/

namespace Calendar

/-! ### Buckets -/

/-- The bucket of the `n`-th item, for buckets of these sizes, and the item's number in it. -/
def locate : List ℕ → ℕ → ℕ × ℕ
  | [], n => (0, n)
  | b :: bs, n =>
    if n < b then (0, n)
    else
      match locate bs (n - b) with
      | (k, r) => (k + 1, r)

section Buckets

variable {b : ℕ} {bs : List ℕ} {n m : ℕ}

theorem locate_cons_of_lt (h : n < b) : locate (b :: bs) n = (0, n) := by
  rw [locate, if_pos h]

theorem locate_cons_of_le (h : b ≤ n) :
    locate (b :: bs) n = ((locate bs (n - b)).1 + 1, (locate bs (n - b)).2) := by
  rw [locate, if_neg (not_lt.mpr h)]

/-- The item lies in a bucket, within its size. -/
theorem locate_bounds (h : n < bs.sum) :
    ∃ size, bs[(locate bs n).1]? = some size ∧ (locate bs n).2 < size := by
  induction bs generalizing n with
  | nil => exact absurd h (Nat.not_lt_zero n)
  | cons b bs ih =>
    rcases lt_or_ge n b with hb | hb
    · rw [locate_cons_of_lt hb]
      exact ⟨b, rfl, hb⟩
    · rw [List.sum_cons] at h
      obtain ⟨size, hsize, hlt⟩ := ih (show n - b < bs.sum by omega)
      rw [locate_cons_of_le hb]
      exact ⟨size, by rw [List.getElem?_cons_succ, hsize], hlt⟩

/-- Later items are in later buckets, or later in the same bucket. -/
theorem locate_strictMono (bs : List ℕ) : StrictMono fun n => toLex (locate bs n) := by
  intro n m h
  change toLex (locate bs n) < toLex (locate bs m)
  induction bs generalizing n m with
  | nil => exact Prod.Lex.toLex_lt_toLex.mpr (Or.inr ⟨rfl, h⟩)
  | cons b bs ih =>
    rw [Prod.Lex.toLex_lt_toLex]
    rcases lt_or_ge m b with hm | hm
    · rw [locate_cons_of_lt hm, locate_cons_of_lt (h.trans hm)]
      exact Or.inr ⟨rfl, h⟩
    · rw [locate_cons_of_le hm]
      rcases lt_or_ge n b with hn | hn
      · rw [locate_cons_of_lt hn]
        exact Or.inl (Nat.succ_pos _)
      · rw [locate_cons_of_le hn]
        rcases Prod.Lex.toLex_lt_toLex.mp (ih (show n - b < m - b by omega)) with hk | ⟨hk, hr⟩
        · exact Or.inl (Nat.succ_lt_succ hk)
        · exact Or.inr ⟨congrArg (· + 1) hk, hr⟩

end Buckets

/-! ### Years and months -/

def isLeap (year : ℕ) : Bool := year % 4 = 0 && (year % 100 ≠ 0 || year % 400 = 0)

def yearDays (year : ℕ) : ℕ := if isLeap year then 366 else 365

def monthDays (year : ℕ) : List ℕ :=
  [31, if isLeap year then 29 else 28, 31, 30, 31, 30, 31, 31, 30, 31, 30, 31]

/-- The years of an era, the first of which is a multiple of 400. -/
def eraYears : List ℕ := (List.range 400).map yearDays

def eraDays : ℕ := 146097

theorem sum_eraYears : eraYears.sum = eraDays := by decide +kernel

theorem sum_monthDays (year : ℕ) : (monthDays year).sum = yearDays year := by
  unfold monthDays yearDays
  split_ifs <;> rfl

theorem mem_monthDays {year days : ℕ} (h : days ∈ monthDays year) : days ≤ 31 := by
  unfold monthDays at h
  split_ifs at h <;> simp at h <;> omega

/-! ### Dates -/

/-- A date; months and days are counted from zero. -/
structure Date where
  year : ℤ
  month : ℕ
  day : ℕ
  deriving DecidableEq, Repr

/-- The date as a list that is compared from the left. -/
def Date.fields (d : Date) : List ℤ := [d.year, d.month, d.day]

/-- The date of a day. -/
def civil (d : ℤ) : Date :=
  match locate eraYears (d % eraDays).toNat with
  | (year, n) =>
    match locate (monthDays year) n with
    | (month, day) => ⟨1600 + 400 * (d / eraDays) + year, month, day⟩

section Dates

variable {d d' : ℤ}

/-- The year of a day within its era, and the day within that year. -/
theorem era_spec (d : ℤ) : ∃ year n, locate eraYears (d % eraDays).toNat = (year, n) ∧
    year < 400 ∧ n < yearDays year ∧
    civil d = ⟨1600 + 400 * (d / eraDays) + year, (locate (monthDays year) n).1,
      (locate (monthDays year) n).2⟩ := by
  have hera : (d % eraDays).toNat < eraYears.sum := by
    rw [sum_eraYears]
    have hlt : d % eraDays < eraDays := Int.emod_lt_of_pos d (by decide)
    have hge : 0 ≤ d % eraDays := Int.emod_nonneg d (by decide)
    omega
  obtain ⟨size, hsize, hlt⟩ := locate_bounds hera
  obtain ⟨hyear, hdays⟩ := List.getElem?_eq_some_iff.mp hsize
  simp only [eraYears, List.length_map, List.length_range, List.getElem_map,
    List.getElem_range] at hyear hdays
  exact ⟨_, _, rfl, hyear, hdays ▸ hlt, rfl⟩

theorem civil_bounds (d : ℤ) : (civil d).month < 12 ∧ (civil d).day < 31 := by
  obtain ⟨year, n, -, -, hn, hd⟩ := era_spec d
  obtain ⟨size, hsize, hlt⟩ := locate_bounds (hn.trans_eq (sum_monthDays year).symm)
  obtain ⟨hmonth, hdays⟩ := List.getElem?_eq_some_iff.mp hsize
  rw [hd]
  exact ⟨hmonth, hlt.trans_le (mem_monthDays (hdays ▸ List.getElem_mem hmonth))⟩

/-- **Dates are in order.** -/
theorem civil_lt (h : d < d') : (civil d).fields < (civil d').fields := by
  obtain ⟨y, n, hy, hy400, -, hd⟩ := era_spec d
  obtain ⟨y', n', hy', -, -, hd'⟩ := era_spec d'
  simp only [hd, hd', Date.fields, List.cons_lt_cons_iff]
  have hera : d / eraDays ≤ d' / eraDays := Int.ediv_le_ediv (by decide) h.le
  rcases hera.lt_or_eq with hera | hera
  · exact Or.inl (by omega)
  · have hmod : (d % eraDays).toNat < (d' % eraDays).toNat := by
      have h₁ := Int.emod_add_mul_ediv d eraDays
      have h₂ := Int.emod_add_mul_ediv d' eraDays
      have hge : 0 ≤ d % eraDays := Int.emod_nonneg d (by decide)
      rw [hera] at h₁
      omega
    have hplace := locate_strictMono eraYears hmod
    simp only [hy, hy', Prod.Lex.toLex_lt_toLex] at hplace
    rcases hplace with hyear | ⟨rfl, hn⟩
    · exact Or.inl (by omega)
    · refine Or.inr ⟨by omega, ?_⟩
      rcases Prod.Lex.toLex_lt_toLex.mp (locate_strictMono (monthDays y) hn) with hm | ⟨hm, hr⟩
      · exact Or.inl (by exact_mod_cast hm)
      · exact Or.inr ⟨by exact_mod_cast hm, Or.inl (by exact_mod_cast hr)⟩

end Dates

end Calendar
