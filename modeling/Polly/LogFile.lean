import Polly.Runs

/-!
# LogFile — log files that roll (`log/file.h`, `log/file.cc`, `log/log_file.h`, `log/log_file.cc`)

A `LogFile` writes slices through an `AppendFile` and rolls to a new one when the file is too big or
a new day has begun; the day is only looked at every `kCheckInterval` slices, by a counter that is a
function-local static of `Append` and therefore an argument here.  The results of fwrite(3) and of
time(2) come with the call.  `rollToNewFile` asserts that the clock is past the last roll; the
constructor makes the same test against a `last_roll_` that nobody has set, so that value is a
parameter.

A `Journal` is a `LogFile` with the files it has rolled away and, for every file, the slices that
went through it and when.

* `rolls_pass_iff`: the assertion holds in every roll exactly if no size roll comes in the second
  the file was opened in (and the constructor finds a small value).
* `files_partition`: the files partition what was appended, with bounds on their size and on what
  is written to them on later days.
-/

namespace Polly

open Runs

/-! ### AppendFile -/

/-- A file by what its name is made of, with the bytes fwrite(3) has accepted. -/
structure AppendFile where
  basename : String
  created : ℤ
  contents : List UInt8
  hasWritten : ℕ
  deriving DecidableEq, Repr

namespace AppendFile

/-- The loop of `Append`: fwrite(3) is called until all is written or it writes nothing.  Its
results are cut to what was asked for, and it writes nothing when there are none left. -/
def fwriteLoop (size : ℕ) : ℕ → List ℕ → ℕ
  | written, [] => written
  | written, n :: ns =>
    if min n (size - written) = 0 then written
    else fwriteLoop size (written + min n (size - written)) ns

/-- How many of `size` bytes get written. -/
def fwriteAll (size : ℕ) : List ℕ → ℕ
  | [] => 0
  | n :: ns => fwriteLoop size (min n size) ns

/-- `AppendFile::Append`; `has_written_` counts the whole slice in any case. -/
def append (f : AppendFile) (s : List UInt8) (fwrites : List ℕ) : AppendFile :=
  if s.isEmpty then f
  else
    { f with
      contents := f.contents ++ s.take (fwriteAll s.length fwrites)
      hasWritten := f.hasWritten + s.length }

theorem append_hasWritten (f : AppendFile) (s : List UInt8) (fwrites : List ℕ) :
    (f.append s fwrites).hasWritten = f.hasWritten + s.length := by
  unfold append
  split_ifs with h
  · rw [List.isEmpty_iff.mp h]
    rfl
  · rfl

theorem append_contents {f : AppendFile} {s : List UInt8} {fwrites : List ℕ}
    (h : fwriteAll s.length fwrites = s.length) :
    (f.append s fwrites).contents = f.contents ++ s := by
  unfold append
  split_ifs with hnil
  · rw [List.isEmpty_iff.mp hnil, List.append_nil]
  · dsimp only
    rw [h, List.take_length]

end AppendFile

/-! ### LogFile -/

def kRollingSize : ℕ := 100 * 1024 * 1024
def kFlushInterval : ℤ := 5
def kCheckInterval : ℕ := 1024
def kRollPerDay : ℤ := 60 * 60 * 24

/-- `now / kRollPerDay_ * kRollPerDay_`. -/
def period (now : ℤ) : ℤ := now.tdiv kRollPerDay * kRollPerDay

theorem period_mono {t t' : ℤ} (h : t ≤ t') : period t ≤ period t' := by
  have hdiv : t.tdiv kRollPerDay ≤ t'.tdiv kRollPerDay := Int.tdiv_le_tdiv (by decide) h
  exact Int.mul_le_mul_of_nonneg_right hdiv (by decide)

structure LogFile where
  basename : String
  file : AppendFile
  lastRoll : ℤ
  lastFlush : ℤ
  startPeriod : ℤ
  deriving DecidableEq, Repr

/-- A call of `Append`: the slice, what fwrite(3) returns, and what time(2) returns in the check
and in `getLogFileName`. -/
structure AppendCall where
  slice : List UInt8
  fwrites : List ℕ
  now : ℤ
  rollNow : ℤ
  deriving DecidableEq, Repr

/-- What `Append` does after it has written the slice. -/
inductive Verdict where
  | skip | check | flush | dayRoll | sizeRoll
  deriving DecidableEq, Repr

/-- The verdicts of the periodic check. -/
def Verdict.checks : Verdict → Bool
  | .check | .flush | .dayRoll => true
  | .skip | .sizeRoll => false

def Verdict.rolls : Verdict → Bool
  | .dayRoll | .sizeRoll => true
  | .skip | .check | .flush => false

namespace LogFile

/-- A log file that has just opened its file. -/
def opened (basename : String) (now : ℤ) : LogFile where
  basename := basename
  file := ⟨basename, now, [], 0⟩
  lastRoll := now
  lastFlush := now
  startPeriod := period now

/-- `rollToNewFile`: the assertion, and all members set anew. -/
def rollToNewFile (basename : String) (lastRoll now : ℤ) : Option LogFile :=
  guarded (lastRoll < now) (opened basename now)

/-- The constructor; `lastRoll` is what the uninitialised member holds. -/
def new (basename : String) (lastRoll now : ℤ) : Option LogFile :=
  rollToNewFile basename lastRoll now

/-- `LogFile::Append`, with the static counter; `Flush` hands the accepted bytes on to the disk. -/
def append (l : LogFile) (count : ℕ) (a : AppendCall) : Option (LogFile × ℕ × Verdict) :=
  let l := { l with file := l.file.append a.slice a.fwrites }
  if kRollingSize < l.file.hasWritten then
    (rollToNewFile l.basename l.lastRoll a.rollNow).map fun l => (l, count, .sizeRoll)
  else
    let count := count + 1
    -- check per 1024 logs
    if kCheckInterval ≤ count then
      -- a new day?
      if period a.now ≠ l.startPeriod then
        (rollToNewFile l.basename l.lastRoll a.rollNow).map fun l => (l, 0, .dayRoll)
      else if kFlushInterval < a.now - l.lastFlush then
        some ({ l with lastFlush := a.now }, 0, .flush)
      else some (l, 0, .check)
    else some (l, count, .skip)

variable {l l' : LogFile} {count count' : ℕ} {a : AppendCall} {v : Verdict}

theorem rollToNewFile_map {α : Type} (f : LogFile → α) (basename : String) (lastRoll now : ℤ) :
    (rollToNewFile basename lastRoll now).map f =
      if lastRoll < now then some (f (opened basename now)) else none := by
  rw [rollToNewFile, guarded]
  split_ifs <;> rfl

/-! The four ways through `Append`. -/

theorem append_sizeRoll (count : ℕ) (hsize : kRollingSize < l.file.hasWritten + a.slice.length) :
    l.append count a =
      if l.lastRoll < a.rollNow then some (opened l.basename a.rollNow, count, .sizeRoll)
      else none := by
  simp only [append, AppendFile.append_hasWritten]
  rw [if_pos hsize, rollToNewFile_map]

theorem append_skip (hsize : l.file.hasWritten + a.slice.length ≤ kRollingSize)
    (hcount : count + 1 < kCheckInterval) : l.append count a =
      some ({ l with file := l.file.append a.slice a.fwrites }, count + 1, .skip) := by
  simp only [append, AppendFile.append_hasWritten]
  rw [if_neg (not_lt.mpr hsize), if_neg (not_le.mpr hcount)]

theorem append_dayRoll (hsize : l.file.hasWritten + a.slice.length ≤ kRollingSize)
    (hcount : kCheckInterval ≤ count + 1) (hday : period a.now ≠ l.startPeriod) :
    l.append count a =
      if l.lastRoll < a.rollNow then some (opened l.basename a.rollNow, 0, .dayRoll)
      else none := by
  simp only [append, AppendFile.append_hasWritten]
  rw [if_neg (not_lt.mpr hsize), if_pos hcount, if_pos hday, rollToNewFile_map]

theorem append_check (hsize : l.file.hasWritten + a.slice.length ≤ kRollingSize)
    (hcount : kCheckInterval ≤ count + 1) (hday : period a.now = l.startPeriod) :
    ∃ t v, l.append count a =
      some ({ l with file := l.file.append a.slice a.fwrites, lastFlush := t }, 0, v) ∧
        v.checks = true ∧ v.rolls = false := by
  simp only [append, AppendFile.append_hasWritten]
  rw [if_neg (not_lt.mpr hsize), if_pos hcount, if_neg (not_ne_iff.mpr hday)]
  split_ifs
  · exact ⟨a.now, .flush, rfl, rfl, rfl⟩
  · exact ⟨l.lastFlush, .check, rfl, rfl, rfl⟩

/-- What `Append` does, by its verdict. -/
theorem append_cases (h : l.append count a = some (l', count', v)) :
    (v.rolls = true ∧ l.lastRoll < a.rollNow ∧ l' = opened l.basename a.rollNow ∧
      (v = .sizeRoll ∧ kRollingSize < l.file.hasWritten + a.slice.length ∧ count' = count ∨
        v = .dayRoll ∧ l.file.hasWritten + a.slice.length ≤ kRollingSize ∧
          kCheckInterval ≤ count + 1 ∧ period a.now ≠ l.startPeriod ∧ count' = 0)) ∨
    (v.rolls = false ∧ l.file.hasWritten + a.slice.length ≤ kRollingSize ∧
      (∃ t, l' = { l with file := l.file.append a.slice a.fwrites, lastFlush := t }) ∧
      (v = .skip ∧ count + 1 < kCheckInterval ∧ count' = count + 1 ∨
        v.checks = true ∧ kCheckInterval ≤ count + 1 ∧ period a.now = l.startPeriod ∧
          count' = 0)) := by
  rcases lt_or_ge kRollingSize (l.file.hasWritten + a.slice.length) with hsize | hsize
  · rw [append_sizeRoll count hsize] at h
    split_ifs at h with hlt
    cases h
    exact Or.inl ⟨rfl, hlt, rfl, Or.inl ⟨rfl, hsize, rfl⟩⟩
  rcases lt_or_ge (count + 1) kCheckInterval with hcount | hcount
  · rw [append_skip hsize hcount] at h
    cases h
    exact Or.inr ⟨rfl, hsize, ⟨_, rfl⟩, Or.inl ⟨rfl, hcount, rfl⟩⟩
  by_cases hday : period a.now = l.startPeriod
  · obtain ⟨t, v', heq, hchecks, hrolls⟩ := append_check hsize hcount hday
    rw [heq] at h
    cases h
    exact Or.inr ⟨hrolls, hsize, ⟨t, rfl⟩, Or.inr ⟨hchecks, hcount, hday, rfl⟩⟩
  · rw [append_dayRoll hsize hcount hday] at h
    split_ifs at h with hlt
    cases h
    exact Or.inl ⟨rfl, hlt, rfl, Or.inr ⟨rfl, hsize, hcount, hday, rfl⟩⟩

/-- `Append` aborts exactly if it has to roll and the clock is not past the last roll. -/
theorem append_eq_none : l.append count a = none ↔
    a.rollNow ≤ l.lastRoll ∧ (kRollingSize < l.file.hasWritten + a.slice.length ∨
      kCheckInterval ≤ count + 1 ∧ period a.now ≠ l.startPeriod) := by
  rcases lt_or_ge kRollingSize (l.file.hasWritten + a.slice.length) with hsize | hsize
  · rw [append_sizeRoll count hsize]
    simp [hsize]
  rcases lt_or_ge (count + 1) kCheckInterval with hcount | hcount
  · rw [append_skip hsize hcount]
    simp [hsize, hcount]
  by_cases hday : period a.now = l.startPeriod
  · obtain ⟨t, v, heq, -⟩ := append_check hsize hcount hday
    rw [heq]
    simp [hsize, hday]
  · rw [append_dayRoll hsize hcount hday]
    simp [hcount, hday]

/-- The counter stays below the interval. -/
theorem append_count (hcount : count < kCheckInterval)
    (h : l.append count a = some (l', count', v)) : count' < kCheckInterval := by
  have hzero : 0 < kCheckInterval := by decide
  rcases append_cases h with ⟨-, -, -, ⟨-, -, hc⟩ | ⟨-, -, -, -, hc⟩⟩ |
    ⟨-, -, -, ⟨-, hlt, hc⟩ | ⟨-, -, -, hc⟩⟩ <;> omega

end LogFile

/-! ### Journals -/

/-- A slice and the time it was appended at. -/
abbrev Entry := List UInt8 × ℤ

/-- A file with the period it was opened in and the slices that went through it. -/
structure Filed where
  file : AppendFile
  startPeriod : ℤ
  entries : List Entry

structure Journal where
  log : LogFile
  count : ℕ
  /-- the last time time(2) has returned -/
  clock : ℤ
  /-- what went through the current file -/
  entries : List Entry
  /-- the files that were rolled away, oldest first -/
  closed : List Filed

namespace Journal

/-- A log file just constructed. -/
def start (basename : String) (lastRoll now : ℤ) (count : ℕ) : Option Journal :=
  (LogFile.new basename lastRoll now).map fun log => ⟨log, count, now, [], []⟩

/-- The current file after the slice is written. -/
def filed (s : Journal) (a : AppendCall) : Filed where
  file := s.log.file.append a.slice a.fwrites
  startPeriod := s.log.startPeriod
  entries := s.entries ++ [(a.slice, a.now)]

def step (s : Journal) (a : AppendCall) : Option Journal :=
  (s.log.append s.count a).map fun (log, count, v) =>
    { log := log
      count := count
      clock := a.rollNow
      entries := if v.rolls then [] else (s.filed a).entries
      closed := if v.rolls then s.closed ++ [s.filed a] else s.closed }

/-- All files in the order they were opened in. -/
def files (s : Journal) : List Filed := s.closed ++ [⟨s.log.file, s.log.startPeriod, s.entries⟩]

/-- The clock does not go back. -/
def Ticks (s : Journal) (a : AppendCall) : Prop := s.clock ≤ a.now ∧ a.now ≤ a.rollNow

/-- The clock of a sequence of calls does not go back. -/
def ClockFrom : ℤ → List AppendCall → Prop
  | _, [] => True
  | t, a :: as => t ≤ a.now ∧ a.now ≤ a.rollNow ∧ ClockFrom a.rollNow as

/-- The slice stays within the size limit, or the clock is past the second the file was opened
in. -/
def Late (s : Journal) (a : AppendCall) : Prop :=
  s.log.file.hasWritten + a.slice.length ≤ kRollingSize ∨ s.log.lastRoll < a.rollNow

variable {s s' : Journal} {a : AppendCall}

theorem step_cases (h : step s a = some s') :
    ∃ v, s.log.append s.count a = some (s'.log, s'.count, v) ∧ s'.clock = a.rollNow ∧
      s'.entries = (if v.rolls then [] else (s.filed a).entries) ∧
      s'.closed = if v.rolls then s.closed ++ [s.filed a] else s.closed := by
  obtain ⟨⟨log, count, v⟩, hlog, rfl⟩ := Option.map_eq_some_iff.mp h
  exact ⟨v, hlog, rfl, rfl, rfl⟩

/-- A slice that takes the file past the limit rolls it away. -/
theorem step_sizeRoll (hsize : kRollingSize < s.log.file.hasWritten + a.slice.length)
    (hlate : s.log.lastRoll < a.rollNow) :
    step s a = some ⟨LogFile.opened s.log.basename a.rollNow, s.count, a.rollNow, [],
      s.closed ++ [s.filed a]⟩ := by
  rw [step, LogFile.append_sizeRoll s.count hsize, if_pos hlate]
  rfl

theorem step_skip (hsize : s.log.file.hasWritten + a.slice.length ≤ kRollingSize)
    (hcount : s.count + 1 < kCheckInterval) :
    step s a = some ⟨{ s.log with file := s.log.file.append a.slice a.fwrites }, s.count + 1,
      a.rollNow, (s.filed a).entries, s.closed⟩ := by
  rw [step, LogFile.append_skip hsize hcount]
  rfl

theorem along_ticks {t : ℤ} {as : List AppendCall} (hs : s.clock = t) (h : ClockFrom t as) :
    Along step Ticks s as := by
  induction as generalizing s t with
  | nil => trivial
  | cons a as ih =>
    obtain ⟨hnow, hroll, hrest⟩ := h
    refine ⟨⟨hs.le.trans hnow, hroll⟩, fun s' hs' => ih ?_ hrest⟩
    obtain ⟨v, -, hclock, -⟩ := step_cases hs'
    exact hclock

/-! ### The assertion of `rollToNewFile` -/

/-- The period of the file is that of the second it was opened in, which is over or running. -/
structure RollInv (s : Journal) : Prop where
  opened : s.log.lastRoll ≤ s.clock
  startPeriod : s.log.startPeriod = period s.log.lastRoll

theorem start_eq_some {basename : String} {lastRoll now : ℤ} {count : ℕ} {s : Journal} :
    start basename lastRoll now count = some s ↔
      lastRoll < now ∧ s = ⟨LogFile.opened basename now, count, now, [], []⟩ := by
  unfold start LogFile.new LogFile.rollToNewFile guarded
  split_ifs with hlt
  · simp [hlt, eq_comm]
  · simp [hlt]

theorem step_rollInv (hI : RollInv s) (hT : Ticks s a) (h : step s a = some s') : RollInv s' := by
  obtain ⟨hnow, hroll⟩ := hT
  have hopened := hI.opened
  obtain ⟨v, hlog, hclock, -⟩ := step_cases h
  rcases LogFile.append_cases hlog with ⟨-, -, hlog', -⟩ | ⟨-, -, ⟨t, hlog'⟩, -⟩
  · exact ⟨by rw [hlog', hclock]; exact le_rfl, by rw [hlog']; rfl⟩
  · refine ⟨?_, by rw [hlog']; exact hI.startPeriod⟩
    rw [hlog', hclock]
    dsimp only
    omega

/-- A roll on a new day always passes: the clock has moved on since the file was opened. -/
theorem step_isSome_iff (hI : RollInv s) (hT : Ticks s a) :
    (step s a).isSome = true ↔ Late s a := by
  obtain ⟨hnow, hroll⟩ := hT
  have hopened := hI.opened
  rw [step, Option.isSome_map, ← not_iff_not, Bool.not_eq_true, Option.isSome_eq_false_iff,
    Option.isNone_iff_eq_none, LogFile.append_eq_none, Late, not_or, not_le, not_lt]
  constructor
  · rintro ⟨hlast, hsize | ⟨-, hday⟩⟩
    · exact ⟨hsize, hlast⟩
    · have hsame : a.now = s.log.lastRoll := by omega
      rw [hI.startPeriod, hsame] at hday
      exact absurd rfl hday
  · rintro ⟨hsize, hlast⟩
    exact ⟨hlast, Or.inl hsize⟩

/-- **Rolling never aborts**, for any slices and any clock that does not go back, exactly if the
constructor finds a `last_roll_` before the current time, and no slice that takes the file past
`kRollingSize` is appended in the second the file was opened in. -/
theorem rolls_pass_iff (basename : String) (lastRoll now : ℤ) (count : ℕ) {as : List AppendCall}
    (hclock : ClockFrom now as) :
    (∃ s, start basename lastRoll now count = some s ∧
        Along step (fun s a => (step s a).isSome = true) s as) ↔
      lastRoll < now ∧ ∀ s, start basename lastRoll now count = some s → Along step Late s as := by
  have key : ∀ s, start basename lastRoll now count = some s →
      (Along step (fun s a => (step s a).isSome = true) s as ↔ Along step Late s as) := by
    intro s hs
    obtain ⟨-, rfl⟩ := start_eq_some.mp hs
    refine along_iff (I := RollInv) (L := Ticks) (fun _ _ hI hT => step_isSome_iff hI hT)
      (fun _ _ _ hI hT _ h => step_rollInv hI hT h) (along_ticks rfl hclock) ⟨le_rfl, rfl⟩
  constructor
  · rintro ⟨s, hs, hpass⟩
    refine ⟨(start_eq_some.mp hs).1, fun s' hs' => ?_⟩
    rw [hs] at hs'
    cases hs'
    exact (key s hs).mp hpass
  · rintro ⟨hlt, hlate⟩
    obtain ⟨s, hs⟩ : ∃ s, start basename lastRoll now count = some s :=
      ⟨_, start_eq_some.mpr ⟨hlt, rfl⟩⟩
    exact ⟨s, hs, (key s hs).mpr (hlate s hs)⟩

/-- A slice just over the limit. -/
def bigCall (rollNow : ℤ) : AppendCall where
  slice := List.replicate (kRollingSize + 1) 0
  fwrites := [kRollingSize + 1]
  now := rollNow
  rollNow := rollNow

theorem bigCall_size (rollNow : ℤ) : (bigCall rollNow).slice.length = kRollingSize + 1 :=
  List.length_replicate

/-- The log file is constructed in second 1, and the big slice comes in second 2. -/
theorem rolls_pass_nextSecond :
    ∃ s, start "polly" 0 1 0 = some s ∧
      Along step (fun s a => (step s a).isSome = true) s [bigCall 2] := by
  have hclock : ClockFrom 1 [bigCall 2] := ⟨by decide, le_rfl, trivial⟩
  refine (rolls_pass_iff "polly" 0 1 0 hclock).mpr ⟨by decide, fun s hs => ?_⟩
  obtain ⟨-, rfl⟩ := start_eq_some.mp hs
  refine ⟨Or.inr ?_, fun _ _ => trivial⟩
  decide

/-- The assertion fails if the big slice comes in second 1 as well, and in the constructor if the
uninitialised `last_roll_` happens to be the current time. -/
theorem rolls_fail_sameSecond :
    (∃ s, start "polly" 0 1 0 = some s ∧ ClockFrom 1 [bigCall 1] ∧ step s (bigCall 1) = none) ∧
      start "polly" 1 1 0 = none := by
  refine ⟨⟨_, start_eq_some.mpr ⟨by decide, rfl⟩, ⟨by decide, le_rfl, trivial⟩, ?_⟩, rfl⟩
  rw [step, Option.map_eq_none_iff, LogFile.append_eq_none, bigCall_size]
  refine ⟨by decide, Or.inl ?_⟩
  omega

/-! ### The partition -/

/-- The entries that were written on a later day than the file was opened on. -/
def lateEntries (startPeriod : ℤ) (entries : List Entry) : List Entry :=
  entries.filter fun e => period e.2 ≠ startPeriod

/-- What is to be said of one file: it holds its slices whole and in order; it was within the size
limit whenever one of them was written; and at most `kCheckInterval` came on a later day. -/
structure Sound (f : Filed) : Prop where
  contents : f.file.contents = f.entries.flatMap Prod.fst
  size : ∀ k < f.entries.length, ((f.entries.take k).flatMap Prod.fst).length ≤ kRollingSize
  late : (lateEntries f.startPeriod f.entries).length ≤ kCheckInterval

/-- The files so far are sound; the current one is within the limit, and the counter is ahead of
its late entries. -/
structure PartInv (s : Journal) : Prop extends RollInv s where
  count : s.count < kCheckInterval
  written : s.log.file.hasWritten = s.log.file.contents.length
  small : s.log.file.hasWritten ≤ kRollingSize
  contents : s.log.file.contents = s.entries.flatMap Prod.fst
  times : ∀ e ∈ s.entries, s.log.lastRoll ≤ e.2 ∧ e.2 ≤ s.clock
  late : (lateEntries s.log.startPeriod s.entries).length ≤ s.count
  closed : ∀ f ∈ s.closed, Sound f

theorem lateEntries_concat_le (p : ℤ) (entries : List Entry) (e : Entry) :
    (lateEntries p (entries ++ [e])).length ≤ (lateEntries p entries).length + 1 := by
  rw [lateEntries, List.filter_append, List.length_append]
  have hone := List.length_filter_le (fun e : Entry => decide (period e.2 ≠ p)) [e]
  rw [List.length_singleton] at hone
  unfold lateEntries
  omega

theorem take_flatMap_le (entries : List Entry) (k : ℕ) :
    ((entries.take k).flatMap Prod.fst).length ≤ (entries.flatMap Prod.fst).length := by
  conv_rhs => rw [← List.take_append_drop k entries, List.flatMap_append, List.length_append]
  exact Nat.le_add_right _ _

/-- What went through the current file is within the limit, and so is any part of it. -/
theorem PartInv.take_le (hI : PartInv s) (k : ℕ) :
    ((s.entries.take k).flatMap Prod.fst).length ≤ kRollingSize := by
  have hle := take_flatMap_le s.entries k
  have hsmall := hI.small
  rw [hI.written, hI.contents] at hsmall
  exact hle.trans hsmall

theorem PartInv.filed_sound (hI : PartInv s)
    (hacc : AppendFile.fwriteAll a.slice.length a.fwrites = a.slice.length) :
    Sound (s.filed a) where
  contents := by
    simp only [filed, List.flatMap_append, List.flatMap_cons, List.flatMap_nil, List.append_nil]
    rw [AppendFile.append_contents hacc, hI.contents]
  size := by
    intro k hk
    simp only [filed, List.length_append, List.length_singleton] at hk ⊢
    rw [List.take_append_of_le_length (by omega)]
    exact hI.take_le k
  late := by
    have hle := lateEntries_concat_le s.log.startPeriod s.entries (a.slice, a.now)
    have hlate := hI.late
    have hcount := hI.count
    exact hle.trans (by omega)

/-- The current file is sound as well. -/
theorem PartInv.files_sound (hI : PartInv s) : ∀ f ∈ s.files, Sound f := by
  intro f hf
  rcases List.mem_append.mp hf with hf | hf
  · exact hI.closed f hf
  · rw [List.mem_singleton.mp hf]
    exact ⟨hI.contents, fun k _ => hI.take_le k, hI.late.trans hI.count.le⟩

/-- On the day the file was opened nothing in it is late. -/
theorem PartInv.lateEntries_eq_nil (hI : PartInv s) (hT : Ticks s a)
    (hday : period a.now = s.log.startPeriod) : lateEntries s.log.startPeriod s.entries = [] := by
  rw [lateEntries, List.filter_eq_nil_iff]
  intro e he
  obtain ⟨hfrom, hto⟩ := hI.times e he
  have hlow := period_mono hfrom
  have hhigh := period_mono (hto.trans hT.1)
  rw [← hI.startPeriod] at hlow
  rw [hday] at hhigh
  simpa using le_antisymm hhigh hlow

/-- A file that was just opened has no entries to check. -/
theorem RollInv.partInv {basename : String} {now : ℤ} (h : RollInv s)
    (hcount : s.count < kCheckInterval) (hlog : s.log = LogFile.opened basename now)
    (hentries : s.entries = []) (hclosed : ∀ f ∈ s.closed, Sound f) : PartInv s := by
  refine ⟨h, hcount, ?_, ?_, ?_, ?_, ?_, hclosed⟩
  · rw [hlog]
    rfl
  · rw [hlog]
    exact Nat.zero_le _
  · rw [hlog, hentries]
    rfl
  · rw [hentries]
    exact fun e he => absurd he List.not_mem_nil
  · rw [hentries]
    exact Nat.zero_le _

theorem PartInv.filed_times (hI : PartInv s) (hT : Ticks s a) :
    ∀ e ∈ (s.filed a).entries, s.log.lastRoll ≤ e.2 ∧ e.2 ≤ a.rollNow := by
  obtain ⟨hnow, hrollNow⟩ := hT
  have hopened := hI.opened
  intro e he
  rcases List.mem_append.mp he with he | he
  · obtain ⟨hfrom, hto⟩ := hI.times e he
    exact ⟨hfrom, by omega⟩
  · rw [List.mem_singleton.mp he]
    exact ⟨by dsimp only; omega, hrollNow⟩

/-- The counter stays ahead of the late entries: it counts the slice, or there was a check on the
day the file was opened on. -/
theorem PartInv.filed_late {count : ℕ} (hI : PartInv s) (hT : Ticks s a)
    (h : count = s.count + 1 ∨ period a.now = s.log.startPeriod) :
    (lateEntries s.log.startPeriod (s.filed a).entries).length ≤ count := by
  rcases h with rfl | hday
  · have hle := lateEntries_concat_le s.log.startPeriod s.entries (a.slice, a.now)
    have hlate := hI.late
    exact hle.trans (by omega)
  · have hnil := hI.lateEntries_eq_nil hT hday
    rw [lateEntries] at hnil
    rw [filed, lateEntries, List.filter_append, hnil]
    simp [hday]

theorem step_partInv (hI : PartInv s) (hT : Ticks s a)
    (hacc : AppendFile.fwriteAll a.slice.length a.fwrites = a.slice.length)
    (h : step s a = some s') : PartInv s' := by
  have hroll := step_rollInv hI.toRollInv hT h
  have hfiled := hI.filed_sound hacc
  obtain ⟨v, hlog, hclock, hentries, hclosed⟩ := step_cases h
  have hcount := LogFile.append_count hI.count hlog
  rcases LogFile.append_cases hlog with ⟨hv, -, hlog', -⟩ | ⟨hv, hsize, ⟨t, hlog'⟩, hwhy⟩
  · -- the file is rolled away
    rw [hv, if_pos rfl] at hentries hclosed
    refine hroll.partInv hcount hlog' hentries ?_
    rw [hclosed, List.forall_mem_append]
    exact ⟨hI.closed, List.forall_mem_singleton.mpr hfiled⟩
  · -- the file stays
    rw [hv] at hentries hclosed
    simp only [Bool.false_eq_true, if_false] at hentries hclosed
    have hfile : s'.log.file = s.log.file.append a.slice a.fwrites := by rw [hlog']
    have hlast : s'.log.lastRoll = s.log.lastRoll := by rw [hlog']
    have hperiod : s'.log.startPeriod = s.log.startPeriod := by rw [hlog']
    have hcontents := AppendFile.append_contents (f := s.log.file) hacc
    refine ⟨hroll, hcount, ?_, ?_, ?_, ?_, ?_, by rw [hclosed]; exact hI.closed⟩
    · rw [hfile, hcontents, AppendFile.append_hasWritten, hI.written, List.length_append]
    · rw [hfile, AppendFile.append_hasWritten]
      exact hsize
    · rw [hfile, hentries]
      exact hfiled.contents
    · rw [hentries, hlast, hclock]
      exact hI.filed_times hT
    · rw [hentries, hperiod]
      refine hI.filed_late hT ?_
      rcases hwhy with ⟨-, -, hc⟩ | ⟨-, -, hday, -⟩
      · exact Or.inl hc
      · exact Or.inr hday

/-- A step writes its slice, and nothing else, to the end of the files. -/
theorem step_files (h : step s a = some s') :
    s'.files.flatMap Filed.entries = s.files.flatMap Filed.entries ++ [(a.slice, a.now)] := by
  obtain ⟨v, -, -, hentries, hclosed⟩ := step_cases h
  unfold files
  rw [hentries, hclosed]
  by_cases hv : v.rolls = true
  · simp [hv, filed]
  · simp [hv, filed]

theorem run_files {as : List AppendCall} (h : run step s as = some s') :
    s'.files.flatMap Filed.entries =
      s.files.flatMap Filed.entries ++ as.map fun a => (a.slice, a.now) := by
  induction as generalizing s with
  | nil =>
    cases h
    simp
  | cons a as ih =>
    obtain ⟨s₁, h₁, h₂⟩ := run_cons_some.mp h
    rw [ih h₂, step_files h₁]
    simp

/-- **Rolled files partition the log.**  For a log file whose counter starts below the interval, a
clock that does not go back and calls that do not abort and whose bytes fwrite(3) all accepts: the
files together hold what was appended, in order, each slice whole in one file; a file receives
nothing more once it is past `kRollingSize`; and at most `kCheckInterval` slices reach it on later
days than it was opened on. -/
theorem files_partition {basename : String} {lastRoll now : ℤ} {count : ℕ} {s₀ s : Journal}
    {as : List AppendCall} (hcount : count < kCheckInterval)
    (hstart : start basename lastRoll now count = some s₀) (hrun : run step s₀ as = some s)
    (hclock : ClockFrom now as)
    (hacc : ∀ a ∈ as, AppendFile.fwriteAll a.slice.length a.fwrites = a.slice.length) :
    s.files.flatMap (fun f => f.file.contents) = as.flatMap AppendCall.slice ∧
      s.files.flatMap Filed.entries = as.map (fun a => (a.slice, a.now)) ∧
      ∀ f ∈ s.files, f.file.contents = f.entries.flatMap Prod.fst ∧
        (∀ k < f.entries.length, ((f.entries.take k).flatMap Prod.fst).length ≤ kRollingSize) ∧
        (lateEntries f.startPeriod f.entries).length ≤ kCheckInterval := by
  obtain ⟨-, rfl⟩ := start_eq_some.mp hstart
  have hI : PartInv s := by
    refine run_inv_along (I := PartInv) (P := fun s a => Ticks s a ∧
      AppendFile.fwriteAll a.slice.length a.fwrites = a.slice.length) ?_ hrun
      ((along_ticks rfl hclock).and (along_of_forall _ hacc)) ?_
    · exact fun s a s' hI hP h => step_partInv hI hP.1 hP.2 h
    · exact RollInv.partInv ⟨le_rfl, rfl⟩ hcount rfl rfl (List.forall_mem_nil _)
  have hentries : s.files.flatMap Filed.entries = as.map fun a => (a.slice, a.now) := by
    rw [run_files hrun]
    rfl
  refine ⟨?_, hentries, fun f hf => ?_⟩
  · have hcontents : s.files.flatMap (fun f => f.file.contents) =
        (s.files.flatMap Filed.entries).flatMap Prod.fst := by
      rw [List.flatMap_assoc]
      exact List.flatMap_congr fun f hf => (hI.files_sound f hf).contents
    rw [hcontents, hentries, List.flatMap_map]
  · obtain ⟨h₁, h₂, h₃⟩ := hI.files_sound f hf
    exact ⟨h₁, h₂, h₃⟩

/-- Slices on two days, the first one written in two pieces. -/
def twoDays : List AppendCall :=
  [⟨[1, 2], [1, 1], 1, 1⟩, ⟨[3], [1], 86401, 86401⟩, ⟨[4], [1], 86402, 86402⟩]

/-- A slice just over the limit, and one more. -/
def bigThenSmall : List AppendCall := [bigCall 86403, ⟨[5], [1], 86404, 86404⟩]

/-- With its counter two calls before the check the log file rolls on the second day, and then by
size. -/
theorem files_partition_twoRolls :
    ∃ s₀ s, start "polly" 0 1 1022 = some s₀ ∧ run step s₀ (twoDays ++ bigThenSmall) = some s ∧
      s.files.map (fun f => f.entries.map Prod.snd) = [[1, 86401], [86402, 86403], [86404]] ∧
      s.files.flatMap (fun f => f.file.contents) =
        (twoDays ++ bigThenSmall).flatMap AppendCall.slice := by
  have hend : (start "polly" 0 1 1022).bind (fun s₀ => (run step s₀ twoDays).map fun s₁ =>
      (s₁.log.lastRoll, s₁.count, s₁.closed.map (fun f => f.entries.map Prod.snd),
        s₁.entries.map Prod.snd)) = some (86401, 1, [[1, 86401]], [86402]) := by
    decide +kernel
  obtain ⟨s₀, hs₀, hrun⟩ := Option.bind_eq_some_iff.mp hend
  obtain ⟨s₁, hs₁, hobs⟩ := Option.map_eq_some_iff.mp hrun
  obtain ⟨hroll, hcount, hclosed, hentries⟩ :
      s₁.log.lastRoll = 86401 ∧ s₁.count = 1 ∧
        s₁.closed.map (fun f => f.entries.map Prod.snd) = [[1, 86401]] ∧
        s₁.entries.map Prod.snd = [86402] := by simpa using hobs
  have hsize : kRollingSize < s₁.log.file.hasWritten + (bigCall 86403).slice.length := by
    rw [bigCall_size]
    omega
  have hlate : s₁.log.lastRoll < (bigCall 86403).rollNow := by
    rw [hroll]
    decide
  have hbig := step_sizeRoll hsize hlate
  obtain ⟨s, hs, htimes⟩ : ∃ s, run step s₁ bigThenSmall = some s ∧
      s.files.map (fun f => f.entries.map Prod.snd) = [[1, 86401], [86402, 86403], [86404]] := by
    refine ⟨_, run_cons_some.mpr ⟨_, hbig, run_cons_some.mpr ⟨_, step_skip ?_ ?_, rfl⟩⟩, ?_⟩
    · exact (by decide : 0 + 1 ≤ kRollingSize)
    · rw [hcount]
      decide
    · simp [files, filed, hclosed, hentries, bigCall]
  have hclock : ClockFrom 1 (twoDays ++ bigThenSmall) := by
    refine ⟨?_, ?_, ?_, ?_, ?_, ?_, ?_, ?_, ?_, ?_, trivial⟩ <;> decide
  have hacc : ∀ a ∈ twoDays ++ bigThenSmall,
      AppendFile.fwriteAll a.slice.length a.fwrites = a.slice.length := by
    refine List.forall_mem_append.mpr ⟨by decide, List.forall_mem_cons.mpr ⟨?_, by decide⟩⟩
    rw [bigCall_size]
    exact min_self _
  have hall : run step s₀ (twoDays ++ bigThenSmall) = some s := by
    rw [run_append, hs₁, Option.bind_some, hs]
  exact ⟨s₀, s, hs₀, hall, htimes, (files_partition (by decide) hs₀ hall hclock hacc).1⟩

end Journal

end Polly
