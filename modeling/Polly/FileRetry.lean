import Polly.LogFile

/-!
# FileRetry — the writes of `AppendFile::Append` (`log/file.cc`)

`Append` calls fwrite(3) once for the whole slice and then, in a loop, for what is left, until
nothing is left or a call accepts nothing.  The loop keeps two `size_t` variables, `written` and
`remaining`, whose arithmetic wraps around; an iteration is a step that takes the answer of fwrite,
any number, cut to what was asked for.  `requests` records the calls.

* `retry_loop`: for every sequence of answers the loop ends, without wrap-around, and has written a
  prefix of the slice byte after byte, all of it unless fwrite answered a retry with 0.
* `append_contents_retry`: what the loop accepts is what `AppendFile.append` adds to the file.
* `hasWritten_eq_iff`: `HasWritten()` counts the accepted bytes exactly if every slice is accepted
  as a whole.
-/

namespace Polly

open Runs

/-- Bytes with a size that is a `size_t`. -/
structure Slice where
  data : List UInt8
  length_lt : data.length < 2 ^ 64

namespace Slice

def size (s : Slice) : ℕ := s.data.length

theorem size_lt (s : Slice) : s.size < 2 ^ 64 := s.length_lt

end Slice

/-- `a - b` in `size_t`. -/
def sizeSub (a b : ℕ) : ℕ := (a + 2 ^ 64 - b) % 2 ^ 64

/-- `a + b` in `size_t`. -/
def sizeAdd (a b : ℕ) : ℕ := (a + b) % 2 ^ 64

theorem sizeSub_of_le {a b : ℕ} (ha : a < 2 ^ 64) (h : b ≤ a) : sizeSub a b = a - b := by
  rw [sizeSub, Nat.sub_add_comm h, Nat.add_mod_right, Nat.mod_eq_of_lt (by omega)]

/-- A call of fwrite(3): where in the slice it starts, how many bytes it asks for, and how many are
accepted. -/
structure Request where
  offset : ℕ
  count : ℕ
  accepted : ℕ
  deriving DecidableEq, Repr

/-- `fwrite_unlocked(s.data() + offset, 1, count, fd_)`. -/
def fwriteUnlocked (offset count answer : ℕ) : Request := ⟨offset, count, min answer count⟩

/-- The bytes of the slice a call has accepted. -/
def Request.bytes (s : Slice) (r : Request) : List UInt8 := (s.data.drop r.offset).take r.accepted

structure Retry where
  written : ℕ
  remaining : ℕ
  /-- the loop was left by `break` -/
  broke : Bool
  requests : List Request
  deriving DecidableEq, Repr

namespace Retry

/-- `Append` up to the loop; an empty slice is not written at all. -/
def start (s : Slice) (answer : ℕ) : Retry :=
  if s.size = 0 then ⟨0, 0, false, []⟩
  else
    let r := fwriteUnlocked 0 s.size answer
    ⟨r.accepted, sizeSub s.size r.accepted, false, [r]⟩

/-- The call of fwrite in the loop. -/
def request (s : Slice) (st : Retry) (answer : ℕ) : Request :=
  fwriteUnlocked st.written (sizeSub s.size st.written) answer

/-- The body of the loop. -/
def retry (s : Slice) (st : Retry) (answer : ℕ) : Retry :=
  let r := st.request s answer
  if r.accepted = 0 then { st with broke := true, requests := st.requests ++ [r] }
  else
    { st with
      written := sizeAdd st.written r.accepted
      remaining := sizeSub st.remaining r.accepted
      requests := st.requests ++ [r] }

def step (s : Slice) (st : Retry) (answer : ℕ) : Option Retry :=
  guarded (0 < st.remaining ∧ st.broke = false) (st.retry s answer)

/-- The loop is left. -/
def Over (st : Retry) : Prop := st.remaining = 0 ∨ st.broke = true

/-- All bytes that were accepted, in the order of the calls. -/
def bytes (s : Slice) (st : Retry) : List UInt8 := st.requests.flatMap (Request.bytes s)

/-- Every call starts where the bytes accepted before it end, the first one at `offset`, and asks
for all the rest. -/
def Consecutive (size : ℕ) : ℕ → List Request → Prop
  | _, [] => True
  | offset, r :: rs => r.offset = offset ∧ r.offset + r.count = size ∧ r.accepted ≤ r.count ∧
      Consecutive size (offset + r.accepted) rs

/-- Call `j` accepts what fwrite answers it, cut to what it asks for. -/
def Answered (answers : ℕ → ℕ) (rs : List Request) : Prop :=
  ∀ j r, rs[j]? = some r → r.accepted = min (answers j) r.count

variable {s : Slice} {st st' : Retry} {answer : ℕ}

/-! ### Calls in a row -/

theorem consecutive_concat {size offset : ℕ} {rs : List Request} {r : Request} :
    Consecutive size offset (rs ++ [r]) ↔ Consecutive size offset rs ∧
      r.offset = offset + (rs.map Request.accepted).sum ∧ r.offset + r.count = size ∧
      r.accepted ≤ r.count := by
  induction rs generalizing offset with
  | nil => simp [Consecutive]
  | cons r' rs ih =>
    rw [List.cons_append, Consecutive, Consecutive, ih, List.map_cons, List.sum_cons, Nat.add_assoc]
    tauto

/-- Calls in a row accept a prefix, no byte twice and none left out. -/
theorem bytes_of_consecutive {rs : List Request} {offset : ℕ}
    (h : Consecutive s.size offset rs) :
    rs.flatMap (Request.bytes s) =
      (s.data.drop offset).take (rs.map Request.accepted).sum := by
  induction rs generalizing offset with
  | nil => simp
  | cons r rs ih =>
    obtain ⟨rfl, -, -, hrest⟩ := h
    rw [List.flatMap_cons, ih hrest, List.map_cons, List.sum_cons, Request.bytes, List.take_add,
      List.drop_drop]

/-! ### The invariant -/

/-- `written` and `remaining` make up the slice, and `written` is what the calls have accepted. -/
structure RetryInv (s : Slice) (st : Retry) : Prop where
  split : st.written + st.remaining = s.size
  calls : Consecutive s.size 0 st.requests
  sum : (st.requests.map Request.accepted).sum = st.written
  broke : st.broke = true → ∃ r ∈ st.requests.tail, r.accepted = 0 ∧ 0 < r.count
  begun : 0 < s.size → st.requests ≠ []

theorem start_retryInv (s : Slice) (answer : ℕ) : RetryInv s (start s answer) := by
  unfold start
  split_ifs with hsize
  · exact ⟨hsize.symm, trivial, rfl, by simp, fun h => absurd hsize h.ne'⟩
  · have hle : (fwriteUnlocked 0 s.size answer).accepted ≤ s.size := Nat.min_le_right ..
    refine ⟨?_, ⟨rfl, Nat.zero_add _, hle, trivial⟩, by simp, by simp, fun _ => by simp⟩
    dsimp only
    rw [sizeSub_of_le s.size_lt hle]
    exact Nat.add_sub_of_le hle

theorem RetryInv.request_eq (hI : RetryInv s st) (answer : ℕ) :
    st.request s answer = ⟨st.written, st.remaining, min answer st.remaining⟩ := by
  have hsplit := hI.split
  have hcount : sizeSub s.size st.written = st.remaining := by
    rw [sizeSub_of_le s.size_lt (by omega)]
    omega
  rw [request, fwriteUnlocked, hcount]

/-- **One iteration**: the call asks for all that is left, and nothing wraps around. -/
theorem RetryInv.retry_eq (hI : RetryInv s st) (answer : ℕ) : st.retry s answer =
    if min answer st.remaining = 0 then
      { st with broke := true, requests := st.requests ++ [st.request s answer] }
    else
      { st with
        written := st.written + min answer st.remaining
        remaining := st.remaining - min answer st.remaining
        requests := st.requests ++ [st.request s answer] } := by
  have hsplit := hI.split
  have hlt := s.size_lt
  have hle : min answer st.remaining ≤ st.remaining := Nat.min_le_right ..
  have hacc : (st.request s answer).accepted = min answer st.remaining := by rw [hI.request_eq]
  unfold retry
  dsimp only
  rw [hacc, sizeSub_of_le (by omega) hle, sizeAdd, Nat.mod_eq_of_lt (by omega)]

theorem step_retryInv (hI : RetryInv s st) (h : step s st answer = some st') : RetryInv s st' := by
  obtain ⟨⟨hpos, -⟩, rfl⟩ := guarded_eq_some.mp h
  have hsplit := hI.split
  have hsum := hI.sum
  have hreq := hI.request_eq answer
  have hbegun := hI.begun (by omega)
  have hle : min answer st.remaining ≤ st.remaining := Nat.min_le_right ..
  have hcalls : Consecutive s.size 0 (st.requests ++ [st.request s answer]) := by
    refine consecutive_concat.mpr ⟨hI.calls, ?_, ?_, ?_⟩
    · rw [hreq, hsum, Nat.zero_add]
    · rw [hreq, hsplit]
    · rw [hreq]
      exact hle
  have htail : (st.requests ++ [st.request s answer]).tail =
      st.requests.tail ++ [st.request s answer] := List.tail_append_of_ne_nil hbegun
  rw [hI.retry_eq]
  split_ifs with hzero
  · refine ⟨hsplit, hcalls, ?_, fun _ => ⟨st.request s answer, ?_, ?_⟩, fun _ => by simp⟩
    · simp [hsum, hreq, hzero]
    · simp [htail]
    · rw [hreq]
      exact ⟨hzero, hpos⟩
  · refine ⟨?_, hcalls, ?_, fun hbroke => ?_, fun _ => by simp⟩
    · dsimp only
      omega
    · simp [hsum, hreq]
    · obtain ⟨r, hr, hr0⟩ := hI.broke hbroke
      exact ⟨r, by rw [htail]; exact List.mem_append_left _ hr, hr0⟩

theorem RetryInv.bytes_eq (hI : RetryInv s st) : st.bytes s = s.data.take st.written := by
  rw [bytes, bytes_of_consecutive hI.calls, hI.sum, List.drop_zero]

/-! ### Termination -/

theorem step_eq (h : 0 < st.remaining) (hbroke : st.broke = false) (answer : ℕ) :
    step s st answer = some (st.retry s answer) := guarded_eq_some.mpr ⟨⟨h, hbroke⟩, rfl⟩

/-- Every iteration leaves the loop or lowers `remaining`. -/
theorem terminates (hI : RetryInv s st) (answers : ℕ → ℕ) :
    ∃ n ≤ st.remaining, ∃ t, run (step s) st ((List.range n).map answers) = some t ∧ Over t := by
  obtain ⟨m, hm⟩ : ∃ m, st.remaining ≤ m := ⟨_, le_rfl⟩
  induction m generalizing st answers with
  | zero => exact ⟨0, Nat.zero_le _, st, rfl, Or.inl (by omega)⟩
  | succ m ih =>
    by_cases hover : Over st
    · exact ⟨0, Nat.zero_le _, st, rfl, hover⟩
    · obtain ⟨hpos, hbroke⟩ := not_or.mp hover
      have hstep := step_eq (s := s) (Nat.pos_of_ne_zero hpos) (Bool.eq_false_iff.mpr hbroke)
        (answers 0)
      have hretry := hI.retry_eq (answers 0)
      by_cases hzero : min (answers 0) st.remaining = 0
      · rw [if_pos hzero] at hretry
        refine ⟨1, Nat.pos_of_ne_zero hpos, _, run_cons_some.mpr ⟨_, hstep, rfl⟩, Or.inr ?_⟩
        rw [hretry]
      · rw [if_neg hzero] at hretry
        have hremaining : (st.retry s (answers 0)).remaining =
            st.remaining - min (answers 0) st.remaining := by rw [hretry]
        obtain ⟨n, hn, t, hrun, ht⟩ := ih (step_retryInv hI hstep) (fun j => answers (j + 1))
          (by omega)
        refine ⟨n + 1, by omega, t, ?_, ht⟩
        rw [List.range_succ_eq_map, List.map_cons, List.map_map]
        exact run_cons_some.mpr ⟨_, hstep, hrun⟩

/-! ### The calls and the answers -/

/-- The answers to the first `n` retries. -/
def retries (answers : ℕ → ℕ) (n : ℕ) : List ℕ := (List.range n).map fun j => answers (j + 1)

theorem retries_succ (answers : ℕ → ℕ) (n : ℕ) :
    retries answers (n + 1) = retries answers n ++ [answers (n + 1)] := by
  simp [retries, List.range_succ]

theorem step_requests (h : step s st answer = some st') :
    st'.requests = st.requests ++ [st.request s answer] := by
  obtain ⟨-, rfl⟩ := guarded_eq_some.mp h
  unfold retry
  dsimp only
  split_ifs <;> rfl

theorem Answered.concat {answers : ℕ → ℕ} {rs : List Request} (h : Answered answers rs)
    {r : Request} (hr : r.accepted = min (answers rs.length) r.count) :
    Answered answers (rs ++ [r]) := by
  intro j r' hj
  rcases Nat.lt_or_ge j rs.length with hlt | hge
  · rw [List.getElem?_append_left hlt] at hj
    exact h j r' hj
  · rw [List.getElem?_append_right hge, List.getElem?_singleton] at hj
    obtain ⟨hzero, hr'⟩ := Option.ite_none_right_eq_some.mp hj
    cases hr'
    have hlast : j = rs.length := by omega
    rw [hlast]
    exact hr

/-- `n` retries make `n + 1` calls, and call `j` gets answer `j`. -/
theorem run_answered {answers : ℕ → ℕ} {n : ℕ} (hsize : s.size ≠ 0)
    (h : run (step s) (start s (answers 0)) (retries answers n) = some st) :
    st.requests.length = n + 1 ∧ Answered answers st.requests := by
  induction n generalizing st with
  | zero =>
    cases h
    rw [start, if_neg hsize]
    have hnil : Answered answers [] := fun j r hj => by simp at hj
    exact ⟨rfl, hnil.concat rfl⟩
  | succ n ih =>
    rw [retries_succ, run_append, Option.bind_eq_some_iff] at h
    obtain ⟨st₁, hrun, hlast⟩ := h
    obtain ⟨st₂, hstep, hnil⟩ := run_cons_some.mp hlast
    cases hnil
    obtain ⟨hlen, hanswered⟩ := ih hrun
    rw [step_requests hstep]
    refine ⟨by simp [hlen], hanswered.concat ?_⟩
    rw [hlen]
    rfl

/-- A call that asked for bytes and got none was answered with 0. -/
theorem Answered.zero {answers : ℕ → ℕ} {rs : List Request} (h : Answered answers rs)
    (hr : ∃ r ∈ rs.tail, r.accepted = 0 ∧ 0 < r.count) :
    ∃ j, 0 < j ∧ j < rs.length ∧ answers j = 0 := by
  obtain ⟨r, hmem, hacc, hcount⟩ := hr
  obtain ⟨i, hi⟩ := List.getElem?_of_mem hmem
  rw [List.getElem?_tail] at hi
  obtain ⟨hlt, -⟩ := List.getElem?_eq_some_iff.mp hi
  have hmin := h (i + 1) r hi
  exact ⟨i + 1, i.succ_pos, hlt, by omega⟩

/-! ### The loop -/

/-- The two variables make up the slice, and neither `s.size() - written` nor `remaining -= n` nor
`written += n` wraps around. -/
def NoWrap (s : Slice) (st : Retry) (answer : ℕ) : Prop :=
  st.written + st.remaining = s.size ∧ st.written ≤ s.size ∧
    (st.request s answer).accepted ≤ st.remaining ∧
    st.written + (st.request s answer).accepted < 2 ^ 64

theorem RetryInv.noWrap (hI : RetryInv s st) (answer : ℕ) : NoWrap s st answer := by
  have hsplit := hI.split
  have hlt := s.size_lt
  have hle : (st.request s answer).accepted ≤ st.remaining := by
    rw [hI.request_eq]
    exact Nat.min_le_right ..
  exact ⟨hsplit, by omega, hle, by omega⟩

/-- **The retry loop.**  For every slice and every sequence of answers of fwrite: the loop ends
after at most as many retries as the slice has bytes; in every iteration and at the end `written`
and `remaining` make up the slice, and nothing wraps around; every call starts at the first byte
that was not accepted, and call `j` accepts answer `j`, cut to what it asked for; and the accepted
bytes are a prefix of the slice, all of it unless a retry was answered with 0. -/
theorem retry_loop (s : Slice) (answers : ℕ → ℕ) :
    ∃ n ≤ s.size, ∃ t, run (step s) (start s (answers 0)) (retries answers n) = some t ∧ Over t ∧
      Along (step s) (NoWrap s) (start s (answers 0)) (retries answers n) ∧
      t.written + t.remaining = s.size ∧ Consecutive s.size 0 t.requests ∧
      Answered answers t.requests ∧ t.bytes s = s.data.take t.written ∧
      (t.bytes s = s.data ∨ ∃ j, 0 < j ∧ j < t.requests.length ∧ answers j = 0) := by
  have hI := start_retryInv s (answers 0)
  have hsplit := hI.split
  obtain ⟨n, hn, t, hrun, hover⟩ := terminates hI fun j => answers (j + 1)
  have hT : RetryInv s t := run_inv (fun _ _ _ hI h => step_retryInv hI h) hrun hI
  have hanswered : Answered answers t.requests := by
    by_cases hsize : s.size = 0
    · -- an empty slice is not written at all
      obtain rfl : n = 0 := by omega
      cases hrun
      intro j r hj
      simp [start, hsize] at hj
    · exact (run_answered hsize hrun).2
  refine ⟨n, by omega, t, hrun, hover, ?_, hT.split, hT.calls, hanswered, hT.bytes_eq, ?_⟩
  · exact Along.of_inv (I := RetryInv s) (fun _ answer hI _ => hI.noWrap answer)
      (fun _ _ _ hI _ h => step_retryInv hI h) (along_enabled hrun) hI
  · rcases hover with hzero | hbroke
    · left
      have hall : t.written = s.data.length := by
        have hsum := hT.split
        rw [hzero] at hsum
        exact hsum
      rw [hT.bytes_eq, hall, List.take_length]
    · exact Or.inr (hanswered.zero (hT.broke hbroke))

/-! ### The loop and `AppendFile.append` -/

theorem run_fwriteLoop {answers : List ℕ} (hI : RetryInv s st)
    (h : run (step s) st answers = some st') :
    AppendFile.fwriteLoop s.size st.written answers = st'.written := by
  induction answers generalizing st with
  | nil =>
    cases h
    rfl
  | cons answer answers ih =>
    obtain ⟨st₁, h₁, h₂⟩ := run_cons_some.mp h
    have hI₁ := step_retryInv hI h₁
    obtain ⟨-, rfl⟩ := guarded_eq_some.mp h₁
    have hleft : s.size - st.written = st.remaining := by
      have hsplit := hI.split
      omega
    have hretry := hI.retry_eq answer
    rw [AppendFile.fwriteLoop, hleft]
    by_cases hzero : min answer st.remaining = 0
    · rw [if_pos hzero] at hretry ⊢
      cases answers with
      | nil =>
        cases h₂
        rw [hretry]
      | cons answer' answers =>
        -- the loop was left by `break`
        obtain ⟨st₂, h₃, -⟩ := run_cons_some.mp h₂
        obtain ⟨⟨-, hbroke⟩, -⟩ := guarded_eq_some.mp h₃
        rw [hretry] at hbroke
        cases hbroke
    · rw [if_neg hzero] at hretry ⊢
      have hnext := ih hI₁ h₂
      rw [hretry] at hnext
      exact hnext

/-- What the calls of the loop have accepted is what `AppendFile.append` adds to the file. -/
theorem append_contents_retry {answers : List ℕ} (f : AppendFile) (s : Slice) (answer : ℕ)
    (h : run (step s) (start s answer) answers = some st) :
    (f.append s.data (answer :: answers)).contents = f.contents ++ st.bytes s := by
  have hI := start_retryInv s answer
  have hend : RetryInv s st := run_inv (fun _ _ _ hI h => step_retryInv hI h) h hI
  rw [hend.bytes_eq, ← run_fwriteLoop hI h]
  unfold AppendFile.append
  split_ifs with hnil
  · rw [List.isEmpty_iff.mp hnil, List.take_nil, List.append_nil]
  · have hsize : s.size ≠ 0 := fun h0 => hnil (List.isEmpty_iff.mpr (List.length_eq_zero_iff.mp h0))
    have hwritten : (start s answer).written = min answer s.size := by
      rw [start, if_neg hsize]
      rfl
    rw [hwritten]
    rfl

end Retry

/-! ### `HasWritten()` -/

namespace AppendFile

/-- The constructor. -/
def new (basename : String) (created : ℤ) : AppendFile := ⟨basename, created, [], 0⟩

/-- A sequence of calls of `Append`: slices and the answers of fwrite. -/
def appends (f : AppendFile) (calls : List (List UInt8 × List ℕ)) : AppendFile :=
  calls.foldl (fun f c => f.append c.1 c.2) f

theorem fwriteLoop_le {size written : ℕ} (answers : List ℕ) (h : written ≤ size) :
    fwriteLoop size written answers ≤ size := by
  induction answers generalizing written with
  | nil => exact h
  | cons n ns ih =>
    rw [fwriteLoop]
    split_ifs
    · exact h
    · exact ih (by omega)

theorem fwriteAll_le (size : ℕ) (answers : List ℕ) : fwriteAll size answers ≤ size := by
  cases answers with
  | nil => exact Nat.zero_le size
  | cons n ns => exact fwriteLoop_le ns (Nat.min_le_right n size)

theorem append_contents_length (f : AppendFile) (s : List UInt8) (answers : List ℕ) :
    (f.append s answers).contents.length = f.contents.length + fwriteAll s.length answers := by
  have hle := fwriteAll_le s.length answers
  unfold append
  split_ifs with hnil
  · rw [List.isEmpty_iff.mp hnil] at hle ⊢
    rw [List.length_nil] at hle ⊢
    omega
  · dsimp only
    rw [List.length_append, List.length_take, Nat.min_eq_left hle]

/-- `HasWritten()` is ahead of the file by what was not accepted. -/
theorem appends_hasWritten_eq_iff {f : AppendFile} (hle : f.contents.length ≤ f.hasWritten)
    (calls : List (List UInt8 × List ℕ)) :
    (f.appends calls).hasWritten = (f.appends calls).contents.length ↔
      f.hasWritten = f.contents.length ∧ ∀ c ∈ calls, fwriteAll c.1.length c.2 = c.1.length := by
  induction calls generalizing f with
  | nil => simp [appends]
  | cons c calls ih =>
    have hacc := fwriteAll_le c.1.length c.2
    have hcontents := f.append_contents_length c.1 c.2
    have hwritten := f.append_hasWritten c.1 c.2
    have hrest := ih (f := f.append c.1 c.2) (by omega)
    have hfirst : (f.append c.1 c.2).hasWritten = (f.append c.1 c.2).contents.length ↔
        f.hasWritten = f.contents.length ∧ fwriteAll c.1.length c.2 = c.1.length := by omega
    rw [List.forall_mem_cons, ← and_assoc, ← hfirst]
    exact hrest

/-- **Byte accounting**: after any sequence of calls of `Append` and any answers of fwrite,
`HasWritten()` is the number of bytes that were accepted if and only if every slice was accepted as
a whole. -/
theorem hasWritten_eq_iff (basename : String) (created : ℤ) (calls : List (List UInt8 × List ℕ)) :
    ((new basename created).appends calls).hasWritten =
        ((new basename created).appends calls).contents.length ↔
      ∀ c ∈ calls, fwriteAll c.1.length c.2 = c.1.length := by
  rw [appends_hasWritten_eq_iff (Nat.zero_le _)]
  exact and_iff_right rfl

/-- A byte that fwrite does not accept is counted; and a slice of which nothing is accepted makes a
log file roll with an empty file. -/
theorem hasWritten_counts_refused :
    (((new "polly" 1).appends [([1], [0, 0])]).hasWritten = 1 ∧
        ((new "polly" 1).appends [([1], [0, 0])]).contents = []) ∧
      ∃ a : AppendCall, a.fwrites = [0, 0] ∧
        ((LogFile.opened "polly" 1).file.append a.slice a.fwrites).contents = [] ∧
        (LogFile.opened "polly" 1).append 0 a = some (LogFile.opened "polly" 2, 0, .sizeRoll) := by
  refine ⟨⟨rfl, rfl⟩, ?_⟩
  obtain ⟨a, hslice, hfwrites, hroll⟩ : ∃ a : AppendCall,
      a.slice.length = kRollingSize + 1 ∧ a.fwrites = [0, 0] ∧ a.rollNow = 2 :=
    ⟨⟨List.replicate (kRollingSize + 1) 0, [0, 0], 2, 2⟩, List.length_replicate, rfl, rfl⟩
  refine ⟨a, hfwrites, ?_, ?_⟩
  · have hnone : fwriteAll a.slice.length a.fwrites = 0 := by simp [hfwrites, fwriteAll, fwriteLoop]
    have hlen := (LogFile.opened "polly" 1).file.append_contents_length a.slice a.fwrites
    rw [hnone] at hlen
    exact List.length_eq_zero_iff.mp hlen
  · have hbig : kRollingSize < (LogFile.opened "polly" 1).file.hasWritten + a.slice.length := by
      omega
    rw [LogFile.append_sizeRoll 0 hbig, hroll]
    rfl

end AppendFile

end Polly
