import Polly.Runs
import Polly.FixedBuffer

/-!
# AsyncLogging — logging through a worker thread (`log/async_logging.cc`)

Any number of threads append slices to `cur_buffer_`; full buffers go to `buffers_`.  The worker
swaps its own empty buffers in, writes what it got to the log file and recycles two of the buffers.
`Append` and the swap run under the mutex, so each is one step; a wait on the condition may end at
any time.  Owning pointers are optional (`none` is null), and an access through a null pointer and a
failed assertion refuse the step.  `logFile` are the bytes handed to `log_file_`, and `appended`
records all slices in the order the mutex was taken.

* `log_stream`: written bytes, then the buffers under way, in order, are what was appended.
* `recycles_two`: the worker never runs out of buffers to recycle, and its assertions hold.
* `stop_flushes_iff`: `StopWorker` flushes exactly if the worker is past the test of `done` and
  before its swap when `done` is set, or the buffers are empty.
* `worker_exits`: after `done` is set the worker can always run to its end.
-/

namespace Polly

open Runs

/-- A `std::unique_ptr` to a `FixedBuffer<kSmallBufferSize>`. -/
abbrev BufferPtr := Option (FixedBuffer kSmallBufferSize)

/-- Where the worker is: no thread yet, before `promise.set_value()`, at the test of `done`, about
to lock, in `wait_for`, in the write loop, or through. -/
inductive WorkerPc where
  | absent | starting | top | locking | waiting
  | writing (it : ℕ)
  | exited
  deriving DecidableEq, Repr

structure AsyncLogging where
  curBuffer : BufferPtr
  nextBuffer : BufferPtr
  buffers : List BufferPtr
  done : Bool
  pc : WorkerPc
  tempBuffer1 : BufferPtr
  tempBuffer2 : BufferPtr
  tempBuffers : List BufferPtr
  logFile : List UInt8
  appended : List UInt8

namespace AsyncLogging

/-- The constructor. -/
def new : AsyncLogging where
  curBuffer := some FixedBuffer.new
  nextBuffer := some FixedBuffer.new
  buffers := []
  done := false
  pc := .absent
  tempBuffer1 := none
  tempBuffer2 := none
  tempBuffers := []
  logFile := []
  appended := []

def append (s : AsyncLogging) (slice : List UInt8) : Option AsyncLogging :=
  s.curBuffer.bind fun cur =>
    if slice.length ≤ cur.space then
      (cur.append slice).map fun cur =>
        { s with curBuffer := some cur, appended := s.appended ++ slice }
    else
      ((s.nextBuffer.getD FixedBuffer.new).append slice).map fun cur =>
        { s with
          curBuffer := some cur
          nextBuffer := none
          buffers := s.buffers ++ [s.curBuffer]
          appended := s.appended ++ slice }

/-- The swap under the mutex, and the worker's buffers going to the end of `tempBuffers`. -/
def swap (s : AsyncLogging) : AsyncLogging :=
  { s with
    curBuffer := s.tempBuffer1
    nextBuffer := if s.nextBuffer.isNone then s.tempBuffer2 else s.nextBuffer
    buffers := s.tempBuffers
    tempBuffer1 := none
    tempBuffer2 := none
    tempBuffers := s.buffers ++ [s.curBuffer] ++
      (if s.nextBuffer.isNone || s.tempBuffer2.isNone then [] else [s.tempBuffer2])
    pc := .writing 0 }

/-- Two of the written buffers become the worker's empty ones. -/
def recycle (s : AsyncLogging) : Option AsyncLogging :=
  match Vec.resize s.tempBuffers 2 none with
  | [some b₂, some b₁] =>
    some { s with
      tempBuffer1 := some b₁.reset
      tempBuffer2 := some b₂.reset
      tempBuffers := []
      pc := .top }
  | _ => none

inductive Act where
  /-- some thread calls `Append` -/
  | append (slice : List UInt8)
  /-- `StartWorker` creates the thread -/
  | startWorker
  /-- the worker sets the promise and makes its buffers -/
  | enter
  /-- the test of `while (!done)` and the assertions behind it -/
  | test
  /-- the worker takes the mutex: it waits if there is no full buffer -/
  | lock
  /-- `wait_for` returns -/
  | wake
  /-- the next buffer is written -/
  | write
  | recycle
  /-- `StopWorker` sets `done`, and will join -/
  | stop
  deriving DecidableEq, Repr

def step (s : AsyncLogging) : Act → Option AsyncLogging
  | .append slice => s.append slice
  | .startWorker => guarded (s.pc = .absent) { s with pc := .starting }
  | .enter => guarded (s.pc = .starting)
      { s with
        tempBuffer1 := some FixedBuffer.new
        tempBuffer2 := some FixedBuffer.new
        tempBuffers := []
        pc := .top }
  | .test =>
    if s.done then guarded (s.pc = .top) { s with pc := .exited }
    else guarded (s.pc = .top ∧ s.tempBuffer1.isSome ∧ s.tempBuffer2.isSome ∧ s.tempBuffers = [])
      { s with pc := .locking }
  | .lock => guarded (s.pc = .locking)
      (if s.buffers.isEmpty then { s with pc := .waiting } else s.swap)
  | .wake => guarded (s.pc = .waiting) s.swap
  | .write =>
    match s.pc with
    | .writing it =>
      match s.tempBuffers[it]? with
      | some (some b) => some { s with logFile := s.logFile ++ b.slice, pc := .writing (it + 1) }
      | _ => none
    | _ => none
  | .recycle =>
    match s.pc with
    | .writing it => if it = s.tempBuffers.length then s.recycle else none
    | _ => none
  | .stop => guarded (s.pc ≠ .absent ∧ s.pc ≠ .starting ∧ s.done = false) { s with done := true }

/-- The states of a logger from its construction on. -/
abbrev Reachable (s : AsyncLogging) : Prop := Reach step (· = new) s

/-- The bytes of some buffers, in order. -/
def contents (l : List BufferPtr) : List UInt8 := l.flatMap fun p => p.elim [] FixedBuffer.slice

/-- The buffers of `tempBuffers` that are not written yet. -/
def unwritten (s : AsyncLogging) : List BufferPtr :=
  match s.pc with
  | .writing it => s.tempBuffers.drop it
  | _ => s.tempBuffers

/-- What the logger has: the bytes of the log file, then those of the buffers, in order. -/
def stored (s : AsyncLogging) : List UInt8 :=
  s.logFile ++ contents s.unwritten ++ contents s.buffers ++ contents [s.curBuffer]

/-- The worker's next step. -/
def turn (s : AsyncLogging) : Option Act :=
  match s.pc with
  | .absent | .exited => none
  | .starting => some .enter
  | .top => some .test
  | .locking => some .lock
  | .waiting => some .wake
  | .writing it => some (if it < s.tempBuffers.length then .write else .recycle)

/-! ### The invariant -/

@[simp] theorem contents_nil : contents [] = [] := rfl

@[simp] theorem contents_append (l₁ l₂ : List BufferPtr) :
    contents (l₁ ++ l₂) = contents l₁ ++ contents l₂ := List.flatMap_append ..

@[simp] theorem contents_cons (b : FixedBuffer kSmallBufferSize) (l : List BufferPtr) :
    contents (some b :: l) = b.slice ++ contents l := List.flatMap_cons ..

theorem contents_some (b : FixedBuffer kSmallBufferSize) : contents [some b] = b.slice := by
  simp

/-- What the worker holds at each point: two empty buffers between rounds, at least two buffers and
no null pointer while it writes. -/
def WorkerInv (s : AsyncLogging) : Prop :=
  match s.pc with
  | .absent | .starting => s.tempBuffers = []
  | .writing it => 2 ≤ s.tempBuffers.length ∧ (∀ p ∈ s.tempBuffers, p.isSome) ∧
      it ≤ s.tempBuffers.length
  | _ => s.tempBuffers = [] ∧ ∃ b₁ b₂, s.tempBuffer1 = some b₁ ∧ s.tempBuffer2 = some b₂ ∧
      b₁.slice = [] ∧ b₂.slice = []

structure LogInv (s : AsyncLogging) : Prop where
  cur : ∃ b, s.curBuffer = some b
  next : ∀ b, s.nextBuffer = some b → b.slice = []
  full : s.nextBuffer = none → s.buffers ≠ []
  buffers : ∀ p ∈ s.buffers, p.isSome
  worker : WorkerInv s
  exited : s.pc = .exited → s.done = true
  bytes : s.logFile ++ contents s.unwritten ++ contents s.buffers ++ contents [s.curBuffer] =
    s.appended

theorem new_logInv : LogInv new where
  cur := ⟨_, rfl⟩
  next := fun b h => by cases h; exact FixedBuffer.slice_new
  full := fun h => by cases h
  buffers := fun p hp => absurd hp List.not_mem_nil
  worker := rfl
  exited := fun h => by cases h
  bytes := by simp [new, unwritten]

section Steps

variable {s s' : AsyncLogging} {slice : List UInt8}

/-- The buffer `Append` continues with is empty. -/
theorem LogInv.fresh (hI : LogInv s) : (s.nextBuffer.getD FixedBuffer.new).slice = [] := by
  cases hnext : s.nextBuffer with
  | none => exact FixedBuffer.slice_new
  | some b => exact hI.next b hnext

theorem append_logInv (hI : LogInv s) (h : s.append slice = some s') : LogInv s' := by
  obtain ⟨b, hb⟩ := hI.cur
  have hbytes := hI.bytes
  rw [hb, contents_some] at hbytes
  simp only [append, hb, Option.bind_some] at h
  split_ifs at h with hfits
  · obtain ⟨b', hb', rfl⟩ := Option.map_eq_some_iff.mp h
    refine ⟨⟨b', rfl⟩, hI.next, hI.full, hI.buffers, hI.worker, hI.exited, ?_⟩
    change s.logFile ++ contents s.unwritten ++ contents s.buffers ++ contents [some b'] =
      s.appended ++ slice
    rw [contents_some, FixedBuffer.slice_append hb', ← hbytes]
    simp
  · obtain ⟨b', hb', rfl⟩ := Option.map_eq_some_iff.mp h
    refine ⟨⟨b', rfl⟩, fun _ h => (by cases h), fun _ => (by simp), ?_, hI.worker, hI.exited, ?_⟩
    · intro p hp
      rcases List.mem_append.mp hp with hp | hp
      · exact hI.buffers p hp
      · rw [List.mem_singleton.mp hp]
        rfl
    · change s.logFile ++ contents s.unwritten ++ contents (s.buffers ++ [some b]) ++
        contents [some b'] = s.appended ++ slice
      rw [contents_append, contents_some, contents_some, FixedBuffer.slice_append hb', hI.fresh,
        ← hbytes]
      simp

/-- A slice of at most a buffer's size always fits: into the current buffer or into the next one. -/
theorem append_isSome (hI : LogInv s) (hlen : slice.length ≤ kSmallBufferSize) :
    (s.append slice).isSome := by
  obtain ⟨b, hb⟩ := hI.cur
  simp only [append, hb, Option.bind_some]
  split_ifs with hfits
  · rw [Option.isSome_map, FixedBuffer.append_isSome]
    exact hfits
  · rw [Option.isSome_map, FixedBuffer.append_isSome, FixedBuffer.space_of_slice_nil hI.fresh]
    exact hlen

theorem append_appended (h : s.append slice = some s') : s'.appended = s.appended ++ slice := by
  obtain ⟨cur, -, h⟩ := Option.bind_eq_some_iff.mp h
  split_ifs at h
  · obtain ⟨b, -, rfl⟩ := Option.map_eq_some_iff.mp h
    rfl
  · obtain ⟨b, -, rfl⟩ := Option.map_eq_some_iff.mp h
    rfl

/-- `Append` stores the bytes of its slice. -/
theorem append_stored (hI : LogInv s) (h : s.append slice = some s') :
    s'.stored = s.stored ++ slice := by
  rw [stored, stored, (append_logInv hI h).bytes, hI.bytes, append_appended h]

/-- The worker's two empty buffers between rounds. -/
theorem WorkerInv.temps (h : WorkerInv s) (hpc : s.pc = .top ∨ s.pc = .locking ∨ s.pc = .waiting) :
    s.tempBuffers = [] ∧ ∃ b₁ b₂, s.tempBuffer1 = some b₁ ∧ s.tempBuffer2 = some b₂ ∧
      b₁.slice = [] ∧ b₂.slice = [] := by
  unfold WorkerInv at h
  rcases hpc with hpc | hpc | hpc <;> simpa only [hpc] using h

/-- After the swap there is an empty buffer to go on with. -/
theorem swap_nextBuffer (hI : LogInv s) (hpc : s.pc = .locking ∨ s.pc = .waiting) :
    ∃ b, s.swap.nextBuffer = some b ∧ b.slice = [] := by
  obtain ⟨-, b₁, b₂, -, h₂, -, hb₂⟩ := hI.worker.temps (Or.inr hpc)
  cases hnext : s.nextBuffer with
  | none => exact ⟨b₂, by simp [swap, hnext, h₂], hb₂⟩
  | some b => exact ⟨b, by simp [swap, hnext], hI.next b hnext⟩

/-- The worker gets `buffers_`, `cur_buffer_` and, if there was a next buffer, its own second one:
two real buffers at least, since a used up `next_buffer_` means that `buffers_` is not empty. -/
theorem swap_tempBuffers (hI : LogInv s) (hpc : s.pc = .locking ∨ s.pc = .waiting) :
    ∃ own, s.swap.tempBuffers = s.buffers ++ [s.curBuffer] ++ own ∧ contents own = [] ∧
      (∀ p ∈ own, p.isSome) ∧ 2 ≤ s.swap.tempBuffers.length := by
  obtain ⟨-, b₁, b₂, -, h₂, -, hb₂⟩ := hI.worker.temps (Or.inr hpc)
  cases hnext : s.nextBuffer with
  | none =>
    have hne := List.length_pos_iff.mpr (hI.full hnext)
    refine ⟨[], by simp [swap, hnext], rfl, by simp, ?_⟩
    simp only [swap, hnext, Option.isNone_none, Bool.true_or, if_true, List.append_nil,
      List.length_append, List.length_singleton]
    omega
  | some b =>
    exact ⟨[some b₂], by simp [swap, hnext, h₂], by simp [hb₂], by simp, by simp [swap, hnext, h₂]⟩

theorem swap_logInv (hI : LogInv s) (hpc : s.pc = .locking ∨ s.pc = .waiting) : LogInv s.swap := by
  obtain ⟨htemps, b₁, b₂, h₁, -, hb₁, -⟩ := hI.worker.temps (Or.inr hpc)
  obtain ⟨b, hb⟩ := hI.cur
  obtain ⟨next, hnext, hempty⟩ := swap_nextBuffer hI hpc
  obtain ⟨own, hown, hcontents, hreal, htwo⟩ := swap_tempBuffers hI hpc
  have hun : s.unwritten = [] := by
    unfold unwritten
    rcases hpc with hpc | hpc <;> simpa only [hpc] using htemps
  refine ⟨⟨b₁, h₁⟩, fun b' hb' => ?_, fun hnone => ?_, fun p hp => ?_, ⟨htwo, ?_, Nat.zero_le _⟩,
    fun h => (by cases h), ?_⟩
  · rw [hnext] at hb'
    exact Option.some.inj hb' ▸ hempty
  · rw [hnext] at hnone
    cases hnone
  · simp [swap, htemps] at hp
  · intro p hp
    rw [hown] at hp
    simp only [List.mem_append, List.mem_singleton] at hp
    rcases hp with (hp | rfl) | hp
    · exact hI.buffers p hp
    · rw [hb]
      rfl
    · exact hreal p hp
  · have hbytes := hI.bytes
    rw [hun] at hbytes
    change s.logFile ++ contents s.swap.tempBuffers ++ contents s.tempBuffers ++
      contents [s.tempBuffer1] = s.appended
    rw [hown, htemps, h₁, contents_some, hb₁, contents_append, contents_append, hcontents, ← hbytes]
    simp

/-- With two buffers at least, `resize(2)` keeps two real ones. -/
theorem recycle_spec {it : ℕ} (hI : LogInv s) (hpc : s.pc = .writing it) :
    ∃ b₁ b₂, s.recycle = some { s with
      tempBuffer1 := some b₁, tempBuffer2 := some b₂, tempBuffers := [], pc := .top } ∧
      b₁.slice = [] ∧ b₂.slice = [] := by
  have hw := hI.worker
  simp only [WorkerInv, hpc] at hw
  obtain ⟨hlen, hsome, -⟩ := hw
  obtain ⟨p₂, p₁, rest, htemps⟩ : ∃ p₂ p₁ rest, s.tempBuffers = p₂ :: p₁ :: rest := by
    match hl : s.tempBuffers with
    | [] | [_] => rw [hl] at hlen; simp at hlen
    | p₂ :: p₁ :: rest => exact ⟨p₂, p₁, rest, rfl⟩
  obtain ⟨b₂, rfl⟩ := Option.isSome_iff_exists.mp (hsome p₂ (by simp [htemps]))
  obtain ⟨b₁, rfl⟩ := Option.isSome_iff_exists.mp (hsome p₁ (by simp [htemps]))
  refine ⟨b₁.reset, b₂.reset, ?_, FixedBuffer.slice_reset b₁, FixedBuffer.slice_reset b₂⟩
  simp [recycle, Vec.resize, htemps]

theorem step_write (h : step s .write = some s') :
    ∃ it b, s.pc = .writing it ∧ s.tempBuffers[it]? = some (some b) ∧
      s' = { s with logFile := s.logFile ++ b.slice, pc := .writing (it + 1) } := by
  simp only [step] at h
  split at h
  · rename_i it hpc
    split at h
    · rename_i b hget
      cases h
      exact ⟨it, b, hpc, hget, rfl⟩
    · cases h
  · cases h

theorem step_recycle (hI : LogInv s) (h : step s .recycle = some s') :
    ∃ b₁ b₂, s.pc = .writing s.tempBuffers.length ∧ b₁.slice = [] ∧ b₂.slice = [] ∧
      s' = { s with
        tempBuffer1 := some b₁, tempBuffer2 := some b₂, tempBuffers := [], pc := .top } := by
  simp only [step] at h
  split at h
  · rename_i it hpc
    split_ifs at h with hlen
    obtain ⟨b₁, b₂, hrec, hb₁, hb₂⟩ := recycle_spec hI hpc
    rw [hrec] at h
    cases h
    exact ⟨b₁, b₂, hlen ▸ hpc, hb₁, hb₂, rfl⟩
  · cases h

/-- The worker moves on without touching a buffer. -/
theorem LogInv.moved {pc : WorkerPc} (hI : LogInv s) (hworker : WorkerInv { s with pc := pc })
    (hun : ({ s with pc := pc } : AsyncLogging).unwritten = s.unwritten)
    (hexit : pc = .exited → s.done = true) : LogInv { s with pc := pc } :=
  ⟨hI.cur, hI.next, hI.full, hI.buffers, hworker, hexit, by rw [hun]; exact hI.bytes⟩

theorem step_logInv {a : Act} (hI : LogInv s) (h : step s a = some s') : LogInv s' := by
  have hw := hI.worker
  have hbytes := hI.bytes
  cases a with
  | append slice => exact append_logInv hI h
  | startWorker =>
    obtain ⟨hpc, rfl⟩ := guarded_eq_some.mp h
    simp only [WorkerInv, hpc] at hw
    exact hI.moved hw (by simp [unwritten, hpc]) (by simp)
  | enter =>
    obtain ⟨hpc, rfl⟩ := guarded_eq_some.mp h
    simp only [WorkerInv, unwritten, hpc] at hw hbytes
    rw [hw] at hbytes
    refine ⟨hI.cur, hI.next, hI.full, hI.buffers, ⟨rfl, _, _, rfl, rfl, ?_, ?_⟩,
      fun h => (by cases h), hbytes⟩
    · exact FixedBuffer.slice_new
    · exact FixedBuffer.slice_new
  | test =>
    simp only [step] at h
    split_ifs at h with hdone
    · obtain ⟨hpc, rfl⟩ := guarded_eq_some.mp h
      exact hI.moved (hw.temps (Or.inl hpc)) (by simp [unwritten, hpc]) fun _ => hdone
    · obtain ⟨⟨hpc, -⟩, rfl⟩ := guarded_eq_some.mp h
      exact hI.moved (hw.temps (Or.inl hpc)) (by simp [unwritten, hpc]) (by simp)
  | lock =>
    obtain ⟨hpc, rfl⟩ := guarded_eq_some.mp h
    split_ifs
    · exact hI.moved (hw.temps (Or.inr (Or.inl hpc))) (by simp [unwritten, hpc]) (by simp)
    · exact swap_logInv hI (Or.inl hpc)
  | wake =>
    obtain ⟨hpc, rfl⟩ := guarded_eq_some.mp h
    exact swap_logInv hI (Or.inr hpc)
  | write =>
    obtain ⟨it, b, hpc, hget, rfl⟩ := step_write h
    simp only [WorkerInv, unwritten, hpc] at hw hbytes
    obtain ⟨hlt, hb⟩ := List.getElem?_eq_some_iff.mp hget
    refine ⟨hI.cur, hI.next, hI.full, hI.buffers, ⟨hw.1, hw.2.1, hlt⟩, fun h => (by cases h), ?_⟩
    rw [List.drop_eq_getElem_cons hlt, hb, contents_cons] at hbytes
    rw [← hbytes]
    simp [unwritten]
  | recycle =>
    obtain ⟨b₁, b₂, hpc, hb₁, hb₂, rfl⟩ := step_recycle hI h
    simp only [unwritten, hpc, List.drop_length] at hbytes
    exact ⟨hI.cur, hI.next, hI.full, hI.buffers, ⟨rfl, b₁, b₂, rfl, rfl, hb₁, hb₂⟩,
      fun h => (by cases h), hbytes⟩
  | stop =>
    obtain ⟨-, rfl⟩ := guarded_eq_some.mp h
    exact ⟨hI.cur, hI.next, hI.full, hI.buffers, hw, fun _ => rfl, hbytes⟩

/-- The worker is never stuck: it meets no null pointer and no failing assertion. -/
theorem turn_isSome {a : Act} (hI : LogInv s) (h : s.turn = some a) : (step s a).isSome := by
  have hw := hI.worker
  unfold turn at h
  cases hpc : s.pc with
  | absent | exited => simp [hpc] at h
  | starting =>
    simp only [hpc, Option.some.injEq] at h
    subst h
    simp [step, guarded, hpc]
  | top =>
    simp only [hpc, Option.some.injEq] at h
    subst h
    obtain ⟨htemps, b₁, b₂, h₁, h₂, -⟩ := hw.temps (Or.inl hpc)
    simp only [step]
    split_ifs <;> simp [guarded, hpc, htemps, h₁, h₂]
  | locking | waiting =>
    simp only [hpc, Option.some.injEq] at h
    subst h
    simp [step, guarded, hpc]
  | writing it =>
    simp only [WorkerInv, hpc] at hw
    simp only [hpc, Option.some.injEq] at h
    subst h
    split_ifs with hlt
    · obtain ⟨b, hb⟩ := Option.isSome_iff_exists.mp (hw.2.1 _ (List.getElem_mem hlt))
      simp [step, hpc, List.getElem?_eq_getElem hlt, hb]
    · obtain ⟨b₁, b₂, hrec, -⟩ := recycle_spec hI hpc
      have hend : it = s.tempBuffers.length := by omega
      simp [step, hpc, hend, hrec]

end Steps

theorem Reachable.logInv {s : AsyncLogging} (h : Reachable s) : LogInv s := by
  refine Reach.inv ?_ (fun _ _ _ => step_logInv) h
  rintro s rfl
  exact new_logInv

/-- **Nothing is lost, duplicated or reordered.**  In every reachable state the bytes handed to the
log file, then the buffers not written yet, then `buffers_`, then `cur_buffer_` are the appended
slices in the order the mutex was taken; `next_buffer_` is empty; an `Append` of at most a buffer's
size meets no failing assertion, and the worker neither. -/
theorem log_stream {s : AsyncLogging} (h : Reachable s) :
    s.logFile ++ contents s.unwritten ++ contents s.buffers ++ contents [s.curBuffer] =
        s.appended ∧
      (∀ b, s.nextBuffer = some b → b.slice = []) ∧
      (∀ slice, slice.length ≤ kSmallBufferSize → (step s (.append slice)).isSome) ∧
      ∀ a, s.turn = some a → (step s a).isSome := by
  have hI := h.logInv
  exact ⟨hI.bytes, hI.next, fun _ hlen => append_isSome hI hlen, fun _ ha => turn_isSome hI ha⟩

/-- A full buffer is rotated out, the worker takes it and writes it, and more is appended. -/
def rotation : List Act :=
  [.startWorker, .append (List.replicate kSmallBufferSize 7), .append [1, 2], .enter, .test, .lock,
    .append [3], .write]

theorem log_stream_rotation : ∃ s, run step new rotation = some s ∧ s.logFile.length = 4096 ∧
    contents s.unwritten = [1, 2] ∧ contents [s.curBuffer] = [3] ∧
    s.logFile ++ contents s.unwritten ++ contents s.buffers ++ contents [s.curBuffer] =
      s.appended := by
  obtain ⟨s, hs, hobs⟩ : ∃ s, run step new rotation = some s ∧
      (s.logFile.length, contents s.unwritten, contents [s.curBuffer]) = (4096, [1, 2], [3]) :=
    Option.map_eq_some_iff.mp (by decide +kernel)
  simp only [Prod.mk.injEq] at hobs
  exact ⟨s, hs, hobs.1, hobs.2.1, hobs.2.2, (log_stream ⟨new, rotation, rfl, hs⟩).1⟩

/-! ### Recycling -/

theorem not_mem_of_isSome {l : List BufferPtr} (h : ∀ p ∈ l, p.isSome) : none ∉ l := by
  intro hnone
  have hsome := h none hnone
  cases hsome

/-- Cutting down to two loses buffers but makes no null pointer. -/
theorem not_mem_resize {l : List BufferPtr} (hlen : 2 ≤ l.length) (h : none ∉ l) :
    none ∉ Vec.resize l 2 none := by
  have hcut : Vec.resize l 2 none = l.take 2 := by
    rw [Vec.resize, Nat.sub_eq_zero_of_le hlen, List.replicate_zero, List.append_nil]
  rw [hcut]
  exact fun hmem => h (List.mem_of_mem_take hmem)

/-- **The worker always has two real buffers.**  In every reachable state `cur_buffer_` is not null,
and `buffers_` is not empty when `next_buffer_` is null; while the worker writes, `tempBuffers` has
at least two buffers and no null pointer, and none after `resize(2)`; at the top of every
iteration its two buffers are there and empty, so that the assertions hold; and no `Append` of at
most a buffer's size is refused. -/
theorem recycles_two {s : AsyncLogging} (h : Reachable s) :
    s.curBuffer ≠ none ∧ (s.nextBuffer = none → s.buffers ≠ []) ∧
      (∀ it, s.pc = .writing it → 2 ≤ s.tempBuffers.length ∧ none ∉ s.tempBuffers ∧
        none ∉ Vec.resize s.tempBuffers 2 none) ∧
      (s.pc = .top → s.tempBuffers = [] ∧ ∃ b₁ b₂, s.tempBuffer1 = some b₁ ∧
        s.tempBuffer2 = some b₂ ∧ b₁.slice = [] ∧ b₂.slice = [] ∧ (step s .test).isSome) ∧
      ∀ slice, slice.length ≤ kSmallBufferSize → (step s (.append slice)).isSome := by
  have hI := h.logInv
  obtain ⟨b, hb⟩ := hI.cur
  refine ⟨by rw [hb]; nofun, hI.full, fun it hpc => ?_, fun hpc => ?_, fun slice hlen =>
    append_isSome hI hlen⟩
  · have hw := hI.worker
    simp only [WorkerInv, hpc] at hw
    have hreal := not_mem_of_isSome hw.2.1
    exact ⟨hw.1, hreal, not_mem_resize hw.1 hreal⟩
  · obtain ⟨htemps, b₁, b₂, h₁, h₂, hb₁, hb₂⟩ := hI.worker.temps (Or.inl hpc)
    have hturn : s.turn = some .test := by rw [turn, hpc]
    exact ⟨htemps, b₁, b₂, h₁, h₂, hb₁, hb₂, turn_isSome hI hturn⟩

/-- After a round with a full buffer the worker is at the top again. -/
theorem recycles_two_rotation : ∃ s, run step new (rotation ++ [.write, .recycle]) = some s ∧
    s.pc = .top ∧ s.tempBuffers = [] := by
  obtain ⟨s, hs, hpc⟩ : ∃ s, run step new (rotation ++ [.write, .recycle]) = some s ∧
      s.pc = .top := Option.map_eq_some_iff.mp (by decide +kernel)
  exact ⟨s, hs, hpc, ((recycles_two ⟨new, _, rfl, hs⟩).2.2.2.1 hpc).1⟩

/-! ### Stopping -/

/-- The worker is past the test of `done` and before its swap, or there is nothing to swap. -/
def Flushes (s : AsyncLogging) : Prop :=
  s.pc = .locking ∨ s.pc = .waiting ∨ contents s.buffers ++ contents [s.curBuffer] = []

/-- The bytes that a worker that is told to stop will leave in the buffers. -/
def leftover (s : AsyncLogging) : List UInt8 :=
  if s.pc = .locking ∨ s.pc = .waiting then [] else contents s.buffers ++ contents [s.curBuffer]

theorem flushes_iff {s : AsyncLogging} : Flushes s ↔ s.leftover = [] := by
  unfold Flushes leftover
  split_ifs with hpc
  · exact ⟨fun _ => rfl, fun _ => hpc.elim Or.inl fun h => Or.inr (Or.inl h)⟩
  · rw [not_or] at hpc
    exact ⟨fun h => (h.resolve_left hpc.1).resolve_left hpc.2, fun h => Or.inr (Or.inr h)⟩

section Stop

variable {s s' : AsyncLogging}

theorem swap_leftover (hI : LogInv s) (hpc : s.pc = .locking ∨ s.pc = .waiting) :
    s.swap.leftover = [] := by
  obtain ⟨htemps, b₁, b₂, h₁, h₂, hb₁, hb₂⟩ := hI.worker.temps (Or.inr hpc)
  simp [leftover, swap, htemps, h₁, hb₁]

/-- After `done` is set the worker does not start another round: what it leaves is settled. -/
theorem step_leftover {a : Act} (hI : LogInv s) (hdone : s.done = true)
    (ha : ∀ slice, a ≠ .append slice) (h : step s a = some s') :
    s'.done = true ∧ s'.leftover = s.leftover := by
  cases a with
  | append slice => exact absurd rfl (ha slice)
  | startWorker =>
    obtain ⟨hpc, rfl⟩ := guarded_eq_some.mp h
    exact ⟨hdone, by simp [leftover, hpc]⟩
  | enter =>
    obtain ⟨hpc, rfl⟩ := guarded_eq_some.mp h
    exact ⟨hdone, by simp [leftover, hpc]⟩
  | test =>
    simp only [step, hdone, if_true] at h
    obtain ⟨hpc, rfl⟩ := guarded_eq_some.mp h
    exact ⟨rfl, by simp [leftover, hpc]⟩
  | lock =>
    obtain ⟨hpc, rfl⟩ := guarded_eq_some.mp h
    have hleft : s.leftover = [] := if_pos (Or.inl hpc)
    rw [hleft]
    split_ifs
    · exact ⟨hdone, if_pos (Or.inr rfl)⟩
    · exact ⟨hdone, swap_leftover hI (Or.inl hpc)⟩
  | wake =>
    obtain ⟨hpc, rfl⟩ := guarded_eq_some.mp h
    have hleft : s.leftover = [] := if_pos (Or.inr hpc)
    rw [hleft]
    exact ⟨hdone, swap_leftover hI (Or.inr hpc)⟩
  | write =>
    obtain ⟨it, b, hpc, -, rfl⟩ := step_write h
    exact ⟨hdone, by simp [leftover, hpc]⟩
  | recycle =>
    obtain ⟨b₁, b₂, hpc, -, -, rfl⟩ := step_recycle hI h
    exact ⟨hdone, by simp [leftover, hpc]⟩
  | stop =>
    obtain ⟨⟨-, -, hfalse⟩, -⟩ := guarded_eq_some.mp h
    rw [hdone] at hfalse
    cases hfalse

/-- At its end the worker has written everything but what is left in the buffers. -/
theorem LogInv.flushed_iff (hI : LogInv s) (hpc : s.pc = .exited) :
    s.logFile = s.appended ↔ s.leftover = [] := by
  have hw := hI.worker
  have hbytes := hI.bytes
  simp only [WorkerInv, unwritten, hpc] at hw hbytes
  rw [hw.1, contents_nil, List.append_nil, List.append_assoc] at hbytes
  rw [← hbytes]
  simp [leftover, hpc]

/-- **`StopWorker` flushes exactly if the worker still has a swap before it.**  When `StopWorker` is
called in a reachable state after `StartWorker` has returned and nothing is appended afterwards,
then at the worker's end the log file has been handed all appended bytes if and only if, when `done`
was set, the worker was past its test of `done` and before its swap, or the buffers held no
bytes. -/
theorem stop_flushes_iff {s₁ s₂ s₃ : AsyncLogging} (h : Reachable s₁)
    (hstop : step s₁ .stop = some s₂) {as : List Act} (has : ∀ slice, .append slice ∉ as)
    (hrun : run step s₂ as = some s₃) (hexit : s₃.pc = .exited) :
    s₃.logFile = s₃.appended ↔ Flushes s₁ := by
  have hI₂ := step_logInv h.logInv hstop
  obtain ⟨-, rfl⟩ := guarded_eq_some.mp hstop
  set s₂ : AsyncLogging := { s₁ with done := true } with hs₂
  have hinv : LogInv s₃ ∧ s₃.done = true ∧ s₃.leftover = s₂.leftover := by
    refine run_inv_along (I := fun s => LogInv s ∧ s.done = true ∧ s.leftover = s₂.leftover)
      (P := fun _ a => ∀ slice, a ≠ .append slice) ?_ hrun (along_of_forall _ ?_) ⟨hI₂, rfl, rfl⟩
    · rintro s a s' ⟨hI, hdone, hleft⟩ ha hs
      obtain ⟨hdone', hleft'⟩ := step_leftover hI hdone ha hs
      exact ⟨step_logInv hI hs, hdone', hleft'.trans hleft⟩
    · intro a hmem slice he
      exact has slice (he ▸ hmem)
  rw [hinv.1.flushed_iff hexit, hinv.2.2, flushes_iff]
  rfl

/-- The worker can run to its end without further appends. -/
def Exits (s : AsyncLogging) : Prop :=
  ∃ as s', run step s as = some s' ∧ s'.pc = .exited ∧ ∀ slice, .append slice ∉ as

theorem exits_of_step {a : Act} (ha : ∀ slice, a ≠ .append slice) (h : step s a = some s')
    (hs' : Exits s') : Exits s := by
  obtain ⟨as, t, hrun, hpc, has⟩ := hs'
  refine ⟨a :: as, t, run_cons_some.mpr ⟨s', h, hrun⟩, hpc, fun slice hmem => ?_⟩
  rcases List.mem_cons.mp hmem with he | hmem
  · exact ha slice he.symm
  · exact has slice hmem

theorem exits_of_top (hdone : s.done = true) (hpc : s.pc = .top) : Exits s := by
  have hstep : step s .test = some { s with pc := .exited } := by
    simp [step, guarded, hdone, hpc]
  exact exits_of_step (by simp) hstep ⟨[], _, rfl, rfl, fun _ => List.not_mem_nil⟩

theorem exits_of_writing (n : ℕ) {it : ℕ} (hI : LogInv s) (hdone : s.done = true)
    (hpc : s.pc = .writing it) (hn : s.tempBuffers.length - it = n) : Exits s := by
  -- by induction on the number of buffers still to be written
  induction n generalizing s it with
  | zero =>
    have hw := hI.worker
    simp only [WorkerInv, hpc] at hw
    obtain ⟨b₁, b₂, hrec, -⟩ := recycle_spec hI hpc
    have hend : it = s.tempBuffers.length := by omega
    have hstep : step s .recycle = some { s with
        tempBuffer1 := some b₁, tempBuffer2 := some b₂, tempBuffers := [], pc := .top } := by
      simp only [step, hpc, hend, if_true]
      exact hrec
    exact exits_of_step (by simp) hstep (exits_of_top hdone rfl)
  | succ n ih =>
    have hw := hI.worker
    simp only [WorkerInv, hpc] at hw
    have hlt : it < s.tempBuffers.length := by omega
    obtain ⟨b, hb⟩ := Option.isSome_iff_exists.mp (hw.2.1 _ (List.getElem_mem hlt))
    have hstep : step s .write =
        some { s with logFile := s.logFile ++ b.slice, pc := .writing (it + 1) } := by
      simp [step, hpc, List.getElem?_eq_getElem hlt, hb]
    refine exits_of_step (by simp) hstep (ih (step_logInv hI hstep) hdone rfl ?_)
    change s.tempBuffers.length - (it + 1) = n
    omega

/-- **`StopWorker` returns**: once `done` is set, the worker can run to its end. -/
theorem worker_exits (hI : LogInv s) (hdone : s.done = true)
    (hstarted : s.pc ≠ .absent ∧ s.pc ≠ .starting) : Exits s := by
  have hswap : s.pc = .locking ∨ s.pc = .waiting → Exits s.swap := fun hpc =>
    exits_of_writing _ (swap_logInv hI hpc) hdone rfl rfl
  have hwaiting : ∀ t : AsyncLogging, t.pc = .waiting → Exits t.swap → Exits t := fun t hpc ht =>
    exits_of_step (a := .wake) (by simp) (guarded_eq_some.mpr ⟨hpc, rfl⟩) ht
  cases hpc : s.pc with
  | absent => exact absurd hpc hstarted.1
  | starting => exact absurd hpc hstarted.2
  | top => exact exits_of_top hdone hpc
  | locking =>
    refine exits_of_step (a := .lock) (by simp) (guarded_eq_some.mpr ⟨hpc, rfl⟩) ?_
    split_ifs
    · exact hwaiting { s with pc := .waiting } rfl (hswap (Or.inl hpc))
    · exact hswap (Or.inl hpc)
  | waiting => exact hwaiting s hpc (hswap (Or.inr hpc))
  | writing it => exact exits_of_writing _ hI hdone hpc rfl
  | exited => exact ⟨[], s, rfl, hpc, fun _ => List.not_mem_nil⟩

end Stop

/-- The worker is waiting when the slice is appended, and `StopWorker` wakes it. -/
def waitingWorker : List Act := [.startWorker, .enter, .test, .lock, .append [1]]

def lastRound : List Act := [.wake, .write, .write, .recycle, .test]

theorem stop_flushes_waiting : ∃ s₁ s₂ s₃, run step new waitingWorker = some s₁ ∧
    step s₁ .stop = some s₂ ∧ run step s₂ lastRound = some s₃ ∧ s₃.pc = .exited ∧
    s₃.logFile = s₃.appended := by
  have heval : (run step new waitingWorker).bind (fun s₁ => (step s₁ .stop).bind fun s₂ =>
      (run step s₂ lastRound).map fun s₃ => (s₁.pc, s₃.pc)) = some (.waiting, .exited) := by
    decide +kernel
  obtain ⟨s₁, h₁, heval⟩ := Option.bind_eq_some_iff.mp heval
  obtain ⟨s₂, h₂, heval⟩ := Option.bind_eq_some_iff.mp heval
  obtain ⟨s₃, h₃, hobs⟩ := Option.map_eq_some_iff.mp heval
  simp only [Prod.mk.injEq] at hobs
  refine ⟨s₁, s₂, s₃, h₁, h₂, h₃, hobs.2, ?_⟩
  exact (stop_flushes_iff ⟨new, waitingWorker, rfl, h₁⟩ h₂ (by simp [lastRound]) h₃ hobs.2).mpr
    (Or.inr (Or.inl hobs.1))

/-- The slice is appended and `StopWorker` called before the worker's first test of `done`. -/
def slowWorker : List Act := [.startWorker, .enter, .append [1], .stop, .test]

theorem slowWorker_loses : ∃ s, run step new slowWorker = some s ∧ s.pc = .exited ∧
    s.appended = [1] ∧ s.logFile = [] := by
  obtain ⟨s, hs, hobs⟩ : ∃ s, run step new slowWorker = some s ∧
      (s.pc, s.appended, s.logFile) = (.exited, [1], []) :=
    Option.map_eq_some_iff.mp (by decide +kernel)
  simp only [Prod.mk.injEq] at hobs
  exact ⟨s, hs, hobs.1, hobs.2.1, hobs.2.2⟩

end AsyncLogging

end Polly
