import Polly.AsyncLogging
import Polly.LogFile

/-!
# LogPipeline — from `Append` to the files (`log/async_logging.cc`, `log/log_file.cc`)

The worker of `AsyncLogging` hands its buffers to a `LogFile`, which rolls between files.  Here the
two run together: every write of the worker is an `Append` of the log file, with what fwrite(3) and
time(2) return in it.  A message is what one call of `AsyncLogging::Append` is given.

* `messages_whole`: every file holds whole messages, in the order they were appended in; what is in
  no file yet is in the buffers.
* `written_within_two`: whatever was appended before the worker has recycled its buffers twice is in
  the files.
-/

namespace Polly

open Runs

/-! ### The two together -/

/-- The messages that a step of the logger appends. -/
def AsyncLogging.Act.given : AsyncLogging.Act → List (List UInt8)
  | .append slice => [slice]
  | _ => []

structure LogPipeline where
  logging : AsyncLogging
  journal : Journal

namespace LogPipeline

/-- The constructor of `AsyncLogging`, which constructs its log file. -/
def start (basename : String) (lastRoll now : ℤ) (count : ℕ) : Option LogPipeline :=
  (Journal.start basename lastRoll now count).map fun journal => ⟨.new, journal⟩

/-- What the worker writes next. -/
def nextSlice (s : AsyncLogging) : Option (List UInt8) :=
  match s.pc with
  | .writing it => s.tempBuffers[it]?.join.map FixedBuffer.slice
  | _ => none

inductive Act where
  /-- a step of the logger that writes nothing -/
  | work (a : AsyncLogging.Act)
  /-- the worker calls `log_file_.Append` -/
  | write (fwrites : List ℕ) (now rollNow : ℤ)
  deriving DecidableEq, Repr

def step (p : LogPipeline) : Act → Option LogPipeline
  | .work a =>
    if a = .write then none else (p.logging.step a).map fun logging => { p with logging := logging }
  | .write fwrites now rollNow =>
    (nextSlice p.logging).bind fun slice =>
      (p.journal.step ⟨slice, fwrites, now, rollNow⟩).bind fun journal =>
        (p.logging.step .write).map fun logging => ⟨logging, journal⟩

/-- The messages of a step. -/
def sent : Act → List (List UInt8)
  | .work a => a.given
  | .write .. => []

/-- fwrite(3) accepts all bytes. -/
def Accepts (p : LogPipeline) : Act → Prop
  | .work _ => True
  | .write fwrites _ _ => ∀ slice ∈ nextSlice p.logging,
      AppendFile.fwriteAll slice.length fwrites = slice.length

instance (p : LogPipeline) : (a : Act) → Decidable (Accepts p a)
  | .work _ => inferInstanceAs (Decidable True)
  | .write fwrites _ _ => inferInstanceAs (Decidable (∀ slice ∈ nextSlice p.logging,
      AppendFile.fwriteAll slice.length fwrites = slice.length))

end LogPipeline

/-! ### Messages in the buffers -/

namespace AsyncLogging

variable {s s' : AsyncLogging} {slice : List UInt8}

/-- The bytes of a buffer. -/
def bytes (p : BufferPtr) : List UInt8 := p.elim [] FixedBuffer.slice

/-- The messages in the buffers: those the worker has still to write, those of `buffers_`, and those
of `cur_buffer_`. -/
structure Packed (s : AsyncLogging) (temps queued : List (List (List UInt8)))
    (cur : List (List UInt8)) : Prop where
  temps : s.unwritten.map bytes = temps.map List.flatten
  queued : s.buffers.map bytes = queued.map List.flatten
  cur : bytes s.curBuffer = cur.flatten

variable {temps queued : List (List (List UInt8))} {cur : List (List UInt8)}

/-- `Append` puts its message whole into one buffer. -/
theorem append_packed (hI : LogInv s) (h : s.append slice = some s')
    (hp : Packed s temps queued cur) :
    ∃ queued' cur', Packed s' temps queued' cur' ∧
      queued'.flatten ++ cur' = queued.flatten ++ cur ++ [slice] := by
  obtain ⟨b, hb⟩ := hI.cur
  have hcur := hp.cur
  simp only [append, hb, Option.bind_some] at h
  rw [hb] at hcur
  split_ifs at h with hfits
  · obtain ⟨b', hb', rfl⟩ := Option.map_eq_some_iff.mp h
    refine ⟨queued, cur ++ [slice], ⟨hp.temps, hp.queued, ?_⟩, by simp⟩
    change b'.slice = _
    rw [FixedBuffer.slice_append hb', List.flatten_append, ← hcur]
    simp [bytes]
  · obtain ⟨b', hb', rfl⟩ := Option.map_eq_some_iff.mp h
    refine ⟨queued ++ [cur], [slice], ⟨hp.temps, ?_, ?_⟩, by simp⟩
    · change (s.buffers ++ [some b]).map bytes = _
      rw [List.map_append, hp.queued, List.map_append]
      simp [hcur]
    · change b'.slice = _
      rw [FixedBuffer.slice_append hb', hI.fresh]
      simp

/-- The swap hands all messages to the worker. -/
theorem swap_packed (hI : LogInv s) (hpc : s.pc = .locking ∨ s.pc = .waiting)
    (hp : Packed s temps queued cur) :
    ∃ temps', Packed s.swap temps' [] [] ∧
      temps'.flatten = temps.flatten ++ queued.flatten ++ cur := by
  obtain ⟨htemps, b₁, b₂, h₁, -, hb₁, -⟩ := hI.worker.temps (Or.inr hpc)
  obtain ⟨own, hown, hcontents, -⟩ := swap_tempBuffers hI hpc
  have hun : s.unwritten = [] := by
    unfold unwritten
    rcases hpc with hpc | hpc <;> simpa only [hpc] using htemps
  have hnil : temps = [] := by
    have := hp.temps
    rw [hun] at this
    exact List.map_eq_nil_iff.mp this.symm
  have hempty : own.map bytes = (List.replicate own.length []).map List.flatten := by
    rw [List.map_replicate, List.flatten_nil, List.eq_replicate_iff]
    refine ⟨List.length_map _, fun x hx => ?_⟩
    obtain ⟨p, hpm, rfl⟩ := List.mem_map.mp hx
    exact List.flatMap_eq_nil_iff.mp hcontents p hpm
  refine ⟨queued ++ [cur] ++ List.replicate own.length [], ⟨?_, ?_, ?_⟩, ?_⟩
  · change s.swap.tempBuffers.map bytes = _
    rw [hown, List.map_append, List.map_append, List.map_append, List.map_append, hp.queued, hempty]
    simp [hp.cur]
  · change s.tempBuffers.map bytes = _
    rw [htemps]
    rfl
  · change bytes s.tempBuffer1 = _
    rw [h₁]
    exact hb₁
  · rw [hnil]
    simp

theorem write_packed (h : step s .write = some s') (hp : Packed s temps queued cur) :
    ∃ g temps', LogPipeline.nextSlice s = some g.flatten ∧ temps = g :: temps' ∧
      Packed s' temps' queued cur := by
  obtain ⟨it, b, hpc, hget, rfl⟩ := step_write h
  obtain ⟨hlt, hb⟩ := List.getElem?_eq_some_iff.mp hget
  have ht := hp.temps
  simp only [unwritten, hpc] at ht
  rw [List.drop_eq_getElem_cons hlt, hb, List.map_cons] at ht
  obtain ⟨g, temps', rfl, hg, htemps⟩ := List.map_eq_cons_iff.mp ht.symm
  refine ⟨g, temps', ?_, rfl, ⟨htemps.symm, hp.queued, hp.cur⟩⟩
  rw [LogPipeline.nextSlice]
  simp only [hpc, hget, hg]
  rfl

/-- The worker's buffers as they are, and the others too. -/
theorem Packed.of_eq (hp : Packed s temps queued cur) (hun : s'.unwritten = s.unwritten)
    (hbuffers : s'.buffers = s.buffers) (hcur : s'.curBuffer = s.curBuffer) :
    Packed s' temps queued cur :=
  ⟨by rw [hun]; exact hp.temps, by rw [hbuffers]; exact hp.queued, by rw [hcur]; exact hp.cur⟩

/-- **One step** that writes nothing moves messages from buffer to buffer, in order. -/
theorem step_packed {a : Act} (hI : LogInv s) (ha : a ≠ .write) (h : step s a = some s')
    (hp : Packed s temps queued cur) :
    ∃ temps' queued' cur', Packed s' temps' queued' cur' ∧
      temps'.flatten ++ queued'.flatten ++ cur' =
        temps.flatten ++ queued.flatten ++ cur ++ a.given := by
  have hw := hI.worker
  cases a with
  | append slice =>
    obtain ⟨queued', cur', hp', heq⟩ := append_packed hI h hp
    exact ⟨temps, queued', cur', hp', by simp only [List.append_assoc, heq, Act.given]⟩
  | startWorker =>
    obtain ⟨hpc, rfl⟩ := guarded_eq_some.mp h
    exact ⟨_, _, _, hp.of_eq (by simp [unwritten, hpc]) rfl rfl, by simp [Act.given]⟩
  | enter =>
    obtain ⟨hpc, rfl⟩ := guarded_eq_some.mp h
    simp only [WorkerInv, hpc] at hw
    exact ⟨_, _, _, hp.of_eq (by simp [unwritten, hpc, hw]) rfl rfl, by simp [Act.given]⟩
  | test =>
    simp only [step] at h
    split_ifs at h
    · obtain ⟨hpc, rfl⟩ := guarded_eq_some.mp h
      exact ⟨_, _, _, hp.of_eq (by simp [unwritten, hpc]) rfl rfl, by simp [Act.given]⟩
    · obtain ⟨⟨hpc, -⟩, rfl⟩ := guarded_eq_some.mp h
      exact ⟨_, _, _, hp.of_eq (by simp [unwritten, hpc]) rfl rfl, by simp [Act.given]⟩
  | lock =>
    obtain ⟨hpc, rfl⟩ := guarded_eq_some.mp h
    split_ifs
    · exact ⟨_, _, _, hp.of_eq (by simp [unwritten, hpc]) rfl rfl, by simp [Act.given]⟩
    · obtain ⟨temps', hp', heq⟩ := swap_packed hI (Or.inl hpc) hp
      exact ⟨temps', _, _, hp', by simp [heq, Act.given]⟩
  | wake =>
    obtain ⟨hpc, rfl⟩ := guarded_eq_some.mp h
    obtain ⟨temps', hp', heq⟩ := swap_packed hI (Or.inr hpc) hp
    exact ⟨temps', _, _, hp', by simp [heq, Act.given]⟩
  | write => exact absurd rfl ha
  | recycle =>
    obtain ⟨b₁, b₂, hpc, -, -, rfl⟩ := step_recycle hI h
    exact ⟨_, _, _, hp.of_eq (by simp [unwritten, hpc]) rfl rfl, by simp [Act.given]⟩
  | stop =>
    obtain ⟨-, rfl⟩ := guarded_eq_some.mp h
    exact ⟨_, _, _, hp.of_eq rfl rfl rfl, by simp [Act.given]⟩

/-! ### Rounds of the worker -/

/-- The first `n` bytes are in the log file, or on their way there once the worker has swapped. -/
structure Taken (n : ℕ) (s : AsyncLogging) : Prop where
  appended : n ≤ s.appended.length
  writing : ∀ it, s.pc = .writing it → n ≤ s.logFile.length + (contents s.unwritten).length

theorem swap_taken {n : ℕ} (hI : LogInv s) (hpc : s.pc = .locking ∨ s.pc = .waiting)
    (hn : n ≤ s.appended.length) : Taken n s.swap := by
  have hI' := swap_logInv hI hpc
  have htemps := (hI.worker.temps (Or.inr hpc)).1
  obtain ⟨b₁, -, h₁, -, hb₁, -⟩ := (hI.worker.temps (Or.inr hpc)).2
  refine ⟨hn, fun it _ => ?_⟩
  have hbytes := congrArg List.length hI'.bytes
  have hbuffers : contents s.swap.buffers = [] := by
    change contents s.tempBuffers = []
    rw [htemps, contents_nil]
  have hcur : contents [s.swap.curBuffer] = [] := by
    change contents [s.tempBuffer1] = []
    rw [h₁, contents_some, hb₁]
  rw [hbuffers, hcur, List.append_nil, List.append_nil, List.length_append] at hbytes
  rw [hbytes]
  exact hn

/-- Only `Append` appends, and only the worker writes. -/
theorem step_appended {a : Act} (h : step s a = some s') :
    s'.appended = s.appended ++ a.given.flatten := by
  cases a with
  | append slice => simpa [Act.given] using append_appended h
  | test =>
    simp only [step] at h
    split_ifs at h <;> obtain ⟨-, rfl⟩ := guarded_eq_some.mp h <;> simp [Act.given]
  | lock =>
    obtain ⟨-, rfl⟩ := guarded_eq_some.mp h
    split_ifs <;> simp [Act.given, swap]
  | write =>
    obtain ⟨it, b, -, -, rfl⟩ := step_write h
    simp [Act.given]
  | recycle =>
    simp only [step] at h
    split at h
    · split_ifs at h
      unfold recycle at h
      split at h
      · cases h
        simp [Act.given]
      · cases h
    · cases h
  | startWorker | enter | wake | stop =>
    obtain ⟨-, rfl⟩ := guarded_eq_some.mp h
    simp [Act.given, swap]

theorem step_logFile {a : Act} (h : step s a = some s') : s.logFile <+: s'.logFile := by
  cases a with
  | append slice =>
    obtain ⟨cur, -, h⟩ := Option.bind_eq_some_iff.mp h
    split_ifs at h <;> obtain ⟨b, -, rfl⟩ := Option.map_eq_some_iff.mp h <;> exact List.prefix_rfl
  | test =>
    simp only [step] at h
    split_ifs at h <;> obtain ⟨-, rfl⟩ := guarded_eq_some.mp h <;> exact List.prefix_rfl
  | lock =>
    obtain ⟨-, rfl⟩ := guarded_eq_some.mp h
    split_ifs <;> exact List.prefix_rfl
  | write =>
    obtain ⟨it, b, -, -, rfl⟩ := step_write h
    exact List.prefix_append ..
  | recycle =>
    simp only [step] at h
    split at h
    · split_ifs at h
      unfold recycle at h
      split at h
      · cases h
        exact List.prefix_rfl
      · cases h
    · cases h
  | startWorker | enter | wake | stop =>
    obtain ⟨-, rfl⟩ := guarded_eq_some.mp h
    exact List.prefix_rfl

theorem step_appended_le {a : Act} (h : step s a = some s') :
    s.appended.length ≤ s'.appended.length := by
  rw [step_appended h, List.length_append]
  omega

/-- Where the worker goes in a step: it swaps, it is not writing, or it stays where it is. -/
theorem step_taken {n : ℕ} {a : Act} (hI : LogInv s) (ht : Taken n s) (h : step s a = some s') :
    Taken n s' := by
  have happended : n ≤ s'.appended.length := ht.appended.trans (step_appended_le h)
  cases a with
  | append slice =>
    refine ⟨happended, fun it hpc => ?_⟩
    obtain ⟨cur, -, h⟩ := Option.bind_eq_some_iff.mp h
    split_ifs at h
    · obtain ⟨b, -, rfl⟩ := Option.map_eq_some_iff.mp h
      exact ht.writing it hpc
    · obtain ⟨b, -, rfl⟩ := Option.map_eq_some_iff.mp h
      exact ht.writing it hpc
  | test =>
    simp only [step] at h
    split_ifs at h <;> obtain ⟨-, rfl⟩ := guarded_eq_some.mp h <;>
      exact ⟨happended, fun it hpc => by cases hpc⟩
  | lock =>
    obtain ⟨hpc, rfl⟩ := guarded_eq_some.mp h
    split_ifs
    · exact ⟨ht.appended, fun it hpc => by cases hpc⟩
    · exact swap_taken hI (Or.inl hpc) ht.appended
  | wake =>
    obtain ⟨hpc, rfl⟩ := guarded_eq_some.mp h
    exact swap_taken hI (Or.inr hpc) ht.appended
  | write =>
    obtain ⟨it, b, hpc, hget, rfl⟩ := step_write h
    obtain ⟨hlt, hb⟩ := List.getElem?_eq_some_iff.mp hget
    refine ⟨happended, fun _ _ => ?_⟩
    have hn := ht.writing it hpc
    simp only [unwritten, hpc, List.drop_eq_getElem_cons hlt, hb, contents_cons] at hn
    simp only [unwritten, List.length_append] at hn ⊢
    omega
  | recycle =>
    obtain ⟨b₁, b₂, -, -, -, rfl⟩ := step_recycle hI h
    exact ⟨happended, fun it hpc => by cases hpc⟩
  | startWorker | enter =>
    obtain ⟨-, rfl⟩ := guarded_eq_some.mp h
    exact ⟨happended, fun it hpc => by cases hpc⟩
  | stop =>
    obtain ⟨-, rfl⟩ := guarded_eq_some.mp h
    exact ⟨ht.appended, ht.writing⟩

/-- How far the first `n` bytes are after some rounds of the worker. -/
def Round (n : ℕ) (s : AsyncLogging) : ℕ → Prop
  | 0 => n ≤ s.appended.length
  | 1 => Taken n s
  | _ + 2 => Taken n s ∧ n ≤ s.logFile.length

theorem step_round {n k : ℕ} {a : Act} (hI : LogInv s) (hk : Round n s k)
    (h : step s a = some s') : Round n s' (k + if a = .recycle then 1 else 0) := by
  by_cases ha : a = .recycle
  · subst ha
    rw [if_pos rfl]
    obtain ⟨b₁, b₂, hpc, -, -, rfl⟩ := step_recycle hI h
    rcases k with _ | _ | k
    · exact ⟨hk, fun it hpc => by cases hpc⟩
    · refine ⟨⟨hk.appended, fun it hpc => by cases hpc⟩, ?_⟩
      have hn := hk.writing _ hpc
      simp only [unwritten, hpc, List.drop_length, contents_nil, List.length_nil] at hn
      exact hn
    · exact ⟨⟨hk.1.appended, fun it hpc => by cases hpc⟩, hk.2⟩
  · rw [if_neg ha, Nat.add_zero]
    rcases k with _ | _ | k
    · exact hk.trans (step_appended_le h)
    · exact step_taken hI hk h
    · exact ⟨step_taken hI hk.1 h, hk.2.trans (step_logFile h).length_le⟩

/-- **Two rounds** of the worker write what was appended before them. -/
theorem run_round {n k : ℕ} {as : List Act} (hI : LogInv s) (hk : Round n s k)
    (h : run step s as = some s') : Round n s' (k + as.count .recycle) := by
  induction as generalizing s k with
  | nil =>
    cases h
    exact hk
  | cons a as ih =>
    obtain ⟨s₁, h₁, h₂⟩ := run_cons_some.mp h
    have hround := ih (step_logInv hI h₁) (step_round hI hk h₁) h₂
    rw [List.count_cons, Nat.add_comm (as.count _), ← Nat.add_assoc]
    simpa using hround

end AsyncLogging

/-! ### Messages in the files -/

namespace Journal

variable {s s' : Journal} {a : AppendCall}

/-- The bytes that went through a file. -/
def written (f : Filed) : List UInt8 := f.entries.flatMap Prod.fst

/-- A step appends to the last file, and may open an empty one behind it. -/
theorem step_filed (h : step s a = some s') :
    ∃ fresh : List Filed, s'.files = s.closed ++ [s.filed a] ++ fresh ∧
      ∀ f ∈ fresh, f.entries = [] ∧ f.file.contents = [] := by
  obtain ⟨v, hlog, -, hentries, hclosed⟩ := step_cases h
  rcases LogFile.append_cases hlog with ⟨hv, -, hopened, -⟩ | ⟨hv, -, ⟨t, hlast⟩, -⟩
  · refine ⟨[⟨s'.log.file, s'.log.startPeriod, []⟩], ?_, fun f hf => ?_⟩
    · rw [files, hclosed, hentries, if_pos hv, if_pos hv]
    · rw [List.mem_singleton.mp hf, hopened]
      exact ⟨rfl, rfl⟩
  · refine ⟨[], ?_, List.forall_mem_nil _⟩
    rw [files, hclosed, hentries, if_neg (by rw [hv]; decide), if_neg (by rw [hv]; decide), hlast,
      List.append_nil]
    rfl

/-- A slice that is a sequence of messages goes whole into one file. -/
theorem step_grouped (h : step s a = some s') {groups : List (List (List UInt8))}
    (hg : s.files.map written = groups.map List.flatten) {g : List (List UInt8)}
    (hslice : a.slice = g.flatten) :
    ∃ groups' : List (List (List UInt8)), s'.files.map written = groups'.map List.flatten ∧
      groups'.flatten = groups.flatten ++ g := by
  obtain ⟨fresh, hfiles, hfresh⟩ := step_filed h
  rw [files, List.map_append] at hg
  obtain ⟨gs, tail, rfl, hgs, htail⟩ := List.map_eq_append_iff.mp hg.symm
  obtain ⟨last, rfl, hlast⟩ := List.map_eq_singleton_iff.mp htail
  have hnew : written (s.filed a) = (last ++ g).flatten := by
    rw [List.flatten_append, hlast, ← hslice]
    simp [written, filed]
  have hempty : fresh.map written = (List.replicate fresh.length []).map List.flatten := by
    rw [List.map_replicate, List.flatten_nil, List.eq_replicate_iff]
    refine ⟨List.length_map _, fun x hx => ?_⟩
    obtain ⟨f, hf, rfl⟩ := List.mem_map.mp hx
    rw [written, (hfresh f hf).1, List.flatMap_nil]
  refine ⟨gs ++ [last ++ g] ++ List.replicate fresh.length [], ?_, by simp⟩
  rw [hfiles, List.map_append, List.map_append, List.map_append, List.map_append, hgs, hempty,
    List.map_singleton, List.map_singleton, hnew]

/-- The files have what went through them. -/
def Whole (s : Journal) : Prop := ∀ f ∈ s.files, f.file.contents = written f

theorem step_whole (hw : Whole s) (h : step s a = some s')
    (hacc : AppendFile.fwriteAll a.slice.length a.fwrites = a.slice.length) : Whole s' := by
  obtain ⟨fresh, hfiles, hfresh⟩ := step_filed h
  have hlast : s.log.file.contents = s.entries.flatMap Prod.fst :=
    hw ⟨s.log.file, s.log.startPeriod, s.entries⟩ (by simp [files])
  rw [Whole, hfiles, List.forall_mem_append, List.forall_mem_append, List.forall_mem_singleton]
  refine ⟨⟨fun f hf => hw f (List.mem_append_left _ hf), ?_⟩, fun f hf => ?_⟩
  · change (s.log.file.append a.slice a.fwrites).contents = _
    rw [AppendFile.append_contents hacc, hlast]
    simp [written, filed]
  · rw [written, (hfresh f hf).1, (hfresh f hf).2, List.flatMap_nil]

end Journal

/-! ### Runs -/

namespace LogPipeline

open AsyncLogging Journal

variable {p p' : LogPipeline} {a : Act}

/-- The logger's part of a step. -/
def Act.logging : Act → AsyncLogging.Act
  | .work a => a
  | .write .. => .write

theorem step_logging (h : step p a = some p') : p.logging.step a.logging = some p'.logging := by
  cases a with
  | work a =>
    simp only [step] at h
    split_ifs at h
    obtain ⟨l, hl, rfl⟩ := Option.map_eq_some_iff.mp h
    exact hl
  | write fwrites now rollNow =>
    obtain ⟨slice, -, h⟩ := Option.bind_eq_some_iff.mp h
    obtain ⟨j, -, h⟩ := Option.bind_eq_some_iff.mp h
    obtain ⟨l, hl, rfl⟩ := Option.map_eq_some_iff.mp h
    exact hl

/-- The messages are in the files, then in the buffers, in order. -/
structure PipeInv (p : LogPipeline) (messages : List (List UInt8)) : Prop where
  logging : LogInv p.logging
  appended : p.logging.appended = messages.flatten
  whole : Whole p.journal
  messages : ∃ (groups temps queued : List (List (List UInt8))) (cur : List (List UInt8)),
    p.journal.files.map written = groups.map List.flatten ∧ Packed p.logging temps queued cur ∧
      groups.flatten ++ (temps.flatten ++ queued.flatten ++ cur) = messages

theorem step_pipeInv {messages : List (List UInt8)} (hI : PipeInv p messages) (ha : Accepts p a)
    (h : step p a = some p') : PipeInv p' (messages ++ sent a) := by
  have hlogging := step_logInv hI.logging (step_logging h)
  obtain ⟨groups, temps, queued, cur, hg, hp, heq⟩ := hI.messages
  cases a with
  | work a =>
    simp only [step] at h
    split_ifs at h with hwrite
    obtain ⟨l, hl, rfl⟩ := Option.map_eq_some_iff.mp h
    obtain ⟨temps', queued', cur', hp', heq'⟩ := step_packed hI.logging hwrite hl hp
    refine ⟨hlogging, ?_, hI.whole, groups, temps', queued', cur', hg, hp', ?_⟩
    · rw [List.flatten_append, ← hI.appended]
      exact step_appended hl
    · rw [heq', ← List.append_assoc, heq]
      rfl
  | write fwrites now rollNow =>
    obtain ⟨slice, hslice, h⟩ := Option.bind_eq_some_iff.mp h
    obtain ⟨j, hj, h⟩ := Option.bind_eq_some_iff.mp h
    obtain ⟨l, hl, rfl⟩ := Option.map_eq_some_iff.mp h
    obtain ⟨g, temps', hnext, rfl, hp'⟩ := write_packed hl hp
    obtain rfl := Option.some.inj (hslice.symm.trans hnext)
    obtain ⟨groups', hg', heq'⟩ := step_grouped hj hg rfl
    refine ⟨hlogging, ?_, step_whole hI.whole hj (ha _ hslice), groups', temps', queued, cur, hg',
      hp', ?_⟩
    · rw [List.flatten_append, ← hI.appended]
      exact step_appended hl
    · rw [heq', sent, List.append_nil, ← heq]
      simp

section Runs

variable {basename : String} {lastRoll now : ℤ} {count : ℕ} {p₀ : LogPipeline} {as bs : List Act}

theorem start_pipeInv (h : start basename lastRoll now count = some p₀) : PipeInv p₀ [] := by
  obtain ⟨j, hj, rfl⟩ := Option.map_eq_some_iff.mp h
  obtain ⟨-, rfl⟩ := start_eq_some.mp hj
  refine ⟨new_logInv, rfl, ?_, [[]], [], [], [], rfl, ⟨rfl, rfl, ?_⟩, rfl⟩
  · simp [Whole, files, written, LogFile.opened]
  · exact (FixedBuffer.slice_new : (FixedBuffer.new : FixedBuffer kSmallBufferSize).slice = [])

theorem run_pipeInv {messages : List (List UInt8)} (hI : PipeInv p messages)
    (hacc : Along step Accepts p as) (hrun : run step p as = some p') :
    PipeInv p' (messages ++ as.flatMap sent) := by
  induction as generalizing p messages with
  | nil =>
    cases hrun
    simpa using hI
  | cons a as ih =>
    obtain ⟨p₁, h₁, h₂⟩ := run_cons_some.mp hrun
    rw [List.flatMap_cons, ← List.append_assoc]
    exact ih (step_pipeInv hI hacc.1 h₁) (hacc.2 p₁ h₁) h₂

theorem Packed.contents {s : AsyncLogging} {temps queued : List (List (List UInt8))}
    {cur : List (List UInt8)} (h : Packed s temps queued cur) :
    (temps.flatten ++ queued.flatten ++ cur).flatten =
      contents s.unwritten ++ contents s.buffers ++ contents [s.curBuffer] := by
  have hflat : ∀ (l : List BufferPtr) (gs : List (List (List UInt8))),
      l.map bytes = gs.map List.flatten → gs.flatten.flatten = AsyncLogging.contents l := by
    intro l gs hl
    rw [List.flatten_flatten, ← hl]
    rfl
  rw [List.flatten_append, List.flatten_append, hflat _ _ h.temps, hflat _ _ h.queued, ← h.cur]
  simp [AsyncLogging.contents, bytes]

/-- **Messages stay whole.**  In every run of the logger and its log file in which fwrite(3) accepts
all bytes, with any rolling and any interleaving of threads: every file is a sequence of whole
messages, the files together have the messages in the order they were appended in, and the messages
that are in no file yet are those in the buffers. -/
theorem messages_whole (hstart : start basename lastRoll now count = some p₀)
    (hrun : run step p₀ as = some p) (hacc : Along step Accepts p₀ as) :
    ∃ (groups : List (List (List UInt8))) (pending : List (List UInt8)),
      p.journal.files.map (fun f => f.file.contents) = groups.map List.flatten ∧
      groups.flatten ++ pending = as.flatMap sent ∧
      pending.flatten = contents p.logging.unwritten ++ contents p.logging.buffers ++
        contents [p.logging.curBuffer] := by
  have hI := run_pipeInv (start_pipeInv hstart) hacc hrun
  obtain ⟨groups, temps, queued, cur, hg, hp, heq⟩ := hI.messages
  refine ⟨groups, _, ?_, heq, Packed.contents hp⟩
  rw [← hg]
  exact List.map_congr_left fun f hf => hI.whole f hf

theorem run_logging (h : run step p as = some p') :
    run AsyncLogging.step p.logging (as.map Act.logging) = some p'.logging := by
  induction as generalizing p with
  | nil =>
    cases h
    rfl
  | cons a as ih =>
    obtain ⟨p₁, h₁, h₂⟩ := run_cons_some.mp h
    exact run_cons_some.mpr ⟨p₁.logging, step_logging h₁, ih h₂⟩

/-- The files have as many bytes as were handed to the log file. -/
theorem PipeInv.filed {messages : List (List UInt8)} (hI : PipeInv p messages) :
    p.journal.files.flatMap (fun f => f.file.contents) <+: messages.flatten ∧
      (p.journal.files.flatMap fun f => f.file.contents).length = p.logging.logFile.length := by
  obtain ⟨groups, temps, queued, cur, hg, hp, heq⟩ := hI.messages
  have hfiles : p.journal.files.flatMap (fun f => f.file.contents) = groups.flatten.flatten := by
    rw [List.flatten_flatten, ← hg]
    exact congrArg List.flatten (List.map_congr_left fun f hf => hI.whole f hf)
  have hflat : groups.flatten.flatten ++ (contents p.logging.unwritten ++
      contents p.logging.buffers ++ contents [p.logging.curBuffer]) = messages.flatten := by
    rw [← Packed.contents hp, ← List.flatten_append, heq]
  have hbytes := hI.logging.bytes
  rw [hI.appended, ← hflat, List.append_assoc, List.append_assoc, List.append_assoc] at hbytes
  rw [hfiles]
  refine ⟨⟨_, hflat⟩, ?_⟩
  have hlen := congrArg List.length hbytes
  simp only [List.length_append] at hlen
  omega

theorem count_logging (bs : List Act) :
    (bs.map Act.logging).count .recycle = bs.count (.work .recycle) := by
  induction bs with
  | nil => rfl
  | cons b bs ih =>
    rw [List.map_cons, List.count_cons, List.count_cons, ih]
    cases b <;> simp [Act.logging]

/-- **Two rounds write everything.**  Whatever was appended before the worker recycles its buffers
twice is in the files afterwards, in any interleaving with further appends. -/
theorem written_within_two {p₁ p₂ : LogPipeline}
    (hstart : start basename lastRoll now count = some p₀)
    (hrun : run step p₀ as = some p₁) (hrun' : run step p₁ bs = some p₂)
    (hacc : Along step Accepts p₀ (as ++ bs)) (htwo : 2 ≤ bs.count (.work .recycle)) :
    (as.flatMap sent).flatten <+: p₂.journal.files.flatMap fun f => f.file.contents := by
  obtain ⟨hacc₁, hacc₂⟩ := along_append.mp hacc
  have hI₁ := run_pipeInv (start_pipeInv hstart) hacc₁ hrun
  have hI₂ := run_pipeInv hI₁ (hacc₂ p₁ hrun) hrun'
  rw [List.nil_append] at hI₁ hI₂
  obtain ⟨hpre, hlen⟩ := hI₂.filed
  have hround : Round p₁.logging.appended.length p₁.logging 0 := le_rfl
  have hround := run_round hI₁.logging hround (run_logging hrun')
  rw [count_logging, Nat.zero_add] at hround
  obtain ⟨k, hk⟩ := Nat.exists_eq_add_of_le' htwo
  rw [hk] at hround
  refine List.prefix_of_prefix_length_le ?_ hpre ?_
  · rw [List.flatten_append]
    exact List.prefix_append ..
  · rw [hlen, ← hI₁.appended]
    exact hround.2

end Runs

/-! ### Two rounds -/

/-- A round of the worker in which two buffers are written. -/
def oneRound (now : ℤ) : List Act :=
  [.work .test, .work .lock, .work .wake, .write [1, 1] now now, .write [] now now, .work .recycle]

/-- The worker starts, and two messages are appended. -/
def twoMessages : List Act :=
  [.work .startWorker, .work .enter, .work (.append [1]), .work (.append [2])]

/-- A round on the next day, a round after it, and messages that come meanwhile. -/
def nextDay : List Act :=
  twoMessages ++ oneRound 86401 ++ .work (.append [3]) :: oneRound 86402 ++ [.work (.append [4])]

/-- With its counter two writes before the check the log file rolls in the first round. -/
theorem messages_whole_nextDay : ∃ p₀ p, start "polly" 0 1 1022 = some p₀ ∧
    run step p₀ nextDay = some p ∧
    p.journal.files.map (fun f => f.file.contents) = [[1, 2], [3]] ∧
    ∃ (groups : List (List (List UInt8))) (pending : List (List UInt8)),
      p.journal.files.map (fun f => f.file.contents) = groups.map List.flatten ∧
      groups.flatten ++ pending = [[1], [2], [3], [4]] := by
  have hend : (start "polly" 0 1 1022).map (fun p₀ =>
      ((run step p₀ nextDay).map fun p => p.journal.files.map fun f => f.file.contents,
        decide (Along step Accepts p₀ nextDay))) = some (some [[1, 2], [3]], true) := by
    decide +kernel
  obtain ⟨p₀, hp₀, hobs⟩ := Option.map_eq_some_iff.mp hend
  obtain ⟨hrun, hacc⟩ := Prod.mk.inj hobs
  obtain ⟨p, hp, hrolled⟩ := Option.map_eq_some_iff.mp hrun
  obtain ⟨groups, pending, hfiles, hall, -⟩ := messages_whole hp₀ hp (of_decide_eq_true hacc)
  exact ⟨p₀, p, hp₀, hp, hrolled, groups, pending, hfiles, hall⟩

theorem written_within_two_rounds : ∃ p₀ p₂, start "polly" 0 1 0 = some p₀ ∧
    run step p₀ (twoMessages ++ (oneRound 1 ++ oneRound 2)) = some p₂ ∧
    [1, 2] <+: p₂.journal.files.flatMap fun f => f.file.contents := by
  have hend : (start "polly" 0 1 0).map (fun p₀ =>
      (((run step p₀ twoMessages).bind fun p₁ => run step p₁ (oneRound 1 ++ oneRound 2)).isSome,
        decide (Along step Accepts p₀ (twoMessages ++ (oneRound 1 ++ oneRound 2))))) =
      some (true, true) := by decide +kernel
  obtain ⟨p₀, hp₀, hobs⟩ := Option.map_eq_some_iff.mp hend
  obtain ⟨hsome, hacc⟩ := Prod.mk.inj hobs
  obtain ⟨p₂, hp₂⟩ := Option.isSome_iff_exists.mp hsome
  obtain ⟨p₁, hp₁, hp₂⟩ := Option.bind_eq_some_iff.mp hp₂
  refine ⟨p₀, p₂, hp₀, by rw [run_append, hp₁, Option.bind_some, hp₂], ?_⟩
  exact written_within_two hp₀ hp₁ hp₂ (of_decide_eq_true hacc) (by decide)

end LogPipeline

end Polly
