import Polly.AsyncLogging
import Polly.CString
import Polly.FmtSize
import Polly.TimerQueue

/-!
# Logger — log statements (`log/logger.h`, `log/logger.cc`, `util/timestamp.cc`)

The constructor of a `Logger` inserts a header into its stream, the statement inserts its operands,
and the destructor inserts the place in the source and hands the stream's slice to the destination.
The calendar time is what gmtime_r(3) made of the seconds.  An insertion is refused where an
assertion fails: that of `Fmt` or that of the stream's buffer.

* `fits_iff`: no insertion of a statement overflows the buffer exactly if all of its text fits.
* `destinations_agree_iff`: stdout gets what an `AsyncLogging` stores exactly if the text has no
  zero byte and one follows it.
-/

namespace Polly

open CString Printf Runs

/-! ### Insertions -/

/-- The right operand of an `operator<<`. -/
inductive Insertion where
  | bool (v : Bool)
  | fmt (a : FmtArg)
  /-- a `const char *` -/
  | cstring (mem : List UInt8)
  /-- a `std::string` or a `Slice` -/
  | slice (bs : List UInt8)

namespace Insertion

def literal (s : String) : Insertion := .cstring (bytes s.toList ++ [0])

/-- The slice the operator hands to `append`; `none` if the assertion of `Fmt` fails before. -/
def text : Insertion → Option (List UInt8)
  | .bool v => some (bytes (if v then "1" else "0").toList)
  | .fmt a => a.fmt.map Fmt.slice
  | .cstring mem => some (cstr mem)
  | .slice bs => some bs

/-- What a list of insertions hands to `append`, in order. -/
def texts : List Insertion → List UInt8
  | [] => []
  | i :: is =>
    match i.text with
    | some out => out ++ texts is
    | none => []

theorem isSome_text_int (ty : IntType) (v : BitVec ty.width) :
    (Insertion.fmt (.int ty v)).text.isSome := by
  rw [text, Option.isSome_map, FmtArg.fmt_eq, Fmt.ofText_isSome_iff]
  exact ty.length_printed _

theorem texts_cons {i : Insertion} {out : List UInt8} (h : i.text = some out)
    (is : List Insertion) : texts (i :: is) = out ++ texts is := by
  rw [texts, h]

theorem texts_append {is : List Insertion} (h : ∀ i ∈ is, i.text.isSome) (js : List Insertion) :
    texts (is ++ js) = texts is ++ texts js := by
  induction is with
  | nil => rfl
  | cons i is ih =>
    obtain ⟨out, hout⟩ := Option.isSome_iff_exists.mp (h i List.mem_cons_self)
    rw [List.cons_append, texts_cons hout, texts_cons hout, List.append_assoc,
      ih fun j hj => h j (List.mem_cons_of_mem i hj)]

end Insertion

namespace LogStream

open Insertion

/-- All overloads of `operator<<`. -/
def insertion (s : LogStream) : Insertion → Option LogStream
  | .bool v => s.insertBool v
  | .fmt a => s.insertArg a
  | .cstring mem => s.append (cstr mem)
  | .slice bs => s.append bs

/-- The buffer is within its size, and what `append` is called with fits into it. -/
def Roomy (s : LogStream) (i : Insertion) : Prop :=
  s.buffer.size ≤ kSmallBufferSize ∧ ∀ out, i.text = some out → out.length ≤ s.buffer.space

section Insertions

variable {s t : LogStream} {i : Insertion} {is : List Insertion}

theorem insertion_eq (s : LogStream) (i : Insertion) : s.insertion i = i.text.bind s.append := by
  cases i with
  | bool v => rfl
  | fmt a => rw [insertion, insertArg, Insertion.text, Option.bind_map]; rfl
  | cstring mem => rfl
  | slice bs => rfl

theorem insertion_some (h : s.insertion i = some t) :
    ∃ out, i.text = some out ∧ s.append out = some t :=
  Option.bind_eq_some_iff.mp (insertion_eq s i ▸ h)

theorem space_append {bs : List UInt8} (h : s.append bs = some t) :
    t.buffer.space + bs.length = s.buffer.space := by
  obtain ⟨b, hb, rfl⟩ := Option.map_eq_some_iff.mp h
  exact FixedBuffer.space_append hb

theorem space_new : new.buffer.space = kSmallBufferSize :=
  FixedBuffer.space_of_slice_nil FixedBuffer.slice_new

theorem append_eq_none {bs : List UInt8} (h : s.buffer.space < bs.length) : s.append bs = none := by
  rw [append, Option.map_eq_none_iff, ← Option.not_isSome_iff_eq_none, FixedBuffer.append_isSome]
  exact not_le.mpr h

/-- The first text that does not fit is the one with which the sum exceeds the space. -/
theorem along_roomy_iff : Along insertion Roomy s is ↔ (texts is).length ≤ s.buffer.space := by
  induction is generalizing s with
  | nil => exact iff_of_true trivial (Nat.zero_le _)
  | cons i is ih =>
    cases htext : i.text with
    | none =>
      rw [along_cons, texts, htext, insertion_eq, htext]
      -- `append` is not reached, and nothing after it
      refine iff_of_true ⟨⟨s.buffer.cur_le, fun out h => ?_⟩, fun t h => ?_⟩ (Nat.zero_le _)
      · cases htext.symm.trans h
      · cases h
    | some out =>
      rw [along_cons, texts_cons htext, insertion_eq, htext, Option.bind_some, List.length_append]
      constructor
      · rintro ⟨⟨-, hroomy⟩, hrest⟩
        obtain ⟨t, happend, -⟩ := append_eq (hroomy out htext)
        have hle := ih.mp (hrest t happend)
        have hspace := space_append happend
        omega
      · intro hle
        refine ⟨⟨s.buffer.cur_le, fun out' h => ?_⟩, fun t happend => ih.mpr ?_⟩
        · cases htext.symm.trans h
          omega
        · have hspace := space_append happend
          omega

/-- A stream that went through all insertions holds their texts. -/
theorem slice_run (h : run insertion s is = some t) : t.slice = s.slice ++ texts is := by
  induction is generalizing s with
  | nil =>
    cases h
    exact (List.append_nil _).symm
  | cons i is ih =>
    obtain ⟨s', hstep, hrun⟩ := run_cons_some.mp h
    obtain ⟨out, htext, happend⟩ := insertion_some hstep
    rw [ih hrun, (append_some happend).2, texts_cons htext, List.append_assoc]

theorem run_isSome (htext : ∀ i ∈ is, i.text.isSome) (hle : (texts is).length ≤ s.buffer.space) :
    ∃ t, run insertion s is = some t := by
  induction is generalizing s with
  | nil => exact ⟨s, rfl⟩
  | cons i is ih =>
    obtain ⟨out, hout⟩ := Option.isSome_iff_exists.mp (htext i List.mem_cons_self)
    rw [texts_cons hout, List.length_append] at hle
    obtain ⟨s', happend, -⟩ := append_eq (show out.length ≤ s.buffer.space by omega)
    have hspace := space_append happend
    obtain ⟨t, ht⟩ := ih (s := s') (fun j hj => htext j (List.mem_cons_of_mem i hj)) (by omega)
    refine ⟨t, run_cons_some.mpr ⟨s', ?_, ht⟩⟩
    rw [insertion_eq, hout, Option.bind_some, happend]

theorem slice_run_new (h : run insertion new is = some t) : t.slice = texts is := by
  rw [slice_run h, slice, new, FixedBuffer.slice_new, List.nil_append]

theorem space_run_new (h : run insertion new is = some t) :
    t.buffer.space = kSmallBufferSize - (texts is).length := by
  rw [← slice_run_new h, slice, t.buffer.length_slice]
  rfl

/-- What stands behind the text in the buffer's array. -/
theorem data_run_new (h : run insertion new is = some t) :
    t.buffer.data = t.slice ++ List.replicate t.buffer.space 0 := by
  refine run_inv (I := fun s => s.buffer.ZeroTail) ?_ h FixedBuffer.zeroTail_new
  intro s i s' hs hstep
  obtain ⟨out, -, happend⟩ := insertion_some hstep
  obtain ⟨b, hb, rfl⟩ := Option.map_eq_some_iff.mp happend
  exact FixedBuffer.zeroTail_append hs hb

end Insertions

end LogStream

/-! ### The logger -/

/-- What gmtime_r(3) makes of the seconds. -/
structure Tm where
  year : ℤ
  mon : ℤ
  mday : ℤ
  hour : ℤ
  min : ℤ
  sec : ℤ
  deriving DecidableEq, Repr

/-- `Timestamp::toFormatedString`: its 32 bytes take a text of 31. -/
def toFormatedString (microSinceEpoch : Timestamp) (tm : Tm) (showMicroseconds : Bool) :
    List UInt8 :=
  let date := spaced 4 (tm.year + 1900) ++ zeroed 2 (tm.mon + 1) ++ zeroed 2 tm.mday ++
    bytes " ".toList ++ zeroed 2 tm.hour ++ bytes ":".toList ++ zeroed 2 tm.min ++
    bytes ":".toList ++ zeroed 2 tm.sec
  let microseconds := microSinceEpoch.tmod kMicroSecondsPerSecond
  let out := if showMicroseconds then date ++ bytes ".".toList ++ zeroed 6 microseconds else date
  cstr (out.take 31 ++ [0])

inductive LogLevel where
  | trace | debug | info | warn | error | fatal
  deriving DecidableEq, Repr

def logLevelName : LogLevel → String
  | .trace => "TRACE "
  | .debug => "DEBUG "
  | .info => "INFO  "
  | .warn => "WARN  "
  | .error => "ERROR "
  | .fatal => "FATAL "

structure SourceFile where
  data : List UInt8
  size : ℕ
  deriving DecidableEq, Repr

namespace SourceFile

/-- The constructor from an array, which ends with the terminator. -/
def ofArray (arr : List UInt8) : SourceFile :=
  match strrchr arr '/'.toUInt8 with
  | some slash => ⟨arr.drop (slash + 1), arr.length - 1 - (slash + 1)⟩
  | none => ⟨arr, arr.length - 1⟩

/-- `Slice(file_.data_, file_.size_)`. -/
def slice (f : SourceFile) : List UInt8 := f.data.take f.size

/-- The name of the file without its directory is what is logged. -/
theorem slice_ofArray {dir base : List UInt8} (hdir : dir = [] ∨ dir.getLast? = some '/'.toUInt8)
    (hbase : '/'.toUInt8 ∉ base) (hzero : 0 ∉ dir ++ base) :
    (ofArray (dir ++ base ++ [0])).slice = base := by
  rcases hdir with rfl | hlast
  · rw [List.nil_append] at hzero ⊢
    rw [ofArray, strrchr_eq_none hzero hbase, slice, List.length_append]
    exact List.take_left
  · obtain ⟨dir, rfl⟩ := List.getLast?_eq_some_iff.mp hlast
    have hpath : dir ++ ['/'.toUInt8] ++ base = dir ++ '/'.toUInt8 :: base := by simp
    rw [hpath] at hzero ⊢
    have hdrop : (dir ++ '/'.toUInt8 :: base ++ [0]).drop (dir.length + 1) = base ++ [0] := by
      rw [List.append_assoc, List.drop_length_add_append]
      rfl
    have hsize : (dir ++ '/'.toUInt8 :: base ++ [0]).length - 1 - (dir.length + 1) =
        base.length := by
      simp only [List.length_append, List.length_cons, List.length_nil]
      omega
    rw [ofArray, strrchr_eq_some hzero hbase, slice]
    dsimp only
    rw [hdrop, hsize, List.take_left]

end SourceFile

/-- A logger, with what its constructor got from the clock and of the thread. -/
structure Logger where
  file : SourceFile
  line : BitVec 32
  time : Timestamp
  tm : Tm
  tid : BitVec 32
  level : LogLevel

/-- `DefaultDestination`, for a slice whose data begins the given memory. -/
def defaultDestination (mem : List UInt8) : Option (List UInt8) := fputs mem

namespace Logger

open Insertion

/-- What the constructor inserts. -/
def header (l : Logger) : List Insertion :=
  [.slice (toFormatedString l.time l.tm true), literal "Z ",
    .fmt (.int .int l.tid), literal " ",
    literal (logLevelName l.level)]

/-- What the destructor inserts. -/
def suffix (l : Logger) : List Insertion :=
  [literal " - ", .slice l.file.slice, literal " ", .fmt (.int .int l.line), literal "\n"]

/-- All insertions of a log statement with the given operands. -/
def statement (l : Logger) (operands : List Insertion) : List Insertion :=
  l.header ++ operands ++ l.suffix

theorem isSome_text_header (l : Logger) : ∀ i ∈ l.header, i.text.isSome := by
  simp only [header, List.forall_mem_cons]
  exact ⟨rfl, rfl, isSome_text_int .int l.tid, rfl, rfl, List.forall_mem_nil _⟩

theorem isSome_text_suffix (l : Logger) : ∀ i ∈ l.suffix, i.text.isSome := by
  simp only [suffix, List.forall_mem_cons]
  exact ⟨rfl, rfl, rfl, isSome_text_int .int l.line, rfl, List.forall_mem_nil _⟩

/-- The text of a statement is the header, the operands and the suffix. -/
theorem texts_statement (l : Logger) {operands : List Insertion}
    (h : ∀ i ∈ operands, i.text.isSome) :
    texts (l.statement operands) = texts l.header ++ texts operands ++ texts l.suffix := by
  rw [statement, List.append_assoc, texts_append l.isSome_text_header, texts_append h,
    List.append_assoc]

/-- A statement goes through if its operands have texts and all of it fits. -/
theorem run_statement (l : Logger) {operands : List Insertion}
    (h : ∀ i ∈ operands, i.text.isSome)
    (hle : (texts (l.statement operands)).length ≤ kSmallBufferSize) :
    ∃ s, run LogStream.insertion LogStream.new (l.statement operands) = some s := by
  refine LogStream.run_isSome ?_ (hle.trans_eq LogStream.space_new.symm)
  rw [statement, List.forall_mem_append, List.forall_mem_append]
  exact ⟨⟨l.isSome_text_header, h⟩, l.isSome_text_suffix⟩

/-- **No log statement overflows the line buffer**: from the constructor to the destructor every
`append` finds the space it needs, exactly if the header, the operands and the suffix have together
at most as many bytes as the buffer. -/
theorem fits_iff (l : Logger) (operands : List Insertion) :
    Along LogStream.insertion LogStream.Roomy LogStream.new (l.statement operands) ↔
      (texts (l.statement operands)).length ≤ kSmallBufferSize := by
  rw [LogStream.along_roomy_iff, LogStream.space_new]

/-- `LOG_INFO` in the first line of a file, by thread 1 on the first day of 2018. -/
def sample : Logger where
  file := .ofArray (bytes "src/main.cc".toList ++ [0])
  line := 1
  time := 1514764800000000
  tm := ⟨118, 0, 1, 0, 0, 0⟩
  tid := 1
  level := .info

theorem sample_header :
    texts sample.header = bytes "20180101 00:00:00.000000Z 1 INFO  ".toList := by decide +kernel

theorem sample_suffix : texts sample.suffix = bytes " - main.cc 1\n".toList := by decide +kernel

/-- A statement with one string. -/
theorem texts_sample (bs : List UInt8) :
    texts (sample.statement [.slice bs]) =
      bytes "20180101 00:00:00.000000Z 1 INFO  ".toList ++ bs ++ bytes " - main.cc 1\n".toList := by
  have hstring : texts [.slice bs] = bs := List.append_nil bs
  rw [sample.texts_statement (List.forall_mem_singleton.mpr rfl), sample_header, sample_suffix,
    hstring]

theorem length_sample (bs : List UInt8) :
    (texts (sample.statement [.slice bs])).length = 34 + bs.length + 13 := by
  rw [texts_sample, List.length_append, List.length_append]
  rfl

theorem run_sample (bs : List UInt8) (h : bs.length ≤ kSmallBufferSize - 47) :
    ∃ s, run LogStream.insertion LogStream.new (sample.statement [.slice bs]) = some s := by
  have hsize : kSmallBufferSize = 4096 := rfl
  refine sample.run_statement (List.forall_mem_singleton.mpr rfl) ?_
  rw [length_sample]
  omega

/-- A string that fills the buffer behind the header. -/
theorem run_sample_header (bs : List UInt8) (h : bs.length = kSmallBufferSize - 34) :
    ∃ s, run LogStream.insertion LogStream.new (sample.header ++ [.slice bs]) = some s ∧
      s.buffer.space = 0 := by
  have hlen : (texts (sample.header ++ [.slice bs])).length = kSmallBufferSize := by
    have hstring : texts [.slice bs] = bs := List.append_nil bs
    rw [texts_append sample.isSome_text_header, sample_header, List.length_append, hstring, h]
    rfl
  have htext : ∀ i ∈ sample.header ++ [.slice bs], i.text.isSome :=
    List.forall_mem_append.mpr ⟨sample.isSome_text_header, List.forall_mem_singleton.mpr rfl⟩
  obtain ⟨s, hs⟩ := LogStream.run_isSome htext (hlen.trans LogStream.space_new.symm).le
  exact ⟨s, hs, by rw [LogStream.space_run_new hs, hlen, Nat.sub_self]⟩

/-- A string of the buffer's size overflows; one that fills what the header leaves is inserted, and
the suffix overflows. -/
theorem suffix_overflows :
    ¬Along LogStream.insertion LogStream.Roomy LogStream.new
        (sample.statement [.slice (List.replicate kSmallBufferSize 97)]) ∧
      ∃ s, run LogStream.insertion LogStream.new
          (sample.header ++ [.slice (List.replicate (kSmallBufferSize - 34) 97)]) = some s ∧
        s.buffer.space = 0 ∧ ¬s.Roomy (literal " - ") ∧ s.insertion (literal " - ") = none := by
  refine ⟨?_, ?_⟩
  · rw [LogStream.along_roomy_iff, LogStream.space_new, length_sample, List.length_replicate]
    omega
  · obtain ⟨s, hs, hspace⟩ := run_sample_header _
      (List.length_replicate (n := kSmallBufferSize - 34) (a := 97))
    have hlt : s.buffer.space < (bytes " - ".toList).length := by
      rw [hspace]
      decide
    have htext : (literal " - ").text = some (bytes " - ".toList) := by decide
    refine ⟨s, hs, hspace, fun h => absurd (h.2 _ htext) (not_le.mpr hlt), ?_⟩
    rw [LogStream.insertion_eq, htext, Option.bind_some, LogStream.append_eq_none hlt]

/-! ### The destinations -/

/-- What stdout gets of a stream, `after` being the memory behind its buffer. -/
theorem defaultDestination_eq_iff {is : List Insertion} {s : LogStream}
    (h : run LogStream.insertion LogStream.new is = some s) (after : List UInt8) :
    defaultDestination (s.buffer.data ++ after) = some s.slice ↔
      0 ∉ texts is ∧ ((texts is).length < kSmallBufferSize ∨ after.head? = some 0) := by
  have hhead : (List.replicate s.buffer.space 0 ++ after).head? = some 0 ↔
      0 < s.buffer.space ∨ after.head? = some 0 := by
    cases s.buffer.space with
    | zero => simp
    | succ n => simp [List.replicate_succ]
  rw [defaultDestination, LogStream.data_run_new h, List.append_assoc, fputs_append_eq_iff, hhead,
    LogStream.slice_run_new h, LogStream.space_run_new h, Nat.sub_pos_iff_lt]

/-- An `AsyncLogging` stores any stream's slice. -/
theorem append_slice {a : AsyncLogging} (ha : a.Reachable) (s : LogStream) :
    ∃ a', a.step (.append s.slice) = some a' ∧ a'.stored = a.stored ++ s.slice := by
  have hle : s.slice.length ≤ kSmallBufferSize := s.buffer.length_slice.trans_le s.buffer.cur_le
  obtain ⟨a', ha'⟩ := Option.isSome_iff_exists.mp (AsyncLogging.append_isSome ha.logInv hle)
  exact ⟨a', ha', AsyncLogging.append_stored ha.logInv ha'⟩

/-- **Both destinations emit the same bytes**: an `AsyncLogging` stores the slice of a statement
that went through, and stdout gets the same bytes exactly if none of them is zero and the buffer is
not full, or the byte behind it happens to be zero. -/
theorem destinations_agree_iff {l : Logger} {operands : List Insertion} {s : LogStream}
    {a : AsyncLogging}
    (hrun : run LogStream.insertion LogStream.new (l.statement operands) = some s)
    (ha : a.Reachable) (after : List UInt8) :
    ∃ a', a.step (.append s.slice) = some a' ∧ a'.stored = a.stored ++ s.slice ∧
      s.slice.length = s.buffer.size ∧
      (defaultDestination (s.buffer.data ++ after) = some s.slice ↔
        0 ∉ texts (l.statement operands) ∧
          ((texts (l.statement operands)).length < kSmallBufferSize ∨ after.head? = some 0)) := by
  obtain ⟨a', ha', hstored⟩ := append_slice ha s
  exact ⟨a', ha', hstored, s.buffer.length_slice, defaultDestination_eq_iff hrun after⟩

theorem new_reachable : AsyncLogging.Reachable .new := ⟨_, [], rfl, rfl⟩

/-- A statement with a word goes both ways. -/
theorem destinations_agree_sample :
    ∃ s a', run LogStream.insertion LogStream.new
        (sample.statement [literal "started"]) = some s ∧
      AsyncLogging.new.step (.append s.slice) = some a' ∧ a'.stored = s.slice ∧
      defaultDestination (s.buffer.data ++ []) = some s.slice := by
  have htext : texts (sample.statement [literal "started"]) =
      bytes "20180101 00:00:00.000000Z 1 INFO  started - main.cc 1\n".toList := by decide +kernel
  have hsome : ∀ i ∈ [literal "started"], i.text.isSome := List.forall_mem_singleton.mpr rfl
  obtain ⟨s, hs⟩ := sample.run_statement hsome (by rw [htext]; decide)
  obtain ⟨a', ha', hstored, -, hiff⟩ := destinations_agree_iff hs new_reachable []
  refine ⟨s, a', hs, ha', hstored, hiff.mpr ?_⟩
  rw [htext]
  decide

/-- A string with a zero byte ends the line on stdout; a line that fills the buffer goes on with the
bytes behind it, here of the pointer `cur_`. -/
theorem destinations_differ :
    (∃ s a', run LogStream.insertion LogStream.new (sample.statement [.slice [0]]) = some s ∧
      AsyncLogging.new.step (.append s.slice) = some a' ∧ a'.stored = s.slice ∧
      s.slice = bytes "20180101 00:00:00.000000Z 1 INFO  ".toList ++
        0 :: bytes " - main.cc 1\n".toList ∧
      ∀ after, defaultDestination (s.buffer.data ++ after) =
        some (bytes "20180101 00:00:00.000000Z 1 INFO  ".toList)) ∧
    ∃ s a', run LogStream.insertion LogStream.new
        (sample.statement [.slice (List.replicate (kSmallBufferSize - 47) 97)]) = some s ∧
      AsyncLogging.new.step (.append s.slice) = some a' ∧ a'.stored = s.slice ∧
      s.slice.length = kSmallBufferSize ∧
      defaultDestination (s.buffer.data ++ [8, 16, 0, 0, 253, 127, 0, 0]) =
        some (s.slice ++ [8, 16]) := by
  constructor
  · obtain ⟨s, hs⟩ := run_sample [0] (by decide)
    obtain ⟨a', ha', hstored⟩ := append_slice new_reachable s
    have hslice : s.slice = bytes "20180101 00:00:00.000000Z 1 INFO  ".toList ++
        0 :: bytes " - main.cc 1\n".toList := by
      rw [LogStream.slice_run_new hs, texts_sample]
      rfl
    refine ⟨s, a', hs, ha', hstored, hslice, fun after => ?_⟩
    rw [defaultDestination, LogStream.data_run_new hs, hslice, List.append_assoc,
      List.append_assoc, fputs_append_eq_iff]
    exact ⟨by decide, rfl⟩
  · obtain ⟨s, hs⟩ := run_sample (List.replicate (kSmallBufferSize - 47) 97)
      List.length_replicate.le
    obtain ⟨a', ha', hstored⟩ := append_slice new_reachable s
    have hlen : s.slice.length = kSmallBufferSize := by
      rw [LogStream.slice_run_new hs, length_sample, List.length_replicate]
      rfl
    have hspace : s.buffer.space = 0 := by
      rw [LogStream.space_run_new hs, ← LogStream.slice_run_new hs, hlen, Nat.sub_self]
    have hzero : 0 ∉ s.slice ++ [8, 16] := by
      rw [LogStream.slice_run_new hs, texts_sample]
      simp only [List.mem_append, List.mem_replicate, not_or]
      exact ⟨⟨⟨by decide, by decide⟩, by decide⟩, by decide⟩
    refine ⟨s, a', hs, ha', hstored, hlen, ?_⟩
    have hsplit : s.buffer.data ++ [8, 16, 0, 0, 253, 127, 0, 0] =
        s.slice ++ [8, 16] ++ [0, 0, 253, 127, 0, 0] := by
      rw [LogStream.data_run_new hs, hspace, List.replicate_zero, List.append_nil,
        List.append_assoc]
      rfl
    rw [defaultDestination, hsplit, fputs_append_eq_iff]
    exact ⟨hzero, rfl⟩

end Logger

end Polly
