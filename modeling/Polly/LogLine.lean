import Polly.Timestamps

/-!
# LogLine — what a log tells (`log/logger.cc`)

A log statement prints its time, its thread, its level, its operands and its place in the source,
in this order and on a line of its own (`LogCall.output`).  Only the operands and the name of the
source file have a length and bytes of their own.  As long as operands have no line feeds and source
files neither line feeds nor blanks in their names, a log can be read back.

* `LogRecord.body_inj`: one line.
* `log_decodable`: a whole log.
-/

namespace Polly

open Runs Printf CString Insertion

/-! ### Log statements -/

/-- A log statement: `LOG_INFO << operands`, and what the constructor of the logger gets of the
clock and of the thread. -/
structure LogCall where
  file : SourceFile
  line : BitVec 32
  level : LogLevel
  now : Timestamp
  tid : BitVec 32
  operands : List Insertion

/-- What a line of the log tells. -/
structure LogRecord where
  time : Timestamp
  tid : BitVec 32
  level : LogLevel
  message : List UInt8
  file : List UInt8
  line : BitVec 32
  deriving DecidableEq

namespace LogCall

/-- The constructor of `Logger`. -/
def logger (c : LogCall) : Logger where
  file := c.file
  line := c.line
  time := c.now
  tm := gmtime (c.now.tdiv kMicroSecondsPerSecond)
  tid := c.tid
  level := c.level

/-- What the destructor of the logger hands to the destination. -/
def output (c : LogCall) : Option (List UInt8) :=
  (run LogStream.insertion LogStream.new (c.logger.statement c.operands)).map LogStream.slice

def record (c : LogCall) : LogRecord where
  time := c.now
  tid := c.tid
  level := c.level
  message := texts c.operands
  file := c.file.slice
  line := c.line

end LogCall

/-! ### Lines -/

def blank : UInt8 := ' '.toUInt8

def lineFeed : UInt8 := '\n'.toUInt8

namespace LogRecord

/-- The line without its line feed. -/
def body (r : LogRecord) : List UInt8 :=
  r.time.toFormatedString true ++ ('Z'.toUInt8 :: blank :: (numeral r.tid.toInt ++ blank ::
    (bytes (logLevelName r.level).toList ++ (r.message ++ [blank, '-'.toUInt8] ++ blank :: r.file ++
      blank :: numeral r.line.toInt))))

/-- The time is between 1970 and 9999, and the texts have no separators in them. -/
structure Plain (r : LogRecord) : Prop where
  dated : Dated (r.time / kMicroSecondsPerSecond)
  message : lineFeed ∉ r.message
  file : lineFeed ∉ r.file ∧ blank ∉ r.file

section Body

variable {r r' : LogRecord}

theorem notMem_numeral {b : UInt8} (h : b.toNat < 45) (z : ℤ) : b ∉ numeral z := fun hb =>
  absurd (le_of_mem_numeral hb) (not_le.mpr h)

theorem lineFeed_notMem_time (h : r.Plain) : lineFeed ∉ r.time.toFormatedString true := by
  rw [Timestamp.toFormatedString_eq h.dated]
  intro hmem
  rcases mem_columns (Timestamp.printed_fits h.dated true) hmem with ⟨hlow, -⟩ | ⟨c, hc, hmem⟩
  · exact absurd hlow (by decide)
  · have hseps : ∀ c ∈ formatColumns true, lineFeed ∉ c.2 := by decide
    exact hseps c hc hmem

theorem length_time (h : r.Plain) : (r.time.toFormatedString true).length = 24 := by
  rw [Timestamp.toFormatedString_eq h.dated, length_columns (Timestamp.printed_fits h.dated true)]
  rfl

theorem length_level (level : LogLevel) : (bytes (logLevelName level).toList).length = 6 := by
  cases level <;> rfl

theorem level_inj {level level' : LogLevel}
    (h : bytes (logLevelName level).toList = bytes (logLevelName level').toList) :
    level = level' := by
  revert h
  cases level <;> cases level' <;> decide

/-- The line feed at the end is the only one. -/
theorem lineFeed_notMem_body (h : r.Plain) : lineFeed ∉ r.body := by
  have hlevel : lineFeed ∉ bytes (logLevelName r.level).toList := by
    cases r.level <;> decide
  have hnum : ∀ z, lineFeed ∉ numeral z := notMem_numeral (by decide)
  have hblank : lineFeed ≠ blank := by decide
  have hdash : lineFeed ≠ '-'.toUInt8 := by decide
  have hz : lineFeed ≠ 'Z'.toUInt8 := by decide
  simp only [body, List.mem_append, List.mem_cons, List.not_mem_nil, not_or, or_false]
  exact ⟨lineFeed_notMem_time h, hz, hblank, hnum _, hblank, hlevel,
    ⟨⟨h.message, hblank, hdash⟩, hblank, h.file.1⟩, hblank, hnum _⟩

theorem toInt_inj {w : ℕ} {v v' : BitVec w} (h : numeral v.toInt = numeral v'.toInt) : v = v' :=
  BitVec.toInt_inj.mp (numeral_injective h)

/-- Texts of different times are different. -/
theorem time_inj (h : r.Plain) (h' : r'.Plain)
    (heq : r.time.toFormatedString true = r'.time.toFormatedString true) : r.time = r'.time := by
  rcases lt_trichotomy r.time r'.time with hlt | heq' | hgt
  · have htext := Timestamp.toFormatedString_lt h.dated h'.dated true (Or.inr ⟨rfl, hlt⟩)
    rw [heq] at htext
    exact absurd htext (List.lt_irrefl _)
  · exact heq'
  · have htext := Timestamp.toFormatedString_lt h'.dated h.dated true (Or.inr ⟨rfl, hgt⟩)
    rw [heq] at htext
    exact absurd htext (List.lt_irrefl _)

/-- A line can be read in one way only. -/
theorem body_inj (h : r.Plain) (h' : r'.Plain) (heq : r.body = r'.body) : r = r' := by
  have hnum : ∀ z, blank ∉ numeral z := notMem_numeral (by decide)
  -- from the left: the time by its length, the thread up to the blank, the level by its length
  obtain ⟨htime, heq⟩ := List.append_inj heq ((length_time h).trans (length_time h').symm)
  obtain ⟨htid, heq⟩ := split_first (hnum _) (hnum _) (List.cons_inj_right _ |>.mp
    (List.cons_inj_right _ |>.mp heq))
  obtain ⟨hlevel, heq⟩ := List.append_inj heq ((length_level _).trans (length_level _).symm)
  -- from the right: the line and the file after the last blanks
  obtain ⟨heq, hline⟩ := split_last (hnum _) (hnum _) heq
  obtain ⟨heq, hfile⟩ := split_last h.file.2 h'.file.2 heq
  have hmessage := List.append_cancel_right heq
  obtain ⟨time, tid, level, message, file, line⟩ := r
  obtain ⟨time', tid', level', message', file', line'⟩ := r'
  obtain rfl : time = time' := time_inj h h' htime
  obtain rfl : tid = tid' := toInt_inj htid
  obtain rfl : level = level' := level_inj hlevel
  obtain rfl : message = message' := hmessage
  obtain rfl : file = file' := hfile
  obtain rfl : line = line' := toInt_inj hline
  rfl

end Body

end LogRecord

/-! ### Logs -/

namespace LogCall

theorem text_literal {s : String} (h : 0 ∉ bytes s.toList) :
    (literal s).text = some (bytes s.toList) := by
  rw [literal, Insertion.text, cstr_terminated h]

theorem text_int (v : BitVec 32) : (Insertion.fmt (.int .int v)).text = some (numeral v.toInt) := by
  have htext : (FmtArg.int .int v).text = numeral v.toInt := by
    change numeral ((slot v.toInt).setWidth 32).toInt ++ [] = _
    rw [toInt_slot_of_int v.le_toInt v.toInt_lt, List.append_nil]
  obtain ⟨f, hf⟩ : ∃ f, Fmt.ofText (numeral v.toInt) = some f := by
    rw [← Option.isSome_iff_exists, ← htext]
    exact Fmt.ofText_isSome_iff.mpr (IntType.int.length_printed _)
  rw [Insertion.text, FmtArg.fmt_eq, htext, hf, Option.map_some, (Fmt.ofText_some hf).1]

/-- Operands that went through had texts. -/
theorem run_texts {s t : LogStream} {is : List Insertion}
    (h : run LogStream.insertion s is = some t) : ∀ i ∈ is, i.text.isSome := by
  induction is generalizing s with
  | nil => exact List.forall_mem_nil _
  | cons i is ih =>
    obtain ⟨s₁, h₁, h₂⟩ := run_cons_some.mp h
    obtain ⟨out, hout, -⟩ := LogStream.insertion_some h₁
    exact List.forall_mem_cons.mpr ⟨Option.isSome_iff_exists.mpr ⟨out, hout⟩, ih h₂⟩

/-- The line of a log statement. -/
theorem output_eq {c : LogCall} {out : List UInt8} (h : c.output = some out) :
    out = c.record.body ++ [lineFeed] := by
  obtain ⟨s, hrun, rfl⟩ := Option.map_eq_some_iff.mp h
  have hoperands : ∀ i ∈ c.operands, i.text.isSome := fun i hi =>
    run_texts hrun i (List.mem_append_left _ (List.mem_append_right _ hi))
  have hlevel : 0 ∉ bytes (logLevelName c.logger.level).toList := by
    cases c.logger.level <;> decide
  have hheader : texts c.logger.header = c.now.toFormatedString true ++ (bytes "Z ".toList ++
      (numeral c.tid.toInt ++ (bytes " ".toList ++ bytes (logLevelName c.level).toList))) := by
    rw [Logger.header, texts_cons rfl, texts_cons (text_literal (by decide)),
      texts_cons (text_int _), texts_cons (text_literal (by decide)),
      texts_cons (text_literal hlevel), texts, List.append_nil]
    rfl
  have hsuffix : texts c.logger.suffix = bytes " - ".toList ++ (c.file.slice ++
      (bytes " ".toList ++ (numeral c.line.toInt ++ bytes "\n".toList))) := by
    rw [Logger.suffix, texts_cons (text_literal (by decide)), texts_cons rfl,
      texts_cons (text_literal (by decide)), texts_cons (text_int _),
      texts_cons (text_literal (by decide)), texts, List.append_nil]
    rfl
  rw [LogStream.slice_run_new hrun, Logger.texts_statement _ hoperands, hheader, hsuffix]
  simp [LogRecord.body, record, bytes, blank, lineFeed]

/-- **A log can be read back.**  Two sequences of log statements, with times between 1970 and 9999,
operands without line feeds and source files without line feeds and blanks in their names, that
leave the same bytes have told the same, statement by statement: time, thread, level, message, file
and line. -/
theorem log_decodable {cs cs' : List LogCall} {outs outs' : List (List UInt8)}
    (hcs : ∀ c ∈ cs, c.record.Plain) (hcs' : ∀ c ∈ cs', c.record.Plain)
    (houts : List.Forall₂ (fun c out => c.output = some out) cs outs)
    (houts' : List.Forall₂ (fun c out => c.output = some out) cs' outs')
    (heq : outs.flatten = outs'.flatten) : cs.map record = cs'.map record := by
  induction houts generalizing cs' outs' with
  | nil =>
    cases houts' with
    | nil => rfl
    | cons hc' _ =>
      rw [output_eq hc'] at heq
      simp at heq
  | cons hc houts ih =>
    cases houts' with
    | nil =>
      rw [output_eq hc] at heq
      simp at heq
    | cons hc' houts' =>
      rw [List.forall_mem_cons] at hcs hcs'
      rw [output_eq hc, output_eq hc'] at heq
      simp only [List.flatten_cons, List.append_assoc, List.singleton_append] at heq
      obtain ⟨hbody, hrest⟩ := split_first (LogRecord.lineFeed_notMem_body hcs.1)
        (LogRecord.lineFeed_notMem_body hcs'.1) heq
      rw [List.map_cons, List.map_cons, LogRecord.body_inj hcs.1 hcs'.1 hbody,
        ih hcs.2 hcs'.2 houts' hrest]

/-- `LOG_INFO` in the first line of `main.cc` on the first day of 2018. -/
def hello (operands : List Insertion) : LogCall where
  file := .ofArray (bytes "src/main.cc".toList ++ [0])
  line := 1
  level := .info
  now := 1514764800000000
  tid := 1
  operands := operands

def oneSlice : LogCall := hello [.slice (bytes "ab".toList)]

def twoSlices : LogCall := hello [.slice (bytes "a".toList), .slice (bytes "b".toList)]

theorem plain_oneSlice : oneSlice.record.Plain := ⟨by decide, by decide, by decide⟩

theorem plain_twoSlices : twoSlices.record.Plain := ⟨by decide, by decide, by decide⟩

theorem log_decodable_slices : ∃ out, oneSlice.output = some out ∧ twoSlices.output = some out ∧
    [oneSlice].map record = [twoSlices].map record := by
  obtain ⟨s₁, h₁⟩ := oneSlice.logger.run_statement (show ∀ i ∈ oneSlice.operands, _ by decide)
    (by decide +kernel)
  obtain ⟨s₂, h₂⟩ := twoSlices.logger.run_statement (show ∀ i ∈ twoSlices.operands, _ by decide)
    (by decide +kernel)
  have hout₁ : oneSlice.output = some s₁.slice := by rw [output, h₁, Option.map_some]
  have hout₂ : twoSlices.output = some s₂.slice := by rw [output, h₂, Option.map_some]
  have heq : s₁.slice = s₂.slice := (output_eq hout₁).trans (output_eq hout₂).symm
  refine ⟨s₁.slice, hout₁, heq ▸ hout₂, log_decodable (List.forall_mem_singleton.mpr plain_oneSlice)
    (List.forall_mem_singleton.mpr plain_twoSlices) (.cons hout₁ .nil) (.cons hout₂ .nil) ?_⟩
  rw [heq]

end LogCall

end Polly
