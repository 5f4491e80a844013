import Polly.LogFiles
import Polly.Timestamps

/-!
# LogDirectory — log files by their names (`log/log_file.cc`, `log/file.h`, `util/process_info.cc`)

`getLogFileName` makes the name of a file of the base name, the second it is opened in, the host and
the process; `AppendFile` opens that name for appending.  A `LogDir` is the log files of a process
with what fwrite(3) has accepted under each name, where a name that is opened twice would collect
the bytes of both files.  What stdio still holds of an open file counts as accepted, and names are
compared as strings: that `a` and `./a` are one file is not modelled.

* `fileName_inj`, `fileName_lt`: the names of one process tell base names and seconds apart, and are
  in order.
* `files_apart`: log files with different base names never share a name or open one again, and
  exactly what was written to a file is accepted under its name.
-/

namespace Polly

open Runs Printf CString

/-! ### Names -/

/-- The bytes of a `std::string`. -/
def stringBytes (s : String) : List UInt8 := s.toByteArray.data.toList

theorem stringBytes_injective : Function.Injective stringBytes := by
  intro s s' h
  exact String.toByteArray_inj.mp (ByteArray.ext (Array.toList_inj.mp h))

/-- One conversion of strftime(3). -/
def strftimeConversion (tm : Tm) : Char → Option (List UInt8)
  | 'Y' => some (numeral (tm.year + 1900))
  | 'm' => some (zeroed 2 (tm.mon + 1))
  | 'd' => some (zeroed 2 tm.mday)
  | 'H' => some (zeroed 2 tm.hour)
  | 'M' => some (zeroed 2 tm.min)
  | 'S' => some (zeroed 2 tm.sec)
  | _ => none

/-- The text of a format; `none` if it has a conversion that is not modelled. -/
def strftimeText (tm : Tm) : List Char → Option (List UInt8)
  | [] => some []
  | '%' :: c :: cs => (strftimeConversion tm c).bind fun s => (strftimeText tm cs).map (s ++ ·)
  | c :: cs => (strftimeText tm cs).map (c.toUInt8 :: ·)

/-- strftime(3); a text that does not fit leaves the buffer undefined. -/
def strftime (size : ℕ) (fmt : String) (tm : Tm) : Option (List UInt8) :=
  (strftimeText tm fmt.toList).bind fun out => guarded (out.length < size) out

/-- What gethostname(2) leaves in the buffer, if it succeeds, and what getpid(2) returns. -/
structure Process where
  gethostname : Option (List UInt8)
  getpid : BitVec 32
  deriving DecidableEq

namespace Process

def hostname (p : Process) : List UInt8 :=
  match p.gethostname with
  | some buffer => cstr (buffer.take 255 ++ [0])
  | none => bytes "unknown".toList

def pidString (p : Process) : Option (List UInt8) :=
  (snprintf 32 "%d" [slot p.getpid.toInt]).map fun out => cstr out.1

/-- `LogFile::getLogFileName`. -/
def getLogFileName (p : Process) (basename : String) (now : ℤ) : Option (List UInt8) :=
  (strftime 32 ".%Y%m%d-%H%M%S." (gmtime now)).bind fun buffer =>
    p.pidString.map fun pid =>
      stringBytes basename ++ buffer ++ p.hostname ++ bytes ".".toList ++ pid ++
        bytes ".log".toList

/-- The path a file is opened by: `file.c_str()`. -/
def path (p : Process) (f : AppendFile) : Option (List UInt8) :=
  (p.getLogFileName f.basename f.created).map fun name => cstr (name ++ [0])

/-! The names of files that were opened between 1970 and the end of 9999. -/

def nameColumns : List (ℕ × List UInt8) :=
  [(4, []), (2, []), (2, bytes "-".toList), (2, []), (2, []), (2, bytes ".".toList)]

/-- What follows the time in all names of a process. -/
def nameTail (p : Process) : List UInt8 :=
  p.hostname ++ bytes ".".toList ++ numeral p.getpid.toInt ++ bytes ".log".toList

/-- The name of a file. -/
def fileName (p : Process) (basename : String) (now : ℤ) : List UInt8 :=
  stringBytes basename ++ '.'.toUInt8 :: columns nameColumns (gmtime now).printed ++ p.nameTail

section Names

variable {p : Process} {b b' : String} {t t' : ℤ}

theorem zero_notMem_hostname (p : Process) : 0 ∉ p.hostname := by
  unfold hostname
  split
  · exact zero_notMem_cstr _
  · decide

theorem pidString_eq (p : Process) : p.pidString = some (numeral p.getpid.toInt) := by
  have hlow := p.getpid.le_toInt
  have hhigh := p.getpid.toInt_lt
  have hshown : ((slot p.getpid.toInt).setWidth 32).toInt = p.getpid.toInt :=
    toInt_slot_of_int hlow hhigh
  have hlen : (numeral p.getpid.toInt).length ≤ 31 :=
    (length_numeral_le (show 0 < 10 by decide) (by omega)).trans (by decide)
  have hprint : sprintf "%d" [slot p.getpid.toInt] = some (numeral p.getpid.toInt) := by
    change some (numeral ((slot p.getpid.toInt).setWidth 32).toInt ++ []) = _
    rw [hshown, List.append_nil]
  rw [pidString, snprintf, hprint]
  simp only [Option.map_some]
  rw [List.take_of_length_le hlen, cstr_terminated (zero_notMem_numeral _)]

theorem time_fits (h : Dated t) : Fits (nameColumns.map Prod.fst) (gmtime t).printed :=
  gmtime_fits h

/-- The time in a name has sixteen bytes, without the point before it. -/
theorem length_time (h : Dated t) : (columns nameColumns (gmtime t).printed).length = 16 := by
  rw [length_columns (time_fits h)]
  rfl

theorem zero_notMem_time (h : Dated t) : 0 ∉ columns nameColumns (gmtime t).printed := by
  intro hmem
  rcases mem_columns (time_fits h) hmem with ⟨hlow, -⟩ | ⟨c, hc, hmem⟩
  · exact absurd hlow (by decide)
  · have hseps : ∀ c ∈ nameColumns, 0 ∉ c.2 := by decide
    exact hseps c hc hmem

theorem strftime_eq (h : Dated t) : strftime 32 ".%Y%m%d-%H%M%S." (gmtime t) =
    some ('.'.toUInt8 :: columns nameColumns (gmtime t).printed) := by
  have hyear := (zeroed_year (gmtime_year h).1).symm
  have htext : strftimeText (gmtime t) ".%Y%m%d-%H%M%S.".toList =
      some ('.'.toUInt8 :: columns nameColumns (gmtime t).printed) := by
    simp [strftimeText, strftimeConversion, hyear, nameColumns, Tm.printed, columns, bytes]
  have hlen : ('.'.toUInt8 :: columns nameColumns (gmtime t).printed).length < 32 := by
    rw [List.length_cons, length_time h]
    decide
  rw [strftime, htext, Option.bind_some, guarded, if_pos hlen]

theorem getLogFileName_eq (h : Dated t) : p.getLogFileName b t = some (p.fileName b t) := by
  rw [getLogFileName, strftime_eq h, pidString_eq]
  simp [fileName, nameTail]

theorem path_eq {f : AppendFile} (h : Dated f.created) (hzero : 0 ∉ stringBytes f.basename) :
    p.path f = some (p.fileName f.basename f.created) := by
  have hname : 0 ∉ p.fileName f.basename f.created := by
    simp only [fileName, nameTail, List.mem_append, List.mem_cons, not_or]
    exact ⟨⟨hzero, by decide, zero_notMem_time h⟩,
      ⟨⟨⟨p.zero_notMem_hostname, by decide⟩, zero_notMem_numeral _⟩, by decide⟩⟩
  rw [path, getLogFileName_eq h, Option.map_some, cstr_terminated hname]

/-- The names of a log file sort by time. -/
theorem fileName_lt (h : Dated t) (h' : Dated t') (hlt : t < t') :
    p.fileName b t < p.fileName b t' := by
  have htime := columns_lt (time_fits h) (time_fits h') (gmtime_lt hlt)
  unfold fileName
  rw [List.append_assoc, List.append_assoc]
  refine List.append_left_lt (List.cons_lt_cons_iff.mpr (Or.inr ⟨rfl, ?_⟩))
  exact append_lt_append ((length_time h).trans (length_time h').symm) htime _ _

/-- Names tell base names and seconds apart. -/
theorem fileName_inj (h : Dated t) (h' : Dated t') (heq : p.fileName b t = p.fileName b' t') :
    b = b' ∧ t = t' := by
  have hlen : ('.'.toUInt8 :: columns nameColumns (gmtime t).printed).length =
      ('.'.toUInt8 :: columns nameColumns (gmtime t').printed).length := by
    rw [List.length_cons, List.length_cons, length_time h, length_time h']
  obtain ⟨hbase, -⟩ := List.append_inj' (List.append_cancel_right heq) hlen
  obtain rfl := stringBytes_injective hbase
  refine ⟨rfl, ?_⟩
  rcases lt_trichotomy t t' with hlt | heq' | hgt
  · exact absurd (heq ▸ fileName_lt (p := p) (b := b) h h' hlt) (List.lt_irrefl _)
  · exact heq'
  · exact absurd (heq ▸ fileName_lt (p := p) (b := b) h' h hgt) (List.lt_irrefl _)

end Names

end Process

/-! ### The directory -/

/-- The bytes of a call that fwrite(3) accepts. -/
def AppendCall.accepted (a : AppendCall) : List UInt8 :=
  a.slice.take (AppendFile.fwriteAll a.slice.length a.fwrites)

theorem AppendFile.append_accepted (f : AppendFile) (a : AppendCall) :
    (f.append a.slice a.fwrites).contents = f.contents ++ a.accepted := by
  unfold AppendFile.append AppendCall.accepted
  split_ifs with hnil
  · simp [List.isEmpty_iff.mp hnil]
  · rfl

theorem AppendFile.append_name (f : AppendFile) (a : AppendCall) :
    (f.append a.slice a.fwrites).basename = f.basename ∧
      (f.append a.slice a.fwrites).created = f.created := by
  unfold AppendFile.append
  split_ifs <;> exact ⟨rfl, rfl⟩

structure LogDir (ι : Type*) where
  logs : Logs ι
  /-- the files that were rolled away, oldest first -/
  closed : List AppendFile
  /-- what fwrite(3) has accepted under each path, whether stdio has written it yet or not, after
  what stood there before -/
  dir : List UInt8 → List UInt8

namespace LogDir

variable {ι : Type*}

/-- The file a log file has open. -/
def current (s : LogDir ι) (i : ι) : AppendFile := (s.logs.logs i).file

/-- All files there have been. -/
def IsFile (s : LogDir ι) (f : AppendFile) : Prop := f ∈ s.closed ∨ ∃ i, f = s.current i

/-- The log files just constructed; nothing is written yet. -/
def start (base : ι → String) (now : ι → ℤ) (count : ℕ) (dir : List UInt8 → List UInt8) :
    LogDir ι :=
  ⟨⟨fun i => LogFile.opened (base i) (now i), count⟩, [], dir⟩

/-- An append to one of the log files: fwrite(3) accepts bytes for the end of the file that is open,
and the log file may close it and open another one. -/
def step [DecidableEq ι] (p : Process) (s : LogDir ι) (c : ι × AppendCall) : Option (LogDir ι) :=
  (p.path (s.current c.1)).bind fun x =>
    ((s.logs.logs c.1).append s.logs.count c.2).map fun (l, count, v) =>
      { logs := ⟨Function.update s.logs.logs c.1 l, count⟩
        closed :=
          if v.rolls then s.closed ++ [(s.current c.1).append c.2.slice c.2.fwrites] else s.closed
        dir := Function.update s.dir x (s.dir x ++ c.2.accepted) }

/-! ### Shelves

The files alone: what is open, what is closed, and what stands under their names. -/

section Shelf

variable {p : Process} {base : ι → String} {dir₀ dir : List UInt8 → List UInt8}
  {current : ι → AppendFile} {closed : List AppendFile}

/-- The name of a file. -/
def nameOf (p : Process) (f : AppendFile) : List UInt8 := p.fileName f.basename f.created

/-- Every file has a name of its own, and what was written to it is accepted under that name. -/
structure Shelf (p : Process) (base : ι → String) (dir₀ : List UInt8 → List UInt8)
    (current : ι → AppendFile) (closed : List AppendFile) (dir : List UInt8 → List UInt8) :
    Prop where
  basename : ∀ i, (current i).basename = base i
  dated : ∀ i, Dated (current i).created
  older : ∀ f ∈ closed, Dated f.created ∧
    ∃ i, f.basename = base i ∧ f.created < (current i).created
  order : closed.Pairwise fun f g => f.basename = g.basename → f.created < g.created
  holds : ∀ i, dir (nameOf p (current i)) = (current i).contents
  keeps : ∀ f ∈ closed, dir (nameOf p f) = f.contents
  others : ∀ x, (∀ i, nameOf p (current i) ≠ x) → (∀ f ∈ closed, nameOf p f ≠ x) → dir x = dir₀ x

theorem nameOf_inj {f g : AppendFile} (hf : Dated f.created) (hg : Dated g.created)
    (h : nameOf p f = nameOf p g) : f.basename = g.basename ∧ f.created = g.created :=
  Process.fileName_inj hf hg h

/-- A closed file has another name than any that is open. -/
theorem Shelf.closed_ne (hS : Shelf p base dir₀ current closed dir) (hbase : base.Injective)
    {f : AppendFile} (hf : f ∈ closed) (i : ι) : nameOf p f ≠ nameOf p (current i) := by
  obtain ⟨hdated, j, hname, hlt⟩ := hS.older f hf
  intro heq
  obtain ⟨hb, hc⟩ := nameOf_inj hdated (hS.dated i) heq
  rw [hname, hS.basename i] at hb
  obtain rfl := hbase hb
  omega

theorem Shelf.current_ne (hS : Shelf p base dir₀ current closed dir) (hbase : base.Injective)
    {i j : ι} (hij : i ≠ j) : nameOf p (current i) ≠ nameOf p (current j) := by
  intro heq
  have hb := (nameOf_inj (hS.dated i) (hS.dated j) heq).1
  rw [hS.basename, hS.basename] at hb
  exact hij (hbase hb)

variable [DecidableEq ι]

/-- Writing to an open file. -/
theorem Shelf.write (hS : Shelf p base dir₀ current closed dir) (hbase : base.Injective) (i : ι)
    (a : AppendCall) :
    Shelf p base dir₀ (Function.update current i ((current i).append a.slice a.fwrites)) closed
      (Function.update dir (nameOf p (current i)) (dir (nameOf p (current i)) ++ a.accepted)) := by
  set f := (current i).append a.slice a.fwrites with hf
  obtain ⟨hb, hc⟩ := (current i).append_name a
  have hname : nameOf p f = nameOf p (current i) := by
    rw [nameOf, hf, hb, hc]
    rfl
  have hsame : ∀ j, (Function.update current i f j).basename = (current j).basename ∧
      (Function.update current i f j).created = (current j).created := by
    intro j
    rcases eq_or_ne j i with rfl | hj
    · rw [Function.update_self]
      exact ⟨hb, hc⟩
    · rw [Function.update_of_ne hj]
      exact ⟨rfl, rfl⟩
  have hnames : ∀ j, nameOf p (Function.update current i f j) = nameOf p (current j) := by
    intro j
    rw [nameOf, (hsame j).1, (hsame j).2]
    rfl
  refine ⟨fun j => (hsame j).1.trans (hS.basename j), fun j => (hsame j).2 ▸ hS.dated j,
    fun g hg => ?_, hS.order, fun j => ?_, fun g hg => ?_, fun x hx hclosed => ?_⟩
  · obtain ⟨hdated, j, hj, hlt⟩ := hS.older g hg
    exact ⟨hdated, j, hj, (hsame j).2 ▸ hlt⟩
  · rw [hnames]
    rcases eq_or_ne j i with rfl | hj
    · rw [Function.update_self, Function.update_self, hS.holds, hf, AppendFile.append_accepted]
    · rw [Function.update_of_ne (hS.current_ne hbase hj), Function.update_of_ne hj, hS.holds]
  · rw [Function.update_of_ne (hS.closed_ne hbase hg i)]
    exact hS.keeps g hg
  · have hx' : ∀ j, nameOf p (current j) ≠ x := fun j => hnames j ▸ hx j
    rw [Function.update_of_ne (hx' i).symm]
    exact hS.others x hx' hclosed

/-- Closing a file and opening one of a later second. -/
theorem Shelf.roll (hS : Shelf p base dir₀ current closed dir) (hbase : base.Injective)
    (hfresh : ∀ i t, Dated t → dir₀ (p.fileName (base i) t) = []) (i : ι) {now : ℤ}
    (hnow : Dated now) (hlt : (current i).created < now) :
    Shelf p base dir₀ (Function.update current i ⟨base i, now, [], 0⟩) (closed ++ [current i])
      dir := by
  set f : AppendFile := ⟨base i, now, [], 0⟩ with hf
  -- the name of the new file has not been used
  have hnew : ∀ j, nameOf p (current j) ≠ nameOf p f := by
    intro j heq
    obtain ⟨hb, hc⟩ := nameOf_inj (hS.dated j) hnow heq
    rw [hS.basename j] at hb
    obtain rfl := hbase hb
    exact absurd hc hlt.ne
  have hnew' : ∀ g ∈ closed, nameOf p g ≠ nameOf p f := by
    intro g hg heq
    obtain ⟨hdated, j, hj, hlt'⟩ := hS.older g hg
    obtain ⟨hb, hc⟩ := nameOf_inj hdated hnow heq
    rw [hj] at hb
    obtain rfl := hbase hb
    exact absurd hc (hlt'.trans hlt).ne
  refine ⟨fun j => ?_, fun j => ?_, fun g hg => ?_, ?_, fun j => ?_, fun g hg => ?_,
    fun x hx hclosed => ?_⟩
  · rcases eq_or_ne j i with rfl | hj
    · rw [Function.update_self]
    · rw [Function.update_of_ne hj]
      exact hS.basename j
  · rcases eq_or_ne j i with rfl | hj
    · rw [Function.update_self]
      exact hnow
    · rw [Function.update_of_ne hj]
      exact hS.dated j
  · rcases List.mem_append.mp hg with hg | hg
    · obtain ⟨hdated, j, hj, hlt'⟩ := hS.older g hg
      refine ⟨hdated, j, hj, ?_⟩
      rcases eq_or_ne j i with rfl | hne
      · rw [Function.update_self]
        exact hlt'.trans hlt
      · rwa [Function.update_of_ne hne]
    · obtain rfl := List.mem_singleton.mp hg
      refine ⟨hS.dated i, i, hS.basename i, ?_⟩
      rwa [Function.update_self]
  · refine List.pairwise_append.mpr
      ⟨hS.order, List.pairwise_singleton _ _, fun g hg g' hg' hb => ?_⟩
    obtain rfl := List.mem_singleton.mp hg'
    obtain ⟨-, j, hj, hlt'⟩ := hS.older g hg
    rw [hj, hS.basename i] at hb
    obtain rfl := hbase hb
    exact hlt'
  · rcases eq_or_ne j i with rfl | hj
    · rw [Function.update_self, hS.others _ hnew hnew']
      exact hfresh j now hnow
    · rw [Function.update_of_ne hj]
      exact hS.holds j
  · rcases List.mem_append.mp hg with hg | hg
    · exact hS.keeps g hg
    · rw [List.mem_singleton.mp hg]
      exact hS.holds i
  · refine hS.others x (fun j => ?_) fun g hg => hclosed g (List.mem_append_left _ hg)
    rcases eq_or_ne j i with rfl | hj
    · exact hclosed _ (List.mem_append_right _ List.mem_cons_self)
    · have hx' := hx j
      rwa [Function.update_of_ne hj] at hx'

end Shelf

/-! ### Runs -/

section Runs

variable [DecidableEq ι] {p : Process} {base : ι → String} {dir₀ : List UInt8 → List UInt8}
  {s s' : LogDir ι}

/-- The files on their shelf, and the members of the log files that name them. -/
structure DirInv (p : Process) (base : ι → String) (dir₀ : List UInt8 → List UInt8)
    (s : LogDir ι) : Prop where
  shelf : Shelf p base dir₀ s.current s.closed s.dir
  basename : ∀ i, (s.logs.logs i).basename = base i
  lastRoll : ∀ i, (s.logs.logs i).lastRoll = (s.current i).created

theorem step_some {i : ι} {a : AppendCall} (h : step p s (i, a) = some s') :
    ∃ x l count v, p.path (s.current i) = some x ∧
      (s.logs.logs i).append s.logs.count a = some (l, count, v) ∧
      s'.logs.logs = Function.update s.logs.logs i l ∧
      s'.current = Function.update s.current i l.file ∧
      s'.closed = (if v.rolls then s.closed ++ [(s.current i).append a.slice a.fwrites]
        else s.closed) ∧
      s'.dir = Function.update s.dir x (s.dir x ++ a.accepted) := by
  obtain ⟨x, hpath, h⟩ := Option.bind_eq_some_iff.mp h
  obtain ⟨⟨l, count, v⟩, hlog, rfl⟩ := Option.map_eq_some_iff.mp h
  refine ⟨x, l, count, v, hpath, hlog, rfl, ?_, rfl, rfl⟩
  funext j
  unfold current
  rcases eq_or_ne j i with rfl | hj
  · simp
  · simp [hj]

theorem step_dirInv {c : ι × AppendCall} (hbase : base.Injective)
    (hzero : ∀ i, 0 ∉ stringBytes (base i))
    (hfresh : ∀ i t, Dated t → dir₀ (p.fileName (base i) t) = []) (hnow : Dated c.2.rollNow)
    (hI : DirInv p base dir₀ s) (h : step p s c = some s') : DirInv p base dir₀ s' := by
  obtain ⟨i, a⟩ := c
  have hS := hI.shelf
  have hpath : p.path (s.current i) = some (nameOf p (s.current i)) :=
    Process.path_eq (hS.dated i) (by rw [hS.basename]; exact hzero i)
  obtain ⟨x, l, count, v, hx, hlog, hlogs, hcurrent, hclosed, hdir⟩ := step_some h
  obtain rfl : nameOf p (s.current i) = x := Option.some.inj (hpath.symm.trans hx)
  have hwrite := hS.write hbase i a
  have hmembers : l.basename = base i → l.lastRoll = l.file.created →
      (∀ j, (s'.logs.logs j).basename = base j) ∧
        ∀ j, (s'.logs.logs j).lastRoll = (s'.current j).created := by
    intro hb hr
    unfold current
    rw [hlogs]
    exact ⟨(Function.forall_update_iff _ fun j (l : LogFile) => l.basename = base j).mpr
        ⟨hb, fun j _ => hI.basename j⟩,
      (Function.forall_update_iff _ fun _ (l : LogFile) => l.lastRoll = l.file.created).mpr
        ⟨hr, fun j _ => hI.lastRoll j⟩⟩
  rcases LogFile.append_cases hlog with ⟨hrolls, hlt, rfl, -⟩ | ⟨hrolls, -, ⟨t, rfl⟩, -⟩
  · have hcreated : (Function.update s.current i ((s.current i).append a.slice a.fwrites) i).created
        < a.rollNow := by
      rw [Function.update_self, ((s.current i).append_name a).2, ← hI.lastRoll i]
      exact hlt
    have hroll := hwrite.roll hbase hfresh i hnow hcreated
    rw [Function.update_idem, Function.update_self] at hroll
    obtain ⟨hb, hr⟩ := hmembers (hI.basename i) rfl
    refine ⟨?_, hb, hr⟩
    rw [hcurrent, hclosed, hdir, if_pos hrolls, LogFile.opened, hI.basename i]
    exact hroll
  · obtain ⟨hb, hr⟩ := hmembers (hI.basename i)
      ((hI.lastRoll i).trans ((s.current i).append_name a).2.symm)
    refine ⟨?_, hb, hr⟩
    rw [hcurrent, hclosed, hdir, if_neg (by simp [hrolls])]
    exact hwrite

omit [DecidableEq ι] in
theorem start_dirInv {now : ι → ℤ} {count : ℕ}
    (hfresh : ∀ i t, Dated t → dir₀ (p.fileName (base i) t) = []) (hnow : ∀ i, Dated (now i)) :
    DirInv p base dir₀ (start base now count dir₀) := by
  refine ⟨⟨fun _ => rfl, hnow, List.forall_mem_nil _, List.Pairwise.nil,
    fun i => hfresh i (now i) (hnow i), List.forall_mem_nil _, fun _ _ _ => rfl⟩, fun _ => rfl,
    fun _ => rfl⟩

/-- **Log files keep apart.**  Log files with different base names without zero bytes, opened and
rolled between 1970 and the end of 9999 where no files of their names were before, in any
interleaving of their appends: no two of the files there have ever been have the same path, so none
is opened again; what fwrite(3) has accepted under each path is exactly what was written to that
file, and nothing else has changed; and the files of a log file sort by name as they were opened. -/
theorem files_apart {now : ι → ℤ} {count : ℕ} {cs : List (ι × AppendCall)}
    (hbase : base.Injective) (hzero : ∀ i, 0 ∉ stringBytes (base i))
    (hfresh : ∀ i t x, Dated t → p.path ⟨base i, t, [], 0⟩ = some x → dir₀ x = [])
    (hnow : ∀ i, Dated (now i)) (hcs : ∀ c ∈ cs, Dated c.2.rollNow)
    (hrun : run (step p) (start base now count dir₀) cs = some s) :
    (∀ f g, s.IsFile f → s.IsFile g → p.path f = p.path g → f = g) ∧
    (∀ f, s.IsFile f → ∃ x, p.path f = some x ∧ s.dir x = f.contents) ∧
    (∀ x, (∀ f, s.IsFile f → p.path f ≠ some x) → s.dir x = dir₀ x) ∧
    ∀ i, ((s.closed.filter fun f => f.basename = base i) ++ [s.current i]).Pairwise
      fun f g => ∃ x y, p.path f = some x ∧ p.path g = some y ∧ x < y := by
  have hfresh' : ∀ i t, Dated t → dir₀ (p.fileName (base i) t) = [] := fun i t ht =>
    hfresh i t _ ht (Process.path_eq ht (hzero i))
  have hI : DirInv p base dir₀ s := by
    refine run_inv_along (I := DirInv p base dir₀) (P := fun _ c => Dated c.2.rollNow) ?_ hrun
      (along_of_forall _ hcs) (start_dirInv hfresh' hnow)
    exact fun _ _ _ hI hP h => step_dirInv hbase hzero hfresh' hP hI h
  have hS := hI.shelf
  have hpath : ∀ f, s.IsFile f → Dated f.created ∧ p.path f = some (nameOf p f) := by
    rintro f (hf | ⟨i, rfl⟩)
    · obtain ⟨hdated, i, hb, -⟩ := hS.older f hf
      exact ⟨hdated, Process.path_eq hdated (hb ▸ hzero i)⟩
    · exact ⟨hS.dated i, Process.path_eq (hS.dated i) (by rw [hS.basename]; exact hzero i)⟩
  refine ⟨fun f g hf hg heq => ?_, fun f hf => ⟨_, (hpath f hf).2, ?_⟩, fun x hx => ?_, fun i => ?_⟩
  · have hname : nameOf p f = nameOf p g := by
      rw [(hpath f hf).2, (hpath g hg).2] at heq
      exact Option.some.inj heq
    rcases hf with hf | ⟨i, rfl⟩ <;> rcases hg with hg | ⟨j, rfl⟩
    · obtain ⟨hb, hc⟩ := nameOf_inj (hS.older f hf).1 (hS.older g hg).1 hname
      have hkeys : (s.closed.map fun f => (f.basename, f.created)).Nodup := by
        refine List.pairwise_map.mpr (hS.order.imp fun hlt hkey => ?_)
        obtain ⟨hb, hc⟩ := Prod.ext_iff.mp hkey
        exact (hlt hb).ne hc
      exact List.inj_on_of_nodup_map hkeys hf hg (Prod.ext hb hc)
    · exact absurd hname (hS.closed_ne hbase hf j)
    · exact absurd hname.symm (hS.closed_ne hbase hg i)
    · by_cases hij : i = j
      · rw [hij]
      · exact absurd hname (hS.current_ne hbase hij)
  · rcases hf with hf | ⟨i, rfl⟩
    · exact hS.keeps f hf
    · exact hS.holds i
  · refine hS.others x (fun i hi => ?_) fun f hf hi => ?_
    · exact hx _ (Or.inr ⟨i, rfl⟩) (hi ▸ (hpath _ (Or.inr ⟨i, rfl⟩)).2)
    · exact hx f (Or.inl hf) (hi ▸ (hpath f (Or.inl hf)).2)
  · have hsorted : ∀ f g, s.IsFile f → s.IsFile g → f.basename = g.basename →
        f.created < g.created → ∃ x y, p.path f = some x ∧ p.path g = some y ∧ x < y := by
      intro f g hf hg hb hlt
      refine ⟨_, _, (hpath f hf).2, (hpath g hg).2, ?_⟩
      unfold nameOf
      rw [hb]
      exact Process.fileName_lt (hpath f hf).1 (hpath g hg).1 hlt
    refine List.pairwise_append.mpr ⟨?_, List.pairwise_singleton _ _, fun f hf g hg => ?_⟩
    · refine (hS.order.filter _).imp_of_mem fun {f g} hf hg hlt => ?_
      obtain ⟨hf, hbf⟩ := List.mem_filter.mp hf
      obtain ⟨hg, hbg⟩ := List.mem_filter.mp hg
      have hb : f.basename = g.basename :=
        (of_decide_eq_true hbf).trans (of_decide_eq_true hbg).symm
      exact hsorted f g (Or.inl hf) (Or.inl hg) hb (hlt hb)
    · obtain rfl := List.mem_singleton.mp hg
      obtain ⟨hclosed, hbf⟩ := List.mem_filter.mp hf
      obtain ⟨-, j, hj, hlt⟩ := hS.older f hclosed
      have hb : f.basename = base i := of_decide_eq_true hbf
      rw [hbase (hj.symm.trans hb)] at hlt
      exact hsorted f _ (Or.inl hclosed) (Or.inr ⟨i, rfl⟩) (hb.trans (hS.basename i).symm) hlt

end Runs

/-! ### Two log files -/

def host : Process := ⟨some (bytes "host".toList), 7⟩

def twoNames : Bool → String
  | false => "net"
  | true => "app"

/-- One log file rolls in the second after both were opened. -/
theorem files_apart_rolled : ∃ a s, run (step host) (start twoNames (fun _ => 1) 0 fun _ => [])
      [(false, a)] = some s ∧ s.closed.length = 1 ∧
    (∀ f g, s.IsFile f → s.IsFile g → host.path f = host.path g → f = g) ∧
    (∀ f, s.IsFile f → ∃ x, host.path f = some x ∧ s.dir x = f.contents) ∧
    (∀ x, (∀ f, s.IsFile f → host.path f ≠ some x) → s.dir x = []) ∧
    ∀ i, ((s.closed.filter fun f => f.basename = twoNames i) ++ [s.current i]).Pairwise
      fun f g => ∃ x y, host.path f = some x ∧ host.path g = some y ∧ x < y := by
  obtain ⟨a, hslice, hroll⟩ : ∃ a : AppendCall, a.slice.length = kRollingSize + 1 ∧ a.rollNow = 2 :=
    ⟨Journal.bigCall 2, Journal.bigCall_size 2, rfl⟩
  set s₀ : LogDir Bool := start twoNames (fun _ => 1) 0 fun _ => [] with hs₀
  have hbig : kRollingSize < (s₀.logs.logs false).file.hasWritten + a.slice.length := by omega
  have hlog := LogFile.append_sizeRoll s₀.logs.count hbig
  rw [if_pos (by rw [hroll]; decide)] at hlog
  have hpath : host.path (s₀.current false) = some (host.fileName "net" 1) :=
    Process.path_eq (by decide) (by decide)
  have hstep : ∃ s, step host s₀ (false, a) = some s ∧ s.closed.length = 1 := by
    rw [step, hpath, Option.bind_some, hlog]
    exact ⟨_, rfl, rfl⟩
  obtain ⟨s, hstep, hclosed⟩ := hstep
  have hrun : run (step host) s₀ [(false, a)] = some s := run_cons_some.mpr ⟨s, hstep, run_nil s⟩
  refine ⟨a, s, hrun, hclosed, files_apart (by decide) (by decide) (fun _ _ _ _ _ => rfl)
    (fun _ => by decide) ?_ hrun⟩
  rw [List.forall_mem_singleton, hroll]
  decide

end LogDir

end Polly
