import Polly.LogFile

/-!
# LogFiles — several log files in one process

The counter of the periodic check is a function-local static of `LogFile::Append`: all log files of
a process count with it.  Calls of `Append` to any number of log files (`ι` names them) are
interleaved; `verdicts i` are the decisions log file `i` makes.

* `verdicts_eq_solo`: as long as the appends to other log files leave the counter alone, a log file
  decides as if it were the only one (`solo`).
* `independent`: then its decisions do not depend on the interleaving, and the check comes at least
  every `kCheckInterval` appends.
-/

namespace Polly

open Runs

structure Logs (ι : Type*) where
  logs : ι → LogFile
  count : ℕ

/-- What the decisions of `Append` depend on. -/
def LogFile.core (l : LogFile) : ℕ × ℤ × ℤ × ℤ :=
  (l.file.hasWritten, l.lastRoll, l.lastFlush, l.startPeriod)

/-- A slice and the times at which it is appended. -/
def AppendCall.core (a : AppendCall) : List UInt8 × ℤ × ℤ := (a.slice, a.now, a.rollNow)

namespace LogFile

/-- The decisions of a log file that has the counter for itself. -/
def solo (l : LogFile) (count : ℕ) : List AppendCall → List Verdict
  | [] => []
  | a :: as => (l.append count a).elim [] fun (l', count', v) => v :: l'.solo count' as

theorem append_congr {l l' : LogFile} {a a' : AppendCall} (count : ℕ) (hl : l.core = l'.core)
    (ha : a.core = a'.core) :
    (l.append count a).map (fun o => (o.1.core, o.2)) =
      (l'.append count a').map (fun o => (o.1.core, o.2)) := by
  simp only [core, AppendCall.core, Prod.mk.injEq] at hl ha
  obtain ⟨hwritten, hroll, hflush, hperiod⟩ := hl
  obtain ⟨hslice, hnow, hrollNow⟩ := ha
  simp only [append, rollToNewFile, guarded, AppendFile.append_hasWritten, hwritten, hroll, hflush,
    hperiod, hslice, hnow, hrollNow]
  split_ifs <;>
    simp [core, opened, AppendFile.append_hasWritten, hwritten]

/-- A log file's decisions depend on the slices and the times only. -/
theorem solo_congr {l l' : LogFile} {as as' : List AppendCall} (count : ℕ) (hl : l.core = l'.core)
    (has : as.map AppendCall.core = as'.map AppendCall.core) :
    l.solo count as = l'.solo count as' := by
  induction as generalizing l l' as' count with
  | nil =>
    rw [List.map_nil, eq_comm, List.map_eq_nil_iff] at has
    rw [has]
    rfl
  | cons a as ih =>
    cases as' with
    | nil => cases has
    | cons a' as' =>
      simp only [List.map_cons, List.cons.injEq] at has
      have hcongr := append_congr count hl has.1
      simp only [solo]
      cases ho : l.append count a with
      | none =>
        rw [ho, Option.map_none, eq_comm, Option.map_eq_none_iff] at hcongr
        rw [hcongr]
        rfl
      | some o =>
        rw [ho, Option.map_some, eq_comm, Option.map_eq_some_iff] at hcongr
        obtain ⟨o', ho', heq⟩ := hcongr
        obtain ⟨l₁, count₁, v₁⟩ := o
        obtain ⟨l₂, count₂, v₂⟩ := o'
        simp only [Prod.mk.injEq] at heq
        obtain ⟨hcore, rfl, rfl⟩ := heq
        rw [ho', Option.elim_some, Option.elim_some]
        exact congrArg _ (ih _ hcore.symm has.2)

/-- Without a check the counter moves with every decision but the size rolls, and stays below the
interval. -/
theorem solo_without_check {l : LogFile} {as : List AppendCall} {count : ℕ}
    (hcount : count < kCheckInterval) (h : ∀ v ∈ l.solo count as, v.checks = false) :
    count + (l.solo count as).countP (· ≠ .sizeRoll) < kCheckInterval := by
  induction as generalizing l count with
  | nil => exact hcount
  | cons a as ih =>
    simp only [solo] at h ⊢
    cases ho : l.append count a with
    | none => exact hcount
    | some o =>
      obtain ⟨l', count', v⟩ := o
      rw [ho, Option.elim_some] at h
      rw [Option.elim_some]
      dsimp only at h ⊢
      rw [List.forall_mem_cons] at h
      rcases append_cases ho with ⟨-, -, -, hwhy⟩ | ⟨-, -, -, hwhy⟩
      · rcases hwhy with ⟨rfl, -, rfl⟩ | ⟨rfl, -⟩
        · rw [List.countP_cons_of_neg (by decide)]
          exact ih hcount h.2
        · cases h.1
      · rcases hwhy with ⟨rfl, hlt, rfl⟩ | ⟨hcheck, -⟩
        · rw [List.countP_cons_of_pos (by decide)]
          have hrest := ih hlt h.2
          omega
        · rw [hcheck] at h
          cases h.1

end LogFile

namespace Logs

variable {ι : Type*} [DecidableEq ι]

/-- An append to one of the log files. -/
def step (s : Logs ι) (c : ι × AppendCall) : Option (Logs ι) :=
  ((s.logs c.1).append s.count c.2).map fun (l, count, _) =>
    ⟨Function.update s.logs c.1 l, count⟩

/-- The decisions of log file `i` in a run. -/
def verdicts (i : ι) (s : Logs ι) : List (ι × AppendCall) → List Verdict
  | [] => []
  | c :: cs =>
    ((s.logs c.1).append s.count c.2).elim [] fun (l, count, v) =>
      (if c.1 = i then [v] else []) ++ verdicts i ⟨Function.update s.logs c.1 l, count⟩ cs

/-- The appends to log file `i`. -/
def own (i : ι) (cs : List (ι × AppendCall)) : List AppendCall :=
  (cs.filter fun c => c.1 = i).map Prod.snd

/-- An append to another log file than `i` takes that file past the size limit: it rolls, and the
counter is left alone. -/
def Alone (i : ι) (s : Logs ι) (c : ι × AppendCall) : Prop :=
  c.1 = i ∨ kRollingSize < (s.logs c.1).file.hasWritten + c.2.slice.length

instance (i : ι) (s : Logs ι) (c : ι × AppendCall) : Decidable (Alone i s c) :=
  inferInstanceAs (Decidable (_ ∨ _))

variable {s s' : Logs ι} {i : ι} {cs : List (ι × AppendCall)}

theorem step_some {c : ι × AppendCall} (h : step s c = some s') :
    ∃ l count v, (s.logs c.1).append s.count c.2 = some (l, count, v) ∧
      s' = ⟨Function.update s.logs c.1 l, count⟩ := by
  obtain ⟨⟨l, count, v⟩, hlog, rfl⟩ := Option.map_eq_some_iff.mp h
  exact ⟨l, count, v, hlog, rfl⟩

/-- As long as nobody else counts, a log file decides as if it were the only one. -/
theorem verdicts_eq_solo (hrun : run step s cs = some s') (h : Along step (Alone i) s cs) :
    verdicts i s cs = (s.logs i).solo s.count (own i cs) := by
  induction cs generalizing s with
  | nil => rfl
  | cons c cs ih =>
    obtain ⟨s₁, h₁, h₂⟩ := run_cons_some.mp hrun
    obtain ⟨l, count, v, hlog, rfl⟩ := step_some h₁
    have hrest := ih h₂ (h.2 _ h₁)
    dsimp only at hrest
    rw [verdicts, hlog, Option.elim_some]
    dsimp only
    by_cases hi : c.1 = i
    · subst hi
      rw [own, List.filter_cons_of_pos (by simp), List.map_cons, LogFile.solo, hlog,
        Option.elim_some, if_pos rfl, List.singleton_append, hrest, Function.update_self]
      rfl
    · have hsize := h.1.resolve_left hi
      have hcount : count = s.count := by
        rcases LogFile.append_cases hlog with ⟨-, -, -, ⟨-, -, hc⟩ | ⟨-, hle, -⟩⟩ | ⟨-, hle, -⟩
        · exact hc
        · omega
        · omega
      rw [own, List.filter_cons_of_neg (by simpa using hi), if_neg hi, List.nil_append, hrest,
        Function.update_of_ne (Ne.symm hi), hcount]
      rfl

theorem step_count {c : ι × AppendCall} (hcount : s.count < kCheckInterval)
    (h : step s c = some s') : s'.count < kCheckInterval := by
  obtain ⟨l, count, v, hlog, rfl⟩ := step_some h
  exact LogFile.append_count hcount hlog

/-- **Independent log files do not influence each other**, as long as every append to another log
file takes that file past the size limit: two interleavings that give log file `i` the same slices
at the same times make it take the same decisions, and in every stretch of a run with
`kCheckInterval` appends to it that do not roll by size one makes the periodic check. -/
theorem independent {s₁ s₂ : Logs ι} {cs₁ cs₂ : List (ι × AppendCall)}
    (hcount : s.count < kCheckInterval) (hrun₁ : run step s cs₁ = some s₁)
    (hrun₂ : run step s cs₂ = some s₂) (h₁ : Along step (Alone i) s cs₁)
    (h₂ : Along step (Alone i) s cs₂) :
    ((own i cs₁).map AppendCall.core = (own i cs₂).map AppendCall.core →
      verdicts i s cs₁ = verdicts i s cs₂) ∧
    ∀ before stretch t, cs₁ = before ++ stretch → run step s before = some t →
      kCheckInterval ≤ (verdicts i t stretch).countP (· ≠ .sizeRoll) →
        ∃ v ∈ verdicts i t stretch, v.checks = true := by
  constructor
  · intro hsame
    rw [verdicts_eq_solo hrun₁ h₁, verdicts_eq_solo hrun₂ h₂]
    exact LogFile.solo_congr s.count rfl hsame
  · rintro before stretch t rfl hbefore hmany
    rw [run_append, hbefore, Option.bind_some] at hrun₁
    have ht : t.count < kCheckInterval :=
      run_inv (I := fun s => s.count < kCheckInterval) (fun _ _ _ hc h => step_count hc h) hbefore
        hcount
    have halone : Along step (Alone i) t stretch := (along_append.mp h₁).2 t hbefore
    by_contra hnone
    push Not at hnone
    rw [verdicts_eq_solo hrun₁ halone] at hmany hnone
    have hlt := LogFile.solo_without_check ht fun v hv => Bool.eq_false_iff.mpr (hnone v hv)
    omega

/-! ### Two log files -/

/-- One byte in the second the log files are opened in. -/
def oneByte : AppendCall := ⟨[1], [1], 1, 1⟩

/-- One byte on the next day. -/
def nextDay : AppendCall := ⟨[1], [1], 86400, 86400⟩

def twins : Logs (Fin 2) := ⟨fun i => LogFile.opened (if i = 0 then "a" else "b") 1, 0⟩

/-- All but one of the appends between two checks, and one more on the next day. -/
def aloneCalls : List (Fin 2 × AppendCall) :=
  List.replicate 1023 (0, oneByte) ++ [(0, nextDay)]

/-- The same for log file 0, with one byte for log file 1 before the last one. -/
def mixedCalls : List (Fin 2 × AppendCall) :=
  List.replicate 1023 (0, oneByte) ++ [(1, oneByte), (0, nextDay)]

theorem step_of_append {k : ι} {a : AppendCall} {l : LogFile} {count : ℕ} {v : Verdict}
    (h : (s.logs k).append s.count a = some (l, count, v)) :
    step s (k, a) = some ⟨Function.update s.logs k l, count⟩ := by
  rw [step, h, Option.map_some]

theorem verdicts_of_append {k : ι} {a : AppendCall} {l : LogFile} {count : ℕ} {v : Verdict}
    (h : (s.logs k).append s.count a = some (l, count, v)) (cs : List (ι × AppendCall)) :
    verdicts i s ((k, a) :: cs) =
      (if k = i then [v] else []) ++ verdicts i ⟨Function.update s.logs k l, count⟩ cs := by
  rw [verdicts, h, Option.elim_some]

/-- Below the interval and the size limit, appends only count. -/
theorem run_oneBytes (i : ι) (n : ℕ) (hcount : s.count + n < kCheckInterval)
    (hsize : (s.logs i).file.hasWritten + n ≤ kRollingSize) :
    ∃ t, run step s (List.replicate n (i, oneByte)) = some t ∧ t.count = s.count + n ∧
      (t.logs i).core = ((s.logs i).file.hasWritten + n, (s.logs i).core.2) ∧
      (∀ j, j ≠ i → t.logs j = s.logs j) ∧
      ∀ cs, verdicts i s (List.replicate n (i, oneByte) ++ cs) =
        List.replicate n .skip ++ verdicts i t cs := by
  induction n generalizing s with
  | zero => exact ⟨s, rfl, rfl, rfl, fun _ _ => rfl, fun _ => rfl⟩
  | succ n ih =>
    have hwritten : (s.logs i).file.hasWritten + oneByte.slice.length ≤ kRollingSize := by
      change (s.logs i).file.hasWritten + 1 ≤ kRollingSize
      omega
    have hlog := LogFile.append_skip hwritten (show s.count + 1 < kCheckInterval by omega)
    set l := { s.logs i with file := (s.logs i).file.append oneByte.slice oneByte.fwrites } with hl
    have hone : l.file.hasWritten = (s.logs i).file.hasWritten + 1 :=
      AppendFile.append_hasWritten ..
    set s₁ : Logs ι := ⟨Function.update s.logs i l, s.count + 1⟩ with hs₁
    have hself : s₁.logs i = l := Function.update_self ..
    obtain ⟨t, hrun, htcount, hcore, hothers, hverdicts⟩ := ih (s := s₁)
      (show s.count + 1 + n < kCheckInterval by omega) (by rw [hself, hone]; omega)
    refine ⟨t, run_cons_some.mpr ⟨s₁, step_of_append hlog, hrun⟩, ?_, ?_, ?_, ?_⟩
    · rw [htcount, hs₁]
      dsimp only
      omega
    · rw [hcore, hself, hone, Nat.add_assoc, Nat.add_comm 1 n]
      rfl
    · intro j hj
      rw [hothers j hj, hs₁]
      exact Function.update_of_ne hj _ _
    · intro cs
      rw [List.replicate_succ, List.cons_append, verdicts_of_append hlog, if_pos rfl, hverdicts,
        List.replicate_succ]
      rfl

/-- As the only one that counts, log file 0 rolls with its 1024th append. -/
theorem run_aloneCalls {s : Logs (Fin 2)} (hlogs : s.logs 0 = twins.logs 0) (hcount : s.count = 0) :
    (∃ t, run step s aloneCalls = some t) ∧
      verdicts 0 s aloneCalls = List.replicate 1023 .skip ++ [.dayRoll] := by
  obtain ⟨t, hrun, htcount, hcore, -, hverdicts⟩ :=
    run_oneBytes (s := s) 0 1023 (by rw [hcount]; decide) (by rw [hlogs]; decide)
  rw [hlogs] at hcore
  simp only [LogFile.core, Prod.mk.injEq] at hcore
  obtain ⟨hwritten, hroll, -, hperiod⟩ := hcore
  have hlog : (t.logs 0).append t.count nextDay =
      some (LogFile.opened (t.logs 0).basename 86400, 0, .dayRoll) := by
    have hday : period nextDay.now ≠ (t.logs 0).startPeriod := by
      rw [hperiod]
      decide
    have hlater : (t.logs 0).lastRoll < nextDay.rollNow := by
      rw [hroll]
      decide
    rw [LogFile.append_dayRoll (by rw [hwritten]; decide) (by rw [htcount, hcount]; decide) hday,
      if_pos hlater]
    rfl
  constructor
  · rw [aloneCalls, run_append, hrun, Option.bind_some]
    exact ⟨_, run_cons_some.mpr ⟨_, step_of_append hlog, run_nil _⟩⟩
  · rw [aloneCalls, hverdicts, verdicts_of_append hlog]
    rfl

/-- A slice for log file 1 that rolls it by size changes nothing for log file 0. -/
theorem independent_bigCall :
    ∃ a : AppendCall, a.slice.length = kRollingSize + 1 ∧
      verdicts 0 twins aloneCalls = verdicts 0 twins ((1, a) :: aloneCalls) ∧
      ∃ v ∈ verdicts 0 twins aloneCalls, v.checks = true := by
  obtain ⟨a, hslice, hroll⟩ : ∃ a : AppendCall, a.slice.length = kRollingSize + 1 ∧ a.rollNow = 2 :=
    ⟨Journal.bigCall 2, Journal.bigCall_size 2, rfl⟩
  have hbig : kRollingSize < (twins.logs 1).file.hasWritten + a.slice.length := by omega
  have hlog := LogFile.append_sizeRoll twins.count hbig
  rw [if_pos (by rw [hroll]; decide)] at hlog
  have hstep := step_of_append hlog
  obtain ⟨⟨t₁, hrun₁⟩, hverdicts⟩ := run_aloneCalls (s := twins) rfl rfl
  obtain ⟨⟨t₂, hrun₂⟩, -⟩ := run_aloneCalls (s := ⟨Function.update twins.logs 1
    (LogFile.opened (twins.logs 1).basename a.rollNow), twins.count⟩) rfl rfl
  have hown : ∀ s : Logs (Fin 2), Along step (Alone 0) s aloneCalls := by
    intro s
    have hzero : ∀ c ∈ aloneCalls, c.1 = 0 := by
      intro c hc
      rcases List.mem_append.mp hc with hc | hc
      · rw [List.eq_of_mem_replicate hc]
      · rw [List.mem_singleton.mp hc]
    exact (along_of_forall s hzero).of_inv (I := fun _ => True) (fun _ _ _ h => Or.inl h)
      (fun _ _ _ _ _ _ => trivial) trivial
  have hcalls : own 0 ((1, a) :: aloneCalls) = own 0 aloneCalls := by
    rw [own, List.filter_cons_of_neg (by simp), ← own]
  obtain ⟨hsame, hcheck⟩ := independent (by decide) hrun₁ (run_cons_some.mpr ⟨_, hstep, hrun₂⟩)
    (hown twins) (along_cons.mpr ⟨Or.inr hbig, fun s _ => hown s⟩)
  refine ⟨a, hslice, hsame (by rw [hcalls]), ?_⟩
  refine hcheck [] aloneCalls twins (List.nil_append _).symm (run_nil _) ?_
  rw [hverdicts, List.countP_append, List.countP_replicate]
  decide

/-- One byte for log file 1 takes the check away from log file 0: it does not roll, and sees 1024
appends without a check. -/
theorem mixedCalls_no_check :
    (∃ t₁, run step twins aloneCalls = some t₁) ∧ (∃ t₂, run step twins mixedCalls = some t₂) ∧
      own 0 aloneCalls = own 0 mixedCalls ∧
      verdicts 0 twins aloneCalls ≠ verdicts 0 twins mixedCalls ∧
      kCheckInterval ≤ (verdicts 0 twins mixedCalls).countP (· ≠ .sizeRoll) ∧
      ∀ v ∈ verdicts 0 twins mixedCalls, v.checks = false := by
  obtain ⟨hrun₁, hverdicts₁⟩ := run_aloneCalls (s := twins) rfl rfl
  obtain ⟨t, hrun, hcount, hcore, hothers, hverdicts⟩ :=
    run_oneBytes (s := twins) 0 1023 (by decide) (by decide)
  simp only [LogFile.core, Prod.mk.injEq] at hcore
  have hone : ((t.logs 1).append t.count oneByte).map Prod.snd = some (0, .check) := by
    rw [hothers 1 (by decide), hcount]
    decide +kernel
  obtain ⟨⟨l, count, v⟩, hcheck, heq⟩ := Option.map_eq_some_iff.mp hone
  cases heq
  set t' : Logs (Fin 2) := ⟨Function.update t.logs 1 l, 0⟩ with ht'
  have hlogs : t'.logs 0 = t.logs 0 := Function.update_of_ne Fin.zero_ne_one l t.logs
  have hsize : (t'.logs 0).file.hasWritten + nextDay.slice.length ≤ kRollingSize := by
    rw [hlogs, hcore.1]
    decide
  have hskip := LogFile.append_skip hsize (show 0 + 1 < kCheckInterval by decide)
  have hverdicts₂ : verdicts 0 twins mixedCalls = List.replicate 1023 .skip ++ [.skip] := by
    rw [mixedCalls, hverdicts, verdicts_of_append hcheck, verdicts_of_append hskip]
    rfl
  have hskips : ∀ v ∈ verdicts 0 twins mixedCalls, v = .skip := by
    rw [hverdicts₂]
    intro v hv
    rcases List.mem_append.mp hv with hv | hv
    · exact List.eq_of_mem_replicate hv
    · exact List.mem_singleton.mp hv
  refine ⟨hrun₁, ?_, ?_, ?_, ?_, ?_⟩
  · rw [mixedCalls, run_append, hrun, Option.bind_some]
    exact ⟨_, run_cons_some.mpr ⟨t', step_of_append hcheck,
      run_cons_some.mpr ⟨_, step_of_append hskip, run_nil _⟩⟩⟩
  · simp only [own, aloneCalls, mixedCalls, List.filter_append]
    rfl
  · intro heq
    have hmem : Verdict.dayRoll ∈ verdicts 0 twins mixedCalls := by
      rw [← heq, hverdicts₁]
      exact List.mem_append.mpr (Or.inr (List.mem_singleton.mpr rfl))
    cases hskips _ hmem
  · rw [hverdicts₂, List.countP_append, List.countP_replicate]
    decide
  · intro v hv
    rw [hskips v hv]
    rfl

end Logs

end Polly
