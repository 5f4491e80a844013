import Polly.TimerRun

/-!
# TimerWake — when the timerfd is armed

`settimes` are the timespecs a step passes to timerfd_settime; `step_timerfd` says that the timerfd
is what the kernel makes of these calls, of reading it and of the clock.  A call made at time `now`
for expiration `e` arms the timerfd for `max e (now + 100)` (`settime_howMuchTimeFromNow`).
`addTimer` arms it when the new timer becomes the first one, and every `reset` arms it: as the code
has `Timestamp::valid`, all timestamps are valid, the one of an empty table included.

* `wakeup_scheduled`: between two `HandleRead`s, pending timers have a wake-up.
* `quiet_along_iff`: without pending timers there is none, exactly as long as no `HandleRead` ends
  with an empty table.
-/

namespace Polly

open Runs

/-- As the code has it, every timestamp is valid. -/
theorem Timestamp.valid_eq_true (ts : Timestamp) : ts.valid = true := by
  unfold Timestamp.valid
  by_cases h : ts = 0
  · subst h
    rfl
  · simp [h]

/-- What `howMuchTimeFromNow` promises timerfd_settime. -/
def Timespec.Lawful (ts : Timespec) : Prop := ts ≠ ⟨0, 0⟩ ∧ 0 ≤ ts.tvNsec ∧ ts.tvNsec < 10 ^ 9

theorem howMuchTimeFromNow_lawful (now when : Timestamp) :
    (howMuchTimeFromNow now when).Lawful := by
  simp only [Timespec.Lawful, howMuchTimeFromNow, kMicroSecondsPerSecond, ne_eq,
    Timespec.mk.injEq, Timestamp]
  split_ifs <;> omega

/-- The timerfd goes off at the expiration, but not before 100 microseconds have passed. -/
theorem settime_howMuchTimeFromNow (now when : Timestamp) :
    Timerfd.settime now (howMuchTimeFromNow now when) = ⟨some (max when (now + 100)), false⟩ := by
  unfold Timerfd.settime
  rw [if_neg (howMuchTimeFromNow_lawful now when).1]
  simp only [howMuchTimeFromNow, kMicroSecondsPerSecond, Timerfd.mk.injEq, Option.some.injEq,
    and_true, Timestamp]
  split_ifs <;> omega

namespace TimerQueue

variable {κ : Type*}

/-! ### The calls of timerfd_settime -/

/-- The `nextExpire` of a step, if it comes to compute one. -/
def nextExpire (q : TimerQueue κ) : Act κ → Option Timestamp
  | .addTimer cb when interval =>
    if needUpdate q.timers when = some true then
      firstExpiration (q.emplace (Timer.new cb when interval q.created)).timers
    else none
  | .reset =>
    match q.phase with
    | .idle => none
    | .reading now expired _ =>
      (reinsert now q expired.entries).bind fun q =>
        if q.timers.entries.isEmpty then some 0 else firstExpiration q.timers
  | _ => none

/-- The timespecs a step passes to timerfd_settime. -/
def settimes (q : TimerQueue κ) (a : Act κ) : List Timespec :=
  ((nextExpire q a).filter Timestamp.valid).toList.map (howMuchTimeFromNow q.clock)

/-- The armings of a step: when, and with which timespec. -/
def armings (q : TimerQueue κ) (a : Act κ) : List (Timestamp × Timespec) :=
  (settimes q a).map fun ts => (q.clock, ts)

/-- What a step does to the timerfd besides arming it. -/
def kernelFd (q : TimerQueue κ) : Act κ → Timerfd
  | .advance now => q.timerfd.advance now
  | .handleRead => q.timerfd.read
  | _ => q.timerfd

theorem settimes_of_some {q : TimerQueue κ} {a : Act κ} {e : Timestamp}
    (h : nextExpire q a = some e) : settimes q a = [howMuchTimeFromNow q.clock e] := by
  simp [settimes, h, e.valid_eq_true]

theorem settimes_of_none {q : TimerQueue κ} {a : Act κ} (h : nextExpire q a = none) :
    settimes q a = [] := by
  simp [settimes, h]

theorem armings_lawful {q : TimerQueue κ} {a : Act κ} {x : Timestamp × Timespec}
    (h : x ∈ armings q a) : x.2.Lawful := by
  unfold armings settimes at h
  simp only [List.map_map, List.mem_map] at h
  obtain ⟨e, -, rfl⟩ := h
  exact howMuchTimeFromNow_lawful q.clock e

theorem schedule_timerfd (q : TimerQueue κ) (e : Timestamp) :
    (q.schedule e).timerfd = ⟨some (max e (q.clock + 100)), false⟩ := by
  unfold schedule
  rw [if_pos e.valid_eq_true]
  exact settime_howMuchTimeFromNow q.clock e

theorem schedule_timers (q : TimerQueue κ) (e : Timestamp) : (q.schedule e).timers = q.timers := by
  obtain ⟨fd, hfd⟩ := schedule_eq q e
  rw [hfd]

theorem reinsert_clock {now : Timestamp} {q q' : TimerQueue κ}
    {expired : List (Timestamp × Option (Timer κ))} (h : reinsert now q expired = some q') :
    q'.clock = q.clock := by
  induction expired generalizing q with
  | nil => cases h; rfl
  | cons x expired ih =>
    obtain ⟨k, none | t⟩ := x
    · cases h
    · unfold reinsert at h
      split_ifs at h
      · exact (ih h).trans rfl
      · exact ih h

/-- What a step that computes `nextExpire` makes of the timerfd. -/
def Armed (q q' : TimerQueue κ) (e : Timestamp) : Prop :=
  q'.timerfd = ⟨some (max e (q.clock + 100)), false⟩ ∧
    (q'.timers.entries = [] ∨ firstExpiration q'.timers = some e)

section Steps

variable {q q' : TimerQueue κ}

theorem addTimer_timerfd {cb : κ} {when : Timestamp} {interval : Interval}
    (h : q.addTimer cb when interval = some q') :
    (nextExpire q (.addTimer cb when interval) = none ∧ q'.timerfd = q.timerfd ∧
      needUpdate q.timers when = some false) ∨
    ∃ e, nextExpire q (.addTimer cb when interval) = some e ∧ Armed q q' e := by
  set q₁ := { q with created := q.created + 1 }.emplace (Timer.new cb when interval q.created)
    with hq₁
  unfold addTimer at h
  obtain ⟨b, hb, h⟩ := Option.bind_eq_some_iff.mp h
  rw [← hq₁] at h
  have hnext : nextExpire q (.addTimer cb when interval) =
      if b = true then firstExpiration q₁.timers else none := by
    simp only [nextExpire, hb, Option.some.injEq]
    rfl
  cases b with
  | false =>
    have hq' : q₁ = q' := Option.some.inj h
    rw [← hq']
    exact Or.inl ⟨hnext, rfl, hb⟩
  | true =>
    obtain ⟨e, he, rfl⟩ := Option.map_eq_some_iff.mp h
    refine Or.inr ⟨e, hnext.trans he, schedule_timerfd q₁ e, Or.inr ?_⟩
    rw [schedule_timers]
    exact he

/-- Every `reset` arms the timerfd. -/
theorem reset_timerfd {now : Timestamp} {expired : TimerTable κ} {it : ℕ}
    (hp : q.phase = .reading now expired it) (h : q.reset expired now = some q') :
    ∃ e, nextExpire q .reset = some e ∧ Armed q q' e := by
  unfold reset at h
  obtain ⟨q₁, hq₁, h⟩ := Option.bind_eq_some_iff.mp h
  have hclock : q₁.clock = q.clock := reinsert_clock hq₁
  have hnext : nextExpire q .reset =
      if q₁.timers.entries.isEmpty then some 0 else firstExpiration q₁.timers := by
    simp only [nextExpire, hp, hq₁, Option.bind_some]
  by_cases hempty : q₁.timers.entries.isEmpty
  · rw [if_pos hempty] at h hnext
    cases h
    refine ⟨0, hnext, ?_, Or.inl ?_⟩
    · rw [schedule_timerfd, hclock]
    · rw [schedule_timers]
      exact List.isEmpty_iff.mp hempty
  · rw [if_neg hempty] at h hnext
    obtain ⟨e, he, rfl⟩ := Option.map_eq_some_iff.mp h
    refine ⟨e, hnext.trans he, ?_, Or.inr ?_⟩
    · rw [schedule_timerfd, hclock]
    · rw [schedule_timers]
      exact he

/-- A step arms the timerfd, or it only does to it what the kernel does. -/
theorem step_timerfd {a : Act κ} (h : step q a = some q') :
    (nextExpire q a = none ∧ q'.timerfd = kernelFd q a ∧ a ≠ .reset) ∨
      ∃ e, nextExpire q a = some e ∧ Armed q q' e := by
  cases a with
  | advance now =>
    obtain ⟨-, rfl⟩ := guarded_eq_some.mp h
    exact Or.inl ⟨rfl, rfl, by simp⟩
  | addTimer cb when interval =>
    simp only [step] at h
    split_ifs at h
    rcases addTimer_timerfd h with ⟨hnext, hfd, -⟩ | harm
    · exact Or.inl ⟨hnext, hfd, by simp⟩
    · exact Or.inr harm
  | handleRead =>
    simp only [step] at h
    split at h
    · cases h
      exact Or.inl ⟨rfl, rfl, by simp⟩
    · cases h
  | fire =>
    simp only [step] at h
    split at h
    · cases h
    · split at h
      · cases h
        exact Or.inl ⟨rfl, rfl, by simp⟩
      · cases h
  | reset =>
    simp only [step] at h
    split at h
    · cases h
    · rename_i now expired it hp
      split_ifs at h
      obtain ⟨q₁, hq₁, rfl⟩ := Option.map_eq_some_iff.mp h
      obtain ⟨e, hnext, harmed⟩ := reset_timerfd hp hq₁
      exact Or.inr ⟨e, hnext, harmed⟩

/-- The timerfd after a step is what the kernel and the calls of timerfd_settime make of it. -/
theorem timerfd_eq_foldl_settimes {a : Act κ} (h : step q a = some q') :
    q'.timerfd = (settimes q a).foldl (fun _ ts => Timerfd.settime q.clock ts) (kernelFd q a) := by
  rcases step_timerfd h with ⟨hnext, hfd, -⟩ | ⟨e, hnext, hfd, -⟩
  · rw [settimes_of_none hnext]
    exact hfd
  · rw [settimes_of_some hnext, hfd]
    exact (settime_howMuchTimeFromNow q.clock e).symm

/-- Outside `HandleRead` only the clock and new timers move the queue; its end is `reset`. -/
theorem step_idle {a : Act κ} (h : step q a = some q') (hidle : q'.phase = .idle)
    (ha : a ≠ .reset) :
    q.phase = .idle ∧ ((∃ now, a = .advance now ∧
        q' = { q with clock := now, timerfd := q.timerfd.advance now }) ∨
      ∃ cb when interval, a = .addTimer cb when interval ∧
        q.addTimer cb when interval = some q') := by
  cases a with
  | advance now =>
    obtain ⟨-, rfl⟩ := guarded_eq_some.mp h
    exact ⟨hidle, Or.inl ⟨now, rfl, rfl⟩⟩
  | addTimer cb when interval =>
    simp only [step] at h
    split_ifs at h
    refine ⟨?_, Or.inr ⟨cb, when, interval, rfl, h⟩⟩
    unfold addTimer at h
    obtain ⟨b, -, h⟩ := Option.bind_eq_some_iff.mp h
    cases b with
    | false => cases h; exact hidle
    | true =>
      obtain ⟨e, -, rfl⟩ := Option.map_eq_some_iff.mp h
      obtain ⟨fd, hfd⟩ := schedule_eq ({ q with created := q.created + 1 }.emplace
        (Timer.new cb when interval q.created)) e
      rw [hfd] at hidle
      exact hidle
  | handleRead =>
    simp only [step] at h
    split at h
    · cases h
      cases hidle
    · cases h
  | fire =>
    simp only [step] at h
    split at h
    · cases h
    · split at h
      · cases h
        cases hidle
      · cases h
  | reset => exact absurd rfl ha

end Steps

/-! ### Pending timers have a wake-up -/

section Holds

variable {m : TimerTable κ} {l : List (Timer κ)}

theorem Holds.firstExpiration (h : Holds m l) :
    TimerQueue.firstExpiration m = l.head?.map Timer.expiration := by
  unfold TimerQueue.firstExpiration
  rw [h]
  cases l with
  | nil => rfl
  | cons t l => rfl

theorem Holds.entries_eq_nil (h : Holds m l) : m.entries = [] ↔ l = [] := by
  rw [h, List.map_eq_nil_iff]

/-- A timer that is not strictly earlier than the first one does not become the first one. -/
theorem Holds.firstExpiration_emplace (h : Holds m l) {t : Timer κ} {e : Timestamp}
    (he : TimerQueue.firstExpiration m = some e) (hle : e ≤ t.expiration) :
    TimerQueue.firstExpiration (m.emplace t.expiration (some t)) = some e := by
  cases l with
  | nil =>
    rw [h.firstExpiration] at he
    cases he
  | cons t₀ l =>
    have he₀ : t₀.expiration = e := by
      rw [h.firstExpiration] at he
      exact Option.some.inj he
    unfold TimerQueue.firstExpiration
    rw [Multimap.emplace_entries, show m.entries = entry t₀ :: l.map entry from h]
    simp [entry, he₀, hle]

end Holds

theorem Agrees.entries_eq_nil {m : TimerTable κ} {order : List (Timer κ)} (h : Agrees m order) :
    m.entries = [] ↔ order = [] := by
  obtain ⟨l, hl, hperm, -⟩ := h
  rw [hl.entries_eq_nil]
  constructor
  · rintro rfl
    exact hperm.nil_eq.symm
  · rintro rfl
    exact hperm.eq_nil

/-- An expiration that has not been read, or one to come: at the first timer's expiration, but not
earlier than 100 microseconds after the last arming. -/
def Wake (q : TimerQueue κ) (log : List (Timestamp × Timespec)) : Prop :=
  q.timerfd.unread = true ∨
    ∃ e last, firstExpiration q.timers = some e ∧ log.getLast? = some last ∧
      q.timerfd.deadline = some (max e (last.1 + 100))

theorem Wake.advance {q : TimerQueue κ} {log : List (Timestamp × Timespec)} (h : Wake q log)
    (now : Timestamp) : Wake { q with clock := now, timerfd := q.timerfd.advance now } log := by
  unfold Wake Timerfd.advance at *
  rcases h with hunread | ⟨e, last, he, hlast, hd⟩
  · left
    dsimp only
    split
    · split_ifs
      · rfl
      · exact hunread
    · exact hunread
  · dsimp only
    rw [hd]
    dsimp only
    split_ifs
    · exact Or.inl rfl
    · exact Or.inr ⟨e, last, he, hlast, hd⟩

/-- The queue together with the armings so far. -/
abbrev watched : TimerQueue κ × List (Timestamp × Timespec) → Act κ →
    Option (TimerQueue κ × List (Timestamp × Timespec)) := logged step armings

structure WakeInv (s : TimerQueue κ × List (Timestamp × Timespec)) : Prop where
  inv : Inv s.1
  lawful : ∀ x ∈ s.2, x.2.Lawful
  wake : s.1.phase = .idle → s.1.timers.entries ≠ [] → Wake s.1 s.2

theorem addTimer_wake {q q' : TimerQueue κ} {log : List (Timestamp × Timespec)} {cb : κ}
    {when : Timestamp} {interval : Interval} (hI : Inv q)
    (hwake : q.timers.entries ≠ [] → Wake q log)
    (hnext : nextExpire q (.addTimer cb when interval) = none)
    (h : q.addTimer cb when interval = some q') : Wake q' log := by
  rcases addTimer_timerfd h with ⟨-, hfd, hneed⟩ | ⟨e, he, -⟩
  · obtain ⟨l, hl, -⟩ := id hI.table
    obtain ⟨fd, hadd⟩ := addTimer_spec hI.table cb when interval
    unfold needUpdate at hneed
    split_ifs at hneed with hempty
    · cases hneed
    · obtain ⟨e, he, hle⟩ := Option.map_eq_some_iff.mp hneed
      have hfirst : firstExpiration q'.timers = firstExpiration q.timers := by
        rw [hadd] at h
        cases h
        rw [he]
        exact hl.firstExpiration_emplace he (not_lt.mp (of_decide_eq_false hle))
      unfold Wake
      rw [hfirst, hfd]
      exact hwake (fun hnil => hempty (List.isEmpty_iff.mpr hnil))
  · rw [hnext] at he
    cases he

theorem watched_wakeInv {s s' : TimerQueue κ × List (Timestamp × Timespec)} {a : Act κ}
    (hI : WakeInv s) (h : watched s a = some s') : WakeInv s' := by
  obtain ⟨hstep, hlog⟩ := logged_some.mp h
  refine ⟨step_inv hI.inv hstep, fun x hx => ?_, fun hidle hne => ?_⟩
  · rw [hlog] at hx
    rcases List.mem_append.mp hx with hx | hx
    · exact hI.lawful x hx
    · exact armings_lawful hx
  · rcases step_timerfd hstep with ⟨hnext, hfd, ha⟩ | ⟨e, hnext, hfd, hfirst⟩
    · -- no arming: the queue was idle before, and its first timer is the same
      have hsame : s'.2 = s.2 := by
        rw [hlog, armings, settimes_of_none hnext]
        simp
      rw [hsame]
      obtain ⟨hidle', ⟨now, -, heq⟩ | ⟨cb, when, interval, rfl, hadd⟩⟩ := step_idle hstep hidle ha
      · rw [heq] at hne ⊢
        exact (hI.wake hidle' hne).advance now
      · exact addTimer_wake hI.inv (hI.wake hidle') hnext hadd
    · refine Or.inr ⟨e, (s.1.clock, howMuchTimeFromNow s.1.clock e), ?_, ?_, ?_⟩
      · exact hfirst.resolve_left hne
      · rw [hlog, armings, settimes_of_some hnext]
        simp
      · rw [hfd]

/-- **Pending timers have a wake-up.**  In every reachable state outside `HandleRead`, if there are
timers, the timerfd has an unread expiration or is armed for the expiration of an earliest timer,
but not for less than 100 microseconds after the last arming; and every timespec ever passed to
timerfd_settime is lawful. -/
theorem wakeup_scheduled {s : TimerQueue κ × List (Timestamp × Timespec)}
    (h : Reach watched (fun s => ∃ clock created, s = (new clock created, [])) s) :
    (s.1.phase = .idle → timersOf s.1.timers ≠ [] →
      s.1.timerfd.unread = true ∨
        ∃ t ∈ timersOf s.1.timers, ∃ last, (∀ t' ∈ timersOf s.1.timers,
            t.expiration ≤ t'.expiration) ∧ s.2.getLast? = some last ∧
          s.1.timerfd.deadline = some (max t.expiration (last.1 + 100))) ∧
    ∀ x ∈ s.2, x.2 ≠ ⟨0, 0⟩ ∧ 0 ≤ x.2.tvNsec ∧ x.2.tvNsec < 10 ^ 9 := by
  have hI : WakeInv s := by
    refine Reach.inv ?_ (fun _ _ _ => watched_wakeInv) h
    rintro s ⟨clock, created, rfl⟩
    exact ⟨new_inv clock created, fun x hx => absurd hx List.not_mem_nil,
      fun _ hne => absurd rfl hne⟩
  refine ⟨fun hidle hne => ?_, hI.lawful⟩
  obtain ⟨l, hl, -⟩ := hI.inv.table
  rw [hl.timersOf] at hne ⊢
  rcases hI.wake hidle (mt hl.entries_eq_nil.mp hne) with hunread | ⟨e, last, he, hlast, hd⟩
  · exact Or.inl hunread
  · right
    have hsorted := hl.sorted
    rw [hl.firstExpiration] at he
    cases l with
    | nil => exact absurd rfl hne
    | cons t l =>
      cases he
      refine ⟨t, List.mem_cons_self, last, fun t' ht' => ?_, hlast, hd⟩
      rcases List.mem_cons.mp ht' with rfl | ht'
      · exact le_rfl
      · exact (List.pairwise_cons.mp hsorted).1 t' ht'

/-- Three timers of which the second is the earliest: it is fired in a `HandleRead`, which arms the
timerfd for the next. -/
def pendingTimers : List (Act Unit) :=
  [.addTimer () 700 ⟨false, 0, Interval.nonneg_zero⟩,
    .addTimer () 500 ⟨false, 0, Interval.nonneg_zero⟩, .advance 30,
    .addTimer () 900 ⟨false, 0, Interval.nonneg_zero⟩, .advance 600, .handleRead, .fire, .reset]

theorem wakeup_scheduled_pending : ∃ s : TimerQueue Unit × List (Timestamp × Timespec),
    run watched (new 0 0, []) pendingTimers = some s ∧ s.1.timerfd = ⟨some 700, false⟩ ∧
    s.2 = [(0, ⟨0, 700000⟩), (0, ⟨0, 500000⟩), (600, ⟨0, 100000⟩)] ∧
    ∃ t ∈ timersOf s.1.timers, ∃ last, (∀ t' ∈ timersOf s.1.timers,
        t.expiration ≤ t'.expiration) ∧ s.2.getLast? = some last ∧
      s.1.timerfd.deadline = some (max t.expiration (last.1 + 100)) :=
  ⟨_, rfl, rfl, rfl, ((wakeup_scheduled ⟨_, pendingTimers, ⟨0, 0, rfl⟩, rfl⟩).1 rfl
    (List.cons_ne_nil _ _)).resolve_left Bool.false_ne_true⟩

/-! ### An idle queue -/

/-- A step that ends outside `HandleRead` with no timers leaves the timerfd unarmed, and does not
call timerfd_settime. -/
def StaysQuiet (q : TimerQueue κ) (a : Act κ) : Prop :=
  ∀ q', step q a = some q' → q'.phase = .idle → q'.timers.entries = [] →
    q'.timerfd.deadline = none ∧ settimes q a = []

/-- A `HandleRead` ends with timers: some were added or not due, or one of the expired ones
repeats. -/
def keepsTimer (q : TimerQueue κ) : Act κ → Bool
  | .reset =>
    match q.phase with
    | .idle => true
    | .reading _ expired _ =>
      !q.timers.entries.isEmpty || (timersOf expired).any Timer.isRepeat
  | _ => true

/-- `reset` leaves the table empty if nothing keeps a timer in it. -/
theorem reset_entries_eq_nil {q q' : TimerQueue κ} (hI : Inv q) (h : step q .reset = some q') :
    q'.timers.entries = [] ↔ keepsTimer q .reset = false := by
  simp only [step] at h
  split at h
  · cases h
  · rename_i now expired it hp
    split_ifs at h
    obtain ⟨-, l, hl, -⟩ := hI.reading_spec hp
    obtain ⟨timers, fd, hreset, hagrees⟩ := reset_spec now hI.table hl
    rw [hreset] at h
    cases h
    have hrearmed : rearmed now l = [] ↔ l.any Timer.isRepeat = false := by
      simp [rearmed]
    rw [hagrees.entries_eq_nil, List.append_eq_nil_iff, hrearmed, hI.table.entries_eq_nil.symm]
    simp [keepsTimer, hp, hl.timersOf]

/-- What holds of the queue as long as every `HandleRead` ends with timers. -/
structure QuietInv (q : TimerQueue κ) : Prop where
  inv : Inv q
  quiet : q.phase = .idle → q.timers.entries = [] → q.timerfd.deadline = none

theorem Timerfd.advance_deadline {fd : Timerfd} (h : fd.deadline = none) (now : Timestamp) :
    (fd.advance now).deadline = none := by
  unfold Timerfd.advance
  rw [h]
  exact h

theorem addTimer_entries_ne_nil {q q' : TimerQueue κ} {cb : κ} {when : Timestamp}
    {interval : Interval} (hI : Inv q) (h : q.addTimer cb when interval = some q') :
    q'.timers.entries ≠ [] := by
  obtain ⟨fd, hadd⟩ := addTimer_spec hI.table cb when interval
  rw [hadd] at h
  cases h
  intro hnil
  have hagrees := hI.table.emplace (Timer.new cb when interval q.created)
  exact absurd (hagrees.entries_eq_nil.mp hnil) (by simp)

theorem staysQuiet_iff {q : TimerQueue κ} {a : Act κ} (hI : QuietInv q)
    (hen : (step q a).isSome = true) : StaysQuiet q a ↔ keepsTimer q a = true := by
  obtain ⟨q', h⟩ := Option.isSome_iff_exists.mp hen
  by_cases ha : a = .reset
  · subst ha
    have hnil := reset_entries_eq_nil hI.inv h
    constructor
    · -- otherwise the table is empty in the end, and the timerfd armed for no timer
      intro hquiet
      by_contra hkeep
      rw [Bool.not_eq_true] at hkeep
      rcases step_timerfd h with ⟨-, -, ha⟩ | ⟨e, hnext, -⟩
      · exact ha rfl
      · have hidle : q'.phase = .idle := by
          simp only [step] at h
          split at h
          · cases h
          · split_ifs at h
            obtain ⟨q₁, -, rfl⟩ := Option.map_eq_some_iff.mp h
            rfl
        have hcalls := (hquiet q' h hidle (hnil.mpr hkeep)).2
        rw [settimes_of_some hnext] at hcalls
        cases hcalls
    · intro hkeep q'' h'' _ hempty
      rw [(reset_entries_eq_nil hI.inv h'').mp hempty] at hkeep
      cases hkeep
  · refine iff_of_true ?_ ?_
    · intro q'' h'' hidle hempty
      obtain ⟨hidle', ⟨now, rfl, heq⟩ | ⟨cb, when, interval, rfl, hadd⟩⟩ := step_idle h'' hidle ha
      · rw [heq] at hempty ⊢
        exact ⟨Timerfd.advance_deadline (hI.quiet hidle' hempty) now, rfl⟩
      · exact absurd hempty (addTimer_entries_ne_nil hI.inv hadd)
    · cases a with
      | reset => exact absurd rfl ha
      | _ => rfl

/-- **An idle queue does not wake the loop**, exactly as long as every `HandleRead` of the run ends
with timers in the table. -/
theorem quiet_along_iff (clock : Timestamp) (created : ℕ) {as : List (Act κ)} {q : TimerQueue κ}
    (h : run step (new clock created) as = some q) :
    Along step StaysQuiet (new clock created) as ↔
      Along step (fun q a => q.keepsTimer a = true) (new clock created) as := by
  refine along_iff (I := QuietInv) (fun _ _ => staysQuiet_iff) ?_ (along_enabled h)
    ⟨new_inv clock created, fun _ _ => rfl⟩
  intro q a q' hI hen hkeep h
  refine ⟨step_inv hI.inv h, fun hidle hempty => ?_⟩
  exact ((staysQuiet_iff hI hen).mpr hkeep q' h hidle hempty).1

/-- A repeating timer that expires once. -/
def repeatingTimer : List (Act Unit) :=
  [.addTimer () 5 everyTen, .advance 200, .handleRead, .fire, .reset]

theorem quiet_along_repeating : Along step StaysQuiet (new 0 0) repeatingTimer := by
  obtain ⟨q, hq⟩ : ∃ q, run step (new 0 0) repeatingTimer = some q := ⟨_, rfl⟩
  exact (quiet_along_iff 0 0 hq).mpr (by decide +kernel)

/-- A one-shot timer that expires. -/
def oneShotTimer : List (Act Unit) :=
  [.addTimer () 5 ⟨false, 0, Interval.nonneg_zero⟩, .advance 200, .handleRead, .fire, .reset]

/-- After the only timer has fired, the timerfd is armed for 100 microseconds later. -/
theorem idle_queue_armed : ∃ q : TimerQueue Unit, run step (new 0 0) oneShotTimer = some q ∧
    q.phase = .idle ∧ q.timers.entries = [] ∧ q.timerfd.deadline = some 300 ∧
    ¬Along step StaysQuiet (new 0 0) oneShotTimer := by
  refine ⟨_, rfl, rfl, rfl, rfl, fun h => ?_⟩
  have hlast := ((((h.2 _ rfl).2 _ rfl).2 _ rfl).2 _ rfl).1 _ rfl rfl rfl
  cases hlast.1

end TimerQueue

end Polly
