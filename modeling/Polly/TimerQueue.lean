import Polly.Runs
import Polly.Multimap

/-!
# TimerQueue — timers and their table (`util/timestamp.h`, `util/timer.h`, `net/timer_queue.cc`)

`timers_` maps expirations to owned timers; moving a timer out leaves a null pointer (`none`)
behind.  `HandleRead` takes the expired entries out (`getExpired`), fires them one after the other
and puts the repeating ones back (`reset`).  The callbacks run in between and may add timers, so
`HandleRead` is three kinds of steps: its start, one `fire` for each expired timer, and its end.
The clock moves between any two steps; every reading of it in a step is the current one.

Timestamps are exact integers.  Of an interval the code uses whether it is positive and how many
whole microseconds `Timestamp::operator+` makes of it.  What a callback is does not matter: the
timers it adds are steps of their own.

The last two fields of the state only record history: the timers of the table in the order they
were inserted, and the timers fired with the time their `HandleRead` had read.
-/

namespace Polly

open Runs

/-- Microseconds since the epoch. -/
abbrev Timestamp := ℤ

/-- `Timestamp::valid`, as the code has it. -/
def Timestamp.valid (ts : Timestamp) : Bool := ts != 0 || ts != -1

/-- An interval in seconds: whether it is positive, and its whole microseconds. -/
structure Interval where
  positive : Bool
  micros : ℤ
  nonneg : positive = true → 0 ≤ micros
  deriving DecidableEq

/-- The interval of a timer that does not repeat. -/
theorem Interval.nonneg_zero : false = true → (0 : ℤ) ≤ 0 := nofun

/-! ### Timers -/

structure Timer (κ : Type*) where
  callback : κ
  expiration : Timestamp
  isRepeat : Bool
  interval : Interval
  seqNum : ℕ

namespace Timer

variable {κ : Type*}

/-- The constructor; `created` is the counter `CreatedNum_`. -/
def new (cb : κ) (ts : Timestamp) (interval : Interval) (created : ℕ) : Timer κ :=
  ⟨cb, ts, interval.positive, interval, created⟩

def reArm (t : Timer κ) (now : Timestamp) : Timer κ :=
  { t with expiration := if t.isRepeat then now + t.interval.micros else 0 }

end Timer

/-! ### The timerfd -/

/-- `struct timespec`. -/
structure Timespec where
  tvSec : ℤ
  tvNsec : ℤ
  deriving DecidableEq, Repr

def kMicroSecondsPerSecond : ℤ := 1000 * 1000

def howMuchTimeFromNow (now when : Timestamp) : Timespec :=
  let microseconds := when - now
  let microseconds := if microseconds < 100 then 100 else microseconds
  ⟨microseconds / kMicroSecondsPerSecond, microseconds % kMicroSecondsPerSecond * 1000⟩

/-- A timerfd: when it goes off, if armed, and whether an expiration has not been read. -/
structure Timerfd where
  deadline : Option Timestamp
  unread : Bool
  deriving DecidableEq, Repr

namespace Timerfd

/-- timerfd_settime(2) with a relative time: replaces the arming and clears an unread expiration;
zero disarms. -/
def settime (now : Timestamp) (value : Timespec) : Timerfd :=
  if value = ⟨0, 0⟩ then ⟨none, false⟩
  else ⟨some (now + value.tvSec * kMicroSecondsPerSecond + value.tvNsec / 1000), false⟩

/-- The clock reaches `now`. -/
def advance (fd : Timerfd) (now : Timestamp) : Timerfd :=
  match fd.deadline with
  | some d => if d ≤ now then ⟨none, true⟩ else fd
  | none => fd

/-- `readTimerfd`. -/
def read (fd : Timerfd) : Timerfd := { fd with unread := false }

end Timerfd

def resetTimerfd (now expiration : Timestamp) : Timerfd :=
  Timerfd.settime now (howMuchTimeFromNow now expiration)

/-! ### The queue -/

abbrev TimerTable (κ : Type*) := Multimap Timestamp (Option (Timer κ))

/-- Whether a `HandleRead` is under way: the time it read, what it took out and how far it is. -/
inductive Phase (κ : Type*) where
  | idle
  | reading (now : Timestamp) (expired : TimerTable κ) (it : ℕ)

structure TimerQueue (κ : Type*) where
  timers : TimerTable κ
  timerfd : Timerfd
  clock : Timestamp
  created : ℕ
  phase : Phase κ
  order : List (Timer κ)
  fired : List (Timer κ × Timestamp)

namespace TimerQueue

variable {κ : Type*}

/-- The constructor; timers of other queues may have been created before. -/
def new (clock : Timestamp) (created : ℕ) : TimerQueue κ :=
  ⟨Multimap.empty, ⟨none, false⟩, clock, created, .idle, [], []⟩

/-- `timers_.begin()->second->Expiration()`; `none` if there is no timer to ask. -/
def firstExpiration (timers : TimerTable κ) : Option Timestamp :=
  match timers.entries with
  | (_, some t) :: _ => some t.expiration
  | _ => none

def emplace (q : TimerQueue κ) (t : Timer κ) : TimerQueue κ :=
  { q with timers := q.timers.emplace t.expiration (some t), order := q.order ++ [t] }

/-- `if (nextExpire.valid()) resetTimerfd(timerfd_, nextExpire)`. -/
def schedule (q : TimerQueue κ) (nextExpire : Timestamp) : TimerQueue κ :=
  if nextExpire.valid then { q with timerfd := resetTimerfd q.clock nextExpire } else q

/-- `timers_.empty() || when < timers_.begin()->second->Expiration()`. -/
def needUpdate (timers : TimerTable κ) (when : Timestamp) : Option Bool :=
  if timers.entries.isEmpty then some true
  else (firstExpiration timers).map fun e => decide (when < e)

def addTimer (q : TimerQueue κ) (cb : κ) (when : Timestamp) (interval : Interval) :
    Option (TimerQueue κ) :=
  (needUpdate q.timers when).bind fun needUpdate =>
    let q := { q with created := q.created + 1 }.emplace (Timer.new cb when interval q.created)
    if needUpdate then (firstExpiration q.timers).map q.schedule else some q

/-- `GetExpired`: the entries taken out, and the table they are erased from. -/
def getExpired (timers : TimerTable κ) (now : Timestamp) : TimerTable κ × TimerTable κ :=
  ((timers.below now).foldl (fun expired e => expired.emplace e.1 e.2) Multimap.empty,
    timers.eraseBelow now)

/-- The loop of `reset` over the expired entries. -/
def reinsert (now : Timestamp) (q : TimerQueue κ) :
    List (Timestamp × Option (Timer κ)) → Option (TimerQueue κ)
  | [] => some q
  | (_, none) :: _ => none
  | (_, some t) :: expired =>
    if t.isRepeat then reinsert now (q.emplace (t.reArm now)) expired else reinsert now q expired

def reset (q : TimerQueue κ) (expired : TimerTable κ) (now : Timestamp) : Option (TimerQueue κ) :=
  (reinsert now q expired.entries).bind fun q =>
    if q.timers.entries.isEmpty then some (q.schedule 0)
    else (firstExpiration q.timers).map q.schedule

inductive Act (κ : Type*) where
  /-- the clock moves on to `now` -/
  | advance (now : Timestamp)
  /-- `addTimer` runs, as a functor or called by a callback -/
  | addTimer (cb : κ) (when : Timestamp) (interval : Interval)
  /-- `HandleRead` starts -/
  | handleRead
  /-- `HandleRead` fires the next expired timer -/
  | fire
  /-- `HandleRead` ends with `reset` -/
  | reset

/-- Timers are added outside `HandleRead`, or by a callback it has called. -/
def mayAdd (q : TimerQueue κ) : Bool :=
  match q.phase with
  | .idle => true
  | .reading _ _ it => 0 < it

def startRead (q : TimerQueue κ) : TimerQueue κ :=
  { q with
    timers := (getExpired q.timers q.clock).2
    timerfd := q.timerfd.read
    phase := .reading q.clock (getExpired q.timers q.clock).1 0
    order := q.order.filter fun t => !decide (t.expiration < q.clock) }

def step (q : TimerQueue κ) : Act κ → Option (TimerQueue κ)
  | .advance now =>
    guarded (q.clock ≤ now) { q with clock := now, timerfd := q.timerfd.advance now }
  | .addTimer cb when interval => if q.mayAdd then q.addTimer cb when interval else none
  | .handleRead =>
    match q.phase with
    | .idle => some q.startRead
    | .reading .. => none
  | .fire =>
    match q.phase with
    | .idle => none
    | .reading now expired it =>
      match expired.entries[it]? with
      | some (_, some t) =>
        some { q with phase := .reading now expired (it + 1), fired := q.fired ++ [(t, now)] }
      | _ => none
  | .reset =>
    match q.phase with
    | .idle => none
    | .reading now expired it =>
      if it = expired.entries.length then
        (q.reset expired now).map fun q => { q with phase := .idle }
      else none

/-- The states of a queue from its construction on. -/
abbrev Reachable (q : TimerQueue κ) : Prop :=
  Reach step (fun q => ∃ clock created, q = new clock created) q

end TimerQueue

end Polly
