import Polly.EventLoop

/-!
# EventLoopThread — a loop in its own thread (`net/eventloop_thread.cc`)

The thread of `EventLoopThread::Start` constructs a loop, publishes its address, runs the initial
callback and enters `loop()` once.  From the publication on other threads may post functors and call
`quit()`, as `~EventLoopThread` does before it joins the thread.  `loop()` clears `quit_` before its
first test, so a `quit()` that comes earlier, before `loop()` or between its first statements, is
forgotten, and the wake-up it left in the eventfd is used up by the first poll.

The last two fields only record history: whether some `quit()` has returned, and how many polls were
begun after that.

* `quit_not_lost`: if no `quit()` comes before `loop()` has cleared `quit_`, none is lost.
* `early_quit_lost`: one that comes before that is.
-/

namespace Polly

open Runs

/-- Where the thread is: before the publication of `loop_`, before `loop()`, in it, or past it. -/
inductive ThreadPhase where
  | constructing | published | looping | exited
  deriving DecidableEq, Repr

structure EventLoopThread (τ F : Type*) where
  phase : ThreadPhase
  loop : Loop τ F
  quitDone : Bool
  polls : ℕ

namespace EventLoopThread

variable {τ F : Type*} [DecidableEq τ]

def init : EventLoopThread τ F := ⟨.constructing, Loop.init, false, 0⟩

inductive Act (τ F : Type*) where
  /-- `loop_ = &loop` under the mutex -/
  | publish
  | loop (a : Loop.Act τ F)

/-- `loop()` is entered once, user code of the loop thread runs from the publication to the end of
`loop()`, and other threads need the published address. -/
def mayStep (s : EventLoopThread τ F) : Loop.Act τ F → Bool
  | .enter => s.phase == .published
  | .runInLoop none _ | .quit none | .ret => s.phase == .published || s.phase == .looping
  | .runInLoop (some _) _ | .quit (some _) | .wakeup _ => s.phase != .constructing
  | .clearQuit | .test | .poll _ | .pollFailed | .dispatch | .swap | .run | .finish =>
    s.phase == .looping

/-- With this step a call of `quit()` returns. -/
def quitReturns (s : EventLoopThread τ F) : Loop.Act τ F → Bool
  | .quit none => true
  | .wakeup t => s.loop.poster t == .quitting
  | _ => false

/-- With this step the loop thread begins a poll. -/
def pollBegins (l : Loop τ F) : Loop.Act τ F → Bool
  | .test => l.pc == .poll
  | _ => false

def next (s : EventLoopThread τ F) (a : Loop.Act τ F) (l : Loop τ F) : EventLoopThread τ F where
  phase :=
    match a with
    | .enter => .looping
    | .test => if l.pc = .outside then .exited else s.phase
    | _ => s.phase
  loop := l
  quitDone := s.quitDone || s.quitReturns a
  polls := s.polls + if s.quitDone && pollBegins l a then 1 else 0

def step (s : EventLoopThread τ F) : Act τ F → Option (EventLoopThread τ F)
  | .publish => guarded (s.phase = .constructing) { s with phase := .published }
  | .loop a => if s.mayStep a then (Loop.step s.loop a).map (s.next a) else none

theorem step_loop {s s' : EventLoopThread τ F} {a : Loop.Act τ F}
    (h : step s (.loop a) = some s') :
    s.mayStep a = true ∧ ∃ l, Loop.step s.loop a = some l ∧ s' = s.next a l := by
  simp only [step] at h
  split_ifs at h with hmay
  obtain ⟨l, hl, rfl⟩ := Option.map_eq_some_iff.mp h
  exact ⟨hmay, l, hl, rfl⟩

/-- At most one poll is begun after the first `quit()` has returned, and the loop thread is not
blocked in it. -/
structure QuitKept (s : EventLoopThread τ F) : Prop where
  polls : s.polls ≤ 1
  awake : ¬(s.quitDone = true ∧ s.loop.pc = .poll ∧ s.loop.counter = 0)

/-- `quit()` is called only after `loop()` has executed `quit_ = false`. -/
def afterClear (s : EventLoopThread τ F) : Act τ F → Bool
  | .loop (.quit _) => (s.phase == .looping && s.loop.pc != .entered) || s.phase == .exited
  | _ => true

/-! ### The invariant -/

/-- Nobody has called `quit()`. -/
structure Unasked (s : EventLoopThread τ F) : Prop where
  done : s.quitDone = false
  posters : ∀ t, s.loop.poster t ≠ .quitting

structure QuitInv (s : EventLoopThread τ F) : Prop where
  before : s.phase = .constructing ∨ s.phase = .published → s.loop.pc = .outside ∧ Unasked s
  entered : s.loop.pc = .entered → Unasked s
  exited : s.phase = .exited → s.loop.pc = .outside
  /-- in the loop a call of `quit()` is seen by the next test -/
  heard : s.phase = .looping → s.quitDone = true ∨ (∃ t, s.loop.poster t = .quitting) →
    s.loop.quit = true
  awake : s.phase = .looping → s.quitDone = true → s.loop.pc = .poll → 0 < s.loop.counter
  polls : s.polls = 0

omit [DecidableEq τ] in
theorem init_quitInv : QuitInv (init : EventLoopThread τ F) where
  before := fun _ => ⟨rfl, rfl, fun _ => by simp [init, Loop.init]⟩
  entered := by simp [init, Loop.init]
  exited := by simp [init]
  heard := by simp [init]
  awake := by simp [init]
  polls := rfl

section Steps

variable {s : EventLoopThread τ F} {l : Loop τ F}

omit [DecidableEq τ] in
theorem Unasked.not_asked (h : Unasked s) :
    ¬(s.quitDone = true ∨ ∃ t, s.loop.poster t = .quitting) := by
  rintro (hdone | ⟨t, ht⟩)
  · exact absurd hdone (Bool.eq_false_iff.mp h.done)
  · exact h.posters t ht

omit [DecidableEq τ] in
/-- Steps that do not touch `quit_`, do not begin a poll and do not read the eventfd at poll. -/
theorem QuitInv.frame (hI : QuitInv s) (hquit : l.quit = s.loop.quit)
    (hposter : ∀ t, l.poster t = .quitting → s.loop.poster t = .quitting)
    (hout : s.loop.pc = .outside → l.pc = .outside)
    (hent : l.pc = .entered → s.loop.pc = .entered)
    (hpoll : l.pc = .poll → s.loop.pc = .poll ∧ s.loop.counter ≤ l.counter) :
    QuitInv { s with loop := l } := by
  have hasked : Unasked s → Unasked { s with loop := l } :=
    fun h => ⟨h.done, fun t ht => h.posters t (hposter t ht)⟩
  refine ⟨fun hp => ?_, fun hpc => hasked (hI.entered (hent hpc)), fun hp => hout (hI.exited hp),
    fun hp hq => ?_, fun hp hdone hpc => ?_, hI.polls⟩
  · obtain ⟨hpc, hun⟩ := hI.before hp
    exact ⟨hout hpc, hasked hun⟩
  · refine hquit.trans (hI.heard hp (hq.imp_right ?_))
    rintro ⟨t, ht⟩
    exact ⟨t, hposter t ht⟩
  · obtain ⟨hpc', hle⟩ := hpoll hpc
    exact (hI.awake hp hdone hpc').trans_le hle

omit [DecidableEq τ] in
/-- The same for steps of the loop thread inside `loop()` that do not end at poll. -/
theorem QuitInv.busy (hI : QuitInv s) (hpc : s.loop.pc ≠ .outside) (hquit : l.quit = s.loop.quit)
    (hposter : l.poster = s.loop.poster) (hent : l.pc ≠ .entered) (hpoll : l.pc ≠ .poll) :
    QuitInv { s with loop := l } :=
  hI.frame hquit (fun t ht => by rwa [hposter] at ht) (fun hout => absurd hout hpc)
    (fun h => absurd h hent) (fun h => absurd h hpoll)

omit [DecidableEq τ] in
/-- The first two statements of `loop()`: nobody has called `quit()` before the second one, so there
is nothing to forget. -/
theorem QuitInv.starts (hI : QuitInv s) {a : Loop.Act τ F} (hun : Unasked s)
    (hreturns : s.quitReturns a = false) (hposter : l.poster = s.loop.poster)
    (hphase : (s.next a l).phase = .looping) (hpoll : l.pc ≠ .poll) : QuitInv (s.next a l) := by
  have hun' : Unasked (s.next a l) := by
    refine ⟨by simp [next, hun.done, hreturns], fun t => ?_⟩
    simp only [next, hposter]
    exact hun.posters t
  refine ⟨?_, fun _ => hun', ?_, fun _ hq => absurd hq hun'.not_asked, fun _ _ hpc => ?_, ?_⟩
  · simp [hphase]
  · simp [hphase]
  · exact absurd hpc hpoll
  · simp [next, hI.polls, hun.done]

/-- The test ends the loop, or nobody has called `quit()` yet. -/
theorem test_quitInv (hI : QuitInv s) (hp : s.phase = .looping)
    (h : Loop.step s.loop .test = some l) : QuitInv (s.next .test l) := by
  obtain ⟨hpc, rfl⟩ := guarded_eq_some.mp h
  by_cases hquit : s.loop.quit = true
  · simp only [hquit, if_true]
    refine ⟨?_, by simp [next], fun _ => rfl, ?_, ?_, ?_⟩
    · rintro (hp' | hp') <;> simp [next] at hp'
    · simp [next]
    · simp [next]
    · simp [next, hI.polls, pollBegins]
  · have hnone : ¬(s.quitDone = true ∨ ∃ t, s.loop.poster t = .quitting) :=
      fun hq => hquit (hI.heard hp hq)
    rw [not_or, Bool.not_eq_true] at hnone
    simp only [hquit, Bool.false_eq_true, if_false]
    refine ⟨?_, by simp [next], ?_, ?_, ?_, ?_⟩
    · rintro (hp' | hp') <;> simp [next, hp] at hp'
    · simp [next, hp]
    · intro _ hq
      exact absurd hq (by simpa [next, quitReturns, hnone.1] using hnone.2)
    · intro _ hq
      simp [next, quitReturns, hnone.1] at hq
    · simp [next, hI.polls, hnone.1]

/-- A call of `quit()` behind `quit_ = false`; in the loop thread it does not come from poll. -/
theorem quit_quitInv (hI : QuitInv s) {caller : Option τ}
    (hclear : (s.phase = .looping ∧ s.loop.pc ≠ .entered) ∨ s.phase = .exited)
    (h : Loop.step s.loop (.quit caller) = some l) : QuitInv (s.next (.quit caller) l) := by
  have hbefore : ¬(s.phase = .constructing ∨ s.phase = .published) := by
    rcases hclear with ⟨hp, -⟩ | hp <;> simp [hp]
  have hentered : s.loop.pc ≠ .entered := by
    rcases hclear with ⟨-, hpc⟩ | hp
    · exact hpc
    · simp [hI.exited hp]
  cases caller with
  | some t =>
    obtain ⟨-, rfl⟩ := guarded_eq_some.mp h
    refine ⟨fun hp => absurd hp hbefore, fun hpc => absurd hpc hentered, hI.exited,
      fun _ _ => rfl, fun hp hdone hpc => ?_, ?_⟩
    · exact hI.awake hp (by simpa [next, quitReturns] using hdone) hpc
    · simp [next, hI.polls, pollBegins]
  | none =>
    obtain ⟨huser, rfl⟩ := guarded_eq_some.mp h
    refine ⟨fun hp => absurd hp hbefore, fun hpc => absurd hpc hentered, hI.exited,
      fun _ _ => rfl, fun _ _ hpc => ?_, ?_⟩
    · have hpc' : s.loop.pc = .poll := hpc
      unfold Loop.InUserCode at huser
      simp [hpc'] at huser
    · simp [next, hI.polls, pollBegins]

/-- The wake-up write, with which a `quit()` of another thread returns. -/
theorem wakeup_quitInv (hI : QuitInv s) {t : τ} (h : Loop.step s.loop (.wakeup t) = some l) :
    QuitInv (s.next (.wakeup t) l) := by
  obtain ⟨-, rfl⟩ := guarded_eq_some.mp h
  have hposter : ∀ t', Function.update s.loop.poster t .idle t' = .quitting →
      s.loop.poster t' = .quitting := by
    intro t' ht'
    by_cases heq : t' = t
    · rw [heq, Function.update_self] at ht'
      cases ht'
    · rwa [Function.update_of_ne heq] at ht'
  have hasked : Unasked s → Unasked (s.next (.wakeup t)
      { s.loop.wakeup with poster := Function.update s.loop.poster t .idle }) := by
    intro hun
    refine ⟨?_, fun t' ht' => hun.posters t' (hposter t' ht')⟩
    simp [next, hun.done, quitReturns, hun.posters t]
  refine ⟨fun hp => ?_, fun hpc => hasked (hI.entered hpc), hI.exited, fun hp hq => ?_,
    fun _ _ _ => eventfdWrite_pos _, ?_⟩
  · obtain ⟨hpc, hun⟩ := hI.before hp
    exact ⟨hpc, hasked hun⟩
  · refine hI.heard hp ?_
    rcases hq with hq | ⟨t', ht'⟩
    · simp only [next, quitReturns, Bool.or_eq_true, beq_iff_eq] at hq
      exact hq.imp_right fun ht => ⟨t, ht⟩
    · exact Or.inr ⟨t', hposter t' ht'⟩
  · simp [next, hI.polls, pollBegins]

omit [DecidableEq τ] in
theorem next_eq {a : Loop.Act τ F} (hreturns : s.quitReturns a = false)
    (hpoll : pollBegins l a = false) (hphase : (s.next a l).phase = s.phase) :
    s.next a l = { s with loop := l } := by
  have hdone : (s.next a l).quitDone = s.quitDone := by simp [next, hreturns]
  have hpolls : (s.next a l).polls = s.polls := by simp [next, hpoll]
  calc s.next a l = ⟨(s.next a l).phase, l, (s.next a l).quitDone, (s.next a l).polls⟩ := rfl
    _ = ⟨s.phase, l, s.quitDone, s.polls⟩ := by rw [hphase, hdone, hpolls]

theorem loop_quitInv {a : Loop.Act τ F} (hI : QuitInv s)
    (hclear : s.afterClear (.loop a) = true) (hmay : s.mayStep a = true)
    (h : Loop.step s.loop a = some l) : QuitInv (s.next a l) := by
  cases a with
  | enter =>
    have hp : s.phase = .published := by simpa [mayStep] using hmay
    obtain ⟨-, rfl⟩ := guarded_eq_some.mp h
    exact hI.starts (hI.before (Or.inr hp)).2 rfl rfl rfl (by simp)
  | clearQuit =>
    obtain ⟨hpc, rfl⟩ := guarded_eq_some.mp h
    have hp : s.phase = .looping := by simpa [mayStep] using hmay
    exact hI.starts (hI.entered hpc) rfl rfl hp (by simp)
  | test => exact test_quitInv hI (by simpa [mayStep] using hmay) h
  | quit caller => exact quit_quitInv hI (by simpa [afterClear] using hclear) h
  | wakeup t => exact wakeup_quitInv hI h
  | poll ready =>
    rw [next_eq rfl rfl rfl]
    obtain ⟨⟨hpc, -⟩, rfl⟩ := guarded_eq_some.mp h
    exact hI.busy (by simp [hpc]) rfl rfl (by simp) (by simp)
  | pollFailed =>
    rw [next_eq rfl rfl rfl]
    obtain ⟨hpc, rfl⟩ := guarded_eq_some.mp h
    exact hI.busy (by simp [hpc]) rfl rfl (by simp) (by simp)
  | dispatch =>
    rw [next_eq rfl rfl rfl]
    obtain ⟨r, rest, -, hpc, rfl⟩ := Loop.step_dispatch h
    cases r with
    | wakeup =>
      exact hI.busy (by simp [hpc]) rfl rfl (by simp [Loop.handle, Loop.handleRead, hpc])
        (by simp [Loop.handle, Loop.handleRead, hpc])
    | other =>
      exact hI.busy (by simp [hpc]) rfl rfl (by simp [Loop.handle, hpc])
        (by simp [Loop.handle, hpc])
  | swap =>
    rw [next_eq rfl rfl rfl]
    obtain ⟨⟨hpc, -⟩, rfl⟩ := guarded_eq_some.mp h
    exact hI.busy (by simp [hpc]) rfl rfl (by simp) (by simp)
  | run =>
    rw [next_eq rfl rfl rfl]
    obtain ⟨f, rest, -, hpc, rfl⟩ := Loop.step_run h
    exact hI.busy (by simp [hpc]) rfl rfl (by simp [hpc]) (by simp [hpc])
  | finish =>
    rw [next_eq rfl rfl rfl]
    obtain ⟨⟨hpc, -⟩, rfl⟩ := guarded_eq_some.mp h
    exact hI.busy (by simp [hpc]) rfl rfl (by simp) (by simp)
  | ret =>
    rw [next_eq rfl rfl rfl]
    obtain ⟨-, rfl⟩ := guarded_eq_some.mp h
    exact hI.frame rfl (fun _ ht => ht) id id fun hpc => ⟨hpc, le_rfl⟩
  | runInLoop caller f =>
    rw [next_eq rfl rfl rfl]
    cases caller with
    | none =>
      obtain ⟨-, rfl⟩ := guarded_eq_some.mp h
      exact hI.frame rfl (fun _ ht => ht) id id fun hpc => ⟨hpc, le_rfl⟩
    | some t =>
      obtain ⟨-, rfl⟩ := guarded_eq_some.mp h
      refine hI.frame rfl (fun t' ht' => ?_) id id fun hpc => ⟨hpc, le_rfl⟩
      by_cases heq : t' = t
      · rw [heq, show (s.loop.runInLoop (some t) f).poster t = .pushed from
          Function.update_self ..] at ht'
        cases ht'
      · rwa [show (s.loop.runInLoop (some t) f).poster t' = s.loop.poster t' from
          Function.update_of_ne heq ..] at ht'

end Steps

theorem step_quitInv {s s' : EventLoopThread τ F} {a : Act τ F} (hI : QuitInv s)
    (hclear : s.afterClear a = true) (h : step s a = some s') : QuitInv s' := by
  cases a with
  | publish =>
    obtain ⟨hp, rfl⟩ := guarded_eq_some.mp h
    obtain ⟨hpc, hun⟩ := hI.before (Or.inl hp)
    have hun' : Unasked { s with phase := .published } := ⟨hun.done, hun.posters⟩
    exact ⟨fun _ => ⟨hpc, hun'⟩, fun _ => hun', by simp, by simp, by simp, hI.polls⟩
  | loop a =>
    obtain ⟨hmay, l, hl, rfl⟩ := step_loop h
    exact loop_quitInv hI hclear hmay hl

omit [DecidableEq τ] in
theorem QuitInv.quitKept {s : EventLoopThread τ F} (h : QuitInv s) : QuitKept s := by
  refine ⟨by rw [h.polls]; exact Nat.zero_le 1, ?_⟩
  rintro ⟨hdone, hpc, hcounter⟩
  cases hp : s.phase with
  | constructing => exact absurd ((h.before (Or.inl hp)).1.symm.trans hpc) nofun
  | published => exact absurd ((h.before (Or.inr hp)).1.symm.trans hpc) nofun
  | exited => exact absurd ((h.exited hp).symm.trans hpc) nofun
  | looping =>
    have hpos := h.awake hp hdone hpc
    omega

/-- **`quit()` is not lost** in a run in which it is called only after `loop()` has executed
`quit_ = false`: the loop begins at most one more poll after the first `quit()` has returned, and it
is not blocked there. -/
theorem quit_not_lost {as : List (Act τ F)} {s : EventLoopThread τ F}
    (h : run step init as = some s)
    (hclear : Along step (fun s a => s.afterClear a = true) init as) : QuitKept s :=
  (run_inv_along (I := QuitInv) (fun _ _ _ => step_quitInv) h hclear init_quitInv).quitKept

/-- A thread is started, and stopped while it waits in its first poll. -/
def stoppedAtPoll : List (Act Unit ℕ) :=
  [.publish, .loop .enter, .loop .clearQuit, .loop .test, .loop (.quit (some ())),
    .loop (.wakeup ())]

theorem quit_not_lost_stoppedAtPoll : ∃ s : EventLoopThread Unit ℕ,
    run step init stoppedAtPoll = some s ∧ s.quitDone = true ∧ s.loop.pc = .poll ∧ QuitKept s := by
  obtain ⟨s, hs, heq⟩ : ∃ s : EventLoopThread Unit ℕ, run step init stoppedAtPoll = some s ∧
      (s.quitDone, s.loop.pc) = (true, .poll) := ⟨_, rfl, rfl⟩
  simp only [Prod.mk.injEq] at heq
  exact ⟨s, hs, heq.1, heq.2, quit_not_lost hs (by decide +kernel)⟩

/-- From the test on: the first poll returns for the wake-up that `quit()` has left. -/
def firstRound : List (Act Unit ℕ) :=
  [.loop .test, .loop (.poll [.wakeup]), .loop .dispatch, .loop .swap, .loop .finish, .loop .test]

/-- A thread is stopped before it has entered `loop()`. -/
def stoppedEarly : List (Act Unit ℕ) :=
  [.publish, .loop (.quit (some ())), .loop (.wakeup ()), .loop .enter, .loop .clearQuit] ++
    firstRound

/-- A thread is stopped between the first two statements of `loop()`. -/
def stoppedBetween : List (Act Unit ℕ) :=
  [.publish, .loop .enter, .loop (.quit (some ())), .loop (.wakeup ()), .loop .clearQuit] ++
    firstRound

/-- The `quit()` is cleared, its wake-up is used up by the first poll, and the thread is blocked in
the second one; the destructor's join does not return. -/
theorem early_quit_lost :
    (∃ s : EventLoopThread Unit ℕ, run step init stoppedEarly = some s ∧ s.quitDone = true ∧
      s.polls = 2 ∧ s.loop.pc = .poll ∧ s.loop.counter = 0 ∧ ¬QuitKept s) ∧
    ∃ s : EventLoopThread Unit ℕ, run step init stoppedBetween = some s ∧ s.quitDone = true ∧
      s.polls = 2 ∧ s.loop.pc = .poll ∧ s.loop.counter = 0 ∧ ¬QuitKept s :=
  ⟨⟨_, rfl, rfl, rfl, rfl, rfl, fun h => h.awake ⟨rfl, rfl, rfl⟩⟩,
    _, rfl, rfl, rfl, rfl, rfl, fun h => h.awake ⟨rfl, rfl, rfl⟩⟩

end EventLoopThread

end Polly
