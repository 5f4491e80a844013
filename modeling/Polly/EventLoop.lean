import Polly.Runs

/-!
# EventLoop — the loop thread and the threads that post to it (`net/eventloop.cc`)

The loop thread alternates between poll(2), the handlers of the ready channels and the functors
other threads have posted; other threads (`τ` names them) call `RunInLoop` and `quit`.  The steps
of the model are what the code does between two points where another thread can interfere:
pushing under the mutex and writing the eventfd are two steps of a poster; entering `loop()`,
clearing `quit_`, testing it, polling, handling one ready channel, swapping the queue under the
mutex and starting one functor are steps of the loop thread.  Functors are of an arbitrary type;
`calls` is the stack of functors the loop thread is inside of, since `RunInLoop` in the loop thread
runs its argument on the spot.

* `functors_in_order`: started functors, then the rest of the swapped batch, then `functors_`, are
  the posted functors in mutex order.
* `no_lost_wakeup`: outside the stretch from poll to the swap, functors in the queue are announced
  by the eventfd or by a poster about to write it (`Announced`).
-/

namespace Polly

open Runs

/-- The largest value of an eventfd counter. -/
def kEventfdMax : ℕ := 2 ^ 64 - 2

/-- write(2) of 1 to an eventfd: adds, or fails without change when the counter is saturated. -/
def eventfdWrite (counter : ℕ) : ℕ := if counter < kEventfdMax then counter + 1 else counter

theorem eventfdWrite_pos (counter : ℕ) : 0 < eventfdWrite counter := by
  unfold eventfdWrite kEventfdMax
  split_ifs <;> omega

/-- A channel that poll reported: the wake-up channel, or some other one. -/
inductive Ready where
  | wakeup | other
  deriving DecidableEq, Repr

/-- Where the loop thread is: outside `loop()`, in it before `quit_ = false`, at the test of
`quit_`, at poll, in the handlers of the active channels, or in `doPendingFunctors` after the
swap. -/
inductive LoopPc where
  | outside | entered | test | poll | dispatch | running
  deriving DecidableEq, Repr

/-- Where another thread is: outside, between the push of `RunInLoop` and its wake-up write, or
between setting `quit_` and the wake-up write. -/
inductive PosterPc where
  | idle | pushed | quitting
  deriving DecidableEq, Repr

structure Loop (τ F : Type*) where
  pc : LoopPc
  looping : Bool
  quit : Bool
  /-- the entries of `active_channels_` not handled yet -/
  active : List Ready
  /-- the local `works` of `doPendingFunctors`, less the functors already started -/
  works : List F
  functors : List F
  counter : ℕ
  calls : List F
  poster : τ → PosterPc
  /-- all functors pushed so far, in the order the mutex was taken -/
  posted : List F
  /-- the posted functors whose execution has started -/
  started : List F

namespace Loop

variable {τ F : Type*} [DecidableEq τ]

/-- `EventLoop()`. -/
def init : Loop τ F where
  pc := .outside
  looping := false
  quit := false
  active := []
  works := []
  functors := []
  counter := 0
  calls := []
  poster := fun _ => .idle
  posted := []
  started := []

/-- `RunInLoop(f)` called in the loop thread (`none`) or in another one: run on the spot, or
pushed under the mutex with the wake-up still to come. -/
def runInLoop (s : Loop τ F) (caller : Option τ) (f : F) : Loop τ F :=
  match caller with
  | none => { s with calls := f :: s.calls }
  | some t =>
    { s with
      functors := s.functors ++ [f]
      posted := s.posted ++ [f]
      poster := Function.update s.poster t .pushed }

/-- `wakeup()`. -/
def wakeup (s : Loop τ F) : Loop τ F := { s with counter := eventfdWrite s.counter }

/-- `handleRead()`: reading an eventfd resets it. -/
def handleRead (s : Loop τ F) : Loop τ F := { s with counter := 0 }

/-- The handler of a ready channel, as far as the loop's own data go. -/
def handle (s : Loop τ F) : Ready → Loop τ F
  | .wakeup => s.handleRead
  | .other => s

/-- Code that is not the loop's own may be running in the loop thread. -/
def InUserCode (s : Loop τ F) : Prop :=
  s.pc = .outside ∨ s.pc = .dispatch ∨ (s.pc = .running ∧ s.calls.isEmpty = false)

instance (s : Loop τ F) : Decidable (InUserCode s) :=
  inferInstanceAs (Decidable (_ ∨ _ ∨ (_ ∧ _)))

inductive Act (τ F : Type*) where
  /-- the loop thread calls `loop()`: `looping_ = true` -/
  | enter
  /-- `quit_ = false` -/
  | clearQuit
  /-- the test of `while (!quit_)` -/
  | test
  /-- poll returns with these ready channels -/
  | poll (ready : List Ready)
  /-- poll fails -/
  | pollFailed
  /-- the handler of the next active channel runs -/
  | dispatch
  /-- `works.swap(functors_)` under the mutex -/
  | swap
  /-- the next functor of the batch starts -/
  | run
  /-- the functor called last returns -/
  | ret
  /-- `doPendingFunctors` returns -/
  | finish
  | runInLoop (caller : Option τ) (f : F)
  | quit (caller : Option τ)
  /-- a poster's wake-up write -/
  | wakeup (t : τ)

def step (s : Loop τ F) : Act τ F → Option (Loop τ F)
  | .enter => guarded (s.pc = .outside ∧ s.calls.isEmpty)
      { s with pc := .entered, looping := true }
  | .clearQuit => guarded (s.pc = .entered) { s with pc := .test, quit := false }
  | .test => guarded (s.pc = .test)
      (if s.quit then { s with pc := .outside, looping := false } else { s with pc := .poll })
  | .poll ready =>
      -- the timeout is -1: poll returns when something is ready, and the eventfd is ready exactly
      -- while its counter is positive
      guarded (s.pc = .poll ∧ ready ≠ [] ∧ (Ready.wakeup ∈ ready ↔ 0 < s.counter))
        { s with pc := .dispatch, active := ready }
  | .pollFailed => guarded (s.pc = .poll) { s with pc := .dispatch, active := [] }
  | .dispatch =>
      match s.active with
      | [] => none
      | r :: rest => guarded (s.pc = .dispatch ∧ s.calls.isEmpty)
          { s.handle r with active := rest }
  | .swap => guarded (s.pc = .dispatch ∧ s.active = [] ∧ s.calls.isEmpty)
      { s with pc := .running, works := s.functors, functors := [] }
  | .run =>
      match s.works with
      | [] => none
      | f :: rest => guarded (s.pc = .running ∧ s.calls.isEmpty)
          { s with works := rest, calls := [f], started := s.started ++ [f] }
  | .ret => guarded (s.calls.isEmpty = false) { s with calls := s.calls.tail }
  | .finish => guarded (s.pc = .running ∧ s.works.isEmpty ∧ s.calls.isEmpty) { s with pc := .test }
  | .runInLoop none f => guarded s.InUserCode (s.runInLoop none f)
  | .runInLoop (some t) f => guarded (s.poster t = .idle) (s.runInLoop (some t) f)
  | .quit none => guarded s.InUserCode ({ s with quit := true }.wakeup)
  | .quit (some t) => guarded (s.poster t = .idle)
      { s with quit := true, poster := Function.update s.poster t .quitting }
  | .wakeup t => guarded (s.poster t ≠ .idle)
      { s.wakeup with poster := Function.update s.poster t .idle }

/-- The states of a loop from its construction on. -/
abbrev Reachable (s : Loop τ F) : Prop := Reach step (· = init) s

theorem step_dispatch {s s' : Loop τ F} (h : step s .dispatch = some s') :
    ∃ r rest, s.active = r :: rest ∧ s.pc = .dispatch ∧
      s' = { s.handle r with active := rest } := by
  simp only [step] at h
  split at h
  · cases h
  · rename_i r rest hactive
    obtain ⟨⟨hpc, -⟩, rfl⟩ := guarded_eq_some.mp h
    exact ⟨r, rest, hactive, hpc, rfl⟩

theorem step_run {s s' : Loop τ F} (h : step s .run = some s') :
    ∃ f rest, s.works = f :: rest ∧ s.pc = .running ∧
      s' = { s with works := rest, calls := [f], started := s.started ++ [f] } := by
  simp only [step] at h
  split at h
  · cases h
  · rename_i f rest hworks
    obtain ⟨⟨hpc, -⟩, rfl⟩ := guarded_eq_some.mp h
    exact ⟨f, rest, hworks, hpc, rfl⟩

/-! ### The functor queue -/

/-- The three-part queue, and `works` is only in use while a batch runs. -/
structure QueueInv (s : Loop τ F) : Prop where
  eq : s.started ++ s.works ++ s.functors = s.posted
  idle : s.pc ≠ .running → s.works = []

theorem step_queueInv {s s' : Loop τ F} {a : Act τ F} (h : QueueInv s) (hs : step s a = some s') :
    QueueInv s' := by
  obtain ⟨heq, hidle⟩ := h
  cases a with
  | enter =>
    obtain ⟨⟨hpc, -⟩, rfl⟩ := guarded_eq_some.mp hs
    exact ⟨heq, fun _ => hidle (by simp [hpc])⟩
  | clearQuit =>
    obtain ⟨hpc, rfl⟩ := guarded_eq_some.mp hs
    exact ⟨heq, fun _ => hidle (by simp [hpc])⟩
  | test =>
    obtain ⟨hpc, rfl⟩ := guarded_eq_some.mp hs
    have hw := hidle (by simp [hpc])
    split_ifs
    · exact ⟨heq, fun _ => hw⟩
    · exact ⟨heq, fun _ => hw⟩
  | poll ready =>
    obtain ⟨⟨hpc, -⟩, rfl⟩ := guarded_eq_some.mp hs
    exact ⟨heq, fun _ => hidle (by simp [hpc])⟩
  | pollFailed =>
    obtain ⟨hpc, rfl⟩ := guarded_eq_some.mp hs
    exact ⟨heq, fun _ => hidle (by simp [hpc])⟩
  | dispatch =>
    obtain ⟨r, rest, -, hpc, rfl⟩ := step_dispatch hs
    have hw := hidle (by simp [hpc])
    cases r with
    | wakeup => exact ⟨heq, fun _ => hw⟩
    | other => exact ⟨heq, fun _ => hw⟩
  | swap =>
    obtain ⟨⟨hpc, -, -⟩, rfl⟩ := guarded_eq_some.mp hs
    refine ⟨?_, fun h => absurd rfl h⟩
    have hw := hidle (by simp [hpc])
    rw [hw, List.append_nil] at heq
    simpa using heq
  | run =>
    obtain ⟨f, rest, hworks, hpc, rfl⟩ := step_run hs
    refine ⟨?_, fun h => absurd hpc h⟩
    rw [hworks] at heq
    simpa using heq
  | ret =>
    obtain ⟨-, rfl⟩ := guarded_eq_some.mp hs
    exact ⟨heq, hidle⟩
  | finish =>
    obtain ⟨⟨-, hw, -⟩, rfl⟩ := guarded_eq_some.mp hs
    exact ⟨heq, fun _ => List.isEmpty_iff.mp hw⟩
  | runInLoop caller f =>
    cases caller with
    | none =>
      obtain ⟨-, rfl⟩ := guarded_eq_some.mp hs
      exact ⟨heq, hidle⟩
    | some t =>
      obtain ⟨-, rfl⟩ := guarded_eq_some.mp hs
      refine ⟨?_, hidle⟩
      simp only [runInLoop]
      rw [← heq, ← List.append_assoc]
  | quit caller =>
    cases caller with
    | none =>
      obtain ⟨-, rfl⟩ := guarded_eq_some.mp hs
      exact ⟨heq, hidle⟩
    | some t =>
      obtain ⟨-, rfl⟩ := guarded_eq_some.mp hs
      exact ⟨heq, hidle⟩
  | wakeup t =>
    obtain ⟨-, rfl⟩ := guarded_eq_some.mp hs
    exact ⟨heq, hidle⟩

theorem Reachable.queueInv {s : Loop τ F} (h : Reachable s) : QueueInv s := by
  refine h.inv ?_ fun _ _ _ => step_queueInv
  rintro s rfl
  exact ⟨rfl, fun _ => rfl⟩

/-- **Exactly once and in order.**  In every reachable state the posted functors that have started,
the unexecuted rest of the batch and the queue are the posted functors in mutex order. -/
theorem functors_in_order {s : Loop τ F} (h : Reachable s) :
    s.started ++ s.works ++ s.functors = s.posted := h.queueInv.eq

/-- Posts before the swap, inside the batch and after it, with an in-loop call in between. -/
def threePosts : List (Act Bool ℕ) :=
  [.enter, .clearQuit, .test, .runInLoop (some true) 1, .wakeup true, .poll [.wakeup], .dispatch,
    .runInLoop (some false) 2, .swap, .wakeup false, .run, .runInLoop none 9,
    .runInLoop (some true) 3]

theorem functors_in_order_threePosts : ∃ s : Loop Bool ℕ, run step init threePosts = some s ∧
    (s.started, s.works, s.functors) = ([1], [2], [3]) ∧
    s.started ++ s.works ++ s.functors = s.posted :=
  ⟨_, rfl, rfl, functors_in_order ⟨init, threePosts, rfl, rfl⟩⟩

/-! ### The wake-up -/

/-- Outside the stretch from poll to the swap, a non-empty queue is announced: the eventfd is
readable or a poster that has pushed is about to write it. -/
def Announced (s : Loop τ F) : Prop :=
  s.pc ≠ .dispatch → s.functors ≠ [] → 0 < s.counter ∨ ∃ t, s.poster t = .pushed

theorem step_announced {s s' : Loop τ F} {a : Act τ F} (h : Announced s)
    (hs : step s a = some s') : Announced s' := by
  cases a with
  | enter =>
    obtain ⟨⟨hpc, -⟩, rfl⟩ := guarded_eq_some.mp hs
    exact fun _ => h (by simp [hpc])
  | clearQuit =>
    obtain ⟨hpc, rfl⟩ := guarded_eq_some.mp hs
    exact fun _ => h (by simp [hpc])
  | test =>
    obtain ⟨hpc, rfl⟩ := guarded_eq_some.mp hs
    have hs := h (by simp [hpc])
    split_ifs
    · exact fun _ => hs
    · exact fun _ => hs
  | poll ready =>
    obtain ⟨-, rfl⟩ := guarded_eq_some.mp hs
    exact fun hpc => absurd rfl hpc
  | pollFailed =>
    obtain ⟨-, rfl⟩ := guarded_eq_some.mp hs
    exact fun hpc => absurd rfl hpc
  | dispatch =>
    obtain ⟨r, rest, -, hpc, rfl⟩ := step_dispatch hs
    cases r with
    | wakeup => exact fun hne => absurd hpc hne
    | other => exact fun hne => absurd hpc hne
  | swap =>
    -- the whole queue is taken, so nothing is left to announce
    obtain ⟨-, rfl⟩ := guarded_eq_some.mp hs
    exact fun _ hne => absurd rfl hne
  | run =>
    obtain ⟨f, rest, -, -, rfl⟩ := step_run hs
    exact h
  | ret =>
    obtain ⟨-, rfl⟩ := guarded_eq_some.mp hs
    exact h
  | finish =>
    obtain ⟨⟨hpc, -⟩, rfl⟩ := guarded_eq_some.mp hs
    exact fun _ => h (by simp [hpc])
  | runInLoop caller f =>
    cases caller with
    | none =>
      obtain ⟨-, rfl⟩ := guarded_eq_some.mp hs
      exact h
    | some t =>
      -- pushed before the wake-up is written: the poster itself is the announcement
      obtain ⟨-, rfl⟩ := guarded_eq_some.mp hs
      exact fun _ _ => Or.inr ⟨t, Function.update_self ..⟩
  | quit caller =>
    cases caller with
    | none =>
      obtain ⟨-, rfl⟩ := guarded_eq_some.mp hs
      exact fun _ _ => Or.inl (eventfdWrite_pos _)
    | some t =>
      obtain ⟨hidle, rfl⟩ := guarded_eq_some.mp hs
      intro hpc hne
      rcases h hpc hne with hc | ⟨t', ht'⟩
      · exact Or.inl hc
      · have hne' : t' ≠ t := by rintro rfl; rw [hidle] at ht'; cases ht'
        exact Or.inr ⟨t', by rw [← ht']; exact Function.update_of_ne hne' _ _⟩
  | wakeup t =>
    obtain ⟨-, rfl⟩ := guarded_eq_some.mp hs
    exact fun _ _ => Or.inl (eventfdWrite_pos _)

/-- **No lost wake-up.**  Whenever the loop thread is at poll and the queue is not empty, the
eventfd counter is positive, so poll returns, or some poster has pushed and not yet written. -/
theorem no_lost_wakeup {s : Loop τ F} (h : Reachable s) (hpc : s.pc = .poll)
    (hne : s.functors ≠ []) : 0 < s.counter ∨ ∃ t, s.poster t = .pushed := by
  have hann : Announced s := by
    refine h.inv ?_ fun _ _ _ => step_announced
    rintro s rfl
    exact fun _ hne => absurd rfl hne
  exact hann (by simp [hpc]) hne

/-- A post after the batch whose wake-up is not written when the loop thread is back at poll. -/
def latePosts : List (Act Bool ℕ) :=
  [.enter, .clearQuit, .test, .runInLoop (some true) 1, .wakeup true, .poll [.wakeup], .dispatch,
    .swap, .run, .ret, .finish, .runInLoop (some false) 2, .test]

theorem no_lost_wakeup_latePosts : ∃ s : Loop Bool ℕ, run step init latePosts = some s ∧
    s.pc = .poll ∧ s.functors = [2] ∧ s.counter = 0 ∧
    (0 < s.counter ∨ ∃ t, s.poster t = .pushed) :=
  ⟨_, rfl, rfl, rfl, rfl,
    no_lost_wakeup ⟨init, latePosts, rfl, rfl⟩ rfl (List.cons_ne_nil 2 [])⟩

end Loop

end Polly
