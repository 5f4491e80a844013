import Polly.EventLoop
import Polly.SessionSend
import Polly.SessionFlush

/-!
# CrossThread — `Send` and `Shutdown` from a thread that is not the loop's

One thread `t` outside the loop runs `Send(m₁); …; Send(mₖ); Shutdown()` on a connection while the
loop thread handles the connection's events, runs the queued functors and user code, and other
threads post functors of their own.  `Send` only pushes a functor, but `Shutdown` sets `state_` at
once and then pushes; `HandleWrite` reads `state_` on its own and may therefore shut the write end
while `Send`s are still in the queue.

* `step_crossInv`: the functor queue, the byte stream of the session and the caller's progress fit
  together, and the functor pushed by `Shutdown` finds all `Send`s done.
* `shutdown_after_sends`: as long as `HandleWrite` does not take up the shutdown with bytes of
  `Send`s still in the queue, the write end is shut only after all bytes have been accepted.
-/

namespace Polly

open Runs

/-- The functors in the queue: those of the connection, and any other. -/
inductive ConnFn where
  | sendInLoop (msg : Bytes)
  | shutdownInLoop
  | other
  deriving DecidableEq, Repr

/-- Where the caller is: at a `Send` or at the test of `Shutdown` (no message left), between the
test and `SetState`, between that and `RunInLoop`, or through. -/
inductive CallerPc where
  | sending (todo : List Bytes)
  | setting
  | posting
  | done
  deriving DecidableEq, Repr

/-- The functors the caller has still to push. -/
def CallerPc.remaining : CallerPc → List ConnFn
  | .sending todo => todo.map .sendInLoop ++ [.shutdownInLoop]
  | .setting | .posting => [.shutdownInLoop]
  | .done => []

/-- The state the caller has put the connection in. -/
def CallerPc.state : CallerPc → ConnState
  | .sending _ | .setting => .kConnected
  | .posting | .done => .kDisconnecting

/-- The functors of `Send(m₁); …; Send(mₖ); Shutdown()`. -/
def program (ms : List Bytes) : List ConnFn := ms.map .sendInLoop ++ [.shutdownInLoop]

structure Cross (τ : Type*) where
  loop : Loop τ ConnFn
  session : Session
  caller : CallerPc

namespace Cross

variable {τ : Type*}

inductive Act (τ : Type*) where
  /-- a step of the loop thread or another thread that is not about the connection -/
  | loop (a : Loop.Act τ ConnFn)
  /-- the next functor runs; `w` is the result of a direct write -/
  | run (w : WriteResult)
  /-- the handler of the connection's channel runs -/
  | event (revents : BitVec 32) (r : ReadResult) (w : WriteResult)
  /-- user code in the loop thread, or the kernel -/
  | session (a : Session.Act)
  /-- the caller's next step -/
  | caller

/-- The caller is about to run `Send` for each message and then `Shutdown`; none of the loop's
functors is about the connection. -/
structure Initial (t : τ) (ms : List Bytes) (s : Cross τ) : Prop where
  session : ∃ fd isSet, s.session = Session.start fd isSet
  works : s.loop.works = []
  functors : s.loop.functors = []
  posted : s.loop.posted = []
  started : s.loop.started = []
  idle : s.loop.poster t = .idle
  caller : s.caller = .sending ms

variable [DecidableEq τ] (t : τ)

/-- Not a step of the caller or of one of the connection's functors. -/
def foreign : Loop.Act τ ConnFn → Bool
  | .run => false
  | .runInLoop none f => f == .other
  | .runInLoop (some t') f => f == .other && t' != t
  | .quit (some t') => t' != t
  | _ => true

/-- A step of the loop thread itself: not while it is inside a callback of the connection. -/
def ofLoopThread : Loop.Act τ ConnFn → Bool
  | .runInLoop .. | .quit _ | .wakeup _ => false
  | _ => true

/-- User code runs in the loop thread, the kernel at any time; this user code does not itself
shut the connection down. -/
def mayAct (s : Cross τ) : Session.Act → Bool
  | .send .. | .retrieve _ | .ret .. => decide s.loop.InUserCode
  | .arrive _ | .peerClose => true
  | .shutdown | .dispatch .. => false

/-- What a functor does. -/
def exec (s : Cross τ) (w : WriteResult) : ConnFn → Option (Cross τ)
  | .sendInLoop msg => (s.session.send true msg w).map fun ses => { s with session := ses }
  | .shutdownInLoop =>
    some { s with session := { s.session with conn := s.session.conn.shutdownInLoop } }
  | .other => some s

def stepCaller (s : Cross τ) : CallerPc → Option (Cross τ)
  | .sending (m :: todo) =>
    (Loop.step s.loop (.runInLoop (some t) (.sendInLoop m))).map fun l =>
      { s with loop := l, caller := .sending todo }
  | .sending [] =>
    guarded (s.loop.poster t = .idle)
      { s with caller := if s.session.conn.state = .kConnected then .setting else .done }
  | .setting =>
    let conn := { s.session.conn with state := .kDisconnecting }
    some { s with session := { s.session with conn := conn }, caller := .posting }
  | .posting =>
    (Loop.step s.loop (.runInLoop (some t) .shutdownInLoop)).map fun l =>
      { s with loop := l, caller := .done }
  | .done => none

def step (s : Cross τ) : Act τ → Option (Cross τ)
  | .loop a =>
    if foreign t a && (!ofLoopThread a || s.session.stack.isEmpty) then
      (Loop.step s.loop a).map fun l => { s with loop := l }
    else none
  | .run w =>
    match s.loop.works with
    | [] => none
    | f :: _ =>
      if s.session.stack.isEmpty then
        (Loop.step s.loop .run).bind fun l => { s with loop := l }.exec w f
      else none
  | .event revents r w =>
    if s.loop.active.head? = some .other then
      (Loop.step s.loop .dispatch).bind fun l =>
        (Session.step s.session (.dispatch revents r w)).map fun ses =>
          { s with loop := l, session := ses }
    else none
  | .session a =>
    if s.mayAct a then (Session.step s.session a).map fun ses => { s with session := ses } else none
  | .caller => s.stepCaller t s.caller

/-! ### What is sent before the write end is shut -/

/-- The messages of `Send` functors. -/
def sends (fs : List ConnFn) : List Bytes :=
  fs.filterMap fun f => match f with
    | .sendInLoop msg => some msg
    | _ => none

/-- The messages handed to `sendInLoop` through the queue. -/
def handed (log : List SendRec) : List Bytes := (log.filter SendRec.queued).map SendRec.msg

/-- The bytes of `Send`s still in the queue. -/
def pending (s : Cross τ) : Bytes := (sends (s.loop.works ++ s.loop.functors)).flatten

/-- The write end is shut. -/
abbrev writeShut (s : Cross τ) : Bool := s.session.conn.sock.writeShut

/-- All bytes of the messages have been handed on, and all bytes handed on have been accepted. -/
structure Sent (ms : List Bytes) (s : Cross τ) : Prop where
  handed : (handed s.session.log).flatten = ms.flatten
  kept : ∀ r ∈ s.session.log, r.dropped = false
  accepted : s.session.conn.sock.accepted = payload s.session.log

/-- If this step shuts the write end, all bytes have been accepted. -/
def ShutsAfterSends (ms : List Bytes) (s : Cross τ) (a : Act τ) : Prop :=
  ∀ s', step t s a = some s' → s.writeShut = false → s'.writeShut = true → Sent ms s'

/-- The direct write of a `sendInLoop` fails hard. -/
def failsHard : Act τ → Bool
  | .run w | .session (.send _ w) => w == .error
  | _ => false

/-- No direct write fails hard before the write end is shut, and the connection is not closed. -/
def Legal (s : Cross τ) (a : Act τ) : Prop :=
  (failsHard a = true → s.writeShut = true) ∧
    ∀ s', step t s a = some s' → s'.session.conn.state ≠ .kDisconnected

/-- `HandleWrite` does not take up the shutdown while bytes of `Send`s are in the queue. -/
def NoEarlyShutdown (s : Cross τ) : Act τ → Prop
  | .event revents r w =>
    s.session.continuesShutdown (.dispatch revents r w) = true → s.pending = []
  | .session a => s.session.continuesShutdown a = true → s.pending = []
  | _ => True

instance (s : Cross τ) (a : Act τ) : Decidable (Legal t s a) :=
  inferInstanceAs (Decidable ((failsHard a = true → s.writeShut = true) ∧
    ∀ s' ∈ step t s a, s'.session.conn.state ≠ .kDisconnected))

instance (s : Cross τ) : ∀ a : Act τ, Decidable (NoEarlyShutdown s a)
  | .event .. => inferInstanceAs (Decidable (_ → _))
  | .session _ => inferInstanceAs (Decidable (_ → _))
  | .loop _ | .run _ | .caller => .isTrue trivial

/-! ### The parts fit together -/

section Queue

variable {t : τ}

@[simp] theorem sends_append (l₁ l₂ : List ConnFn) : sends (l₁ ++ l₂) = sends l₁ ++ sends l₂ :=
  List.filterMap_append ..

theorem sends_program (ms : List Bytes) : sends (program ms) = ms := by
  simp [sends, program, List.filterMap_map]

/-- The functors that are about the connection. -/
def ours (fs : List ConnFn) : List ConnFn := fs.filter (· ≠ .other)

theorem ours_append (l₁ l₂ : List ConnFn) : ours (l₁ ++ l₂) = ours l₁ ++ ours l₂ :=
  List.filter_append ..

@[simp] theorem sends_ours (fs : List ConnFn) : sends (ours fs) = sends fs := by
  induction fs with
  | nil => rfl
  | cons f fs ih =>
    cases f with
    | sendInLoop msg => simpa [sends, ours] using ih
    | shutdownInLoop => simpa [sends, ours] using ih
    | other => simpa [sends, ours] using ih

@[simp] theorem handed_append (log : List SendRec) (r : SendRec) :
    handed (log ++ [r]) = handed log ++ if r.queued then [r.msg] else [] := by
  cases h : r.queued <;> simp [handed, h]

/-- In a list that ends with its only `shutdownInLoop`, all before one is all but the end. -/
theorem before_shutdown {ms : List Bytes} {l₁ l₂ : List ConnFn}
    (h : l₁ ++ .shutdownInLoop :: l₂ = program ms) : sends l₁ = ms := by
  induction ms generalizing l₁ with
  | nil =>
    cases l₁ with
    | nil => rfl
    | cons f l₁ => simp [program] at h
  | cons m ms ih =>
    cases l₁ with
    | nil => simp [program] at h
    | cons f l₁ =>
      simp only [program, List.map_cons, List.cons_append, List.cons.injEq] at h
      obtain ⟨rfl, h⟩ := h
      have hrest : sends l₁ = ms := ih h
      change m :: sends l₁ = m :: ms
      rw [hrest]

theorem foreign_step {l l' : Loop τ ConnFn} {a : Loop.Act τ ConnFn} (ha : foreign t a = true)
    (h : Loop.step l a = some l') : ours l'.posted = ours l.posted ∧ l'.started = l.started := by
  cases a with
  | run => cases ha
  | dispatch =>
    obtain ⟨r, rest, -, -, rfl⟩ := Loop.step_dispatch h
    cases r <;> exact ⟨rfl, rfl⟩
  | test =>
    obtain ⟨-, rfl⟩ := guarded_eq_some.mp h
    split_ifs <;> exact ⟨rfl, rfl⟩
  | runInLoop caller f =>
    cases caller with
    | none =>
      obtain ⟨-, rfl⟩ := guarded_eq_some.mp h
      exact ⟨rfl, rfl⟩
    | some t' =>
      obtain ⟨-, rfl⟩ := guarded_eq_some.mp h
      simp only [foreign, Bool.and_eq_true, beq_iff_eq] at ha
      obtain ⟨rfl, -⟩ := ha
      exact ⟨by simp [Loop.runInLoop, ours], rfl⟩
  | quit caller =>
    cases caller with
    | none => obtain ⟨-, rfl⟩ := guarded_eq_some.mp h; exact ⟨rfl, rfl⟩
    | some t' => obtain ⟨-, rfl⟩ := guarded_eq_some.mp h; exact ⟨rfl, rfl⟩
  | enter | clearQuit | poll | pollFailed | swap | ret | finish | wakeup =>
    obtain ⟨-, rfl⟩ := guarded_eq_some.mp h
    exact ⟨rfl, rfl⟩

theorem push_step {l l' : Loop τ ConnFn} {f : ConnFn}
    (h : Loop.step l (.runInLoop (some t) f) = some l') :
    l'.posted = l.posted ++ [f] ∧ l'.started = l.started := by
  obtain ⟨-, rfl⟩ := guarded_eq_some.mp h
  exact ⟨rfl, rfl⟩

theorem run_step {l l' : Loop τ ConnFn} {f : ConnFn} {rest : List ConnFn} (hw : l.works = f :: rest)
    (h : Loop.step l .run = some l') :
    l'.posted = l.posted ∧ l'.started = l.started ++ [f] := by
  obtain ⟨f', rest', hw', -, rfl⟩ := Loop.step_run h
  rw [hw] at hw'
  obtain rfl : f = f' := (List.cons.inj hw').1
  exact ⟨rfl, rfl⟩

end Queue

/-- The queue is in order, its functors are the caller's program so far, those that ran are the
messages of the log, and the session's own invariants hold. -/
structure CrossInv (ms : List Bytes) (s : Cross τ) : Prop where
  queue : Loop.QueueInv s.loop
  program : ours s.loop.posted ++ s.caller.remaining = program ms
  started : sends s.loop.started = handed s.session.log
  stream : Session.SendInv s.session
  out : Session.OutInv s.session
  kept : s.writeShut = false → ∀ r ∈ s.session.log, r.dropped = false
  state : s.session.conn.state = s.caller.state

section Inv

variable {t : τ} {ms : List Bytes} {s s' : Cross τ}

omit [DecidableEq τ] in
/-- Once `Shutdown` has set the state, every message is in the log or in the queue. -/
theorem CrossInv.handed_pending (hI : CrossInv ms s)
    (hstate : s.session.conn.state = .kDisconnecting) :
    (handed s.session.log).flatten ++ s.pending = ms.flatten := by
  have hrem : sends s.caller.remaining = [] := by
    have hcaller := hI.state
    rw [hstate] at hcaller
    cases hc : s.caller with
    | sending todo => rw [hc] at hcaller; cases hcaller
    | setting => rw [hc] at hcaller; cases hcaller
    | posting => rfl
    | done => rfl
  have hposted : sends s.loop.posted = ms := by
    have := congrArg sends hI.program
    rwa [sends_append, sends_ours, hrem, List.append_nil, sends_program] at this
  rw [← hI.started, pending, ← List.flatten_append, ← sends_append, ← List.append_assoc,
    hI.queue.eq, hposted]

omit [DecidableEq τ] in
theorem initial_crossInv (h : Initial t ms s) : CrossInv ms s := by
  obtain ⟨⟨fd, isSet, hses⟩, hworks, hfunctors, hposted, hstarted, -, hcaller⟩ := h
  refine ⟨⟨?_, fun _ => hworks⟩, ?_, ?_, ?_, ?_, ?_, ?_⟩
  · rw [hworks, hfunctors, hposted, hstarted]
    rfl
  · rw [hposted, hcaller]
    rfl
  · rw [hstarted, hses, Session.start, Session.after_log]
    rfl
  · rw [hses]
    exact Session.start_sendInv fd isSet
  · rw [hses]
    exact Session.start_outInv fd isSet
  · intro _ r hr
    rw [hses, Session.start, Session.after_log] at hr
    exact absurd hr List.not_mem_nil
  · rw [hses, hcaller, Session.start, Session.after_conn, Conn.connectEstablished_conn]
    rfl

omit [DecidableEq τ] in
/-- With an empty buffer and every message handed on, all bytes have been accepted. -/
theorem sent_of_handed (hstream : Session.SendInv s.session)
    (hhanded : (handed s.session.log).flatten = ms.flatten)
    (hkept : ∀ r ∈ s.session.log, r.dropped = false)
    (hempty : s.session.conn.sndBuffer.toList = []) : Sent ms s := by
  refine ⟨hhanded, hkept, ?_⟩
  have hout := hstream.stream
  rwa [Conn.outgoing, hempty, List.append_nil] at hout

/-- What a step has to establish. -/
def StepOk (ms : List Bytes) (s s' : Cross τ) : Prop :=
  CrossInv ms s' ∧ (s.writeShut = false → s'.writeShut = true → Sent ms s')

omit [DecidableEq τ] in
theorem CrossInv.ok (h : CrossInv ms s') (hshut : s'.writeShut = s.writeShut) : StepOk ms s s' :=
  ⟨h, fun hfalse htrue => absurd (hfalse.symm.trans (hshut.symm.trans htrue)) Bool.false_ne_true⟩

omit [DecidableEq τ] in
/-- As long as the write end is open, direct writes do not fail hard and no message is dropped. -/
theorem CrossInv.kept_append {log : List SendRec} {msg : Bytes} {queued direct : Bool}
    {w : WriteResult} (hI : CrossInv ms s) (hopen : s.writeShut = false)
    (hlog : log = s.session.log ++ [⟨msg, queued, direct && w == .error⟩])
    (hfail : w = .error → s.writeShut = true) : ∀ r ∈ log, r.dropped = false := by
  intro r hr
  rw [hlog] at hr
  rcases List.mem_append.mp hr with hr | hr
  · exact hI.kept hopen r hr
  · have hw : w ≠ .error := fun he => Bool.false_ne_true (hopen.symm.trans (hfail he))
    rw [List.mem_singleton.mp hr]
    simp [hw]

omit [DecidableEq τ] in
/-- A loop step beside a step of the session, neither of them about the functors of the caller. -/
theorem session_step_ok {l : Loop τ ConnFn} {ses : Session} {a : Session.Act} (hI : CrossInv ms s)
    (hq : Loop.QueueInv l) (hposted : ours l.posted = ours s.loop.posted)
    (hstarted : l.started = s.loop.started) (h : Session.step s.session a = some ses)
    (hns : a ≠ .shutdown) (hopen : ses.conn.state ≠ .kDisconnected)
    (hfail : ∀ msg, a = .send msg .error → s.writeShut = true)
    (hearly : s.session.continuesShutdown a = true → s.pending = []) :
    StepOk ms s { s with loop := l, session := ses } := by
  obtain ⟨hout, hstate, hstays, hshut⟩ := Session.step_outInv hI.out h hns hopen
  have hstream := (Session.step_sendInv hI.stream h).1
  have hhanded : handed ses.log = handed s.session.log := by
    rcases Session.step_log h with hlog | ⟨msg, w, -, hlog⟩ <;> simp [hlog]
  have hkept : s.writeShut = false → ∀ r ∈ ses.log, r.dropped = false := by
    intro hopen
    rcases Session.step_log h with hlog | ⟨msg, w, rfl, hlog⟩
    · rw [hlog]
      exact hI.kept hopen
    · exact hI.kept_append hopen hlog fun he => hfail msg (he ▸ rfl)
  refine ⟨⟨hq, ?_, ?_, hstream, hout, ?_, hstate.trans hI.state⟩, fun hfalse htrue => ?_⟩
  · rw [hposted]
    exact hI.program
  · rw [hstarted, hhanded]
    exact hI.started
  · intro hfalse
    exact hkept (Bool.eq_false_iff.mpr fun htrue =>
      Bool.false_ne_true (hfalse.symm.trans (hstays htrue)))
  · obtain ⟨hcont, hempty⟩ := (hshut htrue).resolve_left fun h =>
      Bool.false_ne_true (hfalse.symm.trans h)
    have hpend := hI.handed_pending (Session.continuesShutdown_state hcont)
    rw [hearly hcont, List.append_nil] at hpend
    exact sent_of_handed hstream (by rw [hhanded]; exact hpend) (hkept hfalse) hempty

omit [DecidableEq τ] in
/-- The functor pushed by `Shutdown` is the last one: all `Send`s have run. -/
theorem CrossInv.handed_of_shutdown {rest : List ConnFn} (hI : CrossInv ms s)
    (hw : s.loop.works = .shutdownInLoop :: rest) : handed s.session.log = ms := by
  rw [← hI.started, ← sends_ours]
  have hq := hI.queue.eq
  rw [hw] at hq
  have hprogram : ours s.loop.started ++
      .shutdownInLoop :: (ours (rest ++ s.loop.functors) ++ s.caller.remaining) =
        Polly.program ms := by
    rw [← hI.program, ← hq]
    simp [ours]
  exact before_shutdown hprogram

theorem exec_send_ok {l : Loop τ ConnFn} {w : WriteResult} {msg : Bytes} {rest : List ConnFn}
    (hI : CrossInv ms s) (hw : s.loop.works = .sendInLoop msg :: rest)
    (hl : Loop.step s.loop .run = some l) (hfail : w = .error → s.writeShut = true)
    (h : exec { s with loop := l } w (.sendInLoop msg) = some s') : StepOk ms s s' := by
  obtain ⟨hposted, hstarted⟩ := run_step hw hl
  obtain ⟨ses, hses, rfl⟩ := Option.map_eq_some_iff.mp h
  obtain ⟨hout, hstate, hshut⟩ := Session.send_outInv hI.out hses
  have hlog : ses.log =
      s.session.log ++ [⟨msg, true, s.session.conn.writesDirectly && w == .error⟩] := by
    obtain ⟨o, -, rfl⟩ := Option.map_eq_some_iff.mp hses
    simp
  refine CrossInv.ok ⟨Loop.step_queueInv hI.queue hl, ?_, ?_,
    (Session.send_sendInv hI.stream hses).1, hout, ?_, hstate.trans hI.state⟩ hshut
  · rw [hposted]
    exact hI.program
  · rw [hstarted, hlog, sends_append, hI.started, handed_append]
    rfl
  · intro hfalse
    exact hI.kept_append (hshut.symm.trans hfalse) hlog hfail

/-- The functor of `Shutdown` shuts the write end, if it does, with all `Send`s before it run and
the buffer empty. -/
theorem exec_shutdown_ok {l : Loop τ ConnFn} {rest : List ConnFn} (hI : CrossInv ms s)
    (hw : s.loop.works = .shutdownInLoop :: rest) (hl : Loop.step s.loop .run = some l) :
    StepOk ms s { s with
      loop := l, session := { s.session with conn := s.session.conn.shutdownInLoop } } := by
  obtain ⟨hposted, hstarted⟩ := run_step hw hl
  have hstream : Session.SendInv { s.session with conn := s.session.conn.shutdownInLoop } :=
    ⟨by simpa using hI.stream.stream, hI.stream.returns⟩
  refine ⟨⟨Loop.step_queueInv hI.queue hl, ?_, ?_, hstream, ⟨?_, hI.out.tail⟩, ?_, ?_⟩,
    fun hfalse htrue => ?_⟩
  · rw [hposted]
    exact hI.program
  · rw [hstarted, sends_append, hI.started]
    exact List.append_nil _
  · intro hne
    change s.session.conn.shutdownInLoop.channel.isWritingEnabled = true
    rw [Conn.shutdownInLoop_channel]
    exact hI.out.flushing (by simpa using hne)
  · intro hfalse
    exact hI.kept (Bool.eq_false_iff.mpr fun htrue =>
      Bool.false_ne_true (hfalse.symm.trans (Conn.shutdownInLoop_writeShut htrue)))
  · rw [← hI.state]
    exact Conn.shutdownInLoop_keepsIn.state
  · have hdis := (Conn.shutdownInLoop_shut htrue).resolve_left fun h =>
      Bool.false_ne_true (hfalse.symm.trans h)
    refine sent_of_handed hstream ?_ (hI.kept hfalse) ?_
    · exact congrArg List.flatten (hI.handed_of_shutdown hw)
    · change s.session.conn.shutdownInLoop.sndBuffer.toList = []
      rw [Conn.shutdownInLoop_sndBuffer]
      exact hI.out.flushing.nil hdis

/-- A step of the loop that starts no message, beside a caller that stays in the same state. -/
theorem loop_step_ok {l : Loop τ ConnFn} {a : Loop.Act τ ConnFn} {pc : CallerPc}
    (hI : CrossInv ms s) (hl : Loop.step s.loop a = some l)
    (hprogram : ours l.posted ++ pc.remaining = program ms)
    (hstarted : sends l.started = sends s.loop.started) (hstate : pc.state = s.caller.state) :
    StepOk ms s { s with loop := l, caller := pc } :=
  CrossInv.ok ⟨Loop.step_queueInv hI.queue hl, hprogram, hstarted.trans hI.started, hI.stream,
    hI.out, hI.kept, hI.state.trans hstate.symm⟩ rfl

theorem exec_ok {l : Loop τ ConnFn} {w : WriteResult} {f : ConnFn} {rest : List ConnFn}
    (hI : CrossInv ms s) (hw : s.loop.works = f :: rest) (hl : Loop.step s.loop .run = some l)
    (hfail : w = .error → s.writeShut = true)
    (h : exec { s with loop := l } w f = some s') : StepOk ms s s' := by
  cases f with
  | sendInLoop msg => exact exec_send_ok hI hw hl hfail h
  | shutdownInLoop =>
    cases h
    exact exec_shutdown_ok hI hw hl
  | other =>
    cases h
    obtain ⟨hposted, hstarted⟩ := run_step hw hl
    refine loop_step_ok hI hl ?_ ?_ rfl
    · rw [hposted]
      exact hI.program
    · rw [hstarted, sends_append]
      exact List.append_nil _

theorem push_ok {l : Loop τ ConnFn} {f : ConnFn} {pc : CallerPc} (hI : CrossInv ms s)
    (hf : f ≠ .other) (hrem : s.caller.remaining = f :: pc.remaining)
    (hstate : pc.state = s.caller.state)
    (hl : Loop.step s.loop (.runInLoop (some t) f) = some l) :
    StepOk ms s { s with loop := l, caller := pc } := by
  obtain ⟨hposted, hstarted⟩ := push_step hl
  have hours : ours [f] = [f] := by simp [ours, hf]
  refine loop_step_ok hI hl ?_ (by rw [hstarted]) hstate
  rw [hposted, ours_append, hours, List.append_assoc, ← hI.program, hrem]
  rfl

theorem stepCaller_ok (hI : CrossInv ms s) (h : stepCaller t s s.caller = some s') :
    StepOk ms s s' := by
  cases hc : s.caller with
  | sending todo =>
    rw [hc] at h
    cases todo with
    | nil =>
      -- only the caller itself changes the state, so the test of `Shutdown` passes
      have hconn : s.session.conn.state = .kConnected := by rw [hI.state, hc]; rfl
      have hprogram := hI.program
      rw [hc] at hprogram
      obtain ⟨-, rfl⟩ := guarded_eq_some.mp h
      rw [if_pos hconn]
      exact CrossInv.ok ⟨hI.queue, hprogram, hI.started, hI.stream, hI.out, hI.kept, hconn⟩ rfl
    | cons m todo =>
      obtain ⟨l, hl, rfl⟩ := Option.map_eq_some_iff.mp h
      exact push_ok hI (by simp) (by rw [hc]; rfl) (by rw [hc]; rfl) hl
  | setting =>
    have hprogram := hI.program
    rw [hc] at h hprogram
    cases h
    exact CrossInv.ok ⟨hI.queue, hprogram, hI.started, ⟨hI.stream.stream, hI.stream.returns⟩,
      ⟨hI.out.flushing, hI.out.tail⟩, hI.kept, rfl⟩ rfl
  | posting =>
    rw [hc] at h
    obtain ⟨l, hl, rfl⟩ := Option.map_eq_some_iff.mp h
    exact push_ok hI (by simp) (by rw [hc]; rfl) (by rw [hc]; rfl) hl
  | done =>
    rw [hc] at h
    cases h

/-- **One step** of any thread. -/
theorem step_crossInv {a : Act τ} (hI : CrossInv ms s) (hlegal : Legal t s a)
    (hearly : NoEarlyShutdown s a) (h : step t s a = some s') : StepOk ms s s' := by
  have hopen := hlegal.2 s' h
  cases a with
  | loop a =>
    simp only [step] at h
    split_ifs at h with hg
    obtain ⟨l, hl, rfl⟩ := Option.map_eq_some_iff.mp h
    simp only [Bool.and_eq_true] at hg
    obtain ⟨hposted, hstarted⟩ := foreign_step hg.1 hl
    refine loop_step_ok hI hl ?_ (by rw [hstarted]) rfl
    rw [hposted]
    exact hI.program
  | run w =>
    simp only [step] at h
    split at h
    · cases h
    · rename_i f rest hw
      split_ifs at h
      obtain ⟨l, hl, hexec⟩ := Option.bind_eq_some_iff.mp h
      exact exec_ok hI hw hl (fun he => hlegal.1 (by simp [failsHard, he])) hexec
  | event revents r w =>
    simp only [step] at h
    split_ifs at h
    obtain ⟨l, hl, h⟩ := Option.bind_eq_some_iff.mp h
    obtain ⟨ses, hses, rfl⟩ := Option.map_eq_some_iff.mp h
    obtain ⟨hposted, hstarted⟩ := foreign_step (t := t) rfl hl
    exact session_step_ok hI (Loop.step_queueInv hI.queue hl) hposted hstarted hses (by simp) hopen
      (fun msg hsend => by cases hsend) hearly
  | session a =>
    simp only [step] at h
    split_ifs at h with hmay
    obtain ⟨ses, hses, rfl⟩ := Option.map_eq_some_iff.mp h
    have hns : a ≠ .shutdown := by
      rintro rfl
      cases hmay
    refine session_step_ok hI hI.queue rfl rfl hses hns hopen ?_ hearly
    rintro msg rfl
    exact hlegal.1 rfl
  | caller => exact stepCaller_ok hI h

/-- **Send, then shut down.**  In every run in which no direct write fails hard before the write end
is shut, the connection is not closed, and `HandleWrite` never takes up the shutdown with bytes of
`Send`s still in the functor queue, the write end is shut only after all bytes of `m₁, …, mₖ` have
been accepted by the socket. -/
theorem shutdown_after_sends (h₀ : Initial t ms s) {as : List (Act τ)}
    (hlegal : Along (step t) (Legal t) s as) (hearly : Along (step t) NoEarlyShutdown s as) :
    Along (step t) (ShutsAfterSends t ms) s as := by
  refine (hlegal.and hearly).of_inv (I := CrossInv ms) ?_ ?_ (initial_crossInv h₀)
  · intro s a hI hC s' hs
    exact (step_crossInv hI hC.1 hC.2 hs).2
  · intro s a s' hI hC hs
    exact (step_crossInv hI hC.1 hC.2 hs).1

end Inv

/-! ### Two runs -/

/-- The connection has just been accepted, and a thread is about to `Send` one byte and shut
down. -/
def freshConnection : Cross Unit where
  loop := { Loop.init with pc := .dispatch, looping := true }
  session := Session.start 7 ⟨true, true, true, false⟩
  caller := .sending [[1]]

theorem freshConnection_initial : Initial () [[1]] freshConnection :=
  ⟨⟨7, ⟨true, true, true, false⟩, rfl⟩, rfl, rfl, rfl, rfl, rfl, rfl⟩

/-- The connection callback sends a byte that stays in the buffer; the loop goes on to poll, and the
caller pushes its `Send` and sets the state. -/
def pendingSend : List (Act Unit) :=
  [.session (.send [9] .wouldBlock), .session (.ret (.got 0) .wouldBlock), .loop .swap,
    .loop .finish, .loop .test, .loop (.poll [.other]), .caller, .loop (.wakeup ()), .caller,
    .caller]

/-- The functors run first, and the shutdown is taken up when everything is written. -/
def drainedShutdown : List (Act Unit) :=
  pendingSend ++ [.caller, .event POLLOUT (.got 0) .wouldBlock, .loop .swap, .run .wouldBlock,
    .loop .ret, .run .wouldBlock, .loop .ret, .loop .finish, .loop (.wakeup ()), .loop .test,
    .loop (.poll [.wakeup, .other]), .loop .dispatch, .event POLLOUT (.got 0) (.wrote 2)]

theorem shutdown_after_sends_drained :
    (∃ s, run (step ()) freshConnection drainedShutdown = some s ∧ s.writeShut = true) ∧
      Along (step ()) (ShutsAfterSends () [[1]]) freshConnection drainedShutdown := by
  have hend : (run (step ()) freshConnection drainedShutdown).map Cross.writeShut = some true := by
    decide +kernel
  exact ⟨Option.map_eq_some_iff.mp hend,
    shutdown_after_sends freshConnection_initial (by decide +kernel) (by decide +kernel)⟩

/-- `POLLOUT` comes before the functors run, and the byte from before is written. -/
def writeEvent : Act Unit := .event POLLOUT (.got 0) (.wrote 1)

/-- `HandleWrite` sees the new state and shuts the write end with the caller's `Send` still in the
queue. -/
theorem shut_before_send :
    Initial () [[1]] freshConnection ∧
    Along (step ()) (Legal ()) freshConnection (pendingSend ++ [writeEvent]) ∧
    ∃ s s', run (step ()) freshConnection pendingSend = some s ∧ step () s writeEvent = some s' ∧
      s.writeShut = false ∧ s'.writeShut = true ∧
      s'.session.conn.sock.accepted = [9] ∧ s'.loop.functors = [.sendInLoop [1]] ∧
      ¬ ShutsAfterSends () [[1]] s writeEvent := by
  refine ⟨freshConnection_initial, by decide +kernel, ?_⟩
  have heval : (run (step ()) freshConnection pendingSend).bind (fun s =>
      (step () s writeEvent).map fun s' =>
        ((s.writeShut, s'.writeShut, s'.session.conn.sock.accepted),
          s'.loop.functors, handed s'.session.log)) =
      some ((false, true, [9]), [.sendInLoop [1]], []) := by decide +kernel
  obtain ⟨s, hs, hmap⟩ := Option.bind_eq_some_iff.mp heval
  obtain ⟨s', hs', hobs⟩ := Option.map_eq_some_iff.mp hmap
  simp only [Prod.mk.injEq] at hobs
  obtain ⟨⟨hopen, hshut, hacc⟩, hfunctors, hhanded⟩ := hobs
  refine ⟨s, s', hs, hs', hopen, hshut, hacc, hfunctors, fun h => ?_⟩
  have hsent := (h s' hs' hopen hshut).handed
  rw [hhanded] at hsent
  cases hsent

end Cross

end Polly
