import Polly.CrossThread
import Polly.SessionInterest

/-!
# SessionClosed — calls on a closed connection

A connection that other threads share: they call `Send` and `Shutdown()` at any time, their
functors wait in the loop's queue, and the owner may destroy the connection (`ConnectDestroyed`).
`Shutdown()` in another thread is three steps (the test of `state_`, `SetState`, the post), so that
one can be under way while the connection closes.  `closed` records that the connection has been in
state `kDisconnected`; from then on the mask is empty and stays so (`Off`) as long as no
`sendInLoop` enables writing again, which has no test of `state_` that would keep it from doing so.

* `untouched_along_iff`: late calls and functors leave a closed connection alone exactly as long as
  every late `sendInLoop` has an empty message and data in `snd_buffer_`.
-/

namespace Polly

open Runs

structure SharedConn where
  session : Session
  /-- the connection's functors in the loop's queue -/
  queue : List ConnFn
  /-- calls of `Shutdown()` in other threads between the test and `SetState` -/
  setting : ℕ
  /-- calls of `Shutdown()` in other threads between `SetState` and `RunInLoop` -/
  posting : ℕ
  closed : Bool

namespace SharedConn

/-- What a functor of the connection does. -/
def exec (ses : Session) (w : WriteResult) : ConnFn → Option Session
  | .sendInLoop msg => ses.send true msg w
  | .shutdownInLoop => some { ses with conn := ses.conn.shutdownInLoop }
  | .other => some ses

/-- Go on with the session. -/
def moveTo (s : SharedConn) (ses : Session) : SharedConn :=
  { s with session := ses, closed := s.closed || ses.conn.state == .kDisconnected }

inductive Act where
  /-- the loop thread handles an event or runs user code, or the kernel does something -/
  | loop (a : Session.Act)
  /-- another thread calls `Send(msg)` -/
  | send (msg : Bytes)
  /-- another thread calls `Shutdown()` and tests `state_` -/
  | shutdown
  /-- it sets `state_` -/
  | setState
  /-- it posts `shutdownInLoop` -/
  | post
  /-- the loop thread runs the next functor -/
  | run (w : WriteResult)
  /-- the owner calls `ConnectDestroyed` in the loop thread, in user code or outside it -/
  | connectDestroyed
  deriving DecidableEq, Repr

def step (s : SharedConn) : Act → Option SharedConn
  | .loop a => (Session.step s.session a).map s.moveTo
  | .send msg => some { s with queue := s.queue ++ [.sendInLoop msg] }
  | .shutdown =>
    some (if s.session.conn.state = .kConnected then { s with setting := s.setting + 1 } else s)
  | .setState =>
    let conn := { s.session.conn with state := .kDisconnecting }
    guarded (0 < s.setting)
      { s with
        session := { s.session with conn := conn }
        setting := s.setting - 1
        posting := s.posting + 1 }
  | .post =>
    guarded (0 < s.posting)
      { s with queue := s.queue ++ [.shutdownInLoop], posting := s.posting - 1 }
  | .run w =>
    match s.queue with
    | [] => none
    | f :: rest =>
      if s.session.stack.isEmpty then
        (exec s.session w f).map { s with queue := rest }.moveTo
      else none
  | .connectDestroyed => some (s.moveTo (s.session.after (s.session.conn.connectDestroyed [])))

/-- A new connection. -/
def start (fd : ℤ) (isSet : CallbacksSet) : SharedConn := ⟨Session.start fd isSet, [], 0, 0, false⟩

/-- The message of the `sendInLoop` a step runs. -/
def sends (s : SharedConn) : Act → Option Bytes
  | .loop (.send msg _) => some msg
  | .run _ =>
    match s.queue with
    | .sendInLoop msg :: _ => some msg
    | _ => none
  | _ => none

/-- The step calls write(2) in `sendInLoop`. -/
def writes (s : SharedConn) (a : Act) : Bool :=
  (s.sends a).isSome && s.session.conn.writesDirectly

/-- A call of `Send` or `Shutdown()`, or a functor. -/
def isCall : Act → Bool
  | .loop (.send ..) | .loop .shutdown | .send _ | .shutdown | .run _ => true
  | _ => false

/-- A call or functor on a closed connection writes nothing, and leaves the state, the mask and the
poller alone. -/
def Untouched (s : SharedConn) (a : Act) : Prop :=
  s.closed = true → isCall a = true → ∀ s', step s a = some s' →
    s.writes a = false ∧ s'.session.conn.state = s.session.conn.state ∧
    s'.session.conn.channel.events = s.session.conn.channel.events ∧
    s'.session.conn.updates = s.session.conn.updates

/-- A `sendInLoop` on a closed connection has nothing to send, and data is in `snd_buffer_`. -/
def Harmless (s : SharedConn) (a : Act) : Prop :=
  s.closed = true → ∀ msg ∈ s.sends a, msg = [] ∧ s.session.conn.sndBuffer.toList ≠ []

instance (s : SharedConn) (a : Act) : Decidable (Harmless s a) :=
  inferInstanceAs (Decidable (_ → ∀ msg ∈ s.sends a, _ ∧ _))

end SharedConn

/-! ### The mask of a closed connection -/

namespace Conn

variable {c : Conn} {o : Out} {msg : Bytes} {left : List EventCallback} {r : ReadResult}
  {w : WriteResult} {b : Bool}

/-- A connection that is closed, or was (`b`), has an empty mask and is not connected again. -/
structure Off (b : Bool) (c : Conn) : Prop where
  off : b = true ∨ c.state = .kDisconnected → c.state ≠ .kConnected ∧ c.channel.events = 0
  established : c.state ≠ .kConnecting

theorem Off.of_eq {c' : Conn} (h : Off b c) (hs : c'.state = c.state)
    (he : c'.channel.events = c.channel.events) : Off b c' where
  off := by rw [hs, he]; exact h.off
  established := by rw [hs]; exact h.established

theorem isWritingEnabled_of_events (h : c.channel.events = 0) :
    c.channel.isWritingEnabled = false := by
  unfold Channel.isWritingEnabled
  rw [h]
  decide

theorem closed_off (c : Conn) : Off b c.closed where
  off := fun _ => ⟨nofun, rfl⟩
  established := nofun

theorem handleClose_off (h : c.handleClose left = some o) : Off b o.conn := by
  obtain ⟨-, hconn, -⟩ := handleClose_cases h
  rw [hconn]
  exact closed_off c

theorem handleRead_off (h : c.handleRead left r = some o) (hI : Off b c) : Off b o.conn := by
  rcases handleRead_cases h with rfl | ⟨n, -, -, hconn, -⟩ | ⟨-, -, -, hclose⟩
  · exact hI
  · rw [hconn]
    exact hI.of_eq rfl rfl
  · exact handleClose_off hclose

/-- Without any interest, `HandleWrite` does nothing. -/
theorem handleWrite_of_events (h : c.handleWrite left w = some o) (he : c.channel.events = 0) :
    o = c.ends := by
  rcases handleWrite_cases h with rfl | ⟨hw, -⟩
  · rfl
  · rw [isWritingEnabled_of_events he] at hw
    cases hw

theorem handleWrite_off (h : c.handleWrite left w = some o) (hI : Off b c) : Off b o.conn := by
  have hstate := (handleWrite_keepsIn h).state
  refine ⟨fun hoff => ?_, by rw [hstate]; exact hI.established⟩
  rw [hstate] at hoff
  rw [handleWrite_of_events h (hI.off hoff).2]
  exact hI.off hoff

theorem runEvents_off {evs : List EventCallback} (h : c.runEvents r w evs = some o)
    (hI : Off b c) : Off b o.conn := by
  refine runEvents_rule (K := fun o => Off b o.conn) ?_ ?_ ?_ evs c (List.suffix_refl evs) hI h
  · exact fun c₁ left o₁ _ _ h₁ => handleClose_off h₁
  · exact fun c₁ left o₁ _ hK h₁ => handleRead_off h₁ hK
  · exact fun c₁ left o₁ _ hK h₁ => handleWrite_off h₁ hK

theorem shutdownInLoop_off (hI : Off b c) : Off b c.shutdownInLoop :=
  hI.of_eq shutdownInLoop_keepsIn.state (by rw [shutdownInLoop_channel])

theorem shutdownInLoop_updates : c.shutdownInLoop.updates = c.updates := by
  unfold shutdownInLoop
  split_ifs <;> rfl

theorem handleWriteRest_off (hI : Off b c) : Off b c.handleWriteRest := by
  unfold handleWriteRest
  split_ifs
  · exact shutdownInLoop_off hI
  · exact hI

theorem shutdown_off (hI : Off b c) : Off b c.shutdown := by
  unfold shutdown
  split_ifs with hs
  · have hI' : Off b { c with state := .kDisconnecting } := by
      refine ⟨fun hoff => ?_, nofun⟩
      rcases hoff with hb | hs'
      · exact absurd hs (hI.off (Or.inl hb)).1
      · cases hs'
    exact shutdownInLoop_off hI'
  · exact hI

theorem resume_off {rest : Rest} (hrest : ∀ msg n, rest = .sendInLoop msg n → msg.length ≤ n)
    (h : c.resume r w rest = some o) (hI : Off b c) : Off b o.conn := by
  cases rest with
  | done => cases h; exact hI
  | sendInLoop msg n =>
    cases h
    rw [ends_conn, sendRest, if_neg (by have := hrest msg n rfl; omega)]
    exact hI
  | handleWrite left => exact runEvents_off h (handleWriteRest_off hI)
  | event left => exact runEvents_off h hI

theorem connectDestroyed_off (hI : Off b c) : Off b (c.connectDestroyed left).conn := by
  rw [connectDestroyed_eq]
  dsimp only
  split_ifs with hs
  · exact closed_off c
  · have hdisc : c.state = .kDisconnected := by
      cases hstate : c.state with
      | kConnecting => exact absurd hstate hI.established
      | kConnected => exact absurd (Or.inl hstate) hs
      | kDisconnecting => exact absurd (Or.inr hstate) hs
      | kDisconnected => rfl
    exact ⟨fun _ => ⟨nofun, (hI.off (Or.inr hdisc)).2⟩, nofun⟩

/-- Behind data in the buffer, `sendInLoop` of an empty message does nothing. -/
theorem sendInLoop_nil (h : c.sendInLoop [] w = some o) (hne : c.sndBuffer.toList ≠ []) :
    c.writesDirectly = false ∧ o = c.ends := by
  have hd : c.writesDirectly = false := by
    rw [← Bool.not_eq_true, writesDirectly_iff]
    exact fun hnil => hne hnil.2
  rcases sendInLoop_cases h with ⟨-, rfl⟩ | ⟨hd', -⟩
  · exact ⟨hd, rfl⟩
  · rw [hd] at hd'
    cases hd'

/-- Without any interest, a `sendInLoop` that neither writes nor enables writing has nothing to
send, and something is in the buffer. -/
theorem sendInLoop_untouched (h : c.sendInLoop msg w = some o) (he : c.channel.events = 0)
    (hd : c.writesDirectly = false) (hev : o.conn.channel.events = c.channel.events) :
    msg = [] ∧ c.sndBuffer.toList ≠ [] := by
  have hw := isWritingEnabled_of_events he
  have hne : c.sndBuffer.toList ≠ [] := fun hnil => by
    rw [writesDirectly_iff.mpr ⟨hw, hnil⟩] at hd
    cases hd
  refine ⟨?_, hne⟩
  by_contra hmsg
  rcases sendInLoop_cases h with ⟨-, rfl⟩ | ⟨hd', -⟩
  · have hlen : 0 < msg.length := List.length_pos_iff.mpr hmsg
    simp only [ends_conn, sendRest, if_pos hlen, hw, Bool.not_false, if_true] at hev
    change c.channel.events ||| kWriteEvent = c.channel.events at hev
    rw [he] at hev
    exact absurd hev (by decide)
  · rw [hd] at hd'
    cases hd'

theorem sendInLoop_off (h : c.sendInLoop msg w = some o) (hI : Off b c)
    (hmsg : b = true ∨ c.state = .kDisconnected → msg = [] ∧ c.sndBuffer.toList ≠ []) :
    Off b o.conn := by
  have hstate := (sendInLoop_keepsIn h).state
  refine ⟨fun hoff => ?_, by rw [hstate]; exact hI.established⟩
  rw [hstate] at hoff
  obtain ⟨rfl, hne⟩ := hmsg hoff
  rw [(sendInLoop_nil h hne).2]
  exact hI.off hoff

end Conn

/-- **One step** of the session keeps a closed connection off, unless it sends. -/
theorem Session.step_off {s s' : Session} {a : Session.Act} {b : Bool} (hS : SendInv s)
    (hI : Conn.Off b s.conn)
    (hsend : ∀ msg w, a = .send msg w → b = true ∨ s.conn.state = .kDisconnected →
      msg = [] ∧ s.conn.sndBuffer.toList ≠ [])
    (h : step s a = some s') : Conn.Off b s'.conn := by
  rcases step_conn h with ⟨msg, w, o, ha, ho, hconn⟩ | hconn |
    ⟨r, w, cb, rest, o, hmem, ho, hconn⟩ | ⟨revents, r, w, o, ho, hconn⟩ | ⟨hkeeps, -⟩
  · rw [hconn]
    exact Conn.sendInLoop_off ho hI (hsend msg w ha)
  · rw [hconn]
    exact Conn.shutdown_off hI
  · rw [hconn]
    exact Conn.resume_off (fun msg n hrest => hS.returns cb msg n (hrest ▸ hmem)) ho hI
  · rw [hconn]
    have hI' : Conn.Off b
        { s.conn with channel := { s.conn.channel with revents := revents } } := hI.of_eq rfl rfl
    exact Conn.runEvents_off ho hI'
  · exact hI.of_eq hkeeps.state (by rw [hkeeps.channel])

namespace SharedConn

open Conn Session

variable {s s' : SharedConn} {a : Act}

structure ClosedInv (s : SharedConn) : Prop where
  known : s.session.conn.state = .kDisconnected → s.closed = true
  off : Off s.closed s.session.conn
  sends : SendInv s.session

theorem moveTo_closedInv {ses : Session} (hoff : Off s.closed ses.conn) (hS : SendInv ses) :
    ClosedInv (s.moveTo ses) where
  known := fun hstate => by simp [moveTo, show ses.conn.state = _ from hstate]
  off := by
    refine ⟨fun h => hoff.off ?_, hoff.established⟩
    rcases h with h | h
    · simpa [moveTo] using h
    · exact Or.inr h
  sends := hS

/-- A step that runs `sendInLoop`. -/
theorem step_sends {msg : Bytes} (hmsg : s.sends a = some msg) (h : step s a = some s') :
    isCall a = true ∧ ∃ w o, s.session.conn.sendInLoop msg w = some o ∧
      s'.session.conn = o.conn := by
  cases a with
  | loop a =>
    cases a with
    | send msg' w =>
      cases hmsg
      obtain ⟨ses, hses, rfl⟩ := Option.map_eq_some_iff.mp h
      obtain ⟨o, ho, rfl⟩ := Option.map_eq_some_iff.mp hses
      exact ⟨rfl, w, o, ho, after_conn _ o⟩
    | _ => cases hmsg
  | run w =>
    simp only [SharedConn.sends] at hmsg
    split at hmsg
    · rename_i msg' rest hqueue
      cases hmsg
      simp only [step, hqueue] at h
      split_ifs at h
      obtain ⟨ses, hses, rfl⟩ := Option.map_eq_some_iff.mp h
      obtain ⟨o, ho, rfl⟩ := Option.map_eq_some_iff.mp hses
      exact ⟨rfl, w, o, ho, after_conn _ o⟩
    · cases hmsg
  | _ => cases hmsg

/-- A call or functor that does not send leaves a closed connection alone. -/
theorem step_isCall (hI : ClosedInv s) (hc : s.closed = true) (hcall : isCall a = true)
    (hmsg : s.sends a = none) (h : step s a = some s') :
    s'.session.conn.state = s.session.conn.state ∧
      s'.session.conn.channel.events = s.session.conn.channel.events ∧
      s'.session.conn.updates = s.session.conn.updates := by
  cases a with
  | loop a =>
    cases a with
    | shutdown =>
      cases h
      change s.session.conn.shutdown.state = _ ∧ s.session.conn.shutdown.channel.events = _ ∧
        s.session.conn.shutdown.updates = _
      rw [shutdown, if_neg (hI.off.off (Or.inl hc)).1]
      exact ⟨rfl, rfl, rfl⟩
    | send msg w => cases hmsg
    | _ => cases hcall
  | send msg => cases h; exact ⟨rfl, rfl, rfl⟩
  | shutdown =>
    simp only [step, if_neg (hI.off.off (Or.inl hc)).1, Option.some.injEq] at h
    subst h
    exact ⟨rfl, rfl, rfl⟩
  | run w =>
    simp only [step] at h
    split at h
    · cases h
    · rename_i f rest hqueue
      split_ifs at h
      cases f with
      | sendInLoop msg => simp [SharedConn.sends, hqueue] at hmsg
      | shutdownInLoop =>
        cases h
        exact ⟨shutdownInLoop_keepsIn.state, congrArg Channel.events shutdownInLoop_channel,
          shutdownInLoop_updates⟩
      | other => cases h; exact ⟨rfl, rfl, rfl⟩
  | _ => cases hcall

theorem untouched_iff (hI : ClosedInv s) (hen : (step s a).isSome = true) :
    Untouched s a ↔ Harmless s a := by
  obtain ⟨s', h⟩ := Option.isSome_iff_exists.mp hen
  constructor
  · intro hU hc msg hmsg
    obtain ⟨hcall, w, o, ho, hconn⟩ := step_sends hmsg h
    obtain ⟨hw, -, hev, -⟩ := hU hc hcall s' h
    have hd : s.session.conn.writesDirectly = false := by
      simpa [writes, show s.sends a = some msg from hmsg] using hw
    rw [hconn] at hev
    exact sendInLoop_untouched ho (hI.off.off (Or.inl hc)).2 hd hev
  · intro hH hc hcall s'' h''
    cases hmsg : s.sends a with
    | none => exact ⟨by simp [writes, hmsg], step_isCall hI hc hcall hmsg h''⟩
    | some msg =>
      obtain ⟨rfl, hne⟩ := hH hc msg hmsg
      obtain ⟨-, w, o, ho, hconn⟩ := step_sends hmsg h''
      obtain ⟨hd, rfl⟩ := sendInLoop_nil ho hne
      rw [hconn]
      exact ⟨by simp [writes, hd], rfl, rfl, rfl⟩

theorem exec_closedInv {t : SharedConn} {w : WriteResult} {f : ConnFn} {rest : List ConnFn}
    (hI : ClosedInv s) (hqueue : s.queue = f :: rest) (hH : Harmless s (.run w))
    (ht : t.closed = s.closed) {ses : Session} (h : exec s.session w f = some ses) :
    ClosedInv (t.moveTo ses) := by
  have hoff := hI.off
  rw [← ht] at hoff
  cases f with
  | sendInLoop msg =>
    refine moveTo_closedInv ?_ (send_sendInv hI.sends h).1
    obtain ⟨o, ho, rfl⟩ := Option.map_eq_some_iff.mp h
    rw [after_conn]
    refine sendInLoop_off ho hoff fun hclosed => ?_
    have hc : s.closed = true := hclosed.elim (fun hb => ht ▸ hb) hI.known
    exact hH hc msg (by simp [SharedConn.sends, hqueue])
  | shutdownInLoop =>
    cases h
    exact moveTo_closedInv (shutdownInLoop_off hoff)
      ⟨shutdownInLoop_outgoing.trans hI.sends.stream, hI.sends.returns⟩
  | other => cases h; exact moveTo_closedInv hoff hI.sends

theorem step_closedInv (hI : ClosedInv s) (hH : Harmless s a) (h : step s a = some s') :
    ClosedInv s' := by
  cases a with
  | loop a =>
    obtain ⟨ses, hses, rfl⟩ := Option.map_eq_some_iff.mp h
    refine moveTo_closedInv ?_ (step_sendInv hI.sends hses).1
    refine step_off hI.sends hI.off (fun msg w ha hclosed => ?_) hses
    subst ha
    exact hH (hclosed.elim id hI.known) msg rfl
  | send msg => cases h; exact ⟨hI.known, hI.off, hI.sends⟩
  | shutdown =>
    cases h
    split_ifs
    · exact ⟨hI.known, hI.off, hI.sends⟩
    · exact hI
  | setState =>
    obtain ⟨-, rfl⟩ := guarded_eq_some.mp h
    refine ⟨nofun, ⟨fun hclosed => ⟨nofun, ?_⟩, nofun⟩, ⟨hI.sends.stream, hI.sends.returns⟩⟩
    rcases hclosed with hc | hstate
    · exact (hI.off.off (Or.inl hc)).2
    · cases hstate
  | post =>
    obtain ⟨-, rfl⟩ := guarded_eq_some.mp h
    exact ⟨hI.known, hI.off, hI.sends⟩
  | run w =>
    simp only [step] at h
    split at h
    · cases h
    · rename_i f rest hqueue
      split_ifs at h
      obtain ⟨ses, hses, rfl⟩ := Option.map_eq_some_iff.mp h
      exact exec_closedInv (t := { s with queue := rest }) hI hqueue hH rfl hses
  | connectDestroyed =>
    cases h
    refine moveTo_closedInv ?_ ?_
    · rw [after_conn]
      exact connectDestroyed_off hI.off
    · refine (after_sendInv ?_ hI.sends.returns ?_).1
      · rw [connectDestroyed_eq]
        dsimp only
        split_ifs <;> exact hI.sends.stream
      · rw [connectDestroyed_eq]
        split_ifs <;> exact ⟨nofun, nofun⟩

theorem start_closedInv (fd : ℤ) (isSet : CallbacksSet) : ClosedInv (start fd isSet) := by
  have hstate : (Session.start fd isSet).conn.state = .kConnected := by
    rw [Session.start, after_conn, connectEstablished_conn]
  refine ⟨fun hdisc => ?_, ⟨fun hoff => ?_, ?_⟩, start_sendInv fd isSet⟩
  · cases hstate.symm.trans hdisc
  · rcases hoff with hc | hdisc
    · cases hc
    · cases hstate.symm.trans hdisc
  · change (Session.start fd isSet).conn.state ≠ .kConnecting
    rw [hstate]
    decide

/-- **Nothing happens on a closed connection**, exactly as long as every `sendInLoop` that runs on
it, called or from the queue, finds data in `snd_buffer_` and has an empty message. -/
theorem untouched_along_iff (fd : ℤ) (isSet : CallbacksSet) {as : List Act} {s : SharedConn}
    (h : run step (start fd isSet) as = some s) :
    Along step Untouched (start fd isSet) as ↔ Along step Harmless (start fd isSet) as :=
  along_iff (I := ClosedInv) (fun _ _ => untouched_iff)
    (fun _ _ _ hI _ hH hs => step_closedInv hI hH hs) (along_enabled h) (start_closedInv fd isSet)

/-- The connection closes with data pending and a `Shutdown()` of another thread under way; then
come a call of `Shutdown()` and the functors of an empty `Send` and of the other `Shutdown()`. -/
def lateShutdowns : List Act :=
  [.loop (.ret (.got 0) .wouldBlock), .loop (.send [1, 2] .wouldBlock), .send [], .shutdown,
    .loop .peerClose, .loop (.dispatch POLLHUP (.got 0) .wouldBlock), .setState, .post,
    .loop .shutdown, .loop (.ret (.got 0) .wouldBlock), .run .wouldBlock, .run .wouldBlock]

theorem untouched_along_lateShutdowns :
    Along step Untouched (start 7 ⟨true, true, true, true⟩) lateShutdowns := by
  have hend : (run step (start 7 ⟨true, true, true, true⟩) lateShutdowns).isSome = true := by
    decide +kernel
  obtain ⟨s, hs⟩ := Option.isSome_iff_exists.mp hend
  exact (untouched_along_iff 7 ⟨true, true, true, true⟩ hs).mpr (by decide +kernel)

/-- The connection closes with nothing pending. -/
def closesEmpty : List Act :=
  [.loop (.ret (.got 0) .wouldBlock), .loop .peerClose,
    .loop (.dispatch POLLIN (.got 0) .wouldBlock)]

/-- The connection closes with data pending. -/
def closesPending : List Act :=
  [.loop (.ret (.got 0) .wouldBlock), .loop (.send [1, 2] .wouldBlock), .loop .peerClose,
    .loop (.dispatch POLLHUP (.got 0) .wouldBlock)]

/-- In the down notification, `Send` writes to the socket in the first case, and enables writing in
the poller in the second. -/
theorem late_send_touches :
    (∃ s, run step (start 7 ⟨true, true, true, true⟩) closesEmpty = some s ∧ s.closed = true ∧
      ¬Untouched s (.loop (.send [3] (.wrote 1)))) ∧
    ∃ s s', run step (start 7 ⟨true, true, true, true⟩) closesPending = some s ∧
      s.closed = true ∧ step s (.loop (.send [3] .wouldBlock)) = some s' ∧
      s.session.conn.channel.events = 0 ∧ s'.session.conn.channel.events = POLLOUT ∧
      s'.session.conn.updates = s.session.conn.updates ++ [POLLOUT] := by
  constructor
  · have hend : (run step (start 7 ⟨true, true, true, true⟩) closesEmpty).map (fun s =>
        (s.closed, s.writes (.loop (.send [3] (.wrote 1))),
          (step s (.loop (.send [3] (.wrote 1)))).isSome)) = some (true, true, true) := by
      decide +kernel
    obtain ⟨s, hs, heq⟩ := Option.map_eq_some_iff.mp hend
    simp only [Prod.mk.injEq] at heq
    obtain ⟨hc, hw, hen⟩ := heq
    obtain ⟨s', hs'⟩ := Option.isSome_iff_exists.mp hen
    refine ⟨s, hs, hc, fun hU => ?_⟩
    rw [(hU hc rfl s' hs').1] at hw
    cases hw
  · have hend : (run step (start 7 ⟨true, true, true, true⟩) closesPending).map (fun s =>
        (s.closed, s.session.conn.channel.events, s.session.conn.updates,
          (step s (.loop (.send [3] .wouldBlock))).map fun s' =>
            (s'.session.conn.channel.events, s'.session.conn.updates))) =
        some (true, 0, [3, 7, 0], some (4, [3, 7, 0, 4])) := by decide +kernel
    obtain ⟨s, hs, heq⟩ := Option.map_eq_some_iff.mp hend
    simp only [Prod.mk.injEq, Option.map_eq_some_iff] at heq
    obtain ⟨hc, hev, hup, s', hs', hev', hup'⟩ := heq
    refine ⟨s, s', hs, hc, hs', hev, hev', ?_⟩
    rw [hup, hup']
    rfl

end SharedConn

end Polly
