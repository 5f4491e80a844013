import Polly.Runs
import Polly.Conn

/-!
# Session — one connection, its kernel socket and its user, step by step

A `Session` is a connection together with the stack of user callbacks the loop thread is inside of
(each with what is left to run when it returns).  Between two steps control is with the event loop
(empty stack) or with user code, so user code may act at every step: `send`, `shutdown` and
`retrieve` nest to any depth through the callbacks they cause.  The kernel receives from the peer
at any time.  Everything open is in the action: revents, results of system calls, messages.

The last fields only record history: the messages in the order their `sendInLoop` ran (`log`), the
callbacks invoked (`calls`), all bytes received from the peer (`stream`), the bytes the user has
retrieved (`taken`) and how many bytes had been read when the message callback was last invoked
(`announced`).
-/

namespace Polly

open Runs

/-- One `sendInLoop`: its message, whether it came through the functor queue, and whether its
direct write failed hard. -/
structure SendRec where
  msg : Bytes
  queued : Bool
  dropped : Bool
  deriving DecidableEq, Repr

/-- The bytes of the messages that were not dropped. -/
def payload (log : List SendRec) : Bytes := (log.filter (fun r => !r.dropped)).flatMap SendRec.msg

structure Session where
  conn : Conn
  stack : List (Callback × Rest)
  log : List SendRec
  calls : List Callback
  stream : Bytes
  taken : Bytes
  announced : ℕ

namespace Session

/-- Continue with the outcome of a function: enter the callback it invokes, if any. -/
def after (s : Session) (o : Out) : Session :=
  match o.call with
  | none => { s with conn := o.conn }
  | some (cb, rest) =>
    { s with
      conn := o.conn
      stack := (cb, rest) :: s.stack
      calls := s.calls ++ [cb]
      announced :=
        if cb = .message then s.stream.length - o.conn.sock.queue.length else s.announced }

/-- A new connection right after `ConnectEstablished` has changed the state. -/
def start (fd : ℤ) (isSet : CallbacksSet) : Session :=
  let c := Conn.new fd isSet
  (⟨c, [], [], [], [], [], 0⟩ : Session).after c.connectEstablished

/-- `sendInLoop(msg)`, directly from user code or as a functor. -/
def send (s : Session) (queued : Bool) (msg : Bytes) (w : WriteResult) : Option Session :=
  (s.conn.sendInLoop msg w).map fun o =>
    let r : SendRec := ⟨msg, queued, s.conn.writesDirectly && w == .error⟩
    { s with log := s.log ++ [r] }.after o

inductive Act where
  /-- user code calls `Send(msg)`; `w` is the result of a direct write -/
  | send (msg : Bytes) (w : WriteResult)
  /-- user code calls `Shutdown()` -/
  | shutdown
  /-- user code retrieves from `rev_buffer_` -/
  | retrieve (len : ℕ)
  /-- the innermost user callback returns -/
  | ret (r : ReadResult) (w : WriteResult)
  /-- the loop dispatches what poll reported -/
  | dispatch (revents : BitVec 32) (r : ReadResult) (w : WriteResult)
  /-- bytes of the peer arrive -/
  | arrive (data : Bytes)
  /-- the peer closes -/
  | peerClose
  deriving DecidableEq, Repr

def step (s : Session) : Act → Option Session
  | .send msg w => s.send false msg w
  | .shutdown => some { s with conn := s.conn.shutdown }
  | .retrieve len =>
    (s.conn.revBuffer.retrieve len).map fun b =>
      { s with
        conn := { s.conn with revBuffer := b }
        taken := s.taken ++ s.conn.revBuffer.toList.take len }
  | .ret r w =>
    match s.stack with
    | [] => none
    | (_, rest) :: stack => (s.conn.resume r w rest).map { s with stack := stack }.after
  | .dispatch revents r w =>
    if s.stack = [] then (s.conn.handleEvent revents r w).map s.after else none
  | .arrive data =>
    if s.conn.sock.peerClosed then none
    else
      let sock := s.conn.sock
      some { s with
        conn := { s.conn with sock := { sock with queue := sock.queue ++ data } }
        stream := s.stream ++ data }
  | .peerClose =>
    some { s with conn := { s.conn with sock := { s.conn.sock with peerClosed := true } } }

/-- The states of a connection from its establishment on. -/
abbrev Reachable (s : Session) : Prop := Reach step (fun s => ∃ fd isSet, s = start fd isSet) s

/-! ### The steps that are not plain updates -/

theorem step_ret {s s' : Session} {r : ReadResult} {w : WriteResult}
    (h : step s (.ret r w) = some s') :
    ∃ cb rest stack o, s.stack = (cb, rest) :: stack ∧ s.conn.resume r w rest = some o ∧
      s' = { s with stack := stack }.after o := by
  simp only [step] at h
  split at h
  · cases h
  · rename_i cb rest stack hstack
    obtain ⟨o, ho, rfl⟩ := Option.map_eq_some_iff.mp h
    exact ⟨cb, rest, stack, o, hstack, ho, rfl⟩

theorem step_dispatch {s s' : Session} {revents : BitVec 32} {r : ReadResult} {w : WriteResult}
    (h : step s (.dispatch revents r w) = some s') :
    ∃ o, s.conn.handleEvent revents r w = some o ∧ s' = s.after o := by
  simp only [step] at h
  split_ifs at h
  obtain ⟨o, ho, rfl⟩ := Option.map_eq_some_iff.mp h
  exact ⟨o, ho, rfl⟩

/-- Arriving bytes go to the end of the queue and of the stream. -/
theorem step_arrive {s s' : Session} {data : Bytes} (h : step s (.arrive data) = some s') :
    s' = { s with
      conn := { s.conn with sock := { s.conn.sock with queue := s.conn.sock.queue ++ data } }
      stream := s.stream ++ data } := by
  simp only [step] at h
  split_ifs at h
  exact (Option.some.inj h).symm

/-! ### What `after` leaves alone -/

variable (s : Session) (o : Out)

@[simp] theorem after_conn : (s.after o).conn = o.conn := by
  unfold after; split <;> rfl

@[simp] theorem after_log : (s.after o).log = s.log := by
  unfold after; split <;> rfl

@[simp] theorem after_stream : (s.after o).stream = s.stream := by
  unfold after; split <;> rfl

@[simp] theorem after_taken : (s.after o).taken = s.taken := by
  unfold after; split <;> rfl

theorem mem_after_stack {x : Callback × Rest} (h : x ∈ (s.after o).stack) :
    x ∈ s.stack ∨ o.call = some x := by
  unfold after at h
  split at h
  · exact Or.inl h
  · rename_i cb rest hcall
    rcases List.mem_cons.mp h with rfl | h
    · exact Or.inr hcall
    · exact Or.inl h

/-- A callback is invoked by `after` exactly if the function did. -/
theorem after_calls {cb : Callback} (h : (s.after o).calls = s.calls ++ [cb]) :
    ∃ rest, o.call = some (cb, rest) := by
  unfold after at h
  split at h
  · simp at h
  · rename_i cb' rest hcall
    simp only [List.append_cancel_left_eq, List.cons.injEq, and_true] at h
    subst h
    exact ⟨rest, hcall⟩

end Session

end Polly
