import Polly.SessionSend

/-!
# SessionStrings — `Send` reads its argument through a reference

`Send` and `sendInLoop` take a `std::string const &`.  A direct write that completes invokes the
write-complete callback on the spot, and when it returns `sendInLoop` reads `msg.size()` and
`msg.data()` again, to buffer what is left.  The callback is user code, so by then the caller's
string may have been assigned, or it may have ended and its place holds anything.

A `RefSession` is a session that knows, for each callback under way, which string the interrupted
`sendInLoop` was given; when the callback returns, the contents of that moment take the place of the
message the session has kept (`Session.retWith`).  `Strings` adds the string variables of a program
that calls `Send` in the loop thread and assigns its variables at any time.

* `outgoing_stream_iff`: the outgoing bytes are the messages, in every state of a run, exactly if no
  string has grown when the write-complete callback of its `Send` returns.
* `session_reachable`: while no string is touched until its `Send` has returned, the program runs as
  a `Session`, whose messages are values.
-/

namespace Polly

open Runs

/-- The rest of a function, when the string of an interrupted `sendInLoop` holds `v`. -/
def Rest.reread (v : Option Bytes) : Rest → Rest
  | .sendInLoop msg nwrote => .sendInLoop (v.getD msg) nwrote
  | rest => rest

/-- What a `sendInLoop` under way was given: the caller's variable, what it held when `Send` was
called, and whether it came through the functor queue. -/
structure Given where
  var : ℕ
  call : Bytes
  queued : Bool
  deriving DecidableEq, Repr

namespace Session

/-- The innermost user callback returns to a function whose string holds `v`. -/
def retWith (s : Session) (v : Option Bytes) (r : ReadResult) (w : WriteResult) : Option Session :=
  match s.stack with
  | [] => none
  | (_, rest) :: stack => (s.conn.resume r w (rest.reread v)).map { s with stack := stack }.after

variable {s s' : Session} {v : Option Bytes} {r : ReadResult} {w : WriteResult}

theorem retWith_some (h : s.retWith v r w = some s') :
    ∃ cb rest stack o, s.stack = (cb, rest) :: stack ∧
      s.conn.resume r w (rest.reread v) = some o ∧ s' = { s with stack := stack }.after o := by
  unfold retWith at h
  split at h
  · cases h
  · rename_i cb rest stack hstack
    obtain ⟨o, ho, rfl⟩ := Option.map_eq_some_iff.mp h
    exact ⟨cb, rest, stack, o, hstack, ho, rfl⟩

theorem retWith_eq {cb : Callback} {rest : Rest} {stack : List (Callback × Rest)}
    (hstack : s.stack = (cb, rest) :: stack) :
    s.retWith v r w = (s.conn.resume r w (rest.reread v)).map { s with stack := stack }.after := by
  unfold retWith
  rw [hstack]

/-- With the string as it was, the return is a step of the session. -/
theorem retWith_of_reread
    (h : ∀ cb rest stack, s.stack = (cb, rest) :: stack → rest.reread v = rest) :
    s.retWith v r w = step s (.ret r w) := by
  unfold retWith step
  split
  · rename_i hstack
    rw [hstack]
  · rename_i cb rest stack hstack
    rw [h cb rest stack hstack, hstack]

theorem after_stack (s : Session) (o : Out) : (s.after o).stack = s.stack ∨
    ∃ f, o.call = some f ∧ (s.after o).stack = f :: s.stack := by
  unfold after
  split
  · exact Or.inl rfl
  · rename_i cb rest hcall
    exact Or.inr ⟨(cb, rest), hcall, rfl⟩

/-- `sendInLoop` is left for the callback only after it has written the whole message. -/
theorem send_stack {queued : Bool} {msg : Bytes} (h : s.send queued msg w = some s') :
    s'.stack = s.stack ∨
      s'.stack = (.writeComplete, .sendInLoop msg msg.length) :: s.stack := by
  obtain ⟨o, ho, rfl⟩ := Option.map_eq_some_iff.mp h
  have hafter := after_stack
    { s with log := s.log ++ [⟨msg, queued, s.conn.writesDirectly && w == .error⟩] } o
  rcases hafter with hsame | ⟨f, hf, hpush⟩
  · exact Or.inl hsame
  right
  rw [hpush]
  rcases Conn.sendInLoop_cases ho with ⟨-, rfl⟩ | ⟨-, ⟨-, rfl⟩ | ⟨-, rfl⟩ | ⟨n, -, -, rfl⟩ |
    ⟨-, -, hcall⟩⟩
  · cases hf
  · cases hf
  · cases hf
  · cases hf
  · rw [hf] at hcall
    split_ifs at hcall
    cases hcall
    rfl

/-- The steps other than `send` and `ret` interrupt nothing or enter one callback. -/
theorem step_stack {a : Act} (hsend : ∀ msg w, a ≠ .send msg w) (hret : ∀ r w, a ≠ .ret r w)
    (h : step s a = some s') : s'.stack = s.stack ∨ ∃ f, s'.stack = f :: s.stack := by
  cases a with
  | send msg w => exact absurd rfl (hsend msg w)
  | ret r w => exact absurd rfl (hret r w)
  | shutdown =>
    cases h
    exact Or.inl rfl
  | retrieve len =>
    obtain ⟨b, -, rfl⟩ := Option.map_eq_some_iff.mp h
    exact Or.inl rfl
  | dispatch revents r w =>
    obtain ⟨o, -, rfl⟩ := step_dispatch h
    rcases after_stack s o with hsame | ⟨f, -, hpush⟩
    · exact Or.inl hsame
    · exact Or.inr ⟨f, hpush⟩
  | arrive data =>
    obtain rfl := step_arrive h
    exact Or.inl rfl
  | peerClose =>
    cases h
    exact Or.inl rfl

end Session

/-! ### Sessions that hold references -/

structure RefSession where
  session : Session
  /-- for each callback under way, the innermost first: what the interrupted `sendInLoop` was
  given; `none` if it is not a `sendInLoop` that was interrupted -/
  given : List (Option Given)

namespace RefSession

/-- Continue with a session that may have entered a callback. -/
def enter (given : List (Option Given)) (x : Option Given) (ses : Session) : RefSession :=
  ⟨ses, if given.length < ses.stack.length then x :: given else given⟩

/-- A new connection, as `Session.start`. -/
def start (fd : ℤ) (isSet : CallbacksSet) : RefSession := enter [] none (Session.start fd isSet)

/-- `sendInLoop(msg)`, where the string `x` holds `msg`. -/
def send (s : RefSession) (x : Given) (msg : Bytes) (w : WriteResult) : Option RefSession :=
  (s.session.send x.queued msg w).map (enter s.given (some x))

/-- The innermost user callback returns; `read` is what the strings hold. -/
def ret (s : RefSession) (read : ℕ → Bytes) (r : ReadResult) (w : WriteResult) :
    Option RefSession :=
  (s.session.retWith (s.given.head?.join.map fun x => read x.var) r w).map
    (enter s.given.tail none)

/-- The other steps of a session. -/
def act (s : RefSession) : Session.Act → Option RefSession
  | .send .. | .ret .. => none
  | a => (Session.step s.session a).map (enter s.given none)

/-- `P` holds of every string that a `sendInLoop` under way was given, with the message and the
count that its frame keeps. -/
def Owned (P : Given → Bytes → ℕ → Prop) (s : RefSession) : Prop :=
  List.Forall₂ (fun f x => ∀ y msg n, x = some y → f.2 = .sendInLoop msg n → P y msg n)
    s.session.stack s.given

variable {P P' : Given → Bytes → ℕ → Prop} {s s' : RefSession} {x : Given} {msg : Bytes}
  {read : ℕ → Bytes} {r : ReadResult} {w : WriteResult} {a : Session.Act}

theorem act_some (h : s.act a = some s') : ∃ ses, Session.step s.session a = some ses ∧
    s' = enter s.given none ses ∧ (∀ msg w, a ≠ .send msg w) ∧ ∀ r w, a ≠ .ret r w := by
  cases a with
  | send msg w => cases h
  | ret r w => cases h
  | _ =>
    simp only [act] at h
    obtain ⟨ses, hses, rfl⟩ := Option.map_eq_some_iff.mp h
    exact ⟨ses, hses, rfl, by simp, by simp⟩

theorem send_some (h : s.send x msg w = some s') :
    s.session.send x.queued msg w = some s'.session ∧ s' = enter s.given (some x) s'.session := by
  obtain ⟨ses, hses, rfl⟩ := Option.map_eq_some_iff.mp h
  exact ⟨hses, rfl⟩

theorem ret_some (h : s.ret read r w = some s') :
    s.session.retWith (s.given.head?.join.map fun x => read x.var) r w = some s'.session ∧
      s' = enter s.given.tail none s'.session := by
  obtain ⟨ses, hses, rfl⟩ := Option.map_eq_some_iff.mp h
  exact ⟨hses, rfl⟩

/-- A callback that is entered comes with what its `sendInLoop` was given. -/
theorem owned_enter {stack : List (Callback × Rest)} {given : List (Option Given)}
    {y : Option Given} {ses : Session}
    (h : List.Forall₂ (fun f x => ∀ y msg n, x = some y → f.2 = .sendInLoop msg n → P y msg n)
      stack given)
    (hses : ses.stack = stack ∨ ∃ f, ses.stack = f :: stack ∧
      ∀ z msg n, y = some z → f.2 = .sendInLoop msg n → P z msg n) :
    (enter given y ses).Owned P := by
  have hlen := h.length_eq
  unfold Owned enter
  rcases hses with hsame | ⟨f, hpush, hf⟩
  · rw [hsame, if_neg (by omega)]
    exact h
  · rw [hpush, if_pos (by simp [hlen])]
    exact .cons hf h

theorem owned_start (fd : ℤ) (isSet : CallbacksSet) : (start fd isSet).Owned P := by
  refine owned_enter .nil ((Session.after_stack _ _).imp_right ?_)
  rintro ⟨f, -, hf⟩
  exact ⟨f, hf, by simp⟩

theorem Owned.act (h : s.Owned P) (hs : s.act a = some s') : s'.Owned P := by
  obtain ⟨ses, hses, rfl, hsend, hret⟩ := act_some hs
  refine owned_enter h ((Session.step_stack hsend hret hses).imp_right ?_)
  rintro ⟨f, hf⟩
  exact ⟨f, hf, by simp⟩

theorem Owned.send (h : s.Owned P) (hP : P x msg msg.length) (hs : s.send x msg w = some s') :
    s'.Owned P := by
  obtain ⟨hses, heq⟩ := send_some hs
  rw [heq]
  refine owned_enter h ((Session.send_stack hses).imp_right fun hpush => ⟨_, hpush, ?_⟩)
  intro z msg' n hz hrest
  cases hz
  cases hrest
  exact hP

theorem Owned.ret (h : s.Owned P) (hs : s.ret read r w = some s') : s'.Owned P := by
  obtain ⟨hses, heq⟩ := ret_some hs
  obtain ⟨cb, rest, stack, o, hstack, -, hs'⟩ := Session.retWith_some hses
  unfold Owned at h
  rw [hstack] at h
  obtain ⟨z, given, -, htail, hgiven⟩ := List.forall₂_cons_left_iff.mp h
  rw [heq, hgiven, hs']
  refine owned_enter htail ((Session.after_stack { s.session with stack := stack } o).imp_right ?_)
  rintro ⟨f, -, hf⟩
  exact ⟨f, hf, by simp⟩

/-- The string of the innermost `sendInLoop` under way. -/
theorem Owned.top (h : s.Owned P) {cb : Callback} {n : ℕ} {stack : List (Callback × Rest)}
    (hstack : s.session.stack = (cb, .sendInLoop msg n) :: stack)
    (hx : s.given.head? = some (some x)) : P x msg n := by
  unfold Owned at h
  rw [hstack] at h
  obtain ⟨z, given, hz, -, hgiven⟩ := List.forall₂_cons_left_iff.mp h
  rw [hgiven, List.head?_cons, Option.some.injEq] at hx
  exact hz x msg n hx rfl

theorem Owned.mono (h : s.Owned P) (hPP : ∀ y msg n, some y ∈ s.given → P y msg n → P' y msg n) :
    s.Owned P' := by
  unfold Owned at h ⊢
  generalize s.session.stack = stack at h ⊢
  generalize s.given = given at h hPP ⊢
  induction h with
  | nil => exact .nil
  | cons hf _ ih =>
    refine .cons (fun y msg n hy hrest => ?_) (ih fun y msg n hy => ?_)
    · subst hy
      exact hPP y msg n List.mem_cons_self (hf y msg n rfl hrest)
    · exact hPP y msg n (List.mem_cons_of_mem _ hy)

end RefSession

/-! ### A program with string variables -/

structure Strings where
  ref : RefSession
  /-- the string variables; `none` if not live -/
  vars : ℕ → Option Bytes

namespace Strings

def start (fd : ℤ) (isSet : CallbacksSet) (vars : ℕ → Option Bytes) : Strings :=
  ⟨.start fd isSet, vars⟩

/-- What a string holds; anything, if it has ended. -/
def read (s : Strings) (garbage : Bytes) (n : ℕ) : Bytes := (s.vars n).getD garbage

inductive Act where
  /-- a step of the connection other than a `Send` or the return of a callback -/
  | session (a : Session.Act)
  /-- a string variable is declared, assigned, or ends (`none`) -/
  | set (n : ℕ) (v : Option Bytes)
  /-- user code calls `Send` with a variable; `w` is the result of a direct write -/
  | send (n : ℕ) (w : WriteResult)
  /-- the innermost user callback returns; `garbage` is what a string that has ended holds -/
  | ret (garbage : Bytes) (r : ReadResult) (w : WriteResult)

def step (s : Strings) : Act → Option Strings
  | .session a => (s.ref.act a).map fun ref => { s with ref := ref }
  | .set n v => some { s with vars := Function.update s.vars n v }
  | .send n w =>
    (s.vars n).bind fun msg =>
      (s.ref.send ⟨n, msg, false⟩ msg w).map fun ref => { s with ref := ref }
  | .ret garbage r w => (s.ref.ret (s.read garbage) r w).map fun ref => { s with ref := ref }

theorem step_send {s s' : Strings} {n : ℕ} {w : WriteResult} (h : step s (.send n w) = some s') :
    ∃ msg, s.vars n = some msg ∧ s.ref.send ⟨n, msg, false⟩ msg w = some s'.ref ∧
      s'.vars = s.vars := by
  obtain ⟨msg, hmsg, h⟩ := Option.bind_eq_some_iff.mp h
  obtain ⟨ref, href, rfl⟩ := Option.map_eq_some_iff.mp h
  exact ⟨msg, hmsg, href, rfl⟩

/-- **What a step is to keep**: the bytes the socket accepted followed by the readable bytes of
`snd_buffer_` are the messages in the order their `sendInLoop` ran, without those whose direct write
failed hard; and a step that invokes the write-complete callback leaves the buffer empty with every
byte of every message accepted. -/
def Streams (s s' : Strings) : Prop :=
  s'.ref.session.conn.sock.accepted ++ s'.ref.session.conn.sndBuffer.toList =
      payload s'.ref.session.log ∧
    (s'.ref.session.calls = s.ref.session.calls ++ [.writeComplete] →
      s'.ref.session.conn.sndBuffer.toList = [] ∧
      s'.ref.session.conn.sock.accepted = payload s'.ref.session.log)

/-- When the write-complete callback that a `Send` has invoked returns, the string of that `Send` is
not longer than it was at the call. -/
def NotGrown (s : Strings) : Act → Prop
  | .ret garbage _ _ => ∀ cb msg nwrote stack x,
      s.ref.session.stack = (cb, .sendInLoop msg nwrote) :: stack →
      s.ref.given.head? = some (some x) → (s.read garbage x.var).length ≤ x.call.length
  | _ => True

/-! ### The outgoing stream -/

/-- The stream, and every `sendInLoop` under way has written the string it was given. -/
structure StreamInv (s : Strings) : Prop where
  sends : s.ref.session.SendInv
  written : s.ref.Owned fun x _ nwrote => nwrote = x.call.length

variable {s s' : Strings} {garbage : Bytes} {r : ReadResult} {w : WriteResult}

theorem streams_of_sendInv (hI : s'.ref.session.SendInv)
    (hempty : s.ref.session.CompletesEmpty s'.ref.session) : Streams s s' := by
  refine ⟨hI.stream, fun hcalls => ?_⟩
  have hnil := hempty hcalls
  have hstream := hI.stream
  rw [Conn.outgoing, hnil, List.append_nil] at hstream
  exact ⟨hnil, hstream⟩

/-- The return into a `sendInLoop` whose string has not grown. -/
theorem ret_sendInv (hI : StreamInv s) (hgrown : s.NotGrown (.ret garbage r w))
    (h : step s (.ret garbage r w) = some s') :
    s'.ref.session.SendInv ∧ s.ref.session.CompletesEmpty s'.ref.session := by
  obtain ⟨ref, href, rfl⟩ := Option.map_eq_some_iff.mp h
  obtain ⟨hses, -⟩ := RefSession.ret_some href
  obtain ⟨cb, rest, stack, o, hstack, ho, heq⟩ := Session.retWith_some hses
  have hret := hI.sends.returns
  rw [hstack] at hret
  have hshort : ∀ msg n, rest.reread (s.ref.given.head?.join.map fun x => s.read garbage x.var) =
      .sendInLoop msg n → msg.length ≤ n := by
    intro msg n hrest
    cases rest with
    | sendInLoop msg' n =>
      cases hrest
      cases hx : s.ref.given.head? with
      | none => exact hret cb msg' n List.mem_cons_self
      | some x =>
        cases x with
        | none => exact hret cb msg' n List.mem_cons_self
        | some x =>
          rw [hI.written.top hstack hx]
          exact hgrown cb msg' n stack x hstack hx
    | _ => cases hrest
  obtain ⟨hout, hcall⟩ := Conn.resume_outgoing hshort ho
  rw [heq]
  exact Session.after_sendInv (s := { s.ref.session with stack := stack })
    (hout.trans hI.sends.stream)
    (fun cb msg n hmem => hret cb msg n (List.mem_cons_of_mem _ hmem)) hcall

theorem step_streamInv {a : Act} (hI : StreamInv s) (hgrown : s.NotGrown a)
    (h : step s a = some s') : StreamInv s' ∧ Streams s s' := by
  cases a with
  | session a =>
    obtain ⟨ref, href, rfl⟩ := Option.map_eq_some_iff.mp h
    have howned := hI.written.act href
    obtain ⟨ses, hses, rfl, -, -⟩ := RefSession.act_some href
    obtain ⟨hsend, hempty⟩ := Session.step_sendInv hI.sends hses
    exact ⟨⟨hsend, howned⟩, streams_of_sendInv hsend hempty⟩
  | set n v =>
    cases h
    exact ⟨⟨hI.sends, hI.written⟩,
      streams_of_sendInv hI.sends (Session.completesEmpty_of_calls rfl)⟩
  | send n w =>
    obtain ⟨msg, -, href, -⟩ := step_send h
    obtain ⟨hsend, hempty⟩ := Session.send_sendInv hI.sends (RefSession.send_some href).1
    exact ⟨⟨hsend, hI.written.send rfl href⟩, streams_of_sendInv hsend hempty⟩
  | ret garbage r w =>
    obtain ⟨hsend, hempty⟩ := ret_sendInv hI hgrown h
    obtain ⟨ref, href, rfl⟩ := Option.map_eq_some_iff.mp h
    exact ⟨⟨hsend, hI.written.ret href⟩, streams_of_sendInv hsend hempty⟩

/-- A string that has grown puts bytes into the stream that no message has. -/
theorem notGrown_of_streams {a : Act} (hI : StreamInv s)
    (h : ∀ s', step s a = some s' → Streams s s') : s.NotGrown a := by
  cases a with
  | ret garbage r w =>
    intro cb msg nwrote stack x hstack hx
    have hwritten := hI.written.top hstack hx
    have hses : s.ref.session.retWith
        (s.ref.given.head?.join.map fun x => s.read garbage x.var) r w =
        some ({ s.ref.session with stack := stack }.after
          (s.ref.session.conn.sendRest (s.read garbage x.var) nwrote).ends) := by
      rw [Session.retWith_eq hstack, hx]
      rfl
    have hstep : step s (.ret garbage r w) =
        some ⟨RefSession.enter s.ref.given.tail none _, s.vars⟩ :=
      Option.map_eq_some_iff.mpr ⟨_, Option.map_eq_some_iff.mpr ⟨_, hses, rfl⟩, rfl⟩
    have hstream : (s.ref.session.conn.sendRest (s.read garbage x.var) nwrote).outgoing =
        payload s.ref.session.log := (h _ hstep).1
    rw [Conn.sendRest_outgoing, hI.sends.stream, List.append_right_eq_self,
      List.drop_eq_nil_iff] at hstream
    rwa [hwritten] at hstream
  | _ => trivial

theorem start_streamInv (fd : ℤ) (isSet : CallbacksSet) (vars : ℕ → Option Bytes) :
    StreamInv (start fd isSet vars) :=
  ⟨Session.start_sendInv fd isSet, RefSession.owned_start fd isSet⟩

/-- **Outgoing byte-stream integrity**, exactly: every step of a run keeps the stream if and only if
no string has grown when the write-complete callback of its `Send` returns. -/
theorem outgoing_stream_iff (fd : ℤ) (isSet : CallbacksSet) (vars : ℕ → Option Bytes)
    (as : List Act) :
    Along step (fun s a => ∀ s', step s a = some s' → Streams s s') (start fd isSet vars) as ↔
      Along step NotGrown (start fd isSet vars) as := by
  have hL : Along step (fun _ _ => True) (start fd isSet vars) as :=
    along_of_forall _ fun _ _ => trivial
  refine along_iff (I := StreamInv) (fun s a hI _ => ⟨notGrown_of_streams hI, ?_⟩)
    (fun s a s' hI _ hgrown h => (step_streamInv hI hgrown h).1) hL (start_streamInv fd isSet vars)
  exact fun hgrown s' h => (step_streamInv hI hgrown h).2

/-- A callback that uses its caller's string for the next chunk: `A` is sent, and the write-complete
callback assigns `BCD` to the same variable and sends it. -/
def reusedChunk : List Act :=
  [.ret [] (.got 0) .wouldBlock, .set 0 (some [65]), .send 0 (.wrote 1), .set 0 (some [66, 67, 68]),
    .send 0 (.wrote 3), .ret [] (.got 0) .wouldBlock, .ret [] (.got 0) .wouldBlock]

/-- The outer `sendInLoop` finds a longer string than it has written and buffers the end of it:
`ABCD` has been sent, and `CD` is about to be sent once more. -/
theorem outgoing_stream_reusedChunk :
    ∃ s, run step (start 7 ⟨true, true, true, true⟩ fun _ => none) reusedChunk = some s ∧
      payload s.ref.session.log = [65, 66, 67, 68] ∧
      s.ref.session.conn.sock.accepted ++ s.ref.session.conn.sndBuffer.toList =
        [65, 66, 67, 68, 67, 68] ∧
      s.ref.session.conn.sock.accepted ++ s.ref.session.conn.sndBuffer.toList ≠
        payload s.ref.session.log := by
  have hend : (run step (start 7 ⟨true, true, true, true⟩ fun _ => none) reusedChunk).map (fun s =>
      (payload s.ref.session.log,
        s.ref.session.conn.sock.accepted ++ s.ref.session.conn.sndBuffer.toList)) =
      some ([65, 66, 67, 68], [65, 66, 67, 68, 67, 68]) := by decide +kernel
  obtain ⟨s, hs, heq⟩ := Option.map_eq_some_iff.mp hend
  rw [Prod.mk.injEq] at heq
  refine ⟨s, hs, heq.1, heq.2, ?_⟩
  rw [heq.1, heq.2]
  simp

/-! ### Strings that are left alone -/

/-- No string is assigned or ended while a `Send` of it is under way. -/
def leavesGiven (s : Strings) : Act → Bool
  | .set n _ => s.ref.given.all fun x => x.all fun y => y.var != n
  | _ => true

/-- The session is one of values, and the strings of the `Send`s under way hold their messages. -/
structure ValueInv (s : Strings) : Prop where
  reachable : s.ref.session.Reachable
  held : s.ref.Owned fun x msg _ => s.vars x.var = some msg

theorem step_valueInv {a : Act} (hI : ValueInv s) (hleaves : s.leavesGiven a = true)
    (h : step s a = some s') : ValueInv s' := by
  cases a with
  | session a =>
    obtain ⟨ref, href, rfl⟩ := Option.map_eq_some_iff.mp h
    have howned := hI.held.act href
    obtain ⟨ses, hses, rfl, -, -⟩ := RefSession.act_some href
    exact ⟨hI.reachable.next hses, howned⟩
  | set n v =>
    cases h
    refine ⟨hI.reachable, hI.held.mono fun y msg _ hy hmsg => ?_⟩
    have hne : y.var ≠ n := by simpa using List.all_eq_true.mp hleaves (some y) hy
    exact (Function.update_of_ne hne ..).trans hmsg
  | send n w =>
    obtain ⟨msg, hmsg, href, hvars⟩ := step_send h
    have hses : Session.step s.ref.session (.send msg w) = some s'.ref.session :=
      (RefSession.send_some href).1
    refine ⟨hI.reachable.next hses, ?_⟩
    rw [hvars]
    exact hI.held.send hmsg href
  | ret garbage r w =>
    obtain ⟨ref, href, rfl⟩ := Option.map_eq_some_iff.mp h
    obtain ⟨hses, -⟩ := RefSession.ret_some href
    rw [Session.retWith_of_reread] at hses
    · exact ⟨hI.reachable.next hses, hI.held.ret href⟩
    · intro cb rest stack hstack
      cases rest with
      | sendInLoop msg n =>
        cases hx : s.ref.given.head? with
        | none => rfl
        | some x =>
          cases x with
          | none => rfl
          | some x => simp [Rest.reread, read, hI.held.top hstack hx]
      | _ => rfl

/-- **Strings that are left alone are values**: in a run in which no string is assigned or ended
until its `Send` has returned, the connection passes through states of a `Session`. -/
theorem session_reachable {fd : ℤ} {isSet : CallbacksSet} {vars : ℕ → Option Bytes}
    {as : List Act} (h : run step (start fd isSet vars) as = some s)
    (hleaves : Along step (fun s a => s.leavesGiven a = true) (start fd isSet vars) as) :
    s.ref.session.Reachable := by
  have hstart : ValueInv (start fd isSet vars) :=
    ⟨⟨_, [], ⟨fd, isSet, rfl⟩, rfl⟩, RefSession.owned_start fd isSet⟩
  exact (run_inv_along (I := ValueInv) (fun _ _ _ => step_valueInv) h hleaves hstart).reachable

/-- Two `Send`s of one variable, the second one from inside the write-complete callback of a `Send`
of another one. -/
def freshChunks : List Act :=
  [.ret [] (.got 0) .wouldBlock, .set 0 (some [65]), .send 0 (.wrote 1), .set 1 (some [66, 67, 68]),
    .send 1 (.wrote 3), .ret [] (.got 0) .wouldBlock, .set 1 none, .ret [] (.got 0) .wouldBlock,
    .set 0 (some [69])]

theorem session_reachable_freshChunks :
    ∃ s, run step (start 7 ⟨true, true, true, true⟩ fun _ => none) freshChunks = some s ∧
      s.ref.session.log.map SendRec.msg = [[65], [66, 67, 68]] ∧ s.ref.session.Reachable := by
  have hend : (run step (start 7 ⟨true, true, true, true⟩ fun _ => none) freshChunks).map (fun s =>
      s.ref.session.log.map SendRec.msg) = some [[65], [66, 67, 68]] := by decide +kernel
  obtain ⟨s, hs, hlog⟩ := Option.map_eq_some_iff.mp hend
  exact ⟨s, hs, hlog, session_reachable hs (by decide +kernel)⟩

end Strings

end Polly
