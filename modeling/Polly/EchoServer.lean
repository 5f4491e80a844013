import Polly.ServerConns

/-!
# EchoServer — the echo server (`examples/echo/main.cc`)

`main` starts a server whose message callback sends back whatever it finds in the buffer.  A step
of the echo server is a whole dispatch: `HandleEvent` of a connection with the callbacks it invokes,
each run to its end by the user code of `main`.  Everything goes through `TcpServer.step`.

* `Expands`: what an echo server does is a run of a server that sends on open connections only.
* `echoes`: in every run every client gets back its own bytes in order, and nothing else.
* `echo_completes`: from every state the server can get to, all of it.
-/

namespace Polly

open Runs Conn TcpServer

namespace EchoServer

/-- The callbacks `main` sets. -/
def isSet : CallbacksSet where
  connection := true
  message := true
  close := false
  writeComplete := false

/-- `main` up to `loop.loop()`. -/
def main (listenFd : ℤ) (others : ℤ → Option ℕ) : TcpServer :=
  TcpServer.new "test" isSet listenFd others

/-- The message callback: copy what is readable, `retrieveAll`, `Send` the copy. -/
def onMessage (s : TcpServer) (i : ℕ) (w : WriteResult) : Option TcpServer :=
  s.conns[i]?.bind fun c =>
    run TcpServer.step s
      [.retrieve i c.revBuffer.readableBytes, .send i c.revBuffer.toList w, .ret]

/-- The connection callback only prints. -/
def onConnection (s : TcpServer) : Option TcpServer := TcpServer.step s .ret

/-- The callback an event of connection `i` has invoked, if any: the down notification once the
connection is closed. -/
def callback (s : TcpServer) (i : ℕ) (w : WriteResult) : Option TcpServer :=
  if s.frames.isEmpty then some s
  else if s.conns[i]?.all fun c => c.state == .kDisconnected then onConnection s
  else onMessage s i w

inductive Act where
  /-- a connection is accepted -/
  | accept (fd : ℤ)
  /-- poll has reported `revents` for connection `i`; `ws` is the result of a direct write of
  `Send`, `w` that of the write of `HandleWrite` -/
  | event (i : ℕ) (revents : BitVec 32) (r : ReadResult) (ws w : WriteResult)
  /-- bytes of the peer arrive -/
  | arrive (i : ℕ) (data : Bytes)
  /-- the peer closes -/
  | peerClose (i : ℕ)
  deriving DecidableEq, Repr

def step (s : TcpServer) : Act → Option TcpServer
  | .accept fd => (TcpServer.step s (.accept fd)).bind onConnection
  | .event i revents r ws w =>
    (TcpServer.step s (.event i revents r w)).bind fun s => (callback s i ws).bind fun s =>
      if s.dispatching.isSome then TcpServer.step s (.checkOut w) else some s
  | .arrive i data => TcpServer.step s (.arrive i data)
  | .peerClose i => TcpServer.step s (.peerClose i)

variable {s s' t : TcpServer} {i : ℕ} {c : Conn} {o : Out} {base : Registry}

/-! ### Dispatch -/

/-- Between two events of a running echo server. -/
structure Idle (s : TcpServer) : Prop where
  phase : s.phase = .running
  frames : s.frames = []
  dispatching : s.dispatching = none
  isSet : s.isSet = isSet

/-- Nothing that writes invokes a callback here. -/
theorem sendInLoop_call_none {msg : Bytes} {w : WriteResult} (h : c.sendInLoop msg w = some o)
    (hset : c.isSet.writeComplete = false) : o.call = none := by
  rcases sendInLoop_cases h with
    ⟨-, rfl⟩ | ⟨-, ⟨-, rfl⟩ | ⟨-, rfl⟩ | ⟨n, -, -, rfl⟩ | ⟨-, -, hcall⟩⟩
  · rfl
  · rfl
  · rfl
  · rfl
  · rw [hcall, if_neg (by rw [hset]; decide)]

theorem handleWrite_call_none {left : List EventCallback} {w : WriteResult}
    (h : c.handleWrite left w = some o) (hset : c.isSet.writeComplete = false) : o.call = none := by
  rcases handleWrite_cases h with
    rfl | ⟨-, n, snd, -, -, -, ⟨-, rfl⟩ | ⟨-, ⟨hset', rfl⟩ | ⟨-, rfl⟩⟩⟩
  · rfl
  · rfl
  · rw [hset] at hset'
    cases hset'
  · rfl

/-- What an event of a connection leaves before its callback is run. -/
inductive Dispatched (i : ℕ) (rev : Buf) (o : Out) (t : TcpServer) : Prop where
  | quiet (hframes : t.frames = []) (hrev : o.conn.revBuffer.toList = rev.toList)
  | down (held : List Ref) (hframes : t.frames = [⟨i, .event [], held⟩])
    (hstate : o.conn.state = .kDisconnected) (hrev : o.conn.revBuffer.toList = rev.toList)
  | message (held : List Ref) (hframes : t.frames = [⟨i, .event [], held⟩]) (hheld : held ≠ [])
    (hstate : o.conn.state ≠ .kDisconnected) (hd : t.dispatching = some i)

/-- The frame of the callback an outcome invokes. -/
def frameOf (i : ℕ) (held : List Ref) (o : Out) : List Frame :=
  (o.call.map fun call => ⟨i, call.2, held⟩).toList

theorem enter_frames {held : List Ref} (hframes : s.frames = []) :
    (s.enter i c o held).frames = frameOf i held o := by
  obtain ⟨c', call⟩ := o
  cases call with
  | none => exact hframes
  | some call => exact congrArg _ hframes

section Outcomes

variable {held : List Ref} {r : ReadResult} {w : WriteResult} (ht : t.frames = frameOf i held o)
include ht

theorem dispatched_of_none (hcall : o.call = none)
    (hrev : o.conn.revBuffer.toList = c.revBuffer.toList) : Dispatched i c.revBuffer o t :=
  .quiet (by rw [ht, frameOf, hcall]; rfl) hrev

theorem handleClose_dispatched (h : c.handleClose [] = some o) : Dispatched i c.revBuffer o t := by
  obtain ⟨-, hconn, hcall⟩ := handleClose_cases h
  have hrev : o.conn.revBuffer.toList = c.revBuffer.toList := by rw [hconn]; rfl
  rcases hcall with hcall | hcall
  · exact dispatched_of_none ht hcall hrev
  · exact .down held (by rw [ht, frameOf, hcall]; rfl) (by rw [hconn]; rfl) hrev

theorem handleRead_dispatched (hd : t.dispatching = some i) (hheld : held ≠ [])
    (hopen : c.state ≠ .kDisconnected) (hset : c.isSet.message = true)
    (h : c.handleRead [] r = some o) : Dispatched i c.revBuffer o t := by
  rcases handleRead_cases h with rfl | ⟨n, -, -, hconn, hcall⟩ | ⟨-, -, -, hclose⟩
  · exact dispatched_of_none ht rfl rfl
  · rw [if_pos hset] at hcall
    exact .message held (by rw [ht, frameOf, hcall]; rfl) hheld (by rw [hconn]; exact hopen) hd
  · have hrev : (c.received 0).revBuffer.toList = c.revBuffer.toList := by
      rw [received, Buf.toList_readBytes, List.take_zero, List.append_nil]
    cases handleClose_dispatched ht hclose with
    | quiet hf h' => exact .quiet hf (h'.trans hrev)
    | down held' hf hstate h' => exact .down held' hf hstate (h'.trans hrev)
    | message _ _ _ hstate => exact absurd (by rw [(handleClose_cases hclose).2.1]; rfl) hstate

theorem handleWrite_dispatched (hset : c.isSet.writeComplete = false)
    (h : c.handleWrite [] w = some o) : Dispatched i c.revBuffer o t :=
  dispatched_of_none ht (handleWrite_call_none h hset) (by rw [(handleWrite_keepsIn h).revBuffer])

end Outcomes

/-- What an event of connection `i` does up to its callback. -/
structure EventOf (s : TcpServer) (i : ℕ) (c : Conn) (o : Out) (t : TcpServer) : Prop where
  outgoing : o.conn.outgoing = c.outgoing
  incoming : o.conn.incoming = c.incoming
  conns : t.conns = s.conns.set i o.conn
  phase : t.phase = s.phase
  isSet : t.isSet = s.isSet
  due : t.dispatching = none ∨ t.dispatching = some i
  dispatched : Dispatched i c.revBuffer o t

theorem handleEvent_eventOf {r : ReadResult} {w : WriteResult}
    (h : s.handleEvent i c r w = some t) (hframes : s.frames = []) (hd : s.dispatching = none)
    (hopen : c.state ≠ .kDisconnected) (hset : c.isSet = { isSet with close := true }) :
    ∃ o, EventOf s i c o t := by
  have hmessage : c.isSet.message = true := by rw [hset]; rfl
  have hcomplete : c.isSet.writeComplete = false := by rw [hset]; rfl
  unfold TcpServer.handleEvent at h
  split at h
  · obtain ⟨o, ho, rfl⟩ := closing_some h
    obtain ⟨hout, hin, -⟩ := handleClose_keepsBytes ho
    exact ⟨o, hout, hin, rfl, rfl, rfl, Or.inl hd,
      handleClose_dispatched (enter_frames hframes) ho⟩
  · dsimp only at h
    split_ifs at h
    · obtain ⟨o, ho, rfl⟩ := closing_some h
      obtain ⟨hout, hin, -⟩ := handleRead_keepsBytes ho
      exact ⟨o, hout, hin, rfl, rfl, rfl, Or.inr rfl,
        handleRead_dispatched (enter_frames hframes) rfl (by simp) hopen hmessage ho⟩
    · obtain ⟨o, ho, rfl⟩ := Option.map_eq_some_iff.mp h
      obtain ⟨hout, hin, -⟩ := handleRead_keepsBytes ho
      exact ⟨o, hout, hin, rfl, rfl, rfl, Or.inr rfl,
        handleRead_dispatched (enter_frames hframes) rfl (by simp) hopen hmessage ho⟩
  · obtain ⟨o, ho, rfl⟩ := Option.map_eq_some_iff.mp h
    obtain ⟨hout, hin, -⟩ := handleWrite_keepsBytes ho
    exact ⟨o, hout, hin, rfl, rfl, rfl, Or.inl hd,
      handleWrite_dispatched (enter_frames hframes) hcomplete ho⟩
  · cases h
    exact ⟨c.ends, rfl, rfl, rfl, rfl, rfl, Or.inl hd,
      dispatched_of_none (enter_frames hframes) rfl rfl⟩

/-- **An event**, up to its callback. -/
theorem event_eventOf {revents : BitVec 32} {r : ReadResult} {w : WriteResult}
    (hI : ServerInv base s) (hidle : Idle s)
    (h : TcpServer.step s (.event i revents r w) = some t) :
    ∃ c o, s.conns[i]? = some c ∧ EventOf s i c o t := by
  obtain ⟨c, hc, -, hframes, hd, hreg, h⟩ := step_event h
  have hopen : c.state ≠ .kDisconnected := (hI.poll.registered i c hc).mp hreg
  have hset : c.isSet = { isSet with close := true } := by
    rw [(hI.steady i c hc).2, hidle.isSet]
  obtain ⟨o, ho⟩ := handleEvent_eventOf h hframes hd hopen hset
  exact ⟨c, o, hc, ho.outgoing, ho.incoming, ho.conns, ho.phase, ho.isSet, ho.due, ho.dispatched⟩

/-! ### Callbacks -/

/-- Retrieving everything that is readable is `retrieveAll`. -/
theorem retrieve_readableBytes (b : Buf) : b.retrieve b.readableBytes = some b.retrieveAll := by
  unfold Buf.retrieve
  rw [dif_pos le_rfl]
  have h : b.raw.retrieve b.readableBytes = some b.raw.retrieveAll := by
    simp [Buffer.retrieve, Buf.readableBytes]
  simp [Buf.ofOption, Buf.retrieveAll, h]

/-- A callback that does nothing more returns. -/
theorem ret_eq {rest : Rest} {held : List Ref} (hphase : s.phase = .running)
    (hframes : s.frames = [⟨i, rest, held⟩])
    (hrest : c.resume (.got 0) .wouldBlock rest = some c.ends) (hc : s.conns[i]? = some c) :
    TcpServer.step s .ret = some ({ s with frames := [] }.enter i c c.ends []) := by
  have hin : s.inDestructor = false := by simp [inDestructor, hphase]
  simp only [TcpServer.step, hframes, hin, Bool.false_eq_true, if_false, hc, Option.bind_some,
    hrest, Option.map_some]

theorem callable_of_frame {held : List Ref} (hphase : s.phase = .running)
    (hframes : s.frames = [⟨i, .event [], held⟩]) (hheld : held ≠ []) : s.callable i = true := by
  have hrefs : s.refs i ≠ 0 := by
    rw [Ne, refs_eq_zero, hframes]
    rintro ⟨-, -, h⟩
    exact hheld (h _ List.mem_cons_self rfl)
  simp [callable, inUserCode, inDestructor, hphase, hframes, hrefs]

/-- The connection after `buffer->retrieveAll()`. -/
def retrieved (c : Conn) : Conn := { c with revBuffer := c.revBuffer.retrieveAll }

theorem retrieve_eq {held : List Ref} (hphase : s.phase = .running)
    (hframes : s.frames = [⟨i, .event [], held⟩]) (hheld : held ≠ [])
    (hc : s.conns[i]? = some c) :
    TcpServer.step s (.retrieve i c.revBuffer.readableBytes) =
      some (s.enter i c (retrieved c).ends []) := by
  simp only [TcpServer.step, hc, Option.bind_some, callable_of_frame hphase hframes hheld, if_true,
    retrieve_readableBytes, Option.map_some]
  rfl

/-- The server after the message callback, with the outcome of its `Send`. -/
def echoed (s : TcpServer) (i : ℕ) (c : Conn) (o : Out) : TcpServer :=
  { (s.enter i c (retrieved c).ends []).enter i (retrieved c) o [.functor] with
    frames := [] }.enter i o.conn o.conn.ends []

theorem echoed_conns : (echoed s i c o).conns = s.conns.set i o.conn := by
  change ((s.conns.set i _).set i o.conn).set i o.conn = _
  rw [List.set_set, List.set_set]

/-- **The message callback** is one `Send` of what was received. -/
theorem onMessage_eq {held : List Ref} {w : WriteResult} (hphase : s.phase = .running)
    (hframes : s.frames = [⟨i, .event [], held⟩]) (hheld : held ≠ [])
    (hc : s.conns[i]? = some c) (hset : c.isSet.writeComplete = false) :
    onMessage s i w =
      ((retrieved c).sendInLoop c.revBuffer.toList w).map (echoed s i c) := by
  have hi : i < s.conns.length := lt_of_getElem? hc
  set s₁ := s.enter i c (retrieved c).ends []
  have hp₁ : s₁.phase = .running := hphase
  have hf₁ : s₁.frames = [⟨i, .event [], held⟩] := hframes
  have hc₁ : s₁.conns[i]? = some (retrieved c) := List.getElem?_set_self hi
  have h₁ : TcpServer.step s (.retrieve i c.revBuffer.readableBytes) = some s₁ :=
    retrieve_eq hphase hframes hheld hc
  have h₂ : TcpServer.step s₁ (.send i c.revBuffer.toList w) =
      ((retrieved c).sendInLoop c.revBuffer.toList w).map fun o =>
        s₁.enter i (retrieved c) o [.functor] := by
    simp only [TcpServer.step, hc₁, Option.bind_some, callable_of_frame hp₁ hf₁ hheld, if_true]
  rw [onMessage, hc, Option.bind_some, run_cons, h₁, Option.bind_some, run_cons, h₂]
  cases ho : (retrieved c).sendInLoop c.revBuffer.toList w with
  | none => rfl
  | some o =>
    have hcall : o.call = none := sendInLoop_call_none ho hset
    have hf₂ : (s₁.enter i (retrieved c) o [.functor]).frames = [⟨i, .event [], held⟩] := by
      simp only [enter, hcall]
      exact hf₁
    have hc₂ : (s₁.enter i (retrieved c) o [.functor]).conns[i]? = some o.conn :=
      List.getElem?_set_self (lt_of_getElem? hc₁)
    rw [Option.map_some, Option.bind_some, run_single, Option.map_some]
    exact ret_eq hphase hf₂ rfl hc₂

/-! ### Servers that send on open connections only -/

/-- A run of the server in which `Send` is called on open connections only. -/
def Expands (s t : TcpServer) : Prop :=
  ∃ bs, run TcpServer.step s bs = some t ∧
    Along TcpServer.step (fun s a => sendsOpen s a = true) s bs

theorem Expands.refl (s : TcpServer) : Expands s s := ⟨[], rfl, trivial⟩

theorem Expands.trans {u : TcpServer} (h₁ : Expands s t) (h₂ : Expands t u) : Expands s u := by
  obtain ⟨as, hrun, hopen⟩ := h₁
  obtain ⟨bs, hrun', hopen'⟩ := h₂
  refine ⟨as ++ bs, by rw [run_append, hrun, Option.bind_some, hrun'], ?_⟩
  rw [along_append]
  refine ⟨hopen, fun t' ht' => ?_⟩
  rw [hrun] at ht'
  cases ht'
  exact hopen'

theorem expands_step {a : TcpServer.Act} (ha : sendsOpen s a = true)
    (h : TcpServer.step s a = some t) : Expands s t :=
  ⟨[a], by rw [run_single, h], ha, fun _ _ => trivial⟩

theorem Expands.serverInv (h : Expands s t) (hI : ServerInv base s) : ServerInv base t := by
  obtain ⟨bs, hrun, hopen⟩ := h
  refine run_inv_along ?_ hrun hopen hI
  intro s a s' hI ha h
  exact (hI.step_effect ha h).serverInv hI

theorem onMessage_expands {held : List Ref} {w : WriteResult} (hphase : s.phase = .running)
    (hframes : s.frames = [⟨i, .event [], held⟩]) (hheld : held ≠ [])
    (hc : s.conns[i]? = some c) (hopen : c.state ≠ .kDisconnected)
    (h : onMessage s i w = some t) : Expands s t := by
  have h₁ := retrieve_eq hphase hframes hheld hc
  rw [onMessage, hc, Option.bind_some, run_cons, h₁, Option.bind_some] at h
  obtain ⟨s₂, h₂, h⟩ := run_cons_some.mp h
  rw [run_single] at h
  have hget : (s.enter i c (retrieved c).ends []).conns[i]? = some (retrieved c) :=
    List.getElem?_set_self (lt_of_getElem? hc)
  have hsend : sendsOpen (s.enter i c (retrieved c).ends []) (.send i c.revBuffer.toList w) =
      true := by
    rw [sendsOpen, hget]
    simpa [retrieved] using hopen
  exact ((expands_step rfl h₁).trans (expands_step hsend h₂)).trans (expands_step rfl h)

/-! ### One step -/

/-- What a dispatch of connection `i` leaves: all bytes but none in `rev_buffer_`. -/
structure Dispatches (s : TcpServer) (i : ℕ) (c c' : Conn) (t : TcpServer) : Prop where
  conns : t.conns = s.conns.set i c'
  bytes : c'.outgoing ++ c'.incoming = c.outgoing ++ c.incoming
  rev : c'.revBuffer.toList = []
  phase : t.phase = .running
  isSet : t.isSet = isSet
  frames : t.frames = []
  due : t.dispatching = none ∨ t.dispatching = some i
  expands : Expands s t

theorem callback_dispatches {ws w : WriteResult} {revents : BitVec 32} {r : ReadResult}
    (hI : ServerInv base s) (hidle : Idle s) (hrev : ∀ c, s.conns[i]? = some c →
      c.revBuffer.toList = []) (hws : ws ≠ .error)
    (h₁ : TcpServer.step s (.event i revents r w) = some s') (h : callback s' i ws = some t) :
    ∃ c c', s.conns[i]? = some c ∧ Dispatches s i c c' t := by
  obtain ⟨c, o, hc, hout, hin, hconns, hphase, hset, hdue, hd⟩ := event_eventOf hI hidle h₁
  have hexp : Expands s s' := expands_step rfl h₁
  have hI' : ServerInv base s' := hexp.serverInv hI
  have hrunning : s'.phase = .running := hphase.trans hidle.phase
  have hc' : s'.conns[i]? = some o.conn := by
    rw [hconns]
    exact List.getElem?_set_self (lt_of_getElem? hc)
  have hbytes : o.conn.outgoing ++ o.conn.incoming = c.outgoing ++ c.incoming := by rw [hout, hin]
  refine ⟨c, ?_⟩
  unfold callback at h
  cases hd with
  | quiet hframes hrev' =>
    rw [if_pos (by rw [hframes]; rfl)] at h
    cases h
    exact ⟨o.conn, hc, hconns, hbytes, hrev'.trans (hrev c hc), hrunning,
      hset.trans hidle.isSet, hframes, hdue, hexp⟩
  | down held hframes hstate hrev' =>
    rw [if_neg (by rw [hframes]; simp), hc', if_pos (by simp [hstate]), onConnection] at h
    have hret := expands_step rfl h
    rw [ret_eq hrunning hframes rfl hc'] at h
    cases h
    refine ⟨o.conn, hc, ?_, hbytes, hrev'.trans (hrev c hc), hrunning,
      hset.trans hidle.isSet, rfl, hdue, hexp.trans hret⟩
    change s'.conns.set i o.conn = _
    rw [hconns, List.set_set]
  | message held hframes hheld hstate hdue' =>
    rw [if_neg (by rw [hframes]; simp), hc', if_neg (by simp [hstate])] at h
    have hcomplete : o.conn.isSet.writeComplete = false := by
      rw [(hI'.steady i o.conn hc').2, hset, hidle.isSet]
      rfl
    have hmsg := onMessage_expands hrunning hframes hheld hc' hstate h
    rw [onMessage_eq hrunning hframes hheld hc' hcomplete] at h
    obtain ⟨o', ho', rfl⟩ := Option.map_eq_some_iff.mp h
    have hkeeps := sendInLoop_keepsIn ho'
    refine ⟨o'.conn, hc, ?_, ?_, ?_, hrunning, hset.trans hidle.isSet, rfl, hdue,
      hexp.trans hmsg⟩
    · rw [echoed_conns, hconns, List.set_set]
    · rw [(sendInLoop_outgoing ho').1, if_neg (by simp [hws]), hkeeps.incoming, ← hbytes]
      simp [retrieved, Conn.incoming, Conn.outgoing]
    · rw [hkeeps.revBuffer]
      exact Buf.toList_retrieveAll _

theorem checkOut_eq {w : WriteResult} (hd : s.dispatching = some i) (hc : s.conns[i]? = some c)
    (hframes : s.frames = []) : TcpServer.step s (.checkOut w) = s.checkOut i c w := by
  simp only [TcpServer.step, hd, hc, Option.bind_some]
  rw [if_pos (by rw [hframes]; rfl)]

/-- **One dispatch**, with the check of `POLLOUT` at its end. -/
theorem event_dispatches {ws w : WriteResult} {revents : BitVec 32} {r : ReadResult}
    (hI : ServerInv base s) (hidle : Idle s) (hrev : ∀ c, s.conns[i]? = some c →
      c.revBuffer.toList = []) (hws : ws ≠ .error)
    (h : step s (.event i revents r ws w) = some t) :
    ∃ c c', s.conns[i]? = some c ∧ Dispatches s i c c' t ∧ t.dispatching = none := by
  obtain ⟨s₁, h₁, h⟩ := Option.bind_eq_some_iff.mp h
  obtain ⟨s₂, h₂, h⟩ := Option.bind_eq_some_iff.mp h
  obtain ⟨c, c₂, hc, hD⟩ := callback_dispatches hI hidle hrev hws h₁ h₂
  have hget : s₂.conns[i]? = some c₂ := by
    rw [hD.conns]
    exact List.getElem?_set_self (lt_of_getElem? hc)
  refine ⟨c, ?_⟩
  rcases hD.due with hdue | hdue
  · rw [if_neg (by rw [hdue]; decide)] at h
    cases h
    exact ⟨c₂, hc, hD, hdue⟩
  · rw [if_pos (by rw [hdue]; rfl)] at h
    have hexp := hD.expands.trans (expands_step rfl h)
    rw [checkOut_eq hdue hget hD.frames, TcpServer.checkOut] at h
    split_ifs at h
    · obtain ⟨o, ho, rfl⟩ := Option.map_eq_some_iff.mp h
      have hcomplete : c₂.isSet.writeComplete = false := by
        rw [((hD.expands.serverInv hI).steady i c₂ hget).2, hD.isSet]
        rfl
      obtain ⟨hout, hin, -⟩ := handleWrite_keepsBytes ho
      have hcall : o.call = none := handleWrite_call_none ho hcomplete
      refine ⟨o.conn, hc, ⟨?_, ?_, ?_, hD.phase, hD.isSet, ?_, Or.inl rfl, hexp⟩, rfl⟩
      · change s₂.conns.set i o.conn = _
        rw [hD.conns, List.set_set]
      · rw [hout, hin, hD.bytes]
      · rw [(handleWrite_keepsIn ho).revBuffer, hD.rev]
      · simp only [enter, hcall]
        exact hD.frames
    · cases h
      exact ⟨c₂, hc, ⟨hD.conns, hD.bytes, hD.rev, hD.phase, hD.isSet, hD.frames, Or.inl rfl, hexp⟩,
        rfl⟩

/-- **One accept**, with the up notification. -/
theorem accept_spec {fd : ℤ} (hI : ServerInv base s) (hidle : Idle s)
    (h : step s (.accept fd) = some t) :
    t.conns = s.conns ++ [s.established fd] ∧ Idle t ∧ Expands s t := by
  obtain ⟨s₁, h₁, h⟩ := Option.bind_eq_some_iff.mp h
  have hexp : Expands s t := (expands_step rfl h₁).trans (expands_step rfl h)
  obtain ⟨-, rfl⟩ := guarded_eq_some.mp h₁
  have hconns : (s.newConnection fd).conns = s.conns ++ [s.established fd] :=
    newConnection_conns fd hI.nextConnId
  have hframes : (s.newConnection fd).frames =
      [⟨s.nextConnId, .done, [.localVar, .temporary]⟩] := by
    have hset : (Conn.new fd { s.isSet with close := true }).isSet.connection = true := by
      change s.isSet.connection = true
      rw [hidle.isSet]
      rfl
    simp only [newConnection, enter, connectEstablished_call, if_pos hset, hidle.frames]
  have hget : (s.newConnection fd).conns[s.nextConnId]? = some (s.established fd) := by
    rw [hconns, hI.nextConnId, List.getElem?_concat_length]
  have hphase : (s.newConnection fd).phase = .running := hidle.phase
  rw [onConnection, ret_eq hphase hframes rfl hget] at h
  cases h
  refine ⟨?_, ⟨hidle.phase, rfl, hidle.dispatching, hidle.isSet⟩, hexp⟩
  change (s.newConnection fd).conns.set s.nextConnId (s.established fd) = _
  rw [hconns, hI.nextConnId, List.set_append_right _ _ le_rfl, Nat.sub_self]
  rfl

/-! ### Runs -/

/-- What the peer of connection `i` sends in a step. -/
def arrived (i : ℕ) : Act → Bytes
  | .arrive j data => if j = i then data else []
  | _ => []

/-- What the peer of connection `i` sends in a run. -/
def stream (i : ℕ) (as : List Act) : Bytes := as.flatMap (arrived i)

/-- No `Send` fails for good. -/
def Soft : Act → Prop
  | .event _ _ _ ws _ => ws ≠ .error
  | _ => True

instance : DecidablePred Soft
  | .event _ _ _ ws _ => inferInstanceAs (Decidable (ws ≠ .error))
  | .accept _ => .isTrue trivial
  | .arrive _ _ => .isTrue trivial
  | .peerClose _ => .isTrue trivial

/-- Every byte of a peer is on its way back, or still in the kernel. -/
structure EchoInv (base : Registry) (arr : ℕ → Bytes) (s : TcpServer) : Prop where
  server : ServerInv base s
  idle : Idle s
  bytes : ∀ (i : ℕ) c, s.conns[i]? = some c → c.outgoing ++ c.incoming = arr i
  rev : ∀ (i : ℕ) c, s.conns[i]? = some c → c.revBuffer.toList = []
  fresh : ∀ i, s.conns.length ≤ i → arr i = []

variable {arr : ℕ → Bytes} {a : Act}

/-- A step that touches connection `i` only. -/
theorem EchoInv.set {c' : Conn} {data : Bytes} (hI : EchoInv base arr s)
    (hserver : ServerInv base t) (hidle : Idle t) (hc : s.conns[i]? = some c)
    (hconns : t.conns = s.conns.set i c')
    (hbytes : c'.outgoing ++ c'.incoming = c.outgoing ++ c.incoming ++ data)
    (hrev : c'.revBuffer.toList = []) :
    EchoInv base (fun j => arr j ++ if i = j then data else []) t where
  server := hserver
  idle := hidle
  bytes := by
    intro j y hy
    rw [hconns, getElem?_set_iff hc] at hy
    rcases hy with ⟨rfl, rfl⟩ | ⟨hne, hy⟩
    · rw [hbytes, hI.bytes _ c hc, if_pos rfl]
    · rw [if_neg (Ne.symm hne), List.append_nil, hI.bytes j y hy]
  rev := by
    intro j y hy
    rw [hconns, getElem?_set_iff hc] at hy
    rcases hy with ⟨rfl, rfl⟩ | ⟨-, hy⟩
    · exact hrev
    · exact hI.rev j y hy
  fresh := by
    intro j hj
    rw [hconns, List.length_set] at hj
    have hi := lt_of_getElem? hc
    rw [if_neg (by omega), List.append_nil, hI.fresh j hj]

/-- **One step** of the echo server. -/
theorem step_echoInv (hI : EchoInv base arr s) (ha : Soft a) (h : step s a = some t) :
    EchoInv base (fun i => arr i ++ arrived i a) t := by
  cases a with
  | accept fd =>
    obtain ⟨hconns, hidle, hexp⟩ := accept_spec hI.server hI.idle h
    simp only [arrived, List.append_nil]
    refine ⟨hexp.serverInv hI.server, hidle, fun i c hc => ?_, fun i c hc => ?_, fun i hi => ?_⟩
    · rw [hconns, getElem?_concat_iff] at hc
      rcases hc with ⟨rfl, rfl⟩ | ⟨-, hc⟩
      · rw [hI.fresh _ le_rfl]
        change [] ++ Buf.new.toList ++ (Buf.new.toList ++ []) = []
        rw [Buf.toList_new]
        rfl
      · exact hI.bytes i c hc
    · rw [hconns, getElem?_concat_iff] at hc
      rcases hc with ⟨rfl, rfl⟩ | ⟨-, hc⟩
      · exact Buf.toList_new
      · exact hI.rev i c hc
    · rw [hconns, List.length_append] at hi
      exact hI.fresh i (by omega)
  | event i revents r ws w =>
    obtain ⟨c, c', hc, hD, hd⟩ := event_dispatches hI.server hI.idle (hI.rev i) ha h
    have hset := hI.set (hD.expands.serverInv hI.server) ⟨hD.phase, hD.frames, hd, hD.isSet⟩ hc
      hD.conns (hD.bytes.trans (List.append_nil _).symm) hD.rev
    simpa only [ite_self, arrived] using hset
  | arrive i data =>
    change TcpServer.step s (.arrive i data) = some t at h
    have hexp : Expands s t := expands_step rfl h
    obtain ⟨c, hc, h⟩ := Option.bind_eq_some_iff.mp h
    obtain ⟨-, rfl⟩ := guarded_eq_some.mp h
    refine hI.set (hexp.serverInv hI.server) ⟨hI.idle.phase, hI.idle.frames, hI.idle.dispatching,
      hI.idle.isSet⟩ hc rfl ?_ (hI.rev i c hc)
    simp [Conn.ends, Conn.outgoing, Conn.incoming]
  | peerClose i =>
    change TcpServer.step s (.peerClose i) = some t at h
    have hexp : Expands s t := expands_step rfl h
    obtain ⟨c, hc, rfl⟩ := Option.map_eq_some_iff.mp h
    have hset := hI.set (hexp.serverInv hI.server) ⟨hI.idle.phase, hI.idle.frames,
      hI.idle.dispatching, hI.idle.isSet⟩ hc rfl (List.append_nil _).symm (hI.rev i c hc)
    simpa only [ite_self, arrived] using hset

theorem main_echoInv (listenFd : ℤ) (others : ℤ → Option ℕ) :
    EchoInv ((Registry.ofOthers others).update listenFd .listen kReadEvent) (fun _ => [])
      (main listenFd others) where
  server := new_serverInv ..
  idle := ⟨rfl, rfl, rfl, rfl⟩
  bytes := fun i c hc => by cases hc
  rev := fun i c hc => by cases hc
  fresh := fun _ _ => rfl

theorem run_echoInv {listenFd : ℤ} {others : ℤ → Option ℕ} {as : List Act}
    (h : run step (main listenFd others) as = some s) (hsoft : ∀ a ∈ as, Soft a) :
    EchoInv ((Registry.ofOthers others).update listenFd .listen kReadEvent)
      (fun i => stream i as) s := by
  set base := (Registry.ofOthers others).update listenFd .listen kReadEvent
  let R : TcpServer → List Act → Prop := fun s log =>
    (∀ a ∈ log, Soft a) → EchoInv base (fun i => stream i log) s
  have key : R s ([] ++ trace step (fun _ a => [a]) (main listenFd others) as) := by
    refine trace_inv R ?_ h fun _ => main_echoInv listenFd others
    intro s a s' log hR h hsoft
    rw [List.forall_mem_append, List.forall_mem_singleton] at hsoft
    have hI := step_echoInv (hR hsoft.1) hsoft.2 h
    simpa [stream] using hI
  rw [List.nil_append, trace_flatMap h, List.flatMap_singleton'] at key
  exact key hsoft

/-- **The echo server echoes.**  In every run in which no `Send` fails for good, with any number of
clients and any short or refused writes: the bytes that went to a client, followed by those in its
`snd_buffer_` and those not yet read from it, are the bytes it has sent. -/
theorem echoes {listenFd : ℤ} {others : ℤ → Option ℕ} {as : List Act}
    (h : run step (main listenFd others) as = some s) (hsoft : ∀ a ∈ as, Soft a)
    (hc : s.conns[i]? = some c) :
    c.sock.accepted ++ c.sndBuffer.toList ++ c.sock.queue = stream i as ∧
      c.revBuffer.toList = [] := by
  have hI := run_echoInv h hsoft
  have hrev := hI.rev i c hc
  have hbytes := hI.bytes i c hc
  rw [Conn.outgoing, Conn.incoming, hrev, List.nil_append] at hbytes
  exact ⟨hbytes, hrev⟩

/-! ### Progress -/

theorem offered_pos (b : Buffer) : 0 < b.offered := by
  unfold Buffer.offered Buffer.kExtraSize
  split_ifs <;> omega

/-- A read that finds something calls the message callback. -/
theorem handleRead_got {n : ℕ} (h0 : 0 < n) (hroom : n ≤ c.revBuffer.raw.offered)
    (hn : n ≤ c.sock.queue.length) (hset : c.isSet.message = true) :
    c.handleRead [] (.got n) = some ⟨c.received n, some (.message, .event [])⟩ := by
  have hread : c.sock.readv c.revBuffer.raw.offered (.got n) =
      some ({ c.sock with queue := c.sock.queue.drop n }, .bytes (c.sock.queue.take n)) :=
    if_pos ⟨hroom, hn, by omega⟩
  have hlen : 0 < (c.sock.queue.take n).length := by
    rw [List.length_take]
    omega
  rw [handleRead, hread, Option.bind_some]
  simp only [if_pos hlen, if_pos hset]
  rfl

/-- A write of all that is buffered empties the buffer. -/
theorem handleWrite_all (he : c.channel.isWritingEnabled = true) (hne : c.sndBuffer.toList ≠ []) :
    ∃ o, c.handleWrite [] (.wrote c.sndBuffer.toList.length) = some o ∧
      o.conn.sndBuffer.toList = [] ∧ o.conn.state = c.state := by
  have hpos : 0 < c.sndBuffer.readableBytes := by
    rw [← Buf.length_toList]
    exact List.length_pos_iff.mpr hne
  have hwrite : c.sock.write c.sndBuffer.toList (.wrote c.sndBuffer.toList.length) =
      some { c.sock with accepted := c.sock.accepted ++
        c.sndBuffer.toList.take c.sndBuffer.toList.length } := if_pos le_rfl
  have hzero : c.sndBuffer.retrieveAll.readableBytes = 0 :=
    Buf.readableBytes_eq_zero.mpr (Buf.toList_retrieveAll _)
  rw [handleWrite, if_pos he, hwrite, Option.bind_some]
  simp only [Buf.length_toList, if_pos hpos, retrieve_readableBytes, Option.map_some, hzero,
    if_true, Option.some.injEq, exists_eq_left']
  split_ifs
  · exact ⟨Buf.toList_retrieveAll _, rfl⟩
  · rw [ends_conn, handleWriteRest_keepsIn.state]
    refine ⟨?_, rfl⟩
    unfold handleWriteRest
    split_ifs
    · rw [shutdownInLoop_sndBuffer]
      exact Buf.toList_retrieveAll _
    · exact Buf.toList_retrieveAll _

theorem sendInLoop_wouldBlock (msg : Bytes) :
    c.sendInLoop msg .wouldBlock = some (c.sendRest msg 0).ends := by
  unfold sendInLoop
  split_ifs <;> rfl

theorem sendRest_revents (msg : Bytes) (n : ℕ) :
    (c.sendRest msg n).channel.revents = c.channel.revents := by
  simp only [sendRest]
  split_ifs <;> rfl

/-- An event of an open connection that `poll` may report reaches `HandleEvent`. -/
theorem event_eq {revents : BitVec 32} {r : ReadResult} {w : WriteResult}
    (hI : EchoInv base arr s) (hc : s.conns[i]? = some c) (hopen : c.state ≠ .kDisconnected) :
    TcpServer.step s (.event i revents r w) =
      s.handleEvent i { c with channel := { c.channel with revents := revents } } r w := by
  have hreg := (hI.server.poll.registered i c hc).mpr hopen
  simp only [TcpServer.step, hc, Option.bind_some]
  exact if_pos ⟨hI.idle.phase, betweenEvents_iff.mpr ⟨hI.idle.frames, hI.idle.dispatching⟩, hreg⟩

/-- As long as the kernel has bytes of an open connection, they can be read, and there are fewer
after it. -/
theorem read_progress (hI : EchoInv base arr s) (hc : s.conns[i]? = some c)
    (hopen : c.state ≠ .kDisconnected) (hq : c.sock.queue ≠ []) :
    ∃ r t c', step s (.event i POLLIN r .wouldBlock .wouldBlock) = some t ∧
      t.conns[i]? = some c' ∧ c'.state = c.state ∧
      c'.sock.queue.length < c.sock.queue.length := by
  set n := min c.revBuffer.raw.offered c.sock.queue.length with hn
  have hqpos : 0 < c.sock.queue.length := List.length_pos_iff.mpr hq
  have h0 : 0 < n := lt_min (offered_pos _) hqpos
  have hset : c.isSet = { isSet with close := true } := by
    rw [(hI.server.steady i c hc).2, hI.idle.isSet]
  -- the event, up to the message callback
  set c₁ : Conn := { c with channel := { c.channel with revents := POLLIN } } with hc₁
  have hread : c₁.handleRead [] (.got n) = some ⟨c₁.received n, some (.message, .event [])⟩ :=
    handleRead_got h0 (min_le_left _ _) (min_le_right _ _)
      (by rw [show c₁.isSet = _ from hset]; rfl)
  set s₁ := { s with dispatching := some i }.enter i c₁ ⟨c₁.received n, some (.message, .event [])⟩
    [.temporary] with hs₁
  have hstep₁ : TcpServer.step s (.event i POLLIN (.got n) .wouldBlock) = some s₁ := by
    have hlist : c₁.channel.handleEvent Conn.eventIsSet = [.read] := by
      simp [Channel.handleEvent, hc₁, hasBits, Conn.eventIsSet, POLLIN, POLLHUP, POLLOUT,
        POLLERR, POLLNVAL, POLLPRI, POLLRDHUP]
    rw [event_eq hI hc hopen, TcpServer.handleEvent, hlist]
    dsimp only
    rw [if_neg (by simpa using h0.ne'), hread, Option.map_some]
  have hphase₁ : s₁.phase = .running := hI.idle.phase
  have hframes₁ : s₁.frames = [⟨i, .event [], [.temporary]⟩] := by
    rw [hs₁, enter]
    exact congrArg _ hI.idle.frames
  have hget₁ : s₁.conns[i]? = some (c₁.received n) := List.getElem?_set_self (lt_of_getElem? hc)
  -- the message callback
  set c₂ := (retrieved (c₁.received n)).sendRest (c₁.received n).revBuffer.toList 0 with hc₂
  have hcallback : callback s₁ i .wouldBlock = some (echoed s₁ i (c₁.received n) c₂.ends) := by
    rw [callback, if_neg (by rw [hframes₁]; simp), hget₁, if_neg (by simpa [received] using hopen),
      onMessage_eq hphase₁ hframes₁ (by simp) hget₁
        (by rw [show (c₁.received n).isSet = _ from hset]; rfl),
      sendInLoop_wouldBlock, Option.map_some]
  -- the check of `POLLOUT`
  set s₂ := echoed s₁ i (c₁.received n) c₂.ends with hs₂
  have hget₂ : s₂.conns[i]? = some c₂ := by
    rw [hs₂, echoed_conns, ends_conn, List.getElem?_set_self (lt_of_getElem? hget₁)]
  have hrevents : hasBits c₂.channel.revents POLLOUT = false := by
    rw [hc₂, sendRest_revents]
    change hasBits POLLIN POLLOUT = false
    decide
  have hcheck : TcpServer.step s₂ (.checkOut .wouldBlock) =
      some { s₂ with dispatching := none } := by
    rw [checkOut_eq rfl hget₂ rfl, TcpServer.checkOut]
    simp only [hrevents]
    rfl
  refine ⟨.got n, { s₂ with dispatching := none }, c₂, ?_, hget₂, ?_, ?_⟩
  · simp only [step, hstep₁, Option.bind_some, hcallback]
    exact (if_pos rfl).trans hcheck
  · exact (sendRest_keepsIn 0).state
  · rw [(sendRest_keepsIn 0).queue]
    change (c.sock.queue.drop n).length < _
    rw [List.length_drop]
    omega

/-- All that is buffered for an open connection can be written. -/
theorem write_progress (hI : EchoInv base arr s) (hc : s.conns[i]? = some c)
    (hopen : c.state ≠ .kDisconnected) (hne : c.sndBuffer.toList ≠ []) :
    ∃ r w t c', step s (.event i POLLOUT r .wouldBlock w) = some t ∧
      t.conns[i]? = some c' ∧ c'.sndBuffer.toList = [] ∧ c'.sock.queue = c.sock.queue := by
  set c₁ : Conn := { c with channel := { c.channel with revents := POLLOUT } } with hc₁
  have hset : c.isSet = { isSet with close := true } := by
    rw [(hI.server.steady i c hc).2, hI.idle.isSet]
  have hint : Interested c := (hI.server.steady i c hc).1.interested hopen
  obtain ⟨o, ho, hsnd, -⟩ := handleWrite_all (c := c₁) (hint.isWritingEnabled.mpr hne) hne
  have hcall : o.call = none :=
    handleWrite_call_none ho (by rw [show c₁.isSet = _ from hset]; rfl)
  have hlist : c₁.channel.handleEvent Conn.eventIsSet = [.write] := by
    simp [Channel.handleEvent, hc₁, hasBits, Conn.eventIsSet, POLLIN, POLLHUP, POLLOUT,
      POLLERR, POLLNVAL, POLLPRI, POLLRDHUP]
  refine ⟨.got 0, .wrote c.sndBuffer.toList.length, s.enter i c₁ o [.functor], o.conn, ?_,
    List.getElem?_set_self (lt_of_getElem? hc), hsnd, (handleWrite_keepsIn ho).queue⟩
  have hframes : (s.enter i c₁ o [.functor]).frames = [] := by
    simp only [enter, hcall]
    exact hI.idle.frames
  have hstep : TcpServer.step s (.event i POLLOUT (.got 0) (.wrote c.sndBuffer.toList.length)) =
      some (s.enter i c₁ o [.functor]) := by
    rw [event_eq hI hc hopen, TcpServer.handleEvent, hlist]
    exact congrArg (Option.map fun o => s.enter i c₁ o [.functor]) ho
  simp only [step, hstep, Option.bind_some, callback, hframes, List.isEmpty_nil, if_true]
  have hd : (s.enter i c₁ o [.functor]).dispatching = none := hI.idle.dispatching
  exact if_neg (by rw [hd]; decide)

theorem EchoInv.accepted_eq (hI : EchoInv base arr s) (hc : s.conns[i]? = some c)
    (hq : c.sock.queue = []) (hsnd : c.sndBuffer.toList = []) : c.sock.accepted = arr i := by
  have hbytes := hI.bytes i c hc
  rwa [Conn.outgoing, Conn.incoming, hI.rev i c hc, hq, hsnd, List.append_nil, List.append_nil,
    List.append_nil] at hbytes

/-- From a state of the echo server, events of an open connection alone bring back all the bytes
its client has sent. -/
theorem EchoInv.completes (hI : EchoInv base arr s) (hc : s.conns[i]? = some c)
    (hopen : c.state ≠ .kDisconnected) :
    ∃ bs t c', run step s bs = some t ∧
      (∀ b ∈ bs, ∃ revents r w, b = .event i revents r .wouldBlock w) ∧
      t.conns[i]? = some c' ∧ c'.sock.accepted = arr i := by
  induction hlen : c.sock.queue.length using Nat.strong_induction_on generalizing s c with
  | _ n ih =>
    by_cases hq : c.sock.queue = []
    · by_cases hsnd : c.sndBuffer.toList = []
      · exact ⟨[], s, c, rfl, List.forall_mem_nil _, hc, hI.accepted_eq hc hq hsnd⟩
      · obtain ⟨r, w, t, c', hstep, hc', hsnd', hq'⟩ := write_progress hI hc hopen hsnd
        have hI' := step_echoInv hI (by simp [Soft]) hstep
        simp only [arrived, List.append_nil] at hI'
        exact ⟨_, t, c', (run_single s _).trans hstep, List.forall_mem_singleton.mpr ⟨_, _, _, rfl⟩,
          hc', hI'.accepted_eq hc' (hq'.trans hq) hsnd'⟩
    · obtain ⟨r, t, c', hstep, hc', hstate, hlt⟩ := read_progress hI hc hopen hq
      have hI' := step_echoInv hI (by simp [Soft]) hstep
      simp only [arrived, List.append_nil] at hI'
      obtain ⟨bs, u, c'', hrun, hbs, hc'', hacc⟩ :=
        ih _ (hlen ▸ hlt) hI' hc' (hstate ▸ hopen) rfl
      refine ⟨_ :: bs, u, c'', run_cons_some.mpr ⟨t, hstep, hrun⟩, ?_, hc'', hacc⟩
      exact List.forall_mem_cons.mpr ⟨⟨_, _, _, rfl⟩, hbs⟩

/-- **No byte gets stuck.**  Whatever has happened so far, events of a connection that is still open
can bring back to its client every byte it has sent. -/
theorem echo_completes {listenFd : ℤ} {others : ℤ → Option ℕ} {as : List Act}
    (h : run step (main listenFd others) as = some s) (hsoft : ∀ a ∈ as, Soft a)
    (hc : s.conns[i]? = some c) (hopen : c.state ≠ .kDisconnected) :
    ∃ bs t c', run step (main listenFd others) (as ++ bs) = some t ∧
      (∀ b ∈ bs, ∃ revents r w, b = .event i revents r .wouldBlock w) ∧
      t.conns[i]? = some c' ∧ c'.sock.accepted = stream i as := by
  obtain ⟨bs, t, c', hrun, hbs, hc', hacc⟩ := (run_echoInv h hsoft).completes hc hopen
  refine ⟨bs, t, c', ?_, hbs, hc', hacc⟩
  rw [run_append, h, Option.bind_some, hrun]

/-! ### Two clients -/

/-- Two clients send; the first is answered with a short write, the second finds its socket full
and hangs up before it is read again. -/
def twoClients : List Act :=
  [.accept 10, .accept 11, .arrive 0 [1, 2, 3], .arrive 1 [7, 8],
    .event 0 (POLLIN ||| POLLOUT) (.got 3) (.wrote 1) (.wrote 1),
    .event 1 POLLIN (.got 1) .wouldBlock .wouldBlock, .event 1 POLLHUP (.got 0) .wouldBlock .error]

theorem echoes_twoClients :
    ∃ (s : TcpServer) (c : Conn), run step (main 3 fun _ => none) twoClients = some s ∧
      s.conns[1]? = some c ∧
      c.sock.accepted ++ c.sndBuffer.toList ++ c.sock.queue = ([7, 8] : Bytes) := by
  have hend : (run step (main 3 fun _ => none) twoClients).map (fun s => s.conns[1]?.isSome) =
      some true := by decide +kernel
  obtain ⟨s, hs, hget⟩ := Option.map_eq_some_iff.mp hend
  obtain ⟨c, hc⟩ := Option.isSome_iff_exists.mp hget
  have hstream : stream 1 twoClients = [7, 8] := by decide
  refine ⟨s, c, hs, hc, ?_⟩
  rw [← hstream]
  exact (echoes hs (by decide) hc).1

theorem echo_completes_twoClients :
    ∃ (bs : List Act) (t : TcpServer) (c : Conn),
      run step (main 3 fun _ => none) (twoClients ++ bs) = some t ∧
      t.conns[0]? = some c ∧ c.sock.accepted = ([1, 2, 3] : Bytes) := by
  have hend : (run step (main 3 fun _ => none) twoClients).map
      (fun s => s.conns[0]?.map Conn.state) = some (some .kConnected) := by decide +kernel
  obtain ⟨s, hs, hget⟩ := Option.map_eq_some_iff.mp hend
  obtain ⟨c, hc, hstate⟩ := Option.map_eq_some_iff.mp hget
  have hstream : stream 0 twoClients = [1, 2, 3] := by decide
  obtain ⟨bs, t, c', hrun, -, hc', hacc⟩ :=
    echo_completes hs (by decide) hc (by rw [hstate]; decide)
  exact ⟨bs, t, c', hrun, hc', hacc.trans hstream⟩

end EchoServer

end Polly
