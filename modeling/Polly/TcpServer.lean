import Polly.Runs
import Polly.Conn

/-!
# TcpServer — a server and its connections (`net/tcp_server.cc`, `net/acceptor.cc`)

A started server in its loop thread, with every connection it has accepted.  Handlers and user
callbacks run inside one another, so the state has the stack of user callbacks the loop thread is
inside of (`frames`).  `Channel::HandleEvent` looks at `revents_` again after the read callback;
that check is a step of its own (`checkOut`), and `dispatching` is the connection it is due for.
User code runs in the callbacks and, for other channels, timers and functors of the loop, between
events; it may call into any connection that exists, and it may destroy the server, also from inside
a callback.  `RunInLoop` in the loop thread runs its argument on the spot.

A connection is owned by `shared_ptr`s (`Ref`): the entry of `connections_`, local variables, the
temporaries of `shared_from_this()`, copies bound into functors, and what the user keeps.  A frame
holds those that live until its callback returns.  The connection is destroyed when there is none;
the model keeps its fields, so that a function that still runs on it finds them as they were.  A
message is a value: the user leaves a string alone until its `Send` has returned
(`Strings.session_reachable`).

The poller is a correct table of registered channels, and delivers events to registered channels
only.  The user sets the callbacks before `Start`.  `notes` records the calls of the connection
callback, each with the value of `connected()`.
-/

namespace Polly

open Runs

/-! ### Registered channels -/

/-- A channel of the loop: the listening one, one of a connection, or one of somebody else. -/
inductive ChanId where
  | listen
  | conn (i : ℕ)
  | other (k : ℕ)
  deriving DecidableEq, Repr

/-- The registered channels, by descriptor. -/
abbrev Registry := ℤ → Option ChanId

namespace Registry

/-- A loop that only others have registered channels with. -/
def ofOthers (others : ℤ → Option ℕ) : Registry := fun fd => (others fd).map .other

/-- A correct `UpdateChannel`: adds, updates or, without interest, removes. -/
def update (p : Registry) (fd : ℤ) (ch : ChanId) (mask : BitVec 32) : Registry :=
  Function.update p fd (if mask = 0 then none else some ch)

/-- One call after the other. -/
def updates (p : Registry) (fd : ℤ) (ch : ChanId) (masks : List (BitVec 32)) : Registry :=
  masks.foldl (fun p mask => p.update fd ch mask) p

end Registry

/-! ### The server -/

/-- Who holds a `shared_ptr` to a connection. -/
inductive Ref where
  | entry | localVar | temporary | functor | user
  deriving DecidableEq, Repr

/-- A user callback under way: its connection, what is left to run, and the references that live
until it returns. -/
structure Frame where
  id : ℕ
  rest : Rest
  held : List Ref
  deriving DecidableEq, Repr

/-- Before, in and after `~TcpServer`. -/
inductive ServerPhase where
  | running | destroying | destroyed
  deriving DecidableEq, Repr

structure TcpServer where
  name : String
  isSet : CallbacksSet
  listenFd : ℤ
  nextConnId : ℕ
  /-- name to connection; the pointer is null after `reset()` -/
  connections : AList fun _ : String => Option ℕ
  phase : ServerPhase
  /-- how many callbacks were under way when `~TcpServer` started -/
  depth : ℕ
  /-- the connections accepted so far, by number -/
  conns : List Conn
  /-- their names -/
  names : List String
  /-- how many references the user keeps -/
  kept : ℕ → ℕ
  frames : List Frame
  dispatching : Option ℕ
  poller : Registry
  notes : List (ℕ × Bool)

namespace TcpServer

/-- The constructor and `Start`; the acceptor registers its channel with the loop. -/
def new (name : String) (isSet : CallbacksSet) (listenFd : ℤ) (others : ℤ → Option ℕ) :
    TcpServer where
  name := name
  isSet := isSet
  listenFd := listenFd
  nextConnId := 0
  connections := ∅
  phase := .running
  depth := 0
  conns := []
  names := []
  kept := fun _ => 0
  frames := []
  dispatching := none
  poller := (Registry.ofOthers others).update listenFd .listen kReadEvent
  notes := []

/-- `c->name()` -/
def connName (s : TcpServer) (i : ℕ) : String := s.names.getD i ""

/-- The references to a connection. -/
def refs (s : TcpServer) (i : ℕ) : Multiset Ref :=
  (s.connections.entries.filter fun e => e.2 = some i).map (fun _ => Ref.entry) ++
    List.replicate (s.kept i) Ref.user ++ (s.frames.filter fun f => f.id = i).flatMap Frame.held

/-- Continue with the outcome of a function of connection `i`; a callback it invokes holds
`held`. -/
def enter (s : TcpServer) (i : ℕ) (c : Conn) (o : Out) (held : List Ref) : TcpServer :=
  { s with
    conns := s.conns.set i o.conn
    poller := s.poller.updates c.channel.fd (.conn i) (o.conn.updates.drop c.updates.length)
    frames :=
      match o.call with
      | none => s.frames
      | some (_, rest) => ⟨i, rest, held⟩ :: s.frames
    notes :=
      match o.call with
      | some (.connection, _) => s.notes ++ [(i, o.conn.state == .kConnected)]
      | _ => s.notes }

/-! ### Connections come and go -/

/-- The new-connection callback of `Start`. -/
def newConnection (s : TcpServer) (fd : ℤ) : TcpServer :=
  let i := s.nextConnId
  let connName := s.name ++ "#" ++ toString i
  let c := Conn.new fd { s.isSet with close := true }
  { s with
    nextConnId := i + 1
    connections := s.connections.insert connName (some i)
    conns := s.conns ++ [c]
    names := s.names ++ [connName]
    poller := s.poller.updates fd (.conn i) c.updates }.enter i c c.connectEstablished
      [.localVar, .temporary]

/-- The close callback up to `RunInLoop`. -/
def removeConnection (s : TcpServer) (i : ℕ) : Option TcpServer :=
  -- `assert(n == 1)`
  guarded (s.connName i ∈ s.connections)
    { s with connections := s.connections.erase (s.connName i) }

/-- A function of connection `i` that runs `HandleClose`.  Through the down notification live its
own `shared_from_this()`, the functor of the close callback, and the argument of the connection
callback. -/
def closing (s : TcpServer) (i : ℕ) (c : Conn) (out : Option Out) : Option TcpServer :=
  out.bind fun o => (s.removeConnection i).map fun s =>
    s.enter i c o [.temporary, .functor, .temporary]

/-- An iteration of `~TcpServer`. -/
def destroyConnection (s : TcpServer) (i : ℕ) (c : Conn) : TcpServer :=
  { s with connections := s.connections.insert (s.connName i) none }.enter i c
    (c.connectDestroyed []) [.localVar, .functor, .temporary]

/-! ### Dispatch -/

/-- `HandleEvent` of connection `i`, up to the check of `POLLOUT` behind the read callback. -/
def handleEvent (s : TcpServer) (i : ℕ) (c : Conn) (r : ReadResult) (w : WriteResult) :
    Option TcpServer :=
  match c.channel.handleEvent Conn.eventIsSet with
  | .close :: _ => s.closing i c (c.handleClose [])
  | .read :: _ =>
    let s := { s with dispatching := some i }
    if r = .got 0 then s.closing i c (c.handleRead [] r)
    else (c.handleRead [] r).map fun o => s.enter i c o [.temporary]
  | .write :: _ => (c.handleWrite [] w).map fun o => s.enter i c o [.functor]
  | _ => some (s.enter i c c.ends [])

/-- The check of `POLLOUT` behind the read callback. -/
def checkOut (s : TcpServer) (i : ℕ) (c : Conn) (w : WriteResult) : Option TcpServer :=
  let s := { s with dispatching := none }
  if hasBits c.channel.revents POLLOUT then
    (c.handleWrite [] w).map fun o => s.enter i c o [.functor]
  else some s

/-- The loop thread is between two events. -/
def betweenEvents (s : TcpServer) : Bool := s.frames.isEmpty && s.dispatching.isNone

/-- Control is with `~TcpServer`, not with a callback it has invoked. -/
def inDestructor (s : TcpServer) : Bool := s.phase == .destroying && s.frames.length == s.depth

/-- User code may be running: in a callback, or between two events. -/
def inUserCode (s : TcpServer) : Bool :=
  !s.inDestructor && (!s.frames.isEmpty || s.dispatching.isNone)

/-- A descriptor the kernel can give to a new connection: not the listening one, not one that is
registered, and not one of a connection that exists. -/
def freshFd (s : TcpServer) (fd : ℤ) : Bool :=
  fd != s.listenFd && s.poller fd == none &&
    (List.range s.conns.length).all fun j =>
      s.refs j == 0 || (s.conns[j]?.map fun c => c.channel.fd) != some fd

/-! ### Runs -/

inductive Act where
  /-- a connection is accepted -/
  | accept (fd : ℤ)
  /-- poll has reported `revents` for connection `i`, and `HandleEvent` starts -/
  | event (i : ℕ) (revents : BitVec 32) (r : ReadResult) (w : WriteResult)
  /-- `HandleEvent` goes on with the check of `POLLOUT` -/
  | checkOut (w : WriteResult)
  /-- the innermost user callback returns -/
  | ret
  /-- user code calls `Send(msg)` of connection `i` -/
  | send (i : ℕ) (msg : Bytes) (w : WriteResult)
  /-- user code calls `Shutdown()` -/
  | shutdown (i : ℕ)
  /-- user code retrieves from `rev_buffer_` -/
  | retrieve (i : ℕ) (len : ℕ)
  /-- user code copies a pointer to connection `i` -/
  | keep (i : ℕ)
  /-- user code gives up such a copy -/
  | drop (i : ℕ)
  /-- bytes of the peer arrive -/
  | arrive (i : ℕ) (data : Bytes)
  /-- the peer closes -/
  | peerClose (i : ℕ)
  /-- user code destroys the server, and `~TcpServer` starts -/
  | destroy
  /-- its loop takes the entry of connection `i`; the order does not matter -/
  | destroyNext (i : ℕ)
  /-- it ends -/
  | finish
  deriving DecidableEq, Repr

/-- User code may call into connection `i`. -/
def callable (s : TcpServer) (i : ℕ) : Bool := s.inUserCode && s.refs i != 0

def step (s : TcpServer) : Act → Option TcpServer
  | .accept fd =>
    guarded (s.phase = .running ∧ s.betweenEvents ∧ s.nextConnId + 1 < 2 ^ 31 ∧ s.freshFd fd)
      (s.newConnection fd)
  | .event i revents r w =>
    s.conns[i]?.bind fun c =>
      if s.phase = .running ∧ s.betweenEvents ∧ s.poller c.channel.fd = some (.conn i) then
        s.handleEvent i { c with channel := { c.channel with revents := revents } } r w
      else none
  | .checkOut w =>
    s.dispatching.bind fun i => s.conns[i]?.bind fun c =>
      if s.frames.isEmpty then s.checkOut i c w else none
  | .ret =>
    match s.frames with
    | [] => none
    | f :: frames =>
      if s.inDestructor then none
      else s.conns[f.id]?.bind fun c =>
        -- nothing that is left calls the kernel
        (c.resume (.got 0) .wouldBlock f.rest).map fun o =>
          { s with frames := frames }.enter f.id c o []
  | .send i msg w =>
    s.conns[i]?.bind fun c =>
      if s.callable i then (c.sendInLoop msg w).map fun o => s.enter i c o [.functor] else none
  | .shutdown i =>
    s.conns[i]?.bind fun c => guarded (s.callable i) (s.enter i c c.shutdown.ends [])
  | .retrieve i len =>
    s.conns[i]?.bind fun c =>
      if s.callable i then
        (c.revBuffer.retrieve len).map fun b => s.enter i c { c with revBuffer := b }.ends []
      else none
  | .keep i => guarded (s.callable i) { s with kept := Function.update s.kept i (s.kept i + 1) }
  | .drop i =>
    guarded (s.inUserCode ∧ 0 < s.kept i) { s with kept := Function.update s.kept i (s.kept i - 1) }
  | .arrive i data =>
    s.conns[i]?.bind fun c => guarded (!c.sock.peerClosed)
      (s.enter i c { c with sock := { c.sock with queue := c.sock.queue ++ data } }.ends [])
  | .peerClose i =>
    s.conns[i]?.map fun c =>
      s.enter i c { c with sock := { c.sock with peerClosed := true } }.ends []
  | .destroy =>
    guarded (s.phase = .running ∧ s.inUserCode)
      { s with phase := .destroying, depth := s.frames.length }
  | .destroyNext i =>
    s.conns[i]?.bind fun c =>
      guarded (s.inDestructor ∧ s.connections.lookup (s.connName i) = some (some i))
        (s.destroyConnection i c)
  | .finish =>
    guarded (s.inDestructor ∧ ∀ e ∈ s.connections.entries, e.2 = none)
      { s with phase := .destroyed }

end TcpServer

end Polly
