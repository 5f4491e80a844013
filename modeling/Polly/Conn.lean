import Polly.Channel
import Polly.Buffer

/-!
# Conn — the functions of a connection (`net/tcp_connection.h`, `net/tcp_connection.cc`)

A `Conn` is a `TcpConnection` with the kernel's side of its socket.  The functions are those of
the source.  System calls take their result as an argument (`WriteResult`, `ReadResult`); a result
the kernel cannot give refuses the call (`none`), and so does a failed assertion.

User callbacks run inside these functions (`RunInLoop` in the loop thread runs its argument on the
spot), and may call back into the connection.  A function therefore runs up to the callback it
invokes and says what is left of it when the callback returns: an `Out` is the connection and,
if a callback is invoked, the callback with the `Rest`.  A message is the value its string holds;
`SessionStrings` has the string read again when a callback returns.
-/

namespace Polly

abbrev Bytes := List UInt8

inductive ConnState where
  | kConnecting | kConnected | kDisconnecting | kDisconnected
  deriving DecidableEq, Repr

/-- write(2): the number of bytes accepted, `EWOULDBLOCK`, or another error. -/
inductive WriteResult where
  | wrote (n : ℕ)
  | wouldBlock
  | error
  deriving DecidableEq, Repr

/-- readv(2): the number of bytes taken, or an error number. -/
inductive ReadResult where
  | got (n : ℕ)
  | error (errno : ℤ)
  deriving DecidableEq, Repr

/-! ### The socket -/

/-- The kernel's side: the bytes it accepted for sending, whether the write end is shut, the
received bytes nobody has read yet, and whether the peer has closed. -/
structure Sock where
  accepted : Bytes
  writeShut : Bool
  queue : Bytes
  peerClosed : Bool
  deriving DecidableEq, Repr

namespace Sock

/-- write(2) of `data`. -/
def write (k : Sock) (data : Bytes) : WriteResult → Option Sock
  | .wrote n =>
    if n ≤ data.length then some { k with accepted := k.accepted ++ data.take n } else none
  | .wouldBlock => some k
  | .error => some k

/-- readv(2) with `room` bytes offered: takes from the front of the queue, and returns zero only at
the end of the peer's stream. -/
def readv (k : Sock) (room : ℕ) : ReadResult → Option (Sock × Readv)
  | .got n =>
    if n ≤ room ∧ n ≤ k.queue.length ∧ (n = 0 → k.queue = [] ∧ k.peerClosed) then
      some ({ k with queue := k.queue.drop n }, .bytes (k.queue.take n))
    else none
  | .error errno => some (k, .error errno)

end Sock

/-! ### The connection -/

/-- Which of the connection's `std::function` members are set. -/
structure CallbacksSet where
  connection : Bool
  message : Bool
  close : Bool
  writeComplete : Bool
  deriving DecidableEq, Repr

structure Conn where
  state : ConnState
  channel : Channel
  revBuffer : Buf
  sndBuffer : Buf
  isSet : CallbacksSet
  sock : Sock
  /-- the masks `Channel::update()` brought to the poller, oldest first -/
  updates : List (BitVec 32)

/-- The user callbacks. -/
inductive Callback where
  | connection | message | writeComplete
  deriving DecidableEq, Repr

/-- What is left to run when a user callback returns: nothing but the caller, the end of
`sendInLoop` with the string its caller holds by then, or the rest of `Channel::HandleEvent` (with
the end of `HandleWrite` before it). -/
inductive Rest where
  | done
  | sendInLoop (msg : Bytes) (nwrote : ℕ)
  | handleWrite (left : List EventCallback)
  | event (left : List EventCallback)
  deriving DecidableEq, Repr

/-- The outcome of a function: the connection, and the callback it is now inside of. -/
structure Out where
  conn : Conn
  call : Option (Callback × Rest)

namespace Conn

/-- A function that ends without a callback. -/
def ends (c : Conn) : Out := ⟨c, none⟩

/-! ### The channel calls: the mask changes and goes to the poller -/

def updateChannel (c : Conn) (ch : Channel) : Conn :=
  { c with channel := ch, updates := c.updates ++ [ch.events] }

def enableReading (c : Conn) : Conn := c.updateChannel c.channel.enableReading
def enableWriting (c : Conn) : Conn := c.updateChannel c.channel.enableWriting
def disableWriting (c : Conn) : Conn := c.updateChannel c.channel.disableWriting
def disbaleAll (c : Conn) : Conn := c.updateChannel c.channel.disbaleAll

/-- The constructor, and the callbacks `TcpServer::Start` sets on the new connection. -/
def new (fd : ℤ) (isSet : CallbacksSet) : Conn :=
  { state := .kConnecting
    channel := Channel.new fd
    revBuffer := Buf.new
    sndBuffer := Buf.new
    isSet := isSet
    sock := ⟨[], false, [], false⟩
    updates := [] : Conn }.enableReading

/-! ### Sending -/

/-- The end of `sendInLoop`: buffer the left data, if any. -/
def sendRest (c : Conn) (msg : Bytes) (nwrote : ℕ) : Conn :=
  if nwrote < msg.length then
    let c := { c with sndBuffer := c.sndBuffer.append (msg.drop nwrote) }
    if !c.channel.isWritingEnabled then c.enableWriting else c
  else c

/-- Nothing in the output queue: `sendInLoop` tries to write directly. -/
def writesDirectly (c : Conn) : Bool :=
  !c.channel.isWritingEnabled && c.sndBuffer.readableBytes == 0

def sendInLoop (c : Conn) (msg : Bytes) (w : WriteResult) : Option Out :=
  if c.writesDirectly then
    (c.sock.write msg w).map fun sock =>
      let c := { c with sock := sock }
      match w with
      | .wrote n =>
        if n < msg.length then (c.sendRest msg n).ends
        else if c.isSet.writeComplete then ⟨c, some (.writeComplete, .sendInLoop msg n)⟩
        else (c.sendRest msg n).ends
      | .wouldBlock => (c.sendRest msg 0).ends
      | .error => c.ends
  else some (c.sendRest msg 0).ends

def shutdownInLoop (c : Conn) : Conn :=
  -- may be sending data, so postpone
  if !c.channel.isWritingEnabled then { c with sock := { c.sock with writeShut := true } } else c

/-- `Shutdown()` in the loop thread. -/
def shutdown (c : Conn) : Conn :=
  if c.state = .kConnected then { c with state := .kDisconnecting }.shutdownInLoop else c

/-- The end of `HandleWrite` after all data are sent: continue a shutdown. -/
def handleWriteRest (c : Conn) : Conn :=
  if c.state = .kDisconnecting then c.shutdownInLoop else c

/-- `HandleWrite`; `left` is what `HandleEvent` does after it. -/
def handleWrite (c : Conn) (left : List EventCallback) (w : WriteResult) : Option Out :=
  if c.channel.isWritingEnabled then
    (c.sock.write c.sndBuffer.toList w).bind fun sock =>
      let c := { c with sock := sock }
      match w with
      | .wrote n =>
        if 0 < n then
          (c.sndBuffer.retrieve n).map fun snd =>
            let c := { c with sndBuffer := snd }
            if c.sndBuffer.readableBytes = 0 then
              let c := c.disableWriting
              if c.isSet.writeComplete then ⟨c, some (.writeComplete, .handleWrite left)⟩
              else c.handleWriteRest.ends
            else c.ends
        else some c.ends
      | _ => some c.ends
  else some c.ends

/-! ### Receiving and closing -/

/-- `ConnectEstablished`. -/
def connectEstablished (c : Conn) : Out :=
  let c := { c with state := .kConnected }
  if c.isSet.connection then ⟨c, some (.connection, .done)⟩ else c.ends

/-- `ConnectDestroyed`; `left` is what `HandleEvent` does after it. -/
def connectDestroyed (c : Conn) (left : List EventCallback) : Out :=
  let c := if c.state = .kConnected ∨ c.state = .kDisconnecting then c.disbaleAll else c
  let c := { c with state := .kDisconnected }
  if c.isSet.connection then ⟨c, some (.connection, .event left)⟩ else c.ends

/-- `HandleClose`.  The close callback is the server's: it drops the connection from its table and
runs `ConnectDestroyed` on the spot. -/
def handleClose (c : Conn) (left : List EventCallback) : Option Out :=
  if c.state = .kConnected ∨ c.state = .kDisconnecting then
    let c := c.disbaleAll
    let c := { c with state := .kDisconnected }
    if c.isSet.close then some (c.connectDestroyed left) else some c.ends
  else none

/-- `HandleRead`; `left` is what `HandleEvent` does after it.  `HandleError` only logs. -/
def handleRead (c : Conn) (left : List EventCallback) (r : ReadResult) : Option Out :=
  (c.sock.readv c.revBuffer.raw.offered r).bind fun (sock, got) =>
    let c := { c with sock := sock }
    match got with
    | .bytes data =>
      let c := { c with revBuffer := c.revBuffer.readBytes data }
      if 0 < data.length then
        if c.isSet.message then some ⟨c, some (.message, .event left)⟩ else some c.ends
      else c.handleClose left
    | .error _ => some c.ends

/-- The channel callbacks the constructor sets: all but the error callback. -/
def eventIsSet : EventCallback → Bool
  | .error => false
  | _ => true

/-- Run the remaining callbacks of `Channel::HandleEvent` one after the other, up to the first user
callback. -/
def runEvents (c : Conn) (r : ReadResult) (w : WriteResult) : List EventCallback → Option Out
  | [] => some c.ends
  | e :: left =>
    (match e with
      | .close => c.handleClose left
      | .error => some c.ends
      | .read => c.handleRead left r
      | .write => c.handleWrite left w).bind fun o =>
    match o.call with
    | some _ => some o
    | none => o.conn.runEvents r w left

/-- `HandleEvent` of the connection's channel after poll reported `revents`. -/
def handleEvent (c : Conn) (revents : BitVec 32) (r : ReadResult) (w : WriteResult) : Option Out :=
  let c := { c with channel := { c.channel with revents := revents } }
  c.runEvents r w (c.channel.handleEvent eventIsSet)

/-- What runs when a user callback returns. -/
def resume (c : Conn) (r : ReadResult) (w : WriteResult) : Rest → Option Out
  | .done => some c.ends
  | .sendInLoop msg nwrote => some (c.sendRest msg nwrote).ends
  | .handleWrite left => c.handleWriteRest.runEvents r w left
  | .event left => c.runEvents r w left

end Conn

end Polly
