import Polly.Component
import Polly.SessionRecv
import Polly.ServerTable

/-!
# ServerConns — each connection of a server by itself

`Lone` is one connection with its own callbacks under way: it is accepted, gets events, is called
by the user, and is closed or destroyed, and knows of no server, no other connection and no poller.
`own i s a` is what a step of a server is to connection `i`, and `lone s i` what connection `i` is
in the server.

* `run_lone`: every run of a server is, to each of its connections, a run of that connection alone.
* `connections_apart`: so what becomes of a connection depends on its own history only.
* `streams_apart`: in every run of a server, the bytes of every connection are those passed to its
  own `Send` and those its own peer has sent, each in order.
-/

namespace Polly

open Runs

/-! ### One connection -/

/-- A connection, what is left behind its callbacks under way (innermost first), and whether the
check of `POLLOUT` behind its read callback is due. -/
structure Lone where
  conn : Conn
  rests : List Rest
  dispatching : Bool

namespace Lone

/-- Continue with the outcome of a function of the connection. -/
def enter (k : Lone) (o : Out) : Lone :=
  { k with conn := o.conn, rests := (o.call.map Prod.snd).toList ++ k.rests }

/-- A connection as the new-connection callback leaves it. -/
def accepted (isSet : CallbacksSet) (fd : ℤ) : Lone :=
  let c := Conn.new fd { isSet with close := true }
  { conn := c, rests := [], dispatching := false : Lone }.enter c.connectEstablished

/-- `HandleEvent`, up to the check of `POLLOUT` behind the read callback. -/
def handleEvent (k : Lone) (r : ReadResult) (w : WriteResult) : Option Lone :=
  match (k.conn.channel.handleEvent Conn.eventIsSet).head? with
  | some .close => (k.conn.handleClose []).map k.enter
  | some .read => (k.conn.handleRead [] r).map { k with dispatching := true }.enter
  | some .write => (k.conn.handleWrite [] w).map k.enter
  | _ => some (k.enter k.conn.ends)

/-- The check of `POLLOUT` behind the read callback. -/
def checkOut (k : Lone) (w : WriteResult) : Option Lone :=
  let k := { k with dispatching := false }
  if hasBits k.conn.channel.revents POLLOUT then (k.conn.handleWrite [] w).map k.enter
  else some k

/-- What can happen to a connection. -/
inductive Act where
  | accept (fd : ℤ)
  | event (revents : BitVec 32) (r : ReadResult) (w : WriteResult)
  | checkOut (w : WriteResult)
  | ret
  | send (msg : Bytes) (w : WriteResult)
  | shutdown
  | retrieve (len : ℕ)
  | arrive (data : Bytes)
  | peerClose
  | destroy
  deriving DecidableEq, Repr

def act (k : Lone) : Act → Option Lone
  | .accept _ => none
  | .event revents r w =>
    { k with conn := { k.conn with
      channel := { k.conn.channel with revents := revents } } }.handleEvent r w
  | .checkOut w => if k.dispatching then k.checkOut w else none
  | .ret =>
    match k.rests with
    | [] => none
    | rest :: rests => (k.conn.resume (.got 0) .wouldBlock rest).map { k with rests := rests }.enter
  | .send msg w => (k.conn.sendInLoop msg w).map k.enter
  | .shutdown => some (k.enter k.conn.shutdown.ends)
  | .retrieve len =>
    (k.conn.revBuffer.retrieve len).map fun b => k.enter { k.conn with revBuffer := b }.ends
  | .arrive data =>
    guarded (!k.conn.sock.peerClosed)
      (k.enter { k.conn with sock := { k.conn.sock with queue := k.conn.sock.queue ++ data } }.ends)
  | .peerClose =>
    some (k.enter { k.conn with sock := { k.conn.sock with peerClosed := true } }.ends)
  | .destroy => some (k.enter (k.conn.connectDestroyed []))

/-- A connection comes into being when it is accepted. -/
def step (isSet : CallbacksSet) : Option Lone → Act → Option (Option Lone)
  | none, .accept fd => some (some (accepted isSet fd))
  | none, _ => none
  | some k, a => (k.act a).map some

/-! ### Its bytes -/

/-- Bytes passed to `Send`, retrieved by the user, or sent by the peer. -/
inductive Traffic where
  | sent (data : Bytes)
  | taken (data : Bytes)
  | arrived (data : Bytes)
  deriving DecidableEq, Repr

namespace Traffic

def sents : Traffic → Bytes
  | sent data => data
  | _ => []

def takens : Traffic → Bytes
  | taken data => data
  | _ => []

def arriveds : Traffic → Bytes
  | arrived data => data
  | _ => []

end Traffic

/-- The bytes of a step.  What `Send` is given is lost if its write fails for good. -/
def traffic (k : Lone) : Act → List Traffic
  | .send msg w => if k.conn.writesDirectly && w == .error then [] else [.sent msg]
  | .retrieve len => [.taken (k.conn.revBuffer.toList.take len)]
  | .arrive data => [.arrived data]
  | _ => []

/-- The same, with nothing before the connection is accepted. -/
def bytes (k : Option Lone) (a : Act) : List Traffic := k.elim [] fun k => k.traffic a

/-- The bytes of a connection are those of its traffic, in order. -/
structure Accounts (k : Lone) (log : List Traffic) : Prop where
  outgoing : k.conn.outgoing = log.flatMap Traffic.sents
  incoming : log.flatMap Traffic.takens ++ k.conn.incoming = log.flatMap Traffic.arriveds
  finished : ∀ rest ∈ k.rests, rest.Finished

end Lone

namespace Conn

variable {c : Conn} {o : Out} {r : ReadResult} {w : WriteResult}

/-- What a function does that moves no byte into or out of the connection. -/
structure KeepsBytes (c : Conn) (o : Out) : Prop where
  outgoing : o.conn.outgoing = c.outgoing
  incoming : o.conn.incoming = c.incoming
  call : ∀ cb rest, o.call = some (cb, rest) → rest.Finished

theorem keepsBytes_ends {c' : Conn} (hout : c'.outgoing = c.outgoing)
    (hin : c'.incoming = c.incoming) : KeepsBytes c c'.ends := ⟨hout, hin, by simp⟩

theorem handleClose_keepsBytes (h : c.handleClose [] = some o) : KeepsBytes c o := by
  obtain ⟨-, hconn, hcall⟩ := handleClose_cases h
  refine ⟨(handleClose_outgoing h).1, by rw [hconn]; rfl, fun cb rest hsome => ?_⟩
  rcases hcall with hnone | hcall
  · rw [hnone] at hsome
    cases hsome
  · rw [hcall] at hsome
    cases hsome
    rfl

theorem handleRead_keepsBytes (h : c.handleRead [] r = some o) : KeepsBytes c o := by
  rcases handleRead_cases h with rfl | ⟨n, -, -, hconn, hcall⟩ | ⟨-, -, -, hclose⟩
  · exact keepsBytes_ends rfl rfl
  · refine ⟨(handleRead_outgoing h).1, by rw [hconn, received_incoming], fun cb rest hsome => ?_⟩
    rw [hcall] at hsome
    split_ifs at hsome
    cases hsome
    rfl
  · have hkeeps := handleClose_keepsBytes hclose
    exact ⟨hkeeps.outgoing, hkeeps.incoming.trans (received_incoming 0), hkeeps.call⟩

theorem handleWrite_keepsBytes (h : c.handleWrite [] w = some o) : KeepsBytes c o := by
  refine ⟨(handleWrite_outgoing h).1, (handleWrite_keepsIn h).incoming, fun cb rest hcall => ?_⟩
  obtain ⟨-, rfl⟩ := handleWrite_call h hcall
  rfl

theorem connectDestroyed_keepsBytes : KeepsBytes c (c.connectDestroyed []) := by
  rw [connectDestroyed_eq]
  refine ⟨?_, ?_, fun cb rest hcall => ?_⟩
  · dsimp only
    split_ifs <;> rfl
  · dsimp only
    split_ifs <;> rfl
  · dsimp only at hcall
    split_ifs at hcall
    cases hcall
    rfl

theorem resume_keepsBytes {rest : Rest} (hrest : rest.Finished)
    (h : c.resume r w rest = some o) : KeepsBytes c o := by
  have hcall : o.call = none := resume_call h hrest
  refine ⟨(resume_outgoing ?_ h).1, ?_, by simp [hcall]⟩
  · rintro msg n rfl
    exact hrest
  · cases rest with
    | done => cases h; rfl
    | sendInLoop msg n =>
      cases h
      exact (sendRest_keepsIn n).incoming
    | handleWrite left =>
      obtain rfl : left = [] := hrest
      cases h
      exact handleWriteRest_keepsIn.incoming
    | event left =>
      obtain rfl : left = [] := hrest
      cases h
      rfl

end Conn

namespace Lone

open Conn

variable {k k' : Lone} {log : List Traffic} {o : Out}

theorem mem_enter_rests {rest : Rest} (h : rest ∈ (k.enter o).rests) :
    rest ∈ k.rests ∨ ∃ cb, o.call = some (cb, rest) := by
  simp only [enter, List.mem_append, Option.mem_toList, Option.map_eq_some_iff] at h
  rcases h with ⟨⟨cb, rest'⟩, hcall, rfl⟩ | h
  · exact Or.inr ⟨cb, hcall⟩
  · exact Or.inl h

theorem Accounts.enter (h : Accounts k log) (ho : KeepsBytes k.conn o) :
    Accounts (k.enter o) log where
  outgoing := ho.outgoing.trans h.outgoing
  incoming := by
    change log.flatMap Traffic.takens ++ o.conn.incoming = _
    rw [ho.incoming]
    exact h.incoming
  finished := by
    intro rest hrest
    rcases mem_enter_rests hrest with hrest | ⟨cb, hcall⟩
    · exact h.finished rest hrest
    · exact ho.call cb rest hcall

theorem handleEvent_accounts {r : ReadResult} {w : WriteResult} (hI : Accounts k log)
    (h : k.handleEvent r w = some k') : Accounts k' log := by
  unfold handleEvent at h
  split at h
  · obtain ⟨o, ho, rfl⟩ := Option.map_eq_some_iff.mp h
    exact hI.enter (handleClose_keepsBytes ho)
  · obtain ⟨o, ho, rfl⟩ := Option.map_eq_some_iff.mp h
    have hI' : Accounts { k with dispatching := true } log :=
      ⟨hI.outgoing, hI.incoming, hI.finished⟩
    exact hI'.enter (handleRead_keepsBytes ho)
  · obtain ⟨o, ho, rfl⟩ := Option.map_eq_some_iff.mp h
    exact hI.enter (handleWrite_keepsBytes ho)
  · cases h
    exact hI.enter (keepsBytes_ends rfl rfl)

theorem send_accounts {msg : Bytes} {w : WriteResult} (hI : Accounts k log)
    (h : k.act (.send msg w) = some k') :
    Accounts k' (log ++ k.traffic (.send msg w)) := by
  obtain ⟨o, ho, rfl⟩ := Option.map_eq_some_iff.mp h
  have hin : o.conn.incoming = k.conn.incoming := (sendInLoop_keepsIn ho).incoming
  refine ⟨?_, ?_, fun rest hrest => ?_⟩
  · change o.conn.outgoing = _
    rw [(sendInLoop_outgoing ho).1, hI.outgoing, List.flatMap_append, traffic]
    split_ifs <;> simp [Traffic.sents]
  · change _ ++ o.conn.incoming = _
    rw [hin, List.flatMap_append, List.flatMap_append, traffic]
    split_ifs <;> simpa [Traffic.takens, Traffic.arriveds] using hI.incoming
  · rcases mem_enter_rests hrest with hrest | ⟨cb, hcall⟩
    · exact hI.finished rest hrest
    · obtain ⟨-, rfl⟩ := sendInLoop_call ho hcall
      exact le_rfl

/-- **One step** of a connection accounts for its bytes. -/
theorem act_accounts {a : Act} (hI : Accounts k log) (h : k.act a = some k') :
    Accounts k' (log ++ k.traffic a) := by
  cases a with
  | accept fd => cases h
  | event revents r w =>
    change Accounts k' (log ++ [])
    rw [List.append_nil]
    have hI' : Accounts { k with conn := { k.conn with
        channel := { k.conn.channel with revents := revents } } } log :=
      ⟨hI.outgoing, hI.incoming, hI.finished⟩
    exact handleEvent_accounts hI' h
  | checkOut w =>
    change Accounts k' (log ++ [])
    rw [List.append_nil]
    have hI' : Accounts { k with dispatching := false } log :=
      ⟨hI.outgoing, hI.incoming, hI.finished⟩
    simp only [act, checkOut] at h
    split_ifs at h
    · obtain ⟨o, ho, rfl⟩ := Option.map_eq_some_iff.mp h
      exact hI'.enter (handleWrite_keepsBytes ho)
    · cases h
      exact hI'
  | ret =>
    change Accounts k' (log ++ [])
    rw [List.append_nil]
    simp only [act] at h
    split at h
    · cases h
    · rename_i rest rests hrests
      obtain ⟨o, ho, rfl⟩ := Option.map_eq_some_iff.mp h
      have hI' : Accounts { k with rests := rests } log := by
        refine ⟨hI.outgoing, hI.incoming, fun rest' hrest' => hI.finished rest' ?_⟩
        rw [hrests]
        exact List.mem_cons_of_mem rest hrest'
      refine hI'.enter (resume_keepsBytes (hI.finished rest ?_) ho)
      rw [hrests]
      exact List.mem_cons_self
  | send msg w => exact send_accounts hI h
  | shutdown =>
    cases h
    change Accounts _ (log ++ [])
    rw [List.append_nil]
    exact hI.enter (keepsBytes_ends shutdown_outgoing (Session.shutdown_incoming k.conn).1)
  | retrieve len =>
    obtain ⟨b, hb, rfl⟩ := Option.map_eq_some_iff.mp h
    obtain ⟨-, hlist⟩ := Buf.retrieve_eq_some hb
    refine ⟨?_, ?_, hI.finished⟩
    · change k.conn.outgoing = _
      simpa [traffic, Traffic.sents] using hI.outgoing
    · have hin := hI.incoming
      change _ ++ (b.toList ++ k.conn.sock.queue) = _
      rw [Conn.incoming, ← List.take_append_drop len k.conn.revBuffer.toList, ← hlist] at hin
      simpa [traffic, Traffic.takens, Traffic.arriveds] using hin
  | arrive data =>
    obtain ⟨-, rfl⟩ := guarded_eq_some.mp h
    refine ⟨?_, ?_, hI.finished⟩
    · change k.conn.outgoing = _
      simpa [traffic, Traffic.sents] using hI.outgoing
    · change _ ++ (k.conn.revBuffer.toList ++ (k.conn.sock.queue ++ data)) = _
      simp [traffic, Traffic.takens, Traffic.arriveds, ← hI.incoming, Conn.incoming]
  | peerClose =>
    cases h
    change Accounts _ (log ++ [])
    rw [List.append_nil]
    exact hI.enter (keepsBytes_ends rfl rfl)
  | destroy =>
    cases h
    change Accounts _ (log ++ [])
    rw [List.append_nil]
    exact hI.enter connectDestroyed_keepsBytes

theorem accepted_accounts (isSet : CallbacksSet) (fd : ℤ) : Accounts (accepted isSet fd) [] := by
  set c := Conn.new fd { isSet with close := true }
  have hconn : (accepted isSet fd).conn = { c with state := .kConnected } :=
    connectEstablished_conn
  refine ⟨?_, ?_, fun rest hrest => ?_⟩
  · rw [hconn]
    change [] ++ Buf.new.toList = []
    rw [Buf.toList_new, List.append_nil]
  · rw [hconn]
    change [] ++ (Buf.new.toList ++ []) = []
    rw [Buf.toList_new, List.append_nil, List.append_nil]
  · rcases mem_enter_rests hrest with hrest | ⟨cb, hcall⟩
    · cases hrest
    · rw [connectEstablished_call] at hcall
      split_ifs at hcall
      cases hcall
      trivial

/-- **Every run** of a connection accounts for its bytes. -/
theorem run_accounts {isSet : CallbacksSet} {as : List Act}
    (h : run (step isSet) none as = some (some k)) :
    Accounts k (trace (step isSet) bytes none as) := by
  let R : Option Lone → List Traffic → Prop :=
    fun k log => k.elim (log = []) fun k => Accounts k log
  have key : R (some k) ([] ++ trace (step isSet) bytes none as) := trace_inv R ?_ h rfl
  · exact key
  intro k a k' log hI h
  cases k with
  | none =>
    obtain rfl : log = [] := hI
    cases a with
    | accept fd =>
      cases h
      exact accepted_accounts isSet fd
    | _ => cases h
  | some k =>
    obtain ⟨k', hk', rfl⟩ := Option.map_eq_some_iff.mp h
    exact act_accounts hI hk'

end Lone

/-! ### A server, seen from one of its connections -/

namespace TcpServer

open Conn

variable {s s' : TcpServer} {a : Act} {i j : ℕ} {c : Conn} {o : Out} {held : List Ref}

/-- What a step is to connection `i`. -/
def own (i : ℕ) (s : TcpServer) : Act → List Lone.Act
  | .accept fd => if s.nextConnId = i then [.accept fd] else []
  | .event j revents r w => if j = i then [.event revents r w] else []
  | .checkOut w => if s.dispatching = some i then [.checkOut w] else []
  | .ret => if s.frames.head?.map Frame.id = some i then [.ret] else []
  | .send j msg w => if j = i then [.send msg w] else []
  | .shutdown j => if j = i then [.shutdown] else []
  | .retrieve j len => if j = i then [.retrieve len] else []
  | .keep _ => []
  | .drop _ => []
  | .arrive j data => if j = i then [.arrive data] else []
  | .peerClose j => if j = i then [.peerClose] else []
  | .destroy => []
  | .destroyNext j => if j = i then [.destroy] else []
  | .finish => []

/-- What is left behind the callbacks of connection `i`. -/
def rests (s : TcpServer) (i : ℕ) : List Rest :=
  (s.frames.filter fun f => f.id = i).map Frame.rest

/-- Connection `i`, if there is one. -/
def lone (s : TcpServer) (i : ℕ) : Option Lone :=
  s.conns[i]?.map fun c => ⟨c, s.rests i, s.dispatching = some i⟩

/-- Connections are numbered as they come, and callbacks belong to connections. -/
structure Numbered (s : TcpServer) : Prop where
  next : s.nextConnId = s.conns.length
  frames : ∀ f ∈ s.frames, f.id < s.conns.length
  dispatching : ∀ j, s.dispatching = some j → j < s.conns.length

theorem lone_some (hc : s.conns[i]? = some c) :
    s.lone i = some ⟨c, s.rests i, s.dispatching = some i⟩ := by
  rw [lone, hc, Option.map_some]

theorem rests_enter_self : (s.enter i c o held).rests i =
    (o.call.map Prod.snd).toList ++ s.rests i := by
  obtain ⟨c', call⟩ := o
  cases call with
  | none => rfl
  | some p => simp [rests, enter]

theorem rests_enter_of_ne (h : j ≠ i) : (s.enter j c o held).rests i = s.rests i := by
  obtain ⟨c', call⟩ := o
  cases call with
  | none => rfl
  | some p => simp [rests, enter, h]

/-- A function of the connection itself. -/
theorem lone_enter_self {c₀ : Conn} (hc : s.conns[i]? = some c₀) :
    (s.enter i c o held).lone i =
      some ({ conn := c₀, rests := s.rests i, dispatching := s.dispatching = some i : Lone }.enter
        o) := by
  have hlt : i < s.conns.length := lt_of_getElem? hc
  have hget : (s.enter i c o held).conns[i]? = some o.conn := by
    change (s.conns.set i o.conn)[i]? = _
    rw [List.getElem?_set_self hlt]
  rw [lone_some hget, rests_enter_self]
  rfl

/-- A function of another connection. -/
theorem lone_enter_of_ne (h : j ≠ i) : (s.enter j c o held).lone i = s.lone i := by
  have hget : (s.enter j c o held).conns[i]? = s.conns[i]? := List.getElem?_set_ne h
  rw [lone, lone, hget, rests_enter_of_ne h]
  rfl

/-! ### The steps -/

theorem enter_frames_id {f : Frame} (hf : f ∈ (s.enter i c o held).frames) :
    f ∈ s.frames ∨ f.id = i := by
  simp only [enter] at hf
  split at hf
  · exact Or.inl hf
  · rcases List.mem_cons.mp hf with rfl | hf
    · exact Or.inr rfl
    · exact Or.inl hf

theorem enter_numbered (h : Numbered s) (hi : i < s.conns.length) :
    Numbered (s.enter i c o held) := by
  have hlen : (s.enter i c o held).conns.length = s.conns.length := List.length_set
  refine ⟨h.next.trans hlen.symm, fun f hf => ?_, fun j hj => ?_⟩
  · rw [hlen]
    rcases enter_frames_id hf with hf | rfl
    · exact h.frames f hf
    · exact hi
  · rw [hlen]
    exact h.dispatching j hj

/-- What a step of one connection does to all of them. -/
structure Moves (s s' : TcpServer) (j : ℕ) (k' : Option Lone) : Prop where
  numbered : Numbered s'
  isSet : s'.isSet = s.isSet
  self : s'.lone j = k'
  others : ∀ i, j ≠ i → s'.lone i = s.lone i

/-- A function of connection `j`, entered from a state in which at most the callbacks and the
dispatch of `j` itself have changed. -/
theorem moves_enter {s₁ : TcpServer} {k : Lone} (hI : Numbered s₁) (hset : s₁.isSet = s.isSet)
    (hothers : ∀ i, j ≠ i → s₁.lone i = s.lone i) (hj : j < s₁.conns.length)
    (hrests : k.rests = s₁.rests j) (hd : k.dispatching = decide (s₁.dispatching = some j)) :
    Moves s (s₁.enter j c o held) j (some (k.enter o)) where
  numbered := enter_numbered hI hj
  isSet := hset
  self := by
    rw [lone_enter_self (List.getElem?_eq_getElem hj), ← hrests, ← hd]
    rfl
  others := fun i hi => (lone_enter_of_ne hi).trans (hothers i hi)

theorem Numbered.dispatch (hI : Numbered s) (hc : s.conns[j]? = some c) :
    Numbered { s with dispatching := some j } where
  next := hI.next
  frames := hI.frames
  dispatching := by
    rintro i hi
    obtain rfl : j = i := Option.some.inj hi
    exact lt_of_getElem? hc

theorem lone_dispatch {d : Option ℕ} (h : d = some i ↔ s.dispatching = some i) :
    { s with dispatching := d }.lone i = s.lone i := by
  unfold lone
  simp only [h]
  rfl

/-- `HandleEvent` of a connection is that of the connection alone. -/
theorem handleEvent_moves {c₀ : Conn} {r : ReadResult} {w : WriteResult} (hI : Numbered s)
    (hc : s.conns[j]? = some c₀) (hd : s.dispatching = none)
    (h : s.handleEvent j c r w = some s') :
    ∃ k', { conn := c, rests := s.rests j, dispatching := false : Lone }.handleEvent r w = some k' ∧
      Moves s s' j (some k') := by
  have hj : j < s.conns.length := lt_of_getElem? hc
  have hidle : false = decide (s.dispatching = some j) := by simp [hd]
  have hdue : ∀ i, j ≠ i → { s with dispatching := some j }.lone i = s.lone i :=
    fun i hi => lone_dispatch (by simp [hd, hi])
  unfold handleEvent at h
  unfold Lone.handleEvent
  split at h
  · rename_i left hlist
    simp only [hlist, List.head?_cons]
    obtain ⟨o, ho, rfl⟩ := closing_some h
    refine ⟨_, by rw [ho, Option.map_some], ?_⟩
    exact moves_enter ⟨hI.next, hI.frames, hI.dispatching⟩ rfl (fun _ _ => rfl) hj rfl hidle
  · rename_i left hlist
    simp only [hlist, List.head?_cons]
    split_ifs at h with hr
    · obtain ⟨o, ho, rfl⟩ := closing_some h
      refine ⟨_, by rw [ho, Option.map_some], ?_⟩
      exact moves_enter ⟨hI.next, hI.frames, (hI.dispatch hc).dispatching⟩ rfl hdue hj rfl
        (by simp)
    · obtain ⟨o, ho, rfl⟩ := Option.map_eq_some_iff.mp h
      refine ⟨_, by rw [ho, Option.map_some], ?_⟩
      exact moves_enter (hI.dispatch hc) rfl hdue hj rfl (by simp)
  · rename_i left hlist
    simp only [hlist, List.head?_cons]
    obtain ⟨o, ho, rfl⟩ := Option.map_eq_some_iff.mp h
    refine ⟨_, by rw [ho, Option.map_some], ?_⟩
    exact moves_enter hI rfl (fun _ _ => rfl) hj rfl hidle
  · rename_i hclose hread hwrite
    cases h
    refine ⟨Lone.enter ⟨c, s.rests j, false⟩ c.ends, ?_,
      moves_enter hI rfl (fun _ _ => rfl) hj rfl hidle⟩
    cases hlist : c.channel.handleEvent Conn.eventIsSet with
    | nil => rfl
    | cons e left =>
      cases e with
      | close => exact absurd hlist (hclose left)
      | error => rfl
      | read => exact absurd hlist (hread left)
      | write => exact absurd hlist (hwrite left)

/-- A step that belongs to connection `j` is its own step to `j`, and nothing to the others. -/
theorem Moves.run_own {b : Lone.Act} {k' : Option Lone} (h : Moves s s' j k')
    (hself : Lone.step s.isSet (s.lone j) b = some k') (i : ℕ) :
    run (Lone.step s.isSet) (s.lone i) (if j = i then [b] else []) = some (s'.lone i) := by
  by_cases hji : j = i
  · subst hji
    rw [if_pos rfl, run_single, hself, h.self]
  · rw [if_neg hji, run_nil, h.others i hji]

/-- A step of a server is a run of `own i` to every connection `i`. -/
def IsOwn (s s' : TcpServer) (own : ℕ → List Lone.Act) : Prop :=
  Numbered s' ∧ s'.isSet = s.isSet ∧
    ∀ i, run (Lone.step s.isSet) (s.lone i) (own i) = some (s'.lone i)

theorem Moves.isOwn {b : Lone.Act} {k' : Lone} (h : Moves s s' j (some k'))
    (hc : s.conns[j]? = some c)
    (hact : (Lone.mk c (s.rests j) (s.dispatching = some j)).act b = some k') :
    IsOwn s s' fun i => if j = i then [b] else [] := by
  refine ⟨h.numbered, h.isSet, h.run_own ?_⟩
  rw [lone_some hc]
  exact congrArg (Option.map some) hact

/-- A function of connection `j` that is called from outside. -/
theorem isOwn_enter {b : Lone.Act} (hI : Numbered s) (hc : s.conns[j]? = some c)
    (hact : (Lone.mk c (s.rests j) (s.dispatching = some j)).act b =
      some ((Lone.mk c (s.rests j) (s.dispatching = some j)).enter o)) :
    IsOwn s (s.enter j c o held) fun i => if j = i then [b] else [] :=
  (moves_enter hI rfl (fun _ _ => rfl) (lt_of_getElem? hc) rfl rfl).isOwn hc hact

/-- A step that touches no connection. -/
theorem isOwn_nothing (hI : Numbered s) (hnext : s'.nextConnId = s.nextConnId)
    (hconns : s'.conns = s.conns) (hframes : s'.frames = s.frames)
    (hd : s'.dispatching = s.dispatching) (hset : s'.isSet = s.isSet) :
    IsOwn s s' fun _ => [] := by
  refine ⟨⟨?_, ?_, ?_⟩, hset, fun i => ?_⟩
  · rw [hnext, hconns, hI.next]
  · rw [hconns, hframes]
    exact hI.frames
  · rw [hconns, hd]
    exact hI.dispatching
  · rw [run_nil, lone, lone, rests, rests, hconns, hframes, hd]

theorem accept_isOwn {fd : ℤ} (hI : Numbered s) :
    IsOwn s (s.newConnection fd) fun i => if s.nextConnId = i then [.accept fd] else [] := by
  set c : Conn := Conn.new fd { s.isSet with close := true }
  -- the server with the new connection in its table, before `ConnectEstablished`
  set s₁ : TcpServer := { s with
    nextConnId := s.nextConnId + 1
    connections := s.connections.insert (s.name ++ "#" ++ toString s.nextConnId) s.nextConnId
    conns := s.conns ++ [c]
    names := s.names ++ [s.name ++ "#" ++ toString s.nextConnId]
    poller := s.poller.updates fd (.conn s.nextConnId) c.updates }
  have hlen : s₁.conns.length = s.conns.length + 1 := List.length_append
  have hI₁ : Numbered s₁ := by
    refine ⟨by rw [hlen, ← hI.next], fun f hf => ?_, fun j hj => ?_⟩
    · exact hlen ▸ (hI.frames f hf).trans (Nat.lt_succ_self _)
    · exact hlen ▸ (hI.dispatching j hj).trans (Nat.lt_succ_self _)
  have hothers : ∀ i, s.nextConnId ≠ i → s₁.lone i = s.lone i := by
    intro i hi
    rw [hI.next] at hi
    have hget : s₁.conns[i]? = s.conns[i]? := by
      rcases Nat.lt_or_gt_of_ne hi with hlt | hlt
      · rw [List.getElem?_eq_none (by omega), List.getElem?_eq_none (by omega)]
      · exact List.getElem?_append_left hlt
    rw [lone, lone, hget]
    rfl
  have hfresh : s₁.rests s.nextConnId = [] := by
    rw [rests, List.filter_eq_nil_iff.mpr, List.map_nil]
    intro f hf hid
    have := hI.frames f hf
    rw [decide_eq_true_eq] at hid
    have := hI.next
    omega
  have hidle : false = decide (s₁.dispatching = some s.nextConnId) := by
    symm
    rw [decide_eq_false_iff_not]
    intro hd
    exact absurd (hI.dispatching _ hd) (by rw [hI.next]; exact lt_irrefl _)
  have hmoves : Moves s (s.newConnection fd) s.nextConnId (some (Lone.accepted s.isSet fd)) :=
    moves_enter hI₁ rfl hothers (by rw [hlen, hI.next]; exact Nat.lt_succ_self _) hfresh.symm hidle
  have hnone : s.lone s.nextConnId = none := by
    rw [lone, hI.next, List.getElem?_eq_none le_rfl, Option.map_none]
  refine ⟨hmoves.numbered, hmoves.isSet, hmoves.run_own ?_⟩
  rw [hnone]
  rfl

theorem checkOut_isOwn {w : WriteResult} (hI : Numbered s) (h : step s (.checkOut w) = some s') :
    IsOwn s s' fun i => if s.dispatching = some i then [.checkOut w] else [] := by
  obtain ⟨j, hj, h⟩ := Option.bind_eq_some_iff.mp h
  obtain ⟨c, hc, h⟩ := Option.bind_eq_some_iff.mp h
  split_ifs at h
  have hI' : Numbered { s with dispatching := none } := ⟨hI.next, hI.frames, by simp⟩
  have hothers : ∀ i, j ≠ i → { s with dispatching := none }.lone i = s.lone i :=
    fun i hi => lone_dispatch (by simp [hj, hi])
  simp only [hj, Option.some.injEq]
  simp only [checkOut] at h
  split_ifs at h with hout
  · obtain ⟨o, ho, rfl⟩ := Option.map_eq_some_iff.mp h
    have hmoves : Moves s ({ s with dispatching := none }.enter j c o [.functor]) j
        (some (Lone.enter ⟨c, s.rests j, false⟩ o)) :=
      moves_enter hI' rfl hothers (lt_of_getElem? hc) rfl (by simp)
    refine hmoves.isOwn hc ?_
    simp [Lone.act, Lone.checkOut, hj, hout, ho]
  · cases h
    have hmoves : Moves s { s with dispatching := none } j (some ⟨c, s.rests j, false⟩) :=
      ⟨hI', rfl, by simp [lone, hc]; rfl, hothers⟩
    refine hmoves.isOwn hc ?_
    simp [Lone.act, Lone.checkOut, hj, hout]

theorem ret_isOwn (hI : Numbered s) (h : step s .ret = some s') :
    IsOwn s s' fun i => if s.frames.head?.map Frame.id = some i then [.ret] else [] := by
  obtain ⟨f, frames, c, o, hframes, hc, ho, rfl⟩ := step_ret h
  simp only [hframes, List.head?_cons, Option.map_some, Option.some.injEq]
  have hI' : Numbered { s with frames := frames } := by
    refine ⟨hI.next, fun g hg => hI.frames g ?_, hI.dispatching⟩
    rw [hframes]
    exact List.mem_cons_of_mem f hg
  have hothers : ∀ i, f.id ≠ i → { s with frames := frames }.lone i = s.lone i := by
    intro i hi
    simp [lone, rests, hframes, hi]
  have hrests : s.rests f.id = f.rest :: { s with frames := frames }.rests f.id := by
    simp [rests, hframes]
  have hmoves : Moves s ({ s with frames := frames }.enter f.id c o []) f.id
      (some (Lone.enter ⟨c, { s with frames := frames }.rests f.id,
        s.dispatching = some f.id⟩ o)) :=
    moves_enter hI' rfl hothers (lt_of_getElem? hc) rfl rfl
  refine hmoves.isOwn hc ?_
  rw [hrests]
  exact congrArg (Option.map _) ho

/-- **One step of a server** is a step of one connection alone, or nothing to any of them. -/
theorem step_isOwn (hI : Numbered s) (h : step s a = some s') :
    IsOwn s s' fun i => own i s a := by
  cases a with
  | accept fd =>
    obtain ⟨-, rfl⟩ := guarded_eq_some.mp h
    exact accept_isOwn hI
  | event j revents r w =>
    obtain ⟨c, hc, -, hframes, hd, -, h⟩ := step_event h
    obtain ⟨k', hk', hmoves⟩ := handleEvent_moves hI hc hd h
    refine hmoves.isOwn hc ?_
    rw [hd]
    exact hk'
  | checkOut w => exact checkOut_isOwn hI h
  | ret => exact ret_isOwn hI h
  | send j msg w =>
    obtain ⟨c, hc, h⟩ := Option.bind_eq_some_iff.mp h
    split_ifs at h
    obtain ⟨o, ho, rfl⟩ := Option.map_eq_some_iff.mp h
    exact isOwn_enter hI hc (by rw [Lone.act, ho, Option.map_some])
  | shutdown j =>
    obtain ⟨c, hc, h⟩ := Option.bind_eq_some_iff.mp h
    obtain ⟨-, rfl⟩ := guarded_eq_some.mp h
    exact isOwn_enter hI hc rfl
  | retrieve j len =>
    obtain ⟨c, hc, h⟩ := Option.bind_eq_some_iff.mp h
    split_ifs at h
    obtain ⟨b, hb, rfl⟩ := Option.map_eq_some_iff.mp h
    exact isOwn_enter hI hc (by rw [Lone.act, hb, Option.map_some])
  | keep j =>
    obtain ⟨-, rfl⟩ := guarded_eq_some.mp h
    exact isOwn_nothing hI rfl rfl rfl rfl rfl
  | drop j =>
    obtain ⟨-, rfl⟩ := guarded_eq_some.mp h
    exact isOwn_nothing hI rfl rfl rfl rfl rfl
  | arrive j data =>
    obtain ⟨c, hc, h⟩ := Option.bind_eq_some_iff.mp h
    obtain ⟨hclosed, rfl⟩ := guarded_eq_some.mp h
    exact isOwn_enter hI hc (guarded_eq_some.mpr ⟨hclosed, rfl⟩)
  | peerClose j =>
    obtain ⟨c, hc, rfl⟩ := Option.map_eq_some_iff.mp h
    exact isOwn_enter hI hc rfl
  | destroy =>
    obtain ⟨-, rfl⟩ := guarded_eq_some.mp h
    exact isOwn_nothing hI rfl rfl rfl rfl rfl
  | destroyNext j =>
    obtain ⟨c, hc, h⟩ := Option.bind_eq_some_iff.mp h
    obtain ⟨-, rfl⟩ := guarded_eq_some.mp h
    have hmoves : Moves s (s.destroyConnection j c) j
        (some (Lone.enter ⟨c, s.rests j, s.dispatching = some j⟩ (c.connectDestroyed []))) :=
      moves_enter ⟨hI.next, hI.frames, hI.dispatching⟩ rfl (fun _ _ => rfl) (lt_of_getElem? hc)
        rfl rfl
    exact hmoves.isOwn hc rfl
  | finish =>
    obtain ⟨-, rfl⟩ := guarded_eq_some.mp h
    exact isOwn_nothing hI rfl rfl rfl rfl rfl

theorem new_numbered (name : String) (isSet : CallbacksSet) (listenFd : ℤ)
    (others : ℤ → Option ℕ) : Numbered (new name isSet listenFd others) :=
  ⟨rfl, List.forall_mem_nil _, by simp [new]⟩

section Runs

variable {name : String} {isSet : CallbacksSet} {listenFd : ℤ} {others : ℤ → Option ℕ}
  {as : List Act}

/-- **Every run of a server** is, to each of its connections, a run of that connection alone. -/
theorem run_lone (h : run step (new name isSet listenFd others) as = some s) (i : ℕ) :
    run (Lone.step isSet) none (trace step (own i) (new name isSet listenFd others) as) =
      some (s.lone i) := by
  refine run_trace (fun s => s.lone i) (Lone.step isSet) (fun s => Numbered s ∧ s.isSet = isSet)
    ?_ ?_ h ⟨new_numbered .., rfl⟩
  · rintro s a s' ⟨hI, rfl⟩ h
    obtain ⟨hI', hset, -⟩ := step_isOwn hI h
    exact ⟨hI', hset⟩
  · rintro s a s' ⟨hI, rfl⟩ h
    exact (step_isOwn hI h).2.2 i

/-- **Connections are independent.**  If connection `i` of one server and connection `j` of another
have the same history of their own, they are in the same state, whatever else has happened in the
two servers. -/
theorem connections_apart {name' : String} {listenFd' : ℤ} {others' : ℤ → Option ℕ}
    {bs : List Act} {t : TcpServer} {i j : ℕ}
    (h : run step (new name isSet listenFd others) as = some s)
    (h' : run step (new name' isSet listenFd' others') bs = some t)
    (hown : trace step (own i) (new name isSet listenFd others) as =
      trace step (own j) (new name' isSet listenFd' others') bs) :
    s.lone i = t.lone j := by
  have hs := run_lone h i
  rw [hown, run_lone h' j] at hs
  exact (Option.some.inj hs).symm

/-- The bytes of connection `i` in a run from `s`. -/
def traffic (i : ℕ) (s : TcpServer) (as : List Act) : List Lone.Traffic :=
  trace (Lone.step s.isSet) Lone.bytes none (trace step (own i) s as)

/-- **The streams of every connection.**  In every run of a server, what the socket of a connection
has accepted and what its `snd_buffer_` holds is what its own `Send` was given, and what the user
has retrieved from it, what its `rev_buffer_` holds and what is still in the kernel is what its own
peer has sent. -/
theorem streams_apart (h : run step (new name isSet listenFd others) as = some s)
    (hc : s.conns[i]? = some c) {log : List Lone.Traffic}
    (hlog : traffic i (new name isSet listenFd others) as = log) :
    c.sock.accepted ++ c.sndBuffer.toList = log.flatMap Lone.Traffic.sents ∧
      log.flatMap Lone.Traffic.takens ++ (c.revBuffer.toList ++ c.sock.queue) =
        log.flatMap Lone.Traffic.arriveds := by
  have hrun := run_lone h i
  rw [lone_some hc] at hrun
  have hI := Lone.run_accounts hrun
  rw [← hlog]
  exact ⟨hI.outgoing, hI.incoming⟩

end Runs

/-! ### Two peers at once -/

/-- Both peers send; the second connection is answered from the message callback of the first,
with a short write and a hard error, before the first retrieves a part of what it got. -/
def crossTalk : List Act :=
  [.accept 10, .ret, .accept 11, .ret, .arrive 0 [1, 2, 3], .arrive 1 [7],
    .event 0 POLLIN (.got 2) .wouldBlock, .send 1 [8, 9] (.wrote 1), .send 0 [4] .error,
    .retrieve 0 1, .ret, .checkOut .wouldBlock]

/-- What `crossTalk` is to the second connection, in a server that has no other. -/
def quietTalk : List Act :=
  [.accept 11, .ret, .arrive 0 [7], .send 0 [8, 9] (.wrote 1)]

theorem connections_apart_crossTalk :
    ∃ s t, run step (new "srv" ⟨true, true, true, true⟩ 3 fun _ => none) crossTalk = some s ∧
      run step (new "one" ⟨true, true, true, true⟩ 4 fun _ => none) quietTalk = some t ∧
      s.lone 1 = t.lone 0 := by
  have hs : (run step (new "srv" ⟨true, true, true, true⟩ 3 fun _ => none) crossTalk).isSome =
      true := by decide +kernel
  have ht : (run step (new "one" ⟨true, true, true, true⟩ 4 fun _ => none) quietTalk).isSome =
      true := by decide +kernel
  obtain ⟨s, hs⟩ := Option.isSome_iff_exists.mp hs
  obtain ⟨t, ht⟩ := Option.isSome_iff_exists.mp ht
  have hown : trace step (own 1) (new "srv" ⟨true, true, true, true⟩ 3 fun _ => none) crossTalk =
      trace step (own 0) (new "one" ⟨true, true, true, true⟩ 4 fun _ => none) quietTalk := by
    decide +kernel
  exact ⟨s, t, hs, ht, connections_apart hs ht hown⟩

theorem streams_apart_crossTalk :
    ∃ (s : TcpServer) (c : Conn),
      run step (new "srv" ⟨true, true, true, true⟩ 3 fun _ => none) crossTalk = some s ∧
      s.conns[0]? = some c ∧ c.sock.accepted ++ c.sndBuffer.toList = [] ∧
      [1] ++ (c.revBuffer.toList ++ c.sock.queue) = ([1, 2, 3] : Bytes) := by
  have hend : (run step (new "srv" ⟨true, true, true, true⟩ 3 fun _ => none) crossTalk).map
      (fun s => s.conns[0]?.isSome) = some true := by decide +kernel
  obtain ⟨s, hs, hget⟩ := Option.map_eq_some_iff.mp hend
  obtain ⟨c, hc⟩ := Option.isSome_iff_exists.mp hget
  have hlog : traffic 0 (new "srv" ⟨true, true, true, true⟩ 3 fun _ => none) crossTalk =
      [.arrived [1, 2, 3], .taken [1]] := by decide +kernel
  obtain ⟨hout, hin⟩ := streams_apart hs hc hlog
  refine ⟨s, c, hs, hc, hout.trans ?_, Eq.trans ?_ (hin.trans ?_)⟩
  · simp [Lone.Traffic.sents]
  · simp [Lone.Traffic.takens]
  · simp [Lone.Traffic.arriveds]

end TcpServer

end Polly
