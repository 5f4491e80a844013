import Polly.ServerTable

/-!
# ServerDestroy — what a destroyed server leaves in the poller

`~TcpServer` closes the connections that are left, and each closed connection has unregistered its
channel.  The acceptor has registered the listening channel in its constructor, and its destructor
is the default one: nothing unregisters that channel.

* `listen_left_behind`: after the destructor the listening channel is registered, whatever the run
  was; and it is all that is left, if no `Send` came after a close.
-/

namespace Polly

open Runs

namespace TcpServer

open Conn

variable {s s' : TcpServer} {a : Act} {fd : ℤ} {i : ℕ} {c : Conn} {o : Out} {held : List Ref}

/-- The listening channel is registered, and no connection has its descriptor. -/
structure ListenInv (fd : ℤ) (s : TcpServer) : Prop where
  listenFd : s.listenFd = fd
  registered : s.poller fd = some .listen
  apart : ∀ c ∈ s.conns, c.channel.fd ≠ fd

theorem ListenInv.apart_get (hI : ListenInv fd s) (hc : s.conns[i]? = some c) :
    c.channel.fd ≠ fd := hI.apart c (List.mem_of_getElem? hc)

/-- A function of a connection does not touch the listening channel. -/
theorem ListenInv.enter (hI : ListenInv fd s) (hne : c.channel.fd ≠ fd) (ho : Passed c o.conn) :
    ListenInv fd (s.enter i c o held) where
  listenFd := hI.listenFd
  registered := (Registry.updates_of_ne hne.symm).trans hI.registered
  apart := by
    intro y hy
    rcases List.mem_or_eq_of_mem_set hy with hy | rfl
    · exact hI.apart y hy
    · rw [ho.1]
      exact hne

theorem ListenInv.accept (hI : ListenInv fd s) {newFd : ℤ} (hne : newFd ≠ fd) :
    ListenInv fd (s.newConnection newFd) where
  listenFd := hI.listenFd
  registered := by
    rw [newConnection_poller, Function.update_of_ne hne.symm]
    exact hI.registered
  apart := by
    intro y hy
    rcases List.mem_or_eq_of_mem_set hy with hy | rfl
    · rcases List.mem_append.mp hy with hy | hy
      · exact hI.apart y hy
      · rw [List.mem_singleton.mp hy]
        exact hne
    · rw [connectEstablished_conn]
      exact hne

theorem ListenInv.closing (hI : ListenInv fd s) (hne : c.channel.fd ≠ fd) {out : Option Out}
    (hout : ∀ o, out = some o → Passed c o.conn) (h : s.closing i c out = some s') :
    ListenInv fd s' := by
  obtain ⟨o, ho, rfl⟩ := closing_some h
  have hI' : ListenInv fd { s with connections := s.connections.erase (s.connName i) } :=
    { hI with }
  exact hI'.enter hne (hout o ho)

theorem ListenInv.handleEvent (hI : ListenInv fd s) (hne : c.channel.fd ≠ fd) {r : ReadResult}
    {w : WriteResult} (h : s.handleEvent i c r w = some s') : ListenInv fd s' := by
  unfold TcpServer.handleEvent at h
  split at h
  · exact hI.closing hne (fun o ho => handleClose_passed ho) h
  · have hI' : ListenInv fd { s with dispatching := some i } := { hI with }
    split_ifs at h
    · exact hI'.closing hne (fun o ho => handleRead_passed ho) h
    · obtain ⟨o, ho, rfl⟩ := Option.map_eq_some_iff.mp h
      exact hI'.enter hne (handleRead_passed ho)
  · obtain ⟨o, ho, rfl⟩ := Option.map_eq_some_iff.mp h
    exact hI.enter hne (handleWrite_passed ho)
  · cases h
    exact hI.enter hne (.of_eq rfl rfl)

theorem connectDestroyed_passed {left : List EventCallback} :
    Passed c (c.connectDestroyed left).conn := by
  rw [connectDestroyed_eq]
  dsimp only
  split_ifs
  · exact updateChannel_passed c rfl
  · exact .of_eq rfl rfl

/-- **One step** leaves the listening channel registered. -/
theorem step_listenInv (hI : ListenInv fd s) (h : step s a = some s') : ListenInv fd s' := by
  cases a with
  | accept newFd =>
    obtain ⟨⟨-, -, -, hfresh⟩, rfl⟩ := guarded_eq_some.mp h
    simp only [freshFd, Bool.and_eq_true, bne_iff_ne] at hfresh
    exact hI.accept (by rw [← hI.listenFd]; exact hfresh.1.1)
  | event i revents r w =>
    obtain ⟨c, hc, -, -, -, -, h⟩ := step_event h
    have hne := hI.apart_get hc
    exact hI.handleEvent (c := { c with channel := { c.channel with revents := revents } }) hne h
  | checkOut w =>
    obtain ⟨i, -, h⟩ := Option.bind_eq_some_iff.mp h
    obtain ⟨c, hc, h⟩ := Option.bind_eq_some_iff.mp h
    have hI' : ListenInv fd { s with dispatching := none } := { hI with }
    split_ifs at h
    simp only [checkOut] at h
    split_ifs at h
    · obtain ⟨o, ho, rfl⟩ := Option.map_eq_some_iff.mp h
      exact hI'.enter (hI.apart_get hc) (handleWrite_passed ho)
    · cases h
      exact hI'
  | ret =>
    obtain ⟨f, frames, c, o, -, hc, ho, rfl⟩ := step_ret h
    have hI' : ListenInv fd { s with frames := frames } := { hI with }
    exact hI'.enter (hI.apart_get hc) (resume_passed ho)
  | send i msg w =>
    obtain ⟨c, hc, h⟩ := Option.bind_eq_some_iff.mp h
    split_ifs at h
    obtain ⟨o, ho, rfl⟩ := Option.map_eq_some_iff.mp h
    exact hI.enter (hI.apart_get hc) (sendInLoop_passed ho)
  | shutdown i =>
    obtain ⟨c, hc, h⟩ := Option.bind_eq_some_iff.mp h
    obtain ⟨-, rfl⟩ := guarded_eq_some.mp h
    exact hI.enter (hI.apart_get hc) shutdown_passed
  | retrieve i len =>
    obtain ⟨c, hc, h⟩ := Option.bind_eq_some_iff.mp h
    split_ifs at h
    obtain ⟨b, -, rfl⟩ := Option.map_eq_some_iff.mp h
    exact hI.enter (hI.apart_get hc) (.of_eq rfl rfl)
  | keep i =>
    obtain ⟨-, rfl⟩ := guarded_eq_some.mp h
    exact { hI with }
  | drop i =>
    obtain ⟨-, rfl⟩ := guarded_eq_some.mp h
    exact { hI with }
  | arrive i data =>
    obtain ⟨c, hc, h⟩ := Option.bind_eq_some_iff.mp h
    obtain ⟨-, rfl⟩ := guarded_eq_some.mp h
    exact hI.enter (hI.apart_get hc) (.of_eq rfl rfl)
  | peerClose i =>
    obtain ⟨c, hc, rfl⟩ := Option.map_eq_some_iff.mp h
    exact hI.enter (hI.apart_get hc) (.of_eq rfl rfl)
  | destroy =>
    obtain ⟨-, rfl⟩ := guarded_eq_some.mp h
    exact { hI with }
  | destroyNext i =>
    obtain ⟨c, hc, h⟩ := Option.bind_eq_some_iff.mp h
    obtain ⟨-, rfl⟩ := guarded_eq_some.mp h
    have hI' : ListenInv fd { s with connections := s.connections.insert (s.connName i) none } :=
      { hI with }
    exact hI'.enter (hI.apart_get hc) connectDestroyed_passed
  | finish =>
    obtain ⟨-, rfl⟩ := guarded_eq_some.mp h
    exact { hI with }

theorem new_listenInv (name : String) (isSet : CallbacksSet) (others : ℤ → Option ℕ) :
    ListenInv fd (new name isSet fd others) where
  listenFd := rfl
  registered := by
    change Function.update _ fd _ fd = _
    rw [Function.update_self, if_neg (by decide)]
  apart := fun c hc => absurd hc List.not_mem_nil

/-- When all connections are closed, the poller has the channels of `base`. -/
theorem ServerInv.poller_eq {base : Registry} (hI : ServerInv base s)
    (hended : s.phase = .destroyed) : s.poller = base := by
  ext1 fd
  refine hI.poll.others fd fun i hreg => ?_
  obtain ⟨c, hc, rfl⟩ := hI.poll.owned fd i hreg
  exact hI.ended hended i ((isOpen_iff hc).mpr ((hI.poll.registered i c hc).mp hreg))

/-- **A destroyed server leaves its listening channel registered.**  In every run from the
construction of a server to the end of its destructor, the poller ends up with a channel it did not
have before; if `Send` is not called on closed connections, this is the only difference. -/
theorem listen_left_behind (name : String) (isSet : CallbacksSet) (listenFd : ℤ)
    (others : ℤ → Option ℕ) (hfree : others listenFd = none) {as : List Act} {s : TcpServer}
    (hrun : run step (new name isSet listenFd others) as = some s)
    (hended : s.phase = .destroyed) :
    s.poller listenFd = some .listen ∧ s.poller ≠ Registry.ofOthers others ∧
      (Along step (fun s a => sendsOpen s a = true) (new name isSet listenFd others) as →
        s.poller = Function.update (Registry.ofOthers others) listenFd (some .listen)) := by
  have hlisten := (run_inv (fun _ _ _ hI h => step_listenInv hI h) hrun
    (new_listenInv name isSet others)).registered
  refine ⟨hlisten, fun heq => ?_, fun hsends => ?_⟩
  · rw [heq, Registry.ofOthers, hfree] at hlisten
    cases hlisten
  · rw [(run_serverInv hrun hsends).1.poller_eq hended, Registry.update, if_neg (by decide)]

/-- A connection comes and is closed by its peer; then the server is destroyed. -/
def oneVisit : List Act :=
  [.accept 10, .ret, .peerClose 0, .event 0 POLLHUP (.got 0) .wouldBlock, .ret, .destroy, .finish]

theorem listen_left_behind_oneVisit :
    ∃ s, run step (new "srv" ⟨true, true, true, true⟩ 3 fun fd => if fd = 4 then some 0 else none)
        oneVisit = some s ∧
      s.poller 3 = some .listen ∧ s.poller 4 = some (.other 0) ∧ s.poller 10 = none := by
  have hend : (run step (new "srv" ⟨true, true, true, true⟩ 3
      fun fd => if fd = 4 then some 0 else none) oneVisit).map (fun s => s.phase) =
        some .destroyed := by decide +kernel
  obtain ⟨s, hs, hphase⟩ := Option.map_eq_some_iff.mp hend
  obtain ⟨hlisten, -, hrest⟩ := listen_left_behind "srv" ⟨true, true, true, true⟩ 3
    (fun fd => if fd = 4 then some 0 else none) rfl hs hphase
  refine ⟨s, hs, hlisten, ?_, ?_⟩ <;> rw [hrest (by decide +kernel)] <;> rfl

/-- Before the construction nothing is registered, and after the destruction descriptor 3 is. -/
theorem destroyed_server_registered :
    ∃ s, run step (new "srv" ⟨true, true, true, true⟩ 3 fun _ => none) oneVisit = some s ∧
      s.phase = .destroyed ∧ Registry.ofOthers (fun _ => none) 3 = none ∧
      s.poller 3 = some .listen ∧ s.poller ≠ Registry.ofOthers fun _ => none := by
  have hend : (run step (new "srv" ⟨true, true, true, true⟩ 3 fun _ => none) oneVisit).map
      (fun s => (s.phase, s.poller 3)) = some (.destroyed, some .listen) := by decide +kernel
  obtain ⟨s, hs, heq⟩ := Option.map_eq_some_iff.mp hend
  obtain ⟨hphase, hlisten⟩ := Prod.mk.inj heq
  refine ⟨s, hs, hphase, rfl, hlisten, fun hsame => ?_⟩
  rw [hsame] at hlisten
  cases hlisten

end TcpServer

end Polly
