import Polly.TcpServer
import Polly.SessionClosed

/-!
# ServerSpec — what a step of a server does

A function of a connection either leaves it as open as it was (`Stays`) or closes it (`Closes`).
`Effect` lists what a step can do to the server in these terms; `step_effect` says that this is all,
as long as `Send` is called on open connections only (`sendsOpen`) and the connections are as they
should be (`Steady`).
-/

namespace Polly

open Runs

/-- What is left behind a callback of a server's connection neither sends nor dispatches. -/
def Rest.Finished : Rest → Prop
  | .done => True
  | .sendInLoop msg nwrote => msg.length ≤ nwrote
  | .handleWrite left => left = []
  | .event left => left = []

namespace Conn

variable {c c' : Conn} {o : Out} {msg : Bytes} {r : ReadResult} {w : WriteResult}

/-- Interested while it is open, and off once it is closed. -/
structure Steady (c : Conn) : Prop where
  interested : OpenInterested c
  off : Off false c

theorem Steady.open_iff (h : Steady c) :
    c.state ≠ .kDisconnected ↔ c.state = .kConnected ∨ c.state = .kDisconnecting := by
  have hest := h.off.established
  cases hstate : c.state <;> simp_all

/-- The outcome of a function that leaves the connection as open as it was. -/
structure Stays (c : Conn) (o : Out) : Prop where
  steady : Steady o.conn
  isSet : o.conn.isSet = c.isSet
  state : o.conn.state = .kDisconnected ↔ c.state = .kDisconnected
  passed : Passed c o.conn
  quiet : c.state = .kDisconnected → o.conn.updates = c.updates
  call : ∀ cb rest, o.call = some (cb, rest) → cb ≠ .connection ∧ rest.Finished

/-- The outcome of a function that closes an open connection and notifies the user. -/
structure Closes (c : Conn) (o : Out) : Prop where
  opened : c.state ≠ .kDisconnected
  steady : Steady o.conn
  isSet : o.conn.isSet = c.isSet
  state : o.conn.state = .kDisconnected
  fd : o.conn.channel.fd = c.channel.fd
  updates : o.conn.updates = c.updates ++ [0]
  call : o.call = if c.isSet.connection then some (.connection, .event []) else none

/-! ### Functions that stay -/

/-- What touches neither state, mask, output buffer nor poller. -/
theorem stays_ends (hI : Steady c) (hstate : c'.state = c.state)
    (hch : c'.channel.fd = c.channel.fd ∧ c'.channel.events = c.channel.events)
    (hsnd : c'.sndBuffer = c.sndBuffer) (hset : c'.isSet = c.isSet)
    (hu : c'.updates = c.updates) : Stays c c'.ends where
  steady := by
    refine ⟨fun hopen => ?_, hI.off.of_eq hstate hch.2⟩
    rw [ends_conn, hstate] at hopen
    have hint := hI.interested hopen
    unfold Interested at hint ⊢
    rw [ends_conn, hch.2, hsnd]
    exact hint
  isSet := hset
  state := by rw [ends_conn, hstate]
  passed := ⟨hch.1, [], by rw [ends_conn, hu, List.append_nil], hch.2⟩
  quiet := fun _ => hu
  call := nofun

theorem sendInLoop_stays (h : c.sendInLoop msg w = some o) (hI : Steady c)
    (hopen : c.state ≠ .kDisconnected) : Stays c o where
  steady := by
    refine ⟨fun _ => sendInLoop_interested h (hI.interested hopen), sendInLoop_off h hI.off ?_⟩
    rintro (hb | hstate)
    · cases hb
    · exact absurd hstate hopen
  isSet := (sendInLoop_keepsIn h).isSet
  state := by rw [(sendInLoop_keepsIn h).state]
  passed := sendInLoop_passed h
  quiet := fun hstate => absurd hstate hopen
  call := by
    intro cb rest hcall
    obtain ⟨rfl, rfl⟩ := sendInLoop_call h hcall
    exact ⟨nofun, le_rfl⟩

theorem handleWrite_stays (h : c.handleWrite [] w = some o) (hI : Steady c) : Stays c o where
  steady := ⟨handleWrite_openInterested h hI.interested, handleWrite_off h hI.off⟩
  isSet := (handleWrite_keepsIn h).isSet
  state := by rw [(handleWrite_keepsIn h).state]
  passed := handleWrite_passed h
  quiet := by
    intro hstate
    rw [handleWrite_of_events h (hI.off.off (Or.inr hstate)).2]
    rfl
  call := by
    intro cb rest hcall
    obtain ⟨rfl, rfl⟩ := handleWrite_call h hcall
    exact ⟨nofun, rfl⟩

theorem handleRead_stays (h : c.handleRead [] r = some o) (hr : r ≠ .got 0) (hI : Steady c) :
    Stays c o := by
  rcases handleRead_cases h with rfl | ⟨n, -, -, hconn, hcall⟩ | ⟨hr', -⟩
  · exact stays_ends hI rfl ⟨rfl, rfl⟩ rfl rfl rfl
  · have hends : Stays c (c.received n).ends := stays_ends hI rfl ⟨rfl, rfl⟩ rfl rfl rfl
    obtain ⟨conn, call⟩ := o
    obtain rfl : conn = c.received n := hconn
    refine ⟨hends.steady, hends.isSet, hends.state, hends.passed, hends.quiet, ?_⟩
    intro cb rest hcall'
    obtain rfl : call = _ := hcall
    split_ifs at hcall'
    cases hcall'
    exact ⟨nofun, rfl⟩
  · exact absurd hr' hr

theorem shutdownInLoop_stays (hI : Steady c) : Stays c c.shutdownInLoop.ends :=
  stays_ends hI shutdownInLoop_keepsIn.state (by rw [shutdownInLoop_channel]; exact ⟨rfl, rfl⟩)
    shutdownInLoop_sndBuffer shutdownInLoop_keepsIn.isSet shutdownInLoop_updates

theorem shutdown_stays (hI : Steady c) : Stays c c.shutdown.ends where
  steady := ⟨shutdown_openInterested hI.interested, shutdown_off hI.off⟩
  isSet := by
    unfold shutdown
    split_ifs
    · exact shutdownInLoop_keepsIn.isSet
    · rfl
  state := by
    unfold shutdown
    split_ifs with hs
    · rw [ends_conn, shutdownInLoop_keepsIn.state, hs]
      change ConnState.kDisconnecting = .kDisconnected ↔ ConnState.kConnected = .kDisconnected
      decide
    · exact Iff.rfl
  passed := shutdown_passed
  quiet := by
    intro hstate
    rw [ends_conn, shutdown, if_neg (by rw [hstate]; decide)]
  call := nofun

theorem resume_stays {rest : Rest} (h : c.resume r w rest = some o) (hrest : rest.Finished)
    (hI : Steady c) : Stays c o := by
  have hends : Stays c c.ends := stays_ends hI rfl ⟨rfl, rfl⟩ rfl rfl rfl
  cases rest with
  | done =>
    cases h
    exact hends
  | sendInLoop msg n =>
    have hle : msg.length ≤ n := hrest
    cases h
    rw [sendRest, if_neg (by omega)]
    exact hends
  | handleWrite left =>
    obtain rfl : left = [] := hrest
    cases h
    rw [handleWriteRest]
    split_ifs
    · exact shutdownInLoop_stays hI
    · exact hends
  | event left =>
    obtain rfl : left = [] := hrest
    cases h
    exact hends

/-- What is left behind a callback invokes no other. -/
theorem resume_call {rest : Rest} (h : c.resume r w rest = some o) (hrest : rest.Finished) :
    o.call = none := by
  cases rest with
  | done => cases h; rfl
  | sendInLoop msg n => cases h; rfl
  | handleWrite left =>
    obtain rfl : left = [] := hrest
    cases h
    rfl
  | event left =>
    obtain rfl : left = [] := hrest
    cases h
    rfl

/-! ### Functions that close -/

theorem closes_closed (hopen : c.state ≠ .kDisconnected) : Closes c
    ⟨c.closed, if c.isSet.connection then some (.connection, .event []) else none⟩ where
  opened := hopen
  steady := ⟨fun h => absurd rfl h, closed_off c⟩
  isSet := rfl
  state := rfl
  fd := rfl
  updates := rfl
  call := rfl

theorem handleClose_closes (h : c.handleClose [] = some o) (hset : c.isSet.close = true) :
    Closes c o := by
  obtain ⟨hs, -, -⟩ := handleClose_cases h
  rw [handleClose_eq hs hset] at h
  cases h
  refine closes_closed ?_
  rcases hs with hs | hs <;> rw [hs] <;> nofun

theorem handleRead_closes (h : c.handleRead [] (.got 0) = some o) (hset : c.isSet.close = true) :
    Closes c o := by
  have hread := handleClose_closes (handleRead_zero h) hset
  exact ⟨hread.opened, hread.steady, hread.isSet, hread.state, hread.fd, hread.updates, hread.call⟩

theorem connectDestroyed_closes (hI : Steady c) (hopen : c.state ≠ .kDisconnected) :
    Closes c (c.connectDestroyed []) := by
  rw [connectDestroyed_eq, if_pos (hI.open_iff.mp hopen)]
  exact closes_closed hopen

end Conn

/-! ### The poller -/

namespace Registry

variable {p : Registry} {fd : ℤ} {ch : ChanId} {masks : List (BitVec 32)}

theorem updates_of_ne {x : ℤ} (hx : x ≠ fd) : p.updates fd ch masks x = p x := by
  unfold updates
  induction masks generalizing p with
  | nil => rfl
  | cons mask masks ih =>
    rw [List.foldl_cons, ih]
    exact Function.update_of_ne hx _ _

theorem updates_append (masks' : List (BitVec 32)) :
    p.updates fd ch (masks ++ masks') = (p.updates fd ch masks).updates fd ch masks' :=
  List.foldl_append

/-- The last mask decides. -/
theorem updates_self : p.updates fd ch masks fd =
    masks.getLast?.elim (p fd) fun mask => if mask = 0 then none else some ch := by
  induction masks using List.reverseRecOn with
  | nil => rfl
  | append_singleton masks mask ih =>
    rw [updates_append, List.getLast?_append]
    exact Function.update_self _ _ _

end Registry

namespace TcpServer

open Conn

variable {s s' : TcpServer} {a : Act} {i : ℕ} {c : Conn} {o : Out} {held : List Ref}

/-- A registered channel that stays open stays registered, and a closed one does not come back. -/
theorem enter_poller_of_stays (h : Stays c o)
    (hreg : c.state ≠ .kDisconnected → s.poller c.channel.fd = some (.conn i)) :
    (s.enter i c o held).poller = s.poller := by
  obtain ⟨-, masks, hu, he⟩ := h.passed
  have hdrop : o.conn.updates.drop c.updates.length = masks := by rw [hu, List.drop_left]
  change s.poller.updates c.channel.fd (.conn i) (o.conn.updates.drop c.updates.length) = s.poller
  rw [hdrop]
  by_cases hclosed : c.state = .kDisconnected
  · have hnil : masks = [] := List.append_right_eq_self.mp (hu.symm.trans (h.quiet hclosed))
    rw [hnil]
    rfl
  · ext1 x
    by_cases hx : x = c.channel.fd
    · subst hx
      rw [Registry.updates_self]
      cases hlast : masks.getLast? with
      | none => rfl
      | some mask =>
        have hint : Interested o.conn := h.steady.interested (by rw [Ne, h.state]; exact hclosed)
        have hmask : mask ≠ 0 := by
          rw [hlast] at he
          have hm : o.conn.channel.events = mask := he
          rw [← hm, show o.conn.channel.events = _ from hint]
          split_ifs <;> decide
        rw [Option.elim_some, if_neg hmask, hreg hclosed]
    · exact Registry.updates_of_ne hx

/-- A channel that closes is unregistered. -/
theorem enter_poller_of_closes (h : Closes c o) :
    (s.enter i c o held).poller = Function.update s.poller c.channel.fd none := by
  change s.poller.updates c.channel.fd (.conn i) (o.conn.updates.drop c.updates.length) = _
  rw [h.updates, List.drop_left]
  rfl

/-! ### References -/

theorem refs_eq_zero : s.refs i = 0 ↔ (∀ n, s.connections.lookup n ≠ some (some i)) ∧
    s.kept i = 0 ∧ ∀ f ∈ s.frames, f.id = i → f.held = [] := by
  have hentries : (∀ e ∈ s.connections.entries, ¬e.2 = some i) ↔
      ∀ n, s.connections.lookup n ≠ some (some i) := by
    constructor
    · exact fun h n hn => h _ (AList.mem_lookup_iff.mp hn) rfl
    · exact fun h e he hi => h e.1 (AList.mem_lookup_iff.mpr (by rw [← hi]; exact he))
  simp only [refs, Multiset.coe_eq_zero, List.append_eq_nil_iff, List.map_eq_nil_iff,
    List.filter_eq_nil_iff, List.replicate_eq_nil_iff, List.flatMap_eq_nil_iff, List.mem_filter,
    decide_eq_true_eq, hentries, and_imp, and_assoc]

theorem refs_ne_zero_of_entry {n : String} (h : s.connections.lookup n = some (some i)) :
    s.refs i ≠ 0 := fun h0 => (refs_eq_zero.mp h0).1 n h

/-! ### The steps -/

/-- `Send` is called on an open connection. -/
def sendsOpen (s : TcpServer) : Act → Bool
  | .send i _ _ => s.conns[i]?.all fun c => c.state != .kDisconnected
  | _ => true

/-- `HandleEvent` calls the read callback, and readFd returns zero. -/
def closesInRead (c : Conn) (r : ReadResult) : Bool :=
  (c.channel.handleEvent eventIsSet).head? == some .read && r == .got 0

/-- What a step can do: accept a connection, run a function that stays or closes, change what the
user keeps, or go on with the destruction. -/
inductive Effect (s : TcpServer) : TcpServer → Prop where
  | accept (fd : ℤ) (hphase : s.phase = .running) (hfd : s.poller fd = none) :
    Effect s (s.newConnection fd)
  | stays (d : Option ℕ) (frames : List Frame) (i : ℕ) (c : Conn) (o : Out) (held : List Ref)
    (hframes : ∀ f ∈ frames, f ∈ s.frames) (hc : s.conns[i]? = some c) (ho : Stays c o) :
    Effect s ({ s with dispatching := d, frames := frames }.enter i c o held)
  | closes (d : Option ℕ) (i : ℕ) (c : Conn) (o : Out) (held : List Ref)
    (hphase : s.phase = .running) (hc : s.conns[i]? = some c) (ho : Closes c o) :
    Effect s ({ s with
      dispatching := d
      connections := s.connections.erase (s.connName i) }.enter i c o held)
  | destroysNext (i : ℕ) (c : Conn) (o : Out) (held : List Ref)
    (hphase : s.phase = .destroying) (hc : s.conns[i]? = some c) (ho : Closes c o) :
    Effect s ({ s with
      connections := s.connections.insert (s.connName i) none }.enter i c o held)
  | keeps (kept : ℕ → ℕ) (d : Option ℕ) : Effect s { s with kept := kept, dispatching := d }
  | destroys (n : ℕ) (hphase : s.phase = .running) :
    Effect s { s with phase := .destroying, depth := n }
  | finishes (hphase : s.phase = .destroying) (hnull : ∀ e ∈ s.connections.entries, e.2 = none) :
    Effect s { s with phase := .destroyed }

theorem phase_of_inDestructor (h : s.inDestructor = true) : s.phase = .destroying := by
  simp only [inDestructor, Bool.and_eq_true, beq_iff_eq] at h
  exact h.1

theorem betweenEvents_iff : s.betweenEvents = true ↔ s.frames = [] ∧ s.dispatching = none := by
  simp [betweenEvents]

theorem step_event {revents : BitVec 32} {r : ReadResult} {w : WriteResult}
    (h : step s (.event i revents r w) = some s') :
    ∃ c, s.conns[i]? = some c ∧ s.phase = .running ∧ s.frames = [] ∧ s.dispatching = none ∧
      s.poller c.channel.fd = some (.conn i) ∧
      s.handleEvent i { c with channel := { c.channel with revents := revents } } r w =
        some s' := by
  obtain ⟨c, hc, h⟩ := Option.bind_eq_some_iff.mp h
  split_ifs at h with hguard
  obtain ⟨hphase, hbetween, hreg⟩ := hguard
  obtain ⟨hframes, hd⟩ := betweenEvents_iff.mp hbetween
  exact ⟨c, hc, hphase, hframes, hd, hreg, h⟩

theorem step_ret (h : step s .ret = some s') :
    ∃ f frames c o, s.frames = f :: frames ∧ s.conns[f.id]? = some c ∧
      c.resume (.got 0) .wouldBlock f.rest = some o ∧
      s' = { s with frames := frames }.enter f.id c o [] := by
  simp only [step] at h
  split at h
  · cases h
  · rename_i f frames hframes
    split_ifs at h
    obtain ⟨c, hc, h⟩ := Option.bind_eq_some_iff.mp h
    obtain ⟨o, ho, rfl⟩ := Option.map_eq_some_iff.mp h
    exact ⟨f, frames, c, o, hframes, hc, ho, rfl⟩

theorem closing_some {out : Option Out} (h : s.closing i c out = some s') :
    ∃ o, out = some o ∧
      s' = { s with connections := s.connections.erase (s.connName i) }.enter i c o
        [.temporary, .functor, .temporary] := by
  obtain ⟨o, ho, h⟩ := Option.bind_eq_some_iff.mp h
  obtain ⟨t, ht, rfl⟩ := Option.map_eq_some_iff.mp h
  obtain ⟨-, rfl⟩ := guarded_eq_some.mp ht
  exact ⟨o, ho, rfl⟩

/-- **One event** stays, or closes the connection; in the read callback it closes exactly if
readFd returns zero. -/
theorem handleEvent_cases {r : ReadResult} {w : WriteResult}
    (h : s.handleEvent i c r w = some s') (hI : Steady c) (hset : c.isSet.close = true) :
    (closesInRead c r = false ∧ ∃ d o held, Stays c o ∧
      (d = s.dispatching ∨ (d = some i ∧ held = [.temporary])) ∧
      s' = { s with dispatching := d }.enter i c o held) ∨
    ∃ o, Closes c o ∧
      s' = { s with
        dispatching := if closesInRead c r then some i else s.dispatching
        connections := s.connections.erase (s.connName i) }.enter i c o
          [.temporary, .functor, .temporary] := by
  unfold handleEvent at h
  unfold closesInRead
  split at h
  · rename_i left hlist
    rw [hlist]
    obtain ⟨o, ho, rfl⟩ := closing_some h
    exact Or.inr ⟨o, handleClose_closes ho hset, rfl⟩
  · rename_i left hlist
    rw [hlist]
    split_ifs at h with hr
    · subst hr
      obtain ⟨o, ho, rfl⟩ := closing_some h
      exact Or.inr ⟨o, handleRead_closes ho hset, rfl⟩
    · obtain ⟨o, ho, rfl⟩ := Option.map_eq_some_iff.mp h
      exact Or.inl ⟨by simp [hr], some i, o, _, handleRead_stays ho hr hI,
        Or.inr ⟨rfl, rfl⟩, rfl⟩
  · rename_i left hlist
    rw [hlist]
    obtain ⟨o, ho, rfl⟩ := Option.map_eq_some_iff.mp h
    exact Or.inl ⟨rfl, s.dispatching, o, _, handleWrite_stays ho hI, Or.inl rfl, rfl⟩
  · rename_i hclose hread hwrite
    cases h
    refine Or.inl ⟨?_, s.dispatching, c.ends, [], stays_ends hI rfl ⟨rfl, rfl⟩ rfl rfl rfl,
      Or.inl rfl, rfl⟩
    cases hlist : c.channel.handleEvent eventIsSet with
    | nil => rfl
    | cons e left =>
      cases e with
      | read => exact absurd hlist (hread left)
      | _ => rfl

/-- **One step** of a server whose connections are steady. -/
theorem step_effect
    (hsteady : ∀ (i : ℕ) c, s.conns[i]? = some c → Steady c ∧ c.isSet.close = true)
    (hopen : ∀ (i : ℕ) c, s.conns[i]? = some c →
      s.connections.lookup (s.connName i) = some (some i) → c.state ≠ .kDisconnected)
    (hrests : ∀ f ∈ s.frames, f.rest.Finished) (ha : sendsOpen s a = true)
    (h : step s a = some s') :
    Effect s s' := by
  cases a with
  | accept fd =>
    obtain ⟨⟨hphase, -, -, hfresh⟩, rfl⟩ := guarded_eq_some.mp h
    simp only [freshFd, Bool.and_eq_true, beq_iff_eq] at hfresh
    exact .accept fd hphase hfresh.1.2
  | event i revents r w =>
    obtain ⟨c, hc, hphase, -, -, -, h⟩ := step_event h
    obtain ⟨hI, hset⟩ := hsteady i c hc
    have hI' : Steady { c with channel := { c.channel with revents := revents } } :=
      ⟨hI.interested, hI.off.of_eq rfl rfl⟩
    rcases handleEvent_cases h hI' hset with ⟨-, d, o, held, ho, -, rfl⟩ | ⟨o, ho, rfl⟩
    · have ho' : Stays c o := ⟨ho.steady, ho.isSet, ho.state, ho.passed, ho.quiet, ho.call⟩
      exact .stays d s.frames i c o held (fun _ hf => hf) hc ho'
    · have ho' : Closes c o :=
        ⟨ho.opened, ho.steady, ho.isSet, ho.state, ho.fd, ho.updates, ho.call⟩
      exact .closes _ i c o _ hphase hc ho'
  | checkOut w =>
    obtain ⟨i, -, h⟩ := Option.bind_eq_some_iff.mp h
    obtain ⟨c, hc, h⟩ := Option.bind_eq_some_iff.mp h
    split_ifs at h
    simp only [checkOut] at h
    split_ifs at h
    · obtain ⟨o, ho, rfl⟩ := Option.map_eq_some_iff.mp h
      exact .stays none s.frames i c o _ (fun _ hf => hf) hc
        (handleWrite_stays ho (hsteady i c hc).1)
    · cases h
      exact .keeps s.kept none
  | ret =>
    obtain ⟨f, frames, c, o, hframes, hc, ho, rfl⟩ := step_ret h
    have hrest : f.rest.Finished := hrests f (by rw [hframes]; exact List.mem_cons_self)
    refine .stays s.dispatching frames f.id c o [] (fun g hg => ?_) hc
      (resume_stays ho hrest (hsteady _ c hc).1)
    rw [hframes]
    exact List.mem_cons_of_mem f hg
  | send i msg w =>
    obtain ⟨c, hc, h⟩ := Option.bind_eq_some_iff.mp h
    split_ifs at h
    obtain ⟨o, ho, rfl⟩ := Option.map_eq_some_iff.mp h
    have hstate : c.state ≠ .kDisconnected := by simpa [sendsOpen, hc] using ha
    exact .stays s.dispatching s.frames i c o _ (fun _ hf => hf) hc
      (sendInLoop_stays ho (hsteady i c hc).1 hstate)
  | shutdown i =>
    obtain ⟨c, hc, h⟩ := Option.bind_eq_some_iff.mp h
    obtain ⟨-, rfl⟩ := guarded_eq_some.mp h
    exact .stays s.dispatching s.frames i c _ _ (fun _ hf => hf) hc
      (shutdown_stays (hsteady i c hc).1)
  | retrieve i len =>
    obtain ⟨c, hc, h⟩ := Option.bind_eq_some_iff.mp h
    split_ifs at h
    obtain ⟨b, -, rfl⟩ := Option.map_eq_some_iff.mp h
    exact .stays s.dispatching s.frames i c _ _ (fun _ hf => hf) hc
      (stays_ends (hsteady i c hc).1 rfl ⟨rfl, rfl⟩ rfl rfl rfl)
  | keep i =>
    obtain ⟨-, rfl⟩ := guarded_eq_some.mp h
    exact .keeps _ s.dispatching
  | drop i =>
    obtain ⟨-, rfl⟩ := guarded_eq_some.mp h
    exact .keeps _ s.dispatching
  | arrive i data =>
    obtain ⟨c, hc, h⟩ := Option.bind_eq_some_iff.mp h
    obtain ⟨-, rfl⟩ := guarded_eq_some.mp h
    exact .stays s.dispatching s.frames i c _ _ (fun _ hf => hf) hc
      (stays_ends (hsteady i c hc).1 rfl ⟨rfl, rfl⟩ rfl rfl rfl)
  | peerClose i =>
    obtain ⟨c, hc, rfl⟩ := Option.map_eq_some_iff.mp h
    exact .stays s.dispatching s.frames i c _ _ (fun _ hf => hf) hc
      (stays_ends (hsteady i c hc).1 rfl ⟨rfl, rfl⟩ rfl rfl rfl)
  | destroy =>
    obtain ⟨⟨hphase, -⟩, rfl⟩ := guarded_eq_some.mp h
    exact .destroys _ hphase
  | destroyNext i =>
    obtain ⟨c, hc, h⟩ := Option.bind_eq_some_iff.mp h
    obtain ⟨⟨hin, hentry⟩, rfl⟩ := guarded_eq_some.mp h
    exact .destroysNext i c _ _ (phase_of_inDestructor hin) hc
      (connectDestroyed_closes (hsteady i c hc).1 (hopen i c hc hentry))
  | finish =>
    obtain ⟨⟨hin, hnull⟩, rfl⟩ := guarded_eq_some.mp h
    exact .finishes (phase_of_inDestructor hin) hnull

end TcpServer

end Polly
