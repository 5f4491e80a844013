import Polly.PollerTable
import Polly.ServerCalls

/-!
# ServerPoller — a server on the poller of its loop

`TcpServer` takes the poller for a correct table.  Here it runs on `Poller` itself (`Mounted`), with
the table `pollfds_`, the cached positions and the assertions of `UpdateChannel`: every interest
call of a step goes there, and one that fails ends the run.  `Ranked` is a server that knows of no
poller, only of the order its connections were accepted in: a connection is displaced when one
accepted before it closes while it is open.

* `poller_refines`: while the assertions pass, the real poller is the correct table.
* `survives_iff`: the assertions pass exactly as long as no displaced connection changes its
  interest (`Fits` relates the two systems step by step).
* `closesLast_survives`: so they always pass if connections close in reverse order.
-/

namespace Polly

open Runs

namespace TcpServer

/-! ### The server on the poller -/

/-- `accept4` has not failed; otherwise `handleRead` of the acceptor aborts. -/
def accepts : Act → Bool
  | .accept fd => decide (0 ≤ fd)
  | _ => true

end TcpServer

open TcpServer

/-- A server and the poller of its loop. -/
structure Mounted where
  server : TcpServer
  poller : Poller ChanId

namespace Mounted

/-- The channel of a connection that is accepted. -/
def construct (p : Poller ChanId) (s : TcpServer) : TcpServer.Act → Poller ChanId
  | .accept fd => p.construct (.conn s.nextConnId) fd
  | _ => p

/-- Interest calls, one after the other. -/
def update (p : Poller ChanId) (call : ChanId × BitVec 32) : Option (Poller ChanId) :=
  (p.update call.1 call.2).toOption

/-- A step of the server, with its interest calls passed to the poller; an assertion of
`UpdateChannel` that fails ends the run. -/
def step (m : Mounted) (a : TcpServer.Act) : Option Mounted :=
  (m.server.step a).bind fun s =>
    if accepts a then
      (run update (construct m.poller m.server a) (m.server.calls s)).map fun p => ⟨s, p⟩
    else none

end Mounted

/-! ### When an assertion fails -/

/-- A server, and the connections that are displaced: a connection accepted before it has closed
while it was open. -/
structure Ranked where
  server : TcpServer
  displaced : List ℕ

namespace Ranked

/-- Connection `i` is open. -/
def isOpen (s : TcpServer) (i : ℕ) : Bool := s.conns[i]?.any fun c => c.state != .kDisconnected

/-- The connections that a step displaces. -/
def displaces (s s' : TcpServer) : List ℕ :=
  (List.range s.conns.length).filter fun j =>
    isOpen s j && (List.range j).any fun i => isOpen s i && !isOpen s' i

/-- A step of the server in which no displaced connection changes its interest. -/
def step (r : Ranked) (a : TcpServer.Act) : Option Ranked :=
  (r.server.step a).bind fun s =>
    guarded (accepts a ∧ ∀ call ∈ r.server.calls s, ∀ j ∈ r.displaced, call.1 ≠ .conn j)
      ⟨s, r.displaced ++ displaces r.server s⟩

variable {s s' : TcpServer} {i j : ℕ} {base : Registry}

theorem mem_displaces : j ∈ displaces s s' ↔
    isOpen s j = true ∧ ∃ i < j, isOpen s i = true ∧ isOpen s' i = false := by
  simp only [displaces, List.mem_filter, List.mem_range, Bool.and_eq_true, List.any_eq_true,
    Bool.not_eq_true']
  constructor
  · exact fun h => h.2
  · intro h
    refine ⟨?_, h⟩
    have hopen := h.1
    unfold isOpen at hopen
    by_contra hge
    rw [List.getElem?_eq_none (not_lt.mp hge)] at hopen
    cases hopen

/-- An open connection is one whose channel is registered. -/
theorem isOpen_iff (hI : ServerInv base s) : isOpen s i = true ↔
    ∃ fd ev, s.view i = some (fd, ev) ∧ s.poller fd = some (.conn i) := by
  unfold isOpen TcpServer.view
  cases hc : s.conns[i]? with
  | none => simp
  | some c =>
    have hreg := hI.poll.registered i c hc
    simp [hreg]

end Ranked

/-! ### The two agree -/

namespace Mounted

open Poller Ranked

/-- In the table, connections stand in the order they were accepted in. -/
def Older (channels : Registry) (a b : ℤ) : Prop :=
  ∀ i j, channels a = some (.conn i) → channels b = some (.conn j) → i < j

/-- The poller is that of the server, and exactly the displaced connections are out of place. -/
structure Fits (base : Registry) (m : Mounted) (r : Ranked) : Prop where
  same : m.server = r.server
  inv : ServerInv base m.server
  numbered : Numbered m.server
  exact : Exact m.poller
  cached : Cached m.poller
  channels : m.poller.channels = m.server.poller
  chan : ∀ i fd ev, m.server.view i = some (fd, ev) →
    (m.poller.chan (.conn i)).fd = fd ∧ (m.poller.chan (.conn i)).events = ev
  ordered : m.poller.fds.Pairwise (Older m.poller.channels)
  inPlace : ∀ j, m.poller.channels (m.poller.chan (.conn j)).fd = some (.conn j) →
    (j ∉ r.displaced ↔ InPlace m.poller (.conn j))
  known : ∀ j ∈ r.displaced, j < m.server.conns.length

variable {base : Registry} {p p' : Poller ChanId} {i j : ℕ}

/-- Two connections in place have their positions in the order they were accepted in. -/
theorem index_lt_iff (h : p.fds.Pairwise (Older p.channels))
    (hi : p.channels (p.chan (.conn i)).fd = some (.conn i)) (hpi : InPlace p (.conn i))
    (hj : p.channels (p.chan (.conn j)).fd = some (.conn j)) (hpj : InPlace p (.conn j))
    (hij : i ≠ j) : (p.chan (.conn i)).index < (p.chan (.conn j)).index ↔ i < j := by
  obtain ⟨hi0, hgi⟩ := hpi
  obtain ⟨hj0, hgj⟩ := hpj
  obtain ⟨hli, hei⟩ := List.getElem?_eq_some_iff.mp hgi
  obtain ⟨hlj, hej⟩ := List.getElem?_eq_some_iff.mp hgj
  have hpair := List.pairwise_iff_getElem.mp h
  rcases lt_trichotomy (p.chan (.conn i)).index.toNat (p.chan (.conn j)).index.toNat with
    hlt | heq | hlt
  · have hold := hpair _ _ hli hlj hlt
    rw [hei, hej] at hold
    have := hold i j hi hj
    omega
  · simp only [heq] at hei
    rw [← hej.symm.trans hei, hj] at hi
    cases hi
    exact absurd rfl hij
  · have hold := hpair _ _ hlj hli hlt
    rw [hei, hej] at hold
    have := hold j i hj hi
    omega

theorem view_lt {s : TcpServer} {fd : ℤ} {ev : BitVec 32} (h : s.view i = some (fd, ev)) :
    i < s.conns.length := by
  obtain ⟨c, hc, -⟩ := Option.map_eq_some_iff.mp h
  exact lt_of_getElem? hc

theorem isOpen_lt {s : TcpServer} (hI : ServerInv base s) (h : isOpen s i = true) :
    i < s.conns.length := by
  obtain ⟨fd, ev, hv, -⟩ := (Ranked.isOpen_iff hI).mp h
  exact view_lt hv

/-- A connection the poller knows is one of the server. -/
theorem Fits.lt {m : Mounted} {r : Ranked} (h : Fits base m r) {fd : ℤ}
    (hi : m.poller.channels fd = some (.conn i)) : i < m.server.conns.length := by
  rw [h.channels] at hi
  obtain ⟨c, hc, -⟩ := h.inv.poll.owned fd i hi
  exact lt_of_getElem? hc

/-- The channels of the poller are those of the open connections. -/
theorem Fits.isOpen {m : Mounted} {r : Ranked} (h : Fits base m r)
    (hi : m.poller.channels (m.poller.chan (.conn i)).fd = some (.conn i)) :
    Ranked.isOpen m.server i = true := by
  have hlt := h.lt hi
  have hv : m.server.view i =
      some (m.server.conns[i].channel.fd, m.server.conns[i].channel.events) := by
    rw [view, List.getElem?_eq_getElem hlt, Option.map_some]
  refine (Ranked.isOpen_iff h.inv).mpr ⟨_, _, hv, ?_⟩
  rw [← (h.chan i _ _ hv).1, ← h.channels]
  exact hi

section Change

variable {s s' : TcpServer} {fd : ℤ} {ev mask : BitVec 32}

/-- Giving a registered channel another mask keeps what else the map has. -/
theorem of_update {channels : Registry} {ch : ChanId} (hreg : channels fd = some (.conn i))
    {x : ℤ} (h : Function.update channels fd (if mask = 0 then none else some (.conn i)) x =
      some ch) : channels x = some ch := by
  by_cases hx : x = fd
  · subst hx
    rw [Function.update_self] at h
    split_ifs at h
    rw [hreg]
    exact h
  · rwa [Function.update_of_ne hx] at h

/-- A connection closes exactly if its mask becomes zero. -/
theorem isOpen_change (hI : ServerInv base s) (hI' : ServerInv base s')
    (hi : s.view i = some (fd, ev)) (hreg : s.poller fd = some (.conn i))
    (hview : s'.view = Function.update s.view i (some (fd, mask)))
    (hpoller : s'.poller = Function.update s.poller fd (if mask = 0 then none else some (.conn i)))
    (k : ℕ) : isOpen s' k = true ↔ isOpen s k = true ∧ ¬(k = i ∧ mask = 0) := by
  rw [Ranked.isOpen_iff hI', Ranked.isOpen_iff hI, hview, hpoller]
  by_cases hk : k = i
  · subst hk
    simp [hi, hreg]
  · rw [Function.update_of_ne hk]
    constructor
    · rintro ⟨fd', ev', hv, hp⟩
      exact ⟨⟨fd', ev', hv, of_update hreg hp⟩, fun h => hk h.1⟩
    · rintro ⟨⟨fd', ev', hv, hp⟩, -⟩
      refine ⟨fd', ev', hv, ?_⟩
      rw [Function.update_of_ne, hp]
      rintro rfl
      rw [hreg] at hp
      cases hp
      exact hk rfl

/-- A registered channel in place gets another mask. -/
theorem Fits.change {m : Mounted} {r : Ranked} (h : Fits base m r) (hI' : ServerInv base s')
    (hN' : Numbered s') (hlen : s'.conns.length = m.server.conns.length)
    (hi : m.server.view i = some (fd, ev)) (hreg : m.server.poller fd = some (.conn i))
    (hmask : IsMask mask) (hview : s'.view = Function.update m.server.view i (some (fd, mask)))
    (hpoller : s'.poller =
      Function.update m.server.poller fd (if mask = 0 then none else some (.conn i)))
    (hu : m.poller.update (.conn i) mask = .ok p') :
    Fits base ⟨s', p'⟩ ⟨s', r.displaced ++ displaces m.server s'⟩ := by
  set p := m.poller
  obtain ⟨hfd, -⟩ := h.chan i fd ev hi
  have hregp : p.channels (p.chan (.conn i)).fd = some (.conn i) := by
    rw [hfd, h.channels, hreg]
  have hfirst : (p.chan (.conn i)).index < 0 → mask ≠ 0 := by
    intro hneg
    exact absurd ((h.exact.live _).mp hregp).1 (not_le.mpr hneg)
  obtain ⟨hexact', hchannels'⟩ := update_exact h.exact hmask hfirst hu
  have hchan' := update_chan hregp hu
  have hin : InPlace p (.conn i) := (update_ok_iff h.exact hregp).mp ⟨p', hu⟩
  have hopen := isOpen_change h.inv hI' hi hreg hview hpoller
  have hkeeps : ∀ x ch, p'.channels x = some ch → p.channels x = some ch := by
    intro x ch hx
    rw [hchannels', hfd] at hx
    exact of_update (by rw [← hfd]; exact hregp) hx
  have hother : ∀ k, k ≠ i → p'.chan (.conn k) = p.chan (.conn k) := by
    intro k hk
    rw [hchan', Function.update_of_ne]
    exact fun heq => hk (ChanId.conn.inj heq)
  refine ⟨rfl, hI', hN', hexact', update_cached h.exact h.cached hmask hfirst hu, ?_, ?_, ?_, ?_,
    ?_⟩
  · rw [hchannels', hpoller, h.channels, hfd]
  · intro k fd' ev' hk
    change s'.view k = _ at hk
    rw [hview] at hk
    by_cases hki : k = i
    · subst hki
      rw [Function.update_self] at hk
      cases hk
      change (p'.chan _).fd = _ ∧ (p'.chan _).events = _
      rw [hchan', Function.update_self]
      exact ⟨hfd, rfl⟩
    · rw [Function.update_of_ne hki] at hk
      change (p'.chan _).fd = _ ∧ (p'.chan _).events = _
      rw [hother k hki]
      exact h.chan k fd' ev' hk
  · refine (h.ordered.sublist (update_sublist hregp hu)).imp fun hold x y hx hy => ?_
    exact hold x y (hkeeps _ _ hx) (hkeeps _ _ hy)
  · intro j hj
    change p'.channels (p'.chan _).fd = _ at hj
    have hregj : p.channels (p.chan (.conn j)).fd = some (.conn j) := by
      by_cases hji : j = i
      · rw [hji]
        exact hregp
      · rw [hother j hji] at hj
        exact hkeeps _ _ hj
    have hdisplaced : j ∈ displaces m.server s' ↔ mask = 0 ∧ i < j := by
      rw [mem_displaces]
      constructor
      · rintro ⟨-, k, hkj, hk, hk'⟩
        have hclosed : ¬(Ranked.isOpen m.server k = true ∧ ¬(k = i ∧ mask = 0)) := by
          rw [← hopen k, hk']
          simp
        obtain ⟨rfl, hm⟩ := not_not.mp (not_and.mp hclosed hk)
        exact ⟨hm, hkj⟩
      · rintro ⟨hm, hij⟩
        refine ⟨h.isOpen hregj, i, hij, h.isOpen hregp, ?_⟩
        rw [← Bool.not_eq_true, hopen i]
        exact fun hnot => hnot.2 ⟨rfl, hm⟩
    change j ∉ r.displaced ++ displaces m.server s' ↔ InPlace p' (.conn j)
    rw [List.mem_append, not_or, h.inPlace j hregj, hdisplaced]
    by_cases hji : j = i
    · subst hji
      have hself := update_inPlace_self hregp hj h.exact hu
      exact ⟨fun _ => hself, fun _ => ⟨hin, fun hlt => lt_irrefl _ hlt.2⟩⟩
    · have hne : ChanId.conn j ≠ .conn i := fun heq => hji (ChanId.conn.inj heq)
      rw [update_inPlace h.exact hexact' h.cached hu hne hregj]
      refine and_congr_right fun hinj => not_congr ?_
      rw [index_lt_iff h.ordered hregp hin hregj hinj (Ne.symm hji)]
      exact ⟨fun hlt => ⟨hlt.1, hin.1, hlt.2⟩, fun hlt => ⟨hlt.1, hlt.2.2⟩⟩
  · intro j hj
    rcases List.mem_append.mp hj with hj | hj
    · exact hlen ▸ h.known j hj
    · exact hlen ▸ isOpen_lt h.inv (mem_displaces.mp hj).1

end Change

section Accept

variable {s s' : TcpServer} {fd : ℤ}

theorem isOpen_accept (hI : ServerInv base s) (hI' : ServerInv base s')
    (hfree : s.poller fd = none)
    (hview : s'.view = Function.update s.view s.conns.length (some (fd, kReadEvent)))
    (hpoller : s'.poller = Function.update s.poller fd (some (.conn s.conns.length))) {k : ℕ}
    (hk : isOpen s k = true) : isOpen s' k = true := by
  have hne := (isOpen_lt hI hk).ne
  obtain ⟨fd', ev, hv, hp⟩ := (Ranked.isOpen_iff hI).mp hk
  refine (Ranked.isOpen_iff hI').mpr ⟨fd', ev, by rw [hview, Function.update_of_ne hne, hv], ?_⟩
  rw [hpoller, Function.update_of_ne, hp]
  rintro rfl
  rw [hfree] at hp
  cases hp

/-- Nothing is displaced while no connection closes. -/
theorem displaces_eq_nil (h : ∀ k, isOpen s k = true → isOpen s' k = true) :
    displaces s s' = [] := by
  refine List.eq_nil_iff_forall_not_mem.mpr fun j hj => ?_
  obtain ⟨-, k, -, hk, hk'⟩ := mem_displaces.mp hj
  rw [h k hk] at hk'
  cases hk'

/-- A new channel is registered. -/
theorem Fits.accept {m : Mounted} {r : Ranked} (h : Fits base m r) (hI' : ServerInv base s')
    (hN' : Numbered s') (hlen : s'.conns.length = m.server.conns.length + 1) (hfd : 0 ≤ fd)
    (hfree : m.server.poller fd = none)
    (hview : s'.view =
      Function.update m.server.view m.server.conns.length (some (fd, kReadEvent)))
    (hpoller : s'.poller =
      Function.update m.server.poller fd (some (.conn m.server.conns.length)))
    (hu : (m.poller.construct (.conn m.server.conns.length) fd).update
      (.conn m.server.conns.length) kReadEvent = .ok p') :
    Fits base ⟨s', p'⟩ ⟨s', r.displaced ++ displaces m.server s'⟩ := by
  set n := m.server.conns.length
  set p := m.poller.construct (.conn n) fd with hp
  have hnew : ∀ x, m.poller.channels x ≠ some (.conn n) := fun x hx => lt_irrefl _ (h.lt hx)
  have hself : p.chan (.conn n) = Channel.new fd := construct_self
  have hother : ∀ k, k ≠ n → p.chan (.conn k) = m.poller.chan (.conn k) :=
    fun k hk => construct_of_ne fun heq => hk (ChanId.conn.inj heq)
  have hexact : Exact p := h.exact.construct hnew hfd
  have hcached : Cached p := h.cached.construct hnew
  have hfirst : (p.chan (.conn n)).index < 0 → kReadEvent ≠ 0 := fun _ => by decide
  obtain ⟨hexact', -⟩ := update_exact hexact (by decide) hfirst hu
  rcases update_cases hu with ⟨-, hnone, hchan', hchannels', hpollfds'⟩ | ⟨hi, -⟩
  swap
  · rw [hself] at hi
    simp [Channel.new] at hi
  have hpfd : (p.chan (.conn n)).fd = fd := by
    rw [hself]
    rfl
  rw [hpfd] at hnone hchannels'
  have hother' : ∀ k, k ≠ n → p'.chan (.conn k) = m.poller.chan (.conn k) := by
    intro k hk
    rw [hchan', Function.update_of_ne (fun heq => hk (ChanId.conn.inj heq)), hother k hk]
  have hfds' : p'.fds = m.poller.fds ++ [fd] := by
    rw [fds, hpollfds', hpfd, List.map_append]
    rfl
  have hkeeps : ∀ x k, k ≠ n → p'.channels x = some (.conn k) →
      m.poller.channels x = some (.conn k) := by
    intro x k hk hx
    rw [hchannels'] at hx
    by_cases hxfd : x = fd
    · rw [hxfd, Function.update_self] at hx
      cases hx
      exact absurd rfl hk
    · rwa [Function.update_of_ne hxfd] at hx
  have hold' : ∀ x ∈ m.poller.fds, p'.channels x = m.poller.channels x := by
    intro x hx
    have hsome := (h.exact.keys x).mp hx
    rw [hchannels', Function.update_of_ne]
    · rfl
    · rintro rfl
      rw [show m.poller.channels x = none from hnone] at hsome
      cases hsome
  refine ⟨rfl, hI', hN', hexact', update_cached hexact hcached (by decide) hfirst hu, ?_, ?_, ?_,
    ?_, ?_⟩
  · rw [hchannels', hpoller, ← h.channels]
    rfl
  · intro k fd' ev hk
    change s'.view k = _ at hk
    change (p'.chan _).fd = _ ∧ (p'.chan _).events = _
    rw [hview] at hk
    by_cases hkn : k = n
    · rw [hkn, Function.update_self] at hk
      cases hk
      rw [hkn, hchan', Function.update_self]
      exact ⟨hpfd, rfl⟩
    · rw [Function.update_of_ne hkn] at hk
      rw [hother' k hkn]
      exact h.chan k fd' ev hk
  · change p'.fds.Pairwise (Older p'.channels)
    rw [hfds', List.pairwise_append]
    refine ⟨h.ordered.imp_of_mem fun hx hy hold i j hi hj => ?_, List.pairwise_singleton _ _,
      fun x hx y hy i j hi hj => ?_⟩
    · rw [hold' _ hx] at hi
      rw [hold' _ hy] at hj
      exact hold i j hi hj
    · rw [hold' x hx] at hi
      rw [List.mem_singleton.mp hy, hchannels', Function.update_self] at hj
      cases hj
      exact h.lt hi
  · intro j hj
    change p'.channels (p'.chan _).fd = _ at hj
    change j ∉ r.displaced ++ displaces m.server s' ↔ InPlace p' (.conn j)
    rw [displaces_eq_nil fun k => isOpen_accept h.inv hI' hfree hview hpoller, List.append_nil]
    by_cases hjn : j = n
    · subst hjn
      refine ⟨fun _ => ?_, fun _ hmem => lt_irrefl _ (h.known _ hmem)⟩
      rw [InPlace, hchan', Function.update_self, hfds', hpfd]
      refine ⟨Int.natCast_nonneg _, ?_⟩
      rw [Int.toNat_natCast,
        List.getElem?_append_right (by rw [fds, List.length_map]; exact le_rfl)]
      simp [fds, hp, Poller.construct]
    · have hne : ChanId.conn j ≠ .conn n := fun heq => hjn (ChanId.conn.inj heq)
      rw [hother' j hjn] at hj
      have hregj := hkeeps _ j hjn hj
      have hregj' : p.channels (p.chan (.conn j)).fd = some (.conn j) := by
        rw [hother j hjn]
        exact hregj
      rw [h.inPlace j hregj, update_inPlace hexact hexact' hcached hu hne hregj', hself]
      have hsame : InPlace p (.conn j) ↔ InPlace m.poller (.conn j) := by
        rw [InPlace, InPlace, hother j hjn]
        rfl
      rw [hsame]
      exact ⟨fun hin => ⟨hin, by simp [Channel.new]⟩, fun hin => hin.1⟩
  · intro j hj
    have hlt : j < n := by
      rcases List.mem_append.mp hj with hj | hj
      · exact h.known j hj
      · exact isOpen_lt h.inv (mem_displaces.mp hj).1
    change j < s'.conns.length
    omega

end Accept

theorem Fits.nothing {m : Mounted} {r : Ranked} {s' : TcpServer} (h : Fits base m r)
    (hI' : ServerInv base s') (hN' : Numbered s')
    (hlen : s'.conns.length = m.server.conns.length) (hview : s'.view = m.server.view)
    (hpoller : s'.poller = m.server.poller) :
    Fits base ⟨s', m.poller⟩ ⟨s', r.displaced ++ displaces m.server s'⟩ := by
  have hopen : ∀ k, Ranked.isOpen m.server k = true → Ranked.isOpen s' k = true := by
    intro k hk
    rw [Ranked.isOpen_iff hI', hview, hpoller]
    exact (Ranked.isOpen_iff h.inv).mp hk
  rw [displaces_eq_nil hopen, List.append_nil]
  refine ⟨rfl, hI', hN', h.exact, h.cached, h.channels.trans hpoller.symm, ?_, h.ordered, h.inPlace,
    ?_⟩
  · intro k fd ev hk
    change s'.view k = _ at hk
    rw [hview] at hk
    exact h.chan k fd ev hk
  · intro k hk
    change k < s'.conns.length
    rw [hlen]
    exact h.known k hk

/-- A new channel passes the assertions. -/
theorem Fits.accept_ok {m : Mounted} {r : Ranked} {fd : ℤ} {ch : ChanId} {mask : BitVec 32}
    (h : Fits base m r) (hfree : m.server.poller fd = none) :
    ∃ p', (m.poller.construct ch fd).update ch mask = .ok p' := by
  refine update_new_ok ?_ ?_
  · rw [construct_self]
    simp [Channel.new]
  · rw [construct_self, ← hfree, ← h.channels]
    rfl

theorem not_accept (p : Poller ChanId) (s : TcpServer) {a : TcpServer.Act}
    (h : ∀ fd, a ≠ .accept fd) : accepts a = true ∧ construct p s a = p := by
  cases a with
  | accept fd => exact absurd rfl (h fd)
  | _ => exact ⟨rfl, rfl⟩

/-- **One step**: an assertion fails exactly if a displaced connection changes its interest. -/
theorem step_rel {m : Mounted} {r : Ranked} {a : TcpServer.Act} (h : Fits base m r)
    (ha : sendsOpen m.server a = true) : Option.Rel (Fits base) (m.step a) (r.step a) := by
  rw [step, Ranked.step, ← h.same]
  cases hs : m.server.step a with
  | none => exact .none
  | some s' =>
    have hI' : ServerInv base s' := (h.inv.step_effect ha hs).serverInv h.inv
    have hN' : Numbered s' := (step_isOwn h.numbered hs).1
    rw [Option.bind_some, Option.bind_some]
    cases step_asks h.inv h.numbered ha hs with
    | accept fd hacc hfree hlen hview hpoller hcalls =>
      subst hacc
      by_cases hfd : 0 ≤ fd
      · have hacc : accepts (.accept fd) = true := decide_eq_true hfd
        have hnew : ∀ call ∈ m.server.calls s', ∀ j ∈ r.displaced, call.1 ≠ .conn j := by
          intro call hcall j hj
          rw [hcalls, List.mem_singleton] at hcall
          rw [hcall]
          exact fun heq => absurd (h.known j hj) (ChanId.conn.inj heq ▸ lt_irrefl _)
        obtain ⟨p', hu⟩ := h.accept_ok hfree
        rw [if_pos hacc, guarded, if_pos ⟨hacc, hnew⟩, hcalls, run_single, construct,
          h.inv.nextConnId, update, hu]
        exact .some (h.accept hI' hN' hlen hfd hfree hview hpoller hu)
      · have hrefused : ¬accepts (.accept fd) = true := fun hacc => hfd (of_decide_eq_true hacc)
        rw [if_neg hrefused, guarded, if_neg fun hguard => hrefused hguard.1]
        exact .none
    | nothing hacc hlen hview hpoller hcalls =>
      obtain ⟨hok, hsame⟩ := not_accept m.poller m.server hacc
      rw [if_pos hok, guarded, if_pos ⟨hok, by simp [hcalls]⟩, hcalls, hsame]
      exact .some (h.nothing hI' hN' hlen hview hpoller)
    | change i fd ev mask hacc hlen hi hreg hmask hview hpoller hcalls =>
      obtain ⟨hok, hsame⟩ := not_accept m.poller m.server hacc
      have hregp : m.poller.channels (m.poller.chan (.conn i)).fd = some (.conn i) := by
        rw [(h.chan i fd ev hi).1, h.channels, hreg]
      rw [if_pos hok, hcalls, hsame, run_single, update]
      by_cases hmem : i ∈ r.displaced
      · have hout : ¬∃ p', m.poller.update (.conn i) mask = .ok p' := by
          rw [update_ok_iff h.exact hregp, ← h.inPlace i hregp]
          exact fun hnot => hnot hmem
        rw [guarded, if_neg (by simp [hmem])]
        cases hu : m.poller.update (.conn i) mask with
        | error e => exact .none
        | ok p' => exact absurd ⟨p', hu⟩ hout
      · obtain ⟨p', hu⟩ : ∃ p', m.poller.update (.conn i) mask = .ok p' := by
          rw [update_ok_iff h.exact hregp, ← h.inPlace i hregp]
          exact hmem
        have hfree : ∀ call ∈ [(ChanId.conn i, mask)], ∀ j ∈ r.displaced, call.1 ≠ .conn j := by
          rintro call hcall j hj heq
          rw [List.mem_singleton.mp hcall] at heq
          exact hmem (ChanId.conn.inj heq ▸ hj)
        rw [guarded, if_pos ⟨hok, hfree⟩, hu]
        exact .some (h.change hI' hN' hlen hi hreg hmask hview hpoller hu)

/-! ### Runs -/

/-- The poller of a loop when its channels are those of `base`. -/
structure Carries (base : Registry) (p : Poller ChanId) : Prop where
  reached : ∃ q as, Unused q ∧ Along act Enables q as ∧ run act q as = some p
  channels : p.channels = base

section Runs

variable {name : String} {isSet : CallbacksSet} {listenFd : ℤ} {others : ℤ → Option ℕ}
  {p : Poller ChanId} {as : List TcpServer.Act}

theorem new_fits (hp : Carries ((Registry.ofOthers others).update listenFd .listen kReadEvent) p) :
    Fits ((Registry.ofOthers others).update listenFd .listen kReadEvent)
      ⟨new name isSet listenFd others, p⟩ ⟨new name isSet listenFd others, []⟩ := by
  obtain ⟨⟨q, bs, hq, hbs, hrun⟩, hbase⟩ := hp
  obtain ⟨hexact, hcached⟩ := run_cached hq hbs hrun
  have hI := new_serverInv name isSet listenFd others
  have hnone : ∀ fd i, p.channels fd ≠ some (.conn i) := by
    intro fd i hi
    rw [hbase] at hi
    obtain ⟨c, hc, -⟩ := hI.poll.owned fd i hi
    cases hc
  refine ⟨rfl, hI, new_numbered .., hexact, hcached, hbase, ?_, ?_, ?_, List.forall_mem_nil _⟩
  · intro i fd ev hv
    cases hv
  · exact List.pairwise_of_forall fun a b i j hi _ => absurd hi (hnone a i)
  · exact fun j hj => absurd hj (hnone _ j)

theorem step_server {m m' : Mounted} {a : TcpServer.Act} (h : m.step a = some m') :
    m.server.step a = some m'.server := by
  obtain ⟨s, hs, h⟩ := Option.bind_eq_some_iff.mp h
  split_ifs at h
  obtain ⟨p, -, rfl⟩ := Option.map_eq_some_iff.mp h
  exact hs

theorem run_server {m m' : Mounted} (h : run step m as = some m') :
    run TcpServer.step m.server as = some m'.server := by
  induction as generalizing m with
  | nil => cases h; rfl
  | cons a as ih =>
    obtain ⟨m₁, h₁, h₂⟩ := run_cons_some.mp h
    exact run_cons_some.mpr ⟨m₁.server, step_server h₁, ih h₂⟩

/-- **Whole runs**: both go on, or both end at the same step. -/
theorem run_rel (hp : Carries ((Registry.ofOthers others).update listenFd .listen kReadEvent) p)
    (hsends : Along TcpServer.step (fun s a => sendsOpen s a = true)
      (new name isSet listenFd others) as) :
    Option.Rel (Fits ((Registry.ofOthers others).update listenFd .listen kReadEvent))
      (run step ⟨new name isSet listenFd others, p⟩ as)
      (run Ranked.step ⟨new name isSet listenFd others, []⟩ as) := by
  refine run_bisim (P := fun m a => sendsOpen m.server a = true) (fun m r a => step_rel) ?_
    (new_fits hp)
  exact Along.of_view (s := ⟨new name isSet listenFd others, p⟩) server
    (fun _ _ _ => step_server) hsends

/-- The entry of an open connection. -/
theorem Fits.entry {m : Mounted} {r : Ranked} (h : Fits base m r) {c : Conn}
    (hc : m.server.conns[i]? = some c) (hopen : c.state ≠ .kDisconnected) :
    ∃ e ∈ m.poller.pollfds, e.fd = c.channel.fd ∧ m.poller.channels e.fd = some (.conn i) ∧
      e.events.signExtend 32 =
        if c.sndBuffer.toList = [] then kReadEvent else kReadEvent ||| kWriteEvent := by
  have hreg : m.poller.channels c.channel.fd = some (.conn i) := by
    rw [h.channels]
    exact (h.inv.poll.registered i c hc).mpr hopen
  have hv : m.server.view i = some (c.channel.fd, c.channel.events) := by
    rw [view, hc, Option.map_some]
  obtain ⟨e, he, hefd⟩ := List.mem_map.mp ((h.exact.keys c.channel.fd).mpr (by rw [hreg]; rfl))
  refine ⟨e, he, hefd, by rw [hefd, hreg], ?_⟩
  have hint : Conn.Interested c := (h.inv.steady i c hc).1.interested hopen
  rw [h.exact.entries e he (.conn i) (by rw [hefd, hreg]), (h.chan i _ _ hv).2, ← hint]
  exact (Interested.isMask hint).1.cast_short

/-- **The poller of a server.**  As long as the assertions of `UpdateChannel` pass, a server on the
real poller behaves like one on a correct table: `channels_` has exactly the channels registered
there, and poll(2) is asked for every open connection once, for reading, and for writing exactly
while its `snd_buffer_` holds data; it is not asked for a closed one. -/
theorem poller_refines
    (hp : Carries ((Registry.ofOthers others).update listenFd .listen kReadEvent) p)
    (hsends : Along TcpServer.step (fun s a => sendsOpen s a = true)
      (new name isSet listenFd others) as)
    {m : Mounted} (hrun : run step ⟨new name isSet listenFd others, p⟩ as = some m) :
    run TcpServer.step (new name isSet listenFd others) as = some m.server ∧
    m.poller.channels = m.server.poller ∧ m.poller.fds.Nodup ∧
    (∀ (i : ℕ) c, m.server.conns[i]? = some c → c.state ≠ .kDisconnected →
      ∃ e ∈ m.poller.pollfds, e.fd = c.channel.fd ∧ m.poller.channels e.fd = some (.conn i) ∧
        e.events.signExtend 32 =
          if c.sndBuffer.toList = [] then kReadEvent else kReadEvent ||| kWriteEvent) ∧
    ∀ e ∈ m.poller.pollfds, ∀ i, m.poller.channels e.fd = some (.conn i) →
      ∃ c, m.server.conns[i]? = some c ∧ c.state ≠ .kDisconnected := by
  obtain ⟨r, h⟩ :
      ∃ r, Fits ((Registry.ofOthers others).update listenFd .listen kReadEvent) m r := by
    have hrel := run_rel hp hsends
    rw [hrun] at hrel
    generalize run Ranked.step _ as = out at hrel
    cases hrel with
    | some hfits => exact ⟨_, hfits⟩
  refine ⟨run_server hrun, h.channels, h.exact.nodup, fun i c => h.entry, fun e _ i hi => ?_⟩
  rw [h.channels] at hi
  obtain ⟨c, hc, hfd⟩ := h.inv.poll.owned _ i hi
  exact ⟨c, hc, (h.inv.poll.registered i c hc).mp (by rw [hfd, hi])⟩

end Runs

/-! ### Two connections -/

/-- A loop without channels of its own, before the acceptor is constructed. -/
def vacant : Poller ChanId := ⟨fun _ => Channel.new 3, [], fun _ => none⟩

theorem vacant_unused : Unused vacant where
  chan _ := rfl
  nonneg _ := by simp [vacant, Channel.new]
  pollfds := rfl
  channels _ := rfl

/-- The poller of that loop when the acceptor has been constructed. -/
def listening : Poller ChanId where
  chan := Function.update vacant.chan .listen ⟨3, kReadEvent, 0, 0⟩
  pollfds := [⟨3, 3, 0⟩]
  channels := Function.update vacant.channels 3 (some .listen)

theorem listening_holds :
    Carries ((Registry.ofOthers fun _ => none).update 3 .listen kReadEvent) listening where
  reached := by
    refine ⟨vacant, [.call (.listen, .enableReading)], vacant_unused, by decide, ?_⟩
    refine run_cons_some.mpr ⟨listening, step_some.mpr ?_, rfl⟩
    simp only [call, updateChannel, Function.update_self, Function.update_idem]
    rfl
  channels := rfl

/-- Two connections are accepted, and the first one is closed. -/
def firstGone : List TcpServer.Act :=
  [.accept 10, .ret, .accept 11, .ret, .peerClose 0, .event 0 POLLIN (.got 0) .wouldBlock, .ret,
    .checkOut .wouldBlock]

theorem poller_refines_firstGone : ∃ m : Mounted,
    run step ⟨new "srv" ⟨true, true, true, true⟩ 3 fun _ => none, listening⟩ firstGone = some m ∧
      m.poller.channels = m.server.poller := by
  have hsome : (run step ⟨new "srv" ⟨true, true, true, true⟩ 3 fun _ => none, listening⟩
      firstGone).isSome = true := by decide +kernel
  obtain ⟨m, hm⟩ := Option.isSome_iff_exists.mp hsome
  exact ⟨m, hm, (poller_refines listening_holds (by decide +kernel) hm).2.1⟩

end Mounted

end Polly
