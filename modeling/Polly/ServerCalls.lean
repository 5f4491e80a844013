import Polly.ServerConns

/-!
# ServerCalls — the interest calls of a server

Every step of a server makes at most one interest call.  `calls s s'` are the calls between two
states of a server, read off the masks that its connections bring to `UpdateChannel`; `Asks` says
what a step can ask of the poller, and `step_asks` that this is all.
-/

namespace Polly

open Runs

/-! ### Interest calls of a connection -/

namespace Conn

variable {c c' : Conn} {o : Out} {msg : Bytes} {r : ReadResult} {w : WriteResult}

/-- What a function does that makes at most one interest call. -/
def Calls (c c' : Conn) : Prop :=
  c'.updates = c.updates ∨ c'.updates = c.updates ++ [c'.channel.events]

theorem sendRest_calls (n : ℕ) : Calls c (c.sendRest msg n) := by
  simp only [sendRest]
  split_ifs
  · exact Or.inr rfl
  · exact Or.inl rfl
  · exact Or.inl rfl

theorem shutdownInLoop_calls (h : Calls c c') : Calls c c'.shutdownInLoop := by
  unfold shutdownInLoop
  split_ifs <;> exact h

theorem handleWriteRest_calls (h : Calls c c') : Calls c c'.handleWriteRest := by
  unfold handleWriteRest
  split_ifs
  · exact shutdownInLoop_calls h
  · exact h

theorem sendInLoop_calls (h : c.sendInLoop msg w = some o) : Calls c o.conn := by
  rcases sendInLoop_cases h with
    ⟨-, rfl⟩ | ⟨-, ⟨-, rfl⟩ | ⟨-, rfl⟩ | ⟨n, -, -, rfl⟩ | ⟨-, hconn, -⟩⟩
  · exact sendRest_calls 0
  · exact Or.inl rfl
  · exact sendRest_calls 0
  · exact sendRest_calls (c := c.accept (msg.take n)) n
  · exact Or.inl (by rw [hconn]; rfl)

theorem handleWrite_calls (h : c.handleWrite [] w = some o) : Calls c o.conn := by
  rcases handleWrite_cases h with
    rfl | ⟨-, n, snd, -, -, -, ⟨-, rfl⟩ | ⟨-, ⟨-, rfl⟩ | ⟨-, rfl⟩⟩⟩
  · exact Or.inl rfl
  · exact Or.inl rfl
  · exact Or.inr rfl
  · exact handleWriteRest_calls (Or.inr rfl)

theorem handleClose_calls (h : c.handleClose [] = some o) : Calls c o.conn := by
  obtain ⟨-, hconn, -⟩ := handleClose_cases h
  exact Or.inr (by rw [hconn]; rfl)

theorem handleRead_calls (h : c.handleRead [] r = some o) : Calls c o.conn := by
  rcases handleRead_cases h with rfl | ⟨n, -, -, hconn, -⟩ | ⟨-, -, -, hclose⟩
  · exact Or.inl rfl
  · exact Or.inl (by rw [hconn]; rfl)
  · exact handleClose_calls (c := c.received 0) hclose

theorem connectDestroyed_calls : Calls c (c.connectDestroyed []).conn := by
  rw [connectDestroyed_eq]
  dsimp only
  split_ifs
  · exact Or.inr rfl
  · exact Or.inl rfl

theorem resume_calls {rest : Rest} (hrest : rest.Finished)
    (h : c.resume r w rest = some o) : Calls c o.conn := by
  cases rest with
  | done => cases h; exact Or.inl rfl
  | sendInLoop msg n => cases h; exact sendRest_calls n
  | handleWrite left =>
    obtain rfl : left = [] := hrest
    cases h
    exact handleWriteRest_calls (Or.inl rfl)
  | event left =>
    obtain rfl : left = [] := hrest
    cases h
    exact Or.inl rfl

end Conn

namespace Lone

open Conn

variable {k k' : Lone}

theorem handleEvent_calls {r : ReadResult} {w : WriteResult} (h : k.handleEvent r w = some k') :
    Calls k.conn k'.conn := by
  unfold handleEvent at h
  split at h
  · obtain ⟨o, ho, rfl⟩ := Option.map_eq_some_iff.mp h
    exact handleClose_calls ho
  · obtain ⟨o, ho, rfl⟩ := Option.map_eq_some_iff.mp h
    exact handleRead_calls ho
  · obtain ⟨o, ho, rfl⟩ := Option.map_eq_some_iff.mp h
    exact handleWrite_calls ho
  · cases h
    exact Or.inl rfl

/-- **One step** of a connection makes at most one interest call. -/
theorem act_calls {a : Act} (hrests : ∀ rest ∈ k.rests, rest.Finished) (h : k.act a = some k') :
    Calls k.conn k'.conn := by
  cases a with
  | accept fd => cases h
  | event revents r w =>
    exact handleEvent_calls (k := { k with conn := { k.conn with
      channel := { k.conn.channel with revents := revents } } }) h
  | checkOut w =>
    simp only [act, checkOut] at h
    split_ifs at h
    · obtain ⟨o, ho, rfl⟩ := Option.map_eq_some_iff.mp h
      exact handleWrite_calls ho
    · cases h
      exact Or.inl rfl
  | ret =>
    simp only [act] at h
    split at h
    · cases h
    · rename_i rest rests hk
      obtain ⟨o, ho, rfl⟩ := Option.map_eq_some_iff.mp h
      exact resume_calls (hrests rest (by rw [hk]; exact List.mem_cons_self)) ho
  | send msg w =>
    obtain ⟨o, ho, rfl⟩ := Option.map_eq_some_iff.mp h
    exact sendInLoop_calls ho
  | shutdown =>
    cases h
    change Calls k.conn k.conn.shutdown
    unfold shutdown
    split_ifs
    · exact shutdownInLoop_calls (Or.inl rfl)
    · exact Or.inl rfl
  | retrieve len =>
    obtain ⟨b, hb, rfl⟩ := Option.map_eq_some_iff.mp h
    exact Or.inl rfl
  | arrive data =>
    obtain ⟨-, rfl⟩ := guarded_eq_some.mp h
    exact Or.inl rfl
  | peerClose =>
    cases h
    exact Or.inl rfl
  | destroy =>
    cases h
    exact connectDestroyed_calls

end Lone

namespace TcpServer

open Conn

variable {s s' : TcpServer} {a : Act} {i j : ℕ} {c c' : Conn}

/-- A step is at most one step to a connection. -/
theorem own_cases (i : ℕ) (s : TcpServer) (a : Act) : own i s a = [] ∨ ∃ b, own i s a = [b] := by
  cases a <;> simp only [own] <;> (try split_ifs) <;> simp

theorem step_calls_le (hN : Numbered s) (hrests : ∀ f ∈ s.frames, f.rest.Finished)
    (h : step s a = some s') (hc : s.conns[i]? = some c) (hc' : s'.conns[i]? = some c') :
    Calls c c' := by
  have hrun : run (Lone.step s.isSet) (s.lone i) (own i s a) = some (s'.lone i) :=
    (step_isOwn hN h).2.2 i
  rw [lone_some hc, lone_some hc'] at hrun
  rcases own_cases i s a with hown | ⟨b, hown⟩
  · rw [hown, run_nil, Option.some.injEq, Option.some.injEq, Lone.mk.injEq] at hrun
    exact Or.inl (by rw [hrun.1])
  · rw [hown, run_single] at hrun
    obtain ⟨k', hact, hk'⟩ := Option.map_eq_some_iff.mp hrun
    obtain rfl := Option.some.inj hk'
    refine Lone.act_calls (fun rest hrest => ?_) hact
    obtain ⟨f, hf, rfl⟩ := List.mem_map.mp hrest
    exact hrests f (List.mem_filter.mp hf).1

/-! ### Interest calls of a step -/

/-- The masks that connection `i` brings to `UpdateChannel` between two states. -/
def newMasks (s s' : TcpServer) (i : ℕ) : List (BitVec 32) :=
  (s'.conns[i]?.elim [] Conn.updates).drop (s.conns[i]?.elim [] Conn.updates).length

/-- The interest calls between two states. -/
def calls (s s' : TcpServer) : List (ChanId × BitVec 32) :=
  (List.range s'.conns.length).flatMap fun i => (s.newMasks s' i).map fun mask => (.conn i, mask)

/-- Descriptor and mask of connection `i`. -/
def view (s : TcpServer) (i : ℕ) : Option (ℤ × BitVec 32) :=
  s.conns[i]?.map fun c => (c.channel.fd, c.channel.events)

theorem flatMap_range_eq {β : Type*} {f : ℕ → List β} {n : ℕ} (hi : i < n)
    (h : ∀ k, k ≠ i → f k = []) : (List.range n).flatMap f = f i := by
  induction n with
  | zero => omega
  | succ n ih =>
    rw [List.range_succ, List.flatMap_append, List.flatMap_singleton]
    rcases Nat.lt_succ_iff_lt_or_eq.mp hi with hlt | rfl
    · rw [ih hlt, h n (by omega), List.append_nil]
    · rw [List.flatMap_eq_nil_iff.mpr, List.nil_append]
      intro k hk
      exact h k (List.mem_range.mp hk).ne

theorem newMasks_of_eq (h : s'.conns[i]? = s.conns[i]?) : s.newMasks s' i = [] := by
  rw [newMasks, h, List.drop_length]

theorem calls_of_conns (h : s'.conns = s.conns) : s.calls s' = [] := by
  refine List.flatMap_eq_nil_iff.mpr fun k _ => ?_
  rw [newMasks_of_eq (by rw [h]), List.map_nil]

/-- Only connection `i` has changed. -/
theorem calls_eq (hi : i < s'.conns.length) (h : ∀ k, k ≠ i → s'.conns[k]? = s.conns[k]?) :
    s.calls s' = (s.newMasks s' i).map fun mask => (.conn i, mask) := by
  refine flatMap_range_eq hi fun k hk => ?_
  rw [newMasks_of_eq (h k hk), List.map_nil]

theorem calls_set (hc : s.conns[i]? = some c) (hconns : s'.conns = s.conns.set i c')
    {masks : List (BitVec 32)} (hu : c'.updates = c.updates ++ masks) :
    s.calls s' = masks.map fun mask => (.conn i, mask) := by
  have hlt := lt_of_getElem? hc
  rw [calls_eq (i := i) (by rw [hconns, List.length_set]; exact hlt)]
  · rw [newMasks, hconns, List.getElem?_set_self hlt, hc, Option.elim_some, Option.elim_some, hu,
      List.drop_left]
  · intro k hk
    rw [hconns, List.getElem?_set_ne hk.symm]

theorem view_set (hc : s.conns[i]? = some c) (hconns : s'.conns = s.conns.set i c') :
    s'.view = Function.update s.view i (some (c'.channel.fd, c'.channel.events)) := by
  funext k
  by_cases hk : k = i
  · subst hk
    rw [Function.update_self, view, hconns, List.getElem?_set_self (lt_of_getElem? hc)]
    rfl
  · rw [Function.update_of_ne hk, view, view, hconns, List.getElem?_set_ne (Ne.symm hk)]

/-- What a step asks of the poller. -/
inductive Asks (s : TcpServer) (a : Act) (s' : TcpServer) : Prop where
  /-- a channel is constructed and registered -/
  | accept (fd : ℤ) (ha : a = .accept fd) (hfree : s.poller fd = none)
    (hlen : s'.conns.length = s.conns.length + 1)
    (hview : s'.view = Function.update s.view s.conns.length (some (fd, kReadEvent)))
    (hpoller : s'.poller = Function.update s.poller fd (some (.conn s.conns.length)))
    (hcalls : s.calls s' = [(.conn s.conns.length, kReadEvent)])
  | nothing (ha : ∀ fd, a ≠ .accept fd) (hlen : s'.conns.length = s.conns.length)
    (hview : s'.view = s.view) (hpoller : s'.poller = s.poller) (hcalls : s.calls s' = [])
  /-- a registered channel gets another mask -/
  | change (i : ℕ) (fd : ℤ) (ev mask : BitVec 32) (ha : ∀ fd, a ≠ .accept fd)
    (hlen : s'.conns.length = s.conns.length) (hi : s.view i = some (fd, ev))
    (hreg : s.poller fd = some (.conn i)) (hmask : IsMask mask)
    (hview : s'.view = Function.update s.view i (some (fd, mask)))
    (hpoller : s'.poller = Function.update s.poller fd (if mask = 0 then none else some (.conn i)))
    (hcalls : s.calls s' = [(.conn i, mask)])

theorem Interested.isMask (h : Interested c) : IsMask c.channel.events ∧ c.channel.events ≠ 0 := by
  rw [h]
  split_ifs <;> decide

theorem own_eq_accept {fd : ℤ} (h : own i s a = [.accept fd]) : a = .accept fd := by
  cases a <;> simp only [own] at h <;> (try split_ifs at h) <;> simp_all

/-- Only `accept` adds a connection. -/
theorem step_length (hN : Numbered s) (h : step s a = some s') (ha : ∀ fd, a ≠ .accept fd) :
    s'.conns[s.conns.length]? = none := by
  have hrun : run (Lone.step s.isSet) (s.lone s.conns.length) (own s.conns.length s a) =
      some (s'.lone s.conns.length) := (step_isOwn hN h).2.2 _
  have hnone : s.lone s.conns.length = none := by
    rw [lone, List.getElem?_eq_none le_rfl, Option.map_none]
  rw [hnone] at hrun
  rcases own_cases s.conns.length s a with hown | ⟨b, hown⟩
  · rw [hown, run_nil] at hrun
    exact Option.map_eq_none_iff.mp (Option.some.inj hrun).symm
  · rw [hown, run_single] at hrun
    cases b with
    | accept fd => exact absurd (own_eq_accept hown) (ha fd)
    | _ => cases hrun

variable {base : Registry}

theorem asks_stays (hI : ServerInv base s) (ha : ∀ fd, a ≠ .accept fd) (hc : s.conns[i]? = some c)
    (hconns : s'.conns = s.conns.set i c') (hpassed : Passed c c') (hle : Calls c c')
    (hquiet : c.state = .kDisconnected → c'.updates = c.updates)
    (hsteady : c.state ≠ .kDisconnected → Interested c') (hpoller : s'.poller = s.poller) :
    Asks s a s' := by
  obtain ⟨hfd, masks, hu, hev⟩ := hpassed
  have hlen : s'.conns.length = s.conns.length := by rw [hconns, List.length_set]
  have hview := view_set hc hconns
  have hi : s.view i = some (c.channel.fd, c.channel.events) := by rw [view, hc, Option.map_some]
  rcases hle with hsame | hone
  · have hnil : masks = [] := List.append_right_eq_self.mp (hu.symm.trans hsame)
    subst hnil
    refine .nothing ha hlen ?_ hpoller (calls_set hc hconns hu)
    rw [hview, hfd, hev, List.getLast?_nil, Option.getD_none, ← hi, Function.update_eq_self]
  · have hopen : c.state ≠ .kDisconnected := by
      intro hclosed
      have hlen := congrArg List.length (hone.symm.trans (hquiet hclosed))
      simp at hlen
    obtain ⟨hmask, hne⟩ := Interested.isMask (hsteady hopen)
    have hreg := (hI.poll.registered i c hc).mpr hopen
    refine .change i _ _ _ ha hlen hi hreg hmask (by rw [hview, hfd]) ?_ (calls_set hc hconns hone)
    rw [hpoller, if_neg hne, ← hreg, Function.update_eq_self]

theorem asks_closes (hI : ServerInv base s) (ha : ∀ fd, a ≠ .accept fd) {o : Out}
    (hc : s.conns[i]? = some c) (ho : Closes c o) (hconns : s'.conns = s.conns.set i o.conn)
    (hpoller : s'.poller = Function.update s.poller c.channel.fd none) : Asks s a s' := by
  have hlen : s'.conns.length = s.conns.length := by rw [hconns, List.length_set]
  have hi : s.view i = some (c.channel.fd, c.channel.events) := by rw [view, hc, Option.map_some]
  have hoff : o.conn.channel.events = 0 := (ho.steady.off.off (Or.inr ho.state)).2
  refine .change i _ _ 0 ha hlen hi ((hI.poll.registered i c hc).mpr ho.opened) (Or.inl rfl) ?_
    (by rw [hpoller, if_pos rfl]) (calls_set hc hconns ho.updates)
  rw [view_set hc hconns, ho.fd, hoff]

theorem asks_accept {fd : ℤ} (hI : ServerInv base s) (hfree : s.poller fd = none) :
    Asks s (.accept fd) (s.newConnection fd) := by
  have hconns := newConnection_conns fd hI.nextConnId
  have hlen : (s.newConnection fd).conns.length = s.conns.length + 1 := by
    rw [hconns, List.length_append, List.length_singleton]
  have hnew : (s.newConnection fd).conns[s.conns.length]? = some (s.established fd) := by
    rw [hconns, List.getElem?_concat_length]
  have hold : ∀ k, k ≠ s.conns.length → (s.newConnection fd).conns[k]? = s.conns[k]? := by
    intro k hk
    rw [hconns]
    rcases Nat.lt_or_gt_of_ne hk with hlt | hlt
    · exact List.getElem?_append_left hlt
    · rw [List.getElem?_eq_none (by rw [List.length_append]; exact hlt),
        List.getElem?_eq_none hlt.le]
  have hmask : (s.established fd).channel.events = kReadEvent := by
    change (0 : BitVec 32) ||| kReadEvent = kReadEvent
    decide
  refine .accept fd rfl hfree hlen ?_ (by rw [newConnection_poller, hI.nextConnId]) ?_
  · funext k
    by_cases hk : k = s.conns.length
    · rw [hk, Function.update_self, view, hnew, Option.map_some, hmask]
      rfl
    · rw [Function.update_of_ne hk, view, view, hold k hk]
  · rw [calls_eq (by rw [hlen]; exact Nat.lt_succ_self _) hold, newMasks, hnew,
      List.getElem?_eq_none le_rfl, ← hmask]
    rfl

/-- **What a step asks of the poller**: at most one thing. -/
theorem step_asks (hI : ServerInv base s) (hN : Numbered s) (ha : sendsOpen s a = true)
    (h : step s a = some s') : Asks s a s' := by
  by_cases hacc : ∃ fd, a = .accept fd
  · obtain ⟨fd, rfl⟩ := hacc
    obtain ⟨⟨-, -, -, hfresh⟩, rfl⟩ := guarded_eq_some.mp h
    simp only [freshFd, Bool.and_eq_true, beq_iff_eq] at hfresh
    exact asks_accept hI hfresh.1.2
  have hacc : ∀ fd, a ≠ .accept fd := fun fd hfd => hacc ⟨fd, hfd⟩
  have hlong := step_length hN h hacc
  have hle : ∀ (i : ℕ) c c', s.conns[i]? = some c → s'.conns[i]? = some c' → Calls c c' :=
    fun _ _ _ => step_calls_le hN hI.rests h
  cases hI.step_effect ha h with
  | accept fd hphase hfd =>
    rw [newConnection_conns fd hI.nextConnId, List.getElem?_concat_length] at hlong
    cases hlong
  | stays d frames i c o held hframes hc ho =>
    have hset : ({ s with dispatching := d, frames := frames }.enter i c o held).conns[i]? =
        some o.conn := List.getElem?_set_self (lt_of_getElem? hc)
    refine asks_stays hI hacc hc rfl ho.passed (hle i c _ hc hset) ho.quiet (fun hopen => ?_) ?_
    · exact ho.steady.interested (by rw [Ne, ho.state]; exact hopen)
    · exact enter_poller_of_stays ho fun hopen => (hI.poll.registered i c hc).mpr hopen
  | closes d i c o held hphase hc ho =>
    exact asks_closes hI hacc hc ho rfl (enter_poller_of_closes ho)
  | destroysNext i c o held hphase hc ho =>
    exact asks_closes hI hacc hc ho rfl (enter_poller_of_closes ho)
  | keeps kept d => exact .nothing hacc rfl rfl rfl (calls_of_conns rfl)
  | destroys n hphase => exact .nothing hacc rfl rfl rfl (calls_of_conns rfl)
  | finishes hphase hnull => exact .nothing hacc rfl rfl rfl (calls_of_conns rfl)

end TcpServer

end Polly
