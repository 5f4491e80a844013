import Polly.ConnSpec
import Polly.Session

/-!
# SessionRecv — the incoming byte stream of a connection and its end

`incoming` is what `rev_buffer_` holds followed by what the kernel still has.  Callbacks of an event
move bytes from the second part to the first and announce every read (`Reads`); this holds along
every run (`RecvInv`).  What a close loses is therefore what the kernel still has: `HandleRead`
closes at the end of the stream only, but `HandleEvent` runs the close callback alone whenever
`POLLHUP` is among the revents, whatever else is.

* `step_delivers_iff`: a step that disconnects has delivered everything unless it is the dispatch
  of a hang-up with data still in the kernel.
* `delivers_along_iff`: the same over whole runs.
-/

namespace Polly

open Runs

/-- What `HandleEvent` still has to run. -/
def Rest.left : Rest → List EventCallback
  | .handleWrite left => left
  | .event left => left
  | _ => []

namespace Conn

variable {c : Conn} {o : Out} {msg : Bytes} {left : List EventCallback} {r : ReadResult}
  {w : WriteResult}

/-- What was read and not retrieved, followed by what the kernel still has. -/
def incoming (c : Conn) : Bytes := c.revBuffer.toList ++ c.sock.queue

/-- What a function does to the receiving side: no byte is lost, every read is announced, and no
close is left for later. -/
structure Reads (c : Conn) (o : Out) : Prop where
  incoming : o.conn.incoming = c.incoming
  isSet : o.conn.isSet = c.isSet
  announced : (∀ rest, o.call ≠ some (.message, rest)) → o.conn.sock.queue = c.sock.queue
  left : ∀ cb rest, o.call = some (cb, rest) → .close ∉ rest.left

/-- If a function disconnects, the kernel has nothing left. -/
def ClosesDrained (c : Conn) (o : Out) : Prop :=
  o.conn.state = .kDisconnected → c.state = .kDisconnected ∨ o.conn.sock.queue = []

theorem reads_ends (c : Conn) : Reads c c.ends where
  incoming := rfl
  isSet := rfl
  announced := fun _ => rfl
  left := fun cb rest h => by cases h

theorem Reads.trans {c₁ : Conn} (h₁ : Reads c c₁.ends) (h₂ : Reads c₁ o) : Reads c o where
  incoming := h₂.incoming.trans h₁.incoming
  isSet := h₂.isSet.trans h₁.isSet
  announced := fun h => (h₂.announced h).trans (h₁.announced fun rest h => by cases h)
  left := h₂.left

theorem KeepsIn.incoming {c' : Conn} (h : KeepsIn c c') : c'.incoming = c.incoming := by
  simp only [Conn.incoming, h.revBuffer, h.queue]

theorem KeepsIn.reads (h : KeepsIn c o.conn)
    (hleft : ∀ cb rest, o.call = some (cb, rest) → .close ∉ rest.left) : Reads c o where
  incoming := h.incoming
  isSet := h.isSet
  announced := fun _ => h.queue
  left := hleft

theorem received_incoming (n : ℕ) : (c.received n).incoming = c.incoming := by
  simp [incoming, received]

theorem sendInLoop_reads (h : c.sendInLoop msg w = some o) : Reads c o := by
  refine (sendInLoop_keepsIn h).reads fun cb rest hcall => ?_
  obtain ⟨-, rfl⟩ := sendInLoop_call h hcall
  exact List.not_mem_nil

theorem handleWrite_reads (hleft : .close ∉ left) (h : c.handleWrite left w = some o) :
    Reads c o := by
  refine (handleWrite_keepsIn h).reads fun cb rest hcall => ?_
  obtain ⟨-, rfl⟩ := handleWrite_call h hcall
  exact hleft

theorem handleClose_reads (hleft : .close ∉ left) (h : c.handleClose left = some o) :
    Reads c o := by
  obtain ⟨-, hconn, hcall⟩ := handleClose_cases h
  refine ⟨by rw [hconn]; rfl, by rw [hconn]; rfl, fun _ => by rw [hconn]; rfl, ?_⟩
  intro cb rest hrest
  rcases hcall with hcall | hcall
  · rw [hcall] at hrest
    cases hrest
  · rw [hcall] at hrest
    cases hrest
    exact hleft

/-- `HandleRead` closes only when the kernel has reached the end of the stream. -/
theorem handleRead_reads (hm : c.isSet.message = true) (hleft : .close ∉ left)
    (h : c.handleRead left r = some o) : Reads c o ∧ ClosesDrained c o := by
  rcases handleRead_cases h with rfl | ⟨n, -, -, hconn, hcall⟩ | ⟨-, hnil, -, hclose⟩
  · exact ⟨reads_ends c, Or.inl⟩
  · rw [if_pos hm] at hcall
    refine ⟨⟨by rw [hconn, received_incoming], by rw [hconn]; rfl, ?_, ?_⟩, ?_⟩
    · intro hne
      exact absurd hcall (hne _)
    · intro cb rest hrest
      rw [hcall] at hrest
      cases hrest
      exact hleft
    · intro hstate
      rw [hconn] at hstate
      exact Or.inl hstate
  · obtain ⟨-, hconn, -⟩ := handleClose_cases hclose
    have hreads := handleClose_reads hleft hclose
    have hqueue : (c.received 0).sock.queue = c.sock.queue := List.drop_zero
    refine ⟨⟨hreads.incoming.trans (received_incoming 0), hreads.isSet, ?_, hreads.left⟩, ?_⟩
    · exact fun hne => (hreads.announced hne).trans hqueue
    · intro _
      right
      rw [hconn]
      exact hqueue.trans hnil

/-- Reading only shortens what the kernel has. -/
theorem handleRead_queue (h : c.handleRead left r = some o) :
    o.conn.sock.queue <:+ c.sock.queue := by
  rcases handleRead_cases h with rfl | ⟨n, -, -, hconn, -⟩ | ⟨-, -, -, hclose⟩
  · exact List.suffix_refl _
  · rw [hconn]
    exact List.drop_suffix n _
  · obtain ⟨-, hconn, -⟩ := handleClose_cases hclose
    rw [hconn]
    exact List.drop_suffix 0 _

theorem runEvents_reads {evs : List EventCallback} (hm : c.isSet.message = true)
    (hevs : .close ∉ evs) (h : c.runEvents r w evs = some o) : Reads c o ∧ ClosesDrained c o := by
  have hleft : ∀ {e : EventCallback} {left : List EventCallback}, e :: left <:+ evs →
      .close ∉ left := fun hsuf hmem => hevs (hsuf.subset (List.mem_cons_of_mem _ hmem))
  refine runEvents_rule (K := fun o => Reads c o ∧ ClosesDrained c o) ?_ ?_ ?_ evs c
    (List.suffix_refl evs) ⟨reads_ends c, Or.inl⟩ h
  · intro c₁ left o₁ hsuf _ _
    exact absurd (hsuf.subset List.mem_cons_self) hevs
  · intro c₁ left o₁ hsuf hK h₁
    have hm₁ : c₁.isSet.message = true := by rw [show c₁.isSet = c.isSet from hK.1.isSet]; exact hm
    obtain ⟨hreads, hdrained⟩ := handleRead_reads hm₁ (hleft hsuf) h₁
    refine ⟨hK.1.trans hreads, fun hstate => ?_⟩
    rcases hdrained hstate with hstate₁ | hnil
    · rcases hK.2 hstate₁ with hstate₀ | hnil
      · exact Or.inl hstate₀
      · have hq : o₁.conn.sock.queue <:+ c₁.sock.queue := handleRead_queue h₁
        exact Or.inr (List.suffix_nil.mp (hnil ▸ hq))
    · exact Or.inr hnil
  · intro c₁ left o₁ hsuf hK h₁
    have hkeeps := handleWrite_keepsIn h₁
    refine ⟨hK.1.trans (handleWrite_reads (hleft hsuf) h₁), fun hstate => ?_⟩
    rw [hkeeps.state] at hstate
    rw [hkeeps.queue]
    exact hK.2 hstate

theorem resume_reads {rest : Rest} (hm : c.isSet.message = true) (hrest : .close ∉ rest.left)
    (h : c.resume r w rest = some o) : Reads c o ∧ ClosesDrained c o := by
  cases rest with
  | done => cases h; exact ⟨reads_ends c, Or.inl⟩
  | sendInLoop msg n =>
    cases h
    have hkeeps : KeepsIn c (c.sendRest msg n) := sendRest_keepsIn n
    refine ⟨hkeeps.reads (fun cb rest hcall => by cases hcall), fun hstate => Or.inl ?_⟩
    exact hkeeps.state ▸ hstate
  | handleWrite left =>
    have hkeeps : KeepsIn c c.handleWriteRest := handleWriteRest_keepsIn
    have hm' : c.handleWriteRest.isSet.message = true := by rw [hkeeps.isSet]; exact hm
    obtain ⟨hreads, hdrained⟩ := runEvents_reads hm' hrest h
    have hreads₀ : Reads c c.handleWriteRest.ends :=
      hkeeps.reads fun cb rest hcall => by cases hcall
    refine ⟨hreads₀.trans hreads, fun hstate => ?_⟩
    rw [← hkeeps.state]
    exact hdrained hstate
  | event left => exact runEvents_reads hm hrest h

/-- With a hang-up the close callback runs alone, without one it does not run. -/
theorem handleEvent_hup (ch : Channel) (h : hasBits ch.revents POLLHUP = true) :
    ch.handleEvent eventIsSet = [.close] := by
  simp [Channel.handleEvent, eventIsSet, h]

theorem handleEvent_no_hup (ch : Channel) (h : hasBits ch.revents POLLHUP = false) :
    .close ∉ ch.handleEvent eventIsSet := by
  simp only [Channel.handleEvent, eventIsSet, h, Bool.false_and, Bool.false_eq_true, if_false]
  split_ifs <;> simp

end Conn

namespace Session

open Conn

/-- Received bytes: retrieved, readable and in the kernel; all that was read was announced. -/
structure RecvInv (s : Session) : Prop where
  stream : s.taken ++ s.conn.incoming = s.stream
  message : s.conn.isSet.message = true
  announced : s.announced + s.conn.sock.queue.length = s.stream.length
  left : ∀ cb rest, (cb, rest) ∈ s.stack → .close ∉ rest.left

/-- Every byte received has been read and announced, and the user has or can retrieve all of them
in order. -/
structure Delivered (s : Session) : Prop where
  read : s.conn.sock.queue = []
  announced : s.announced = s.stream.length
  stream : s.taken ++ s.conn.revBuffer.toList = s.stream

theorem RecvInv.delivered_iff {s : Session} (h : RecvInv s) :
    Delivered s ↔ s.conn.sock.queue = [] := by
  refine ⟨Delivered.read, fun hnil => ⟨hnil, ?_, ?_⟩⟩
  · have hann := h.announced
    rwa [hnil, List.length_nil, Nat.add_zero] at hann
  · have hstream := h.stream
    rwa [incoming, hnil, List.append_nil] at hstream

theorem after_recvInv {s : Session} {o : Out} (hI : RecvInv s) (h : Reads s.conn o) :
    RecvInv (s.after o) := by
  have hstream : s.taken ++ o.conn.incoming = s.stream := by rw [h.incoming]; exact hI.stream
  refine ⟨by simpa using hstream, by simpa [h.isSet] using hI.message, ?_, ?_⟩
  · have hle : o.conn.sock.queue.length ≤ s.stream.length := by
      rw [← hstream, incoming]
      simp only [List.length_append]
      omega
    unfold after
    split
    · rename_i hcall
      rw [h.announced (by simp [hcall])]
      exact hI.announced
    · rename_i cb rest hcall
      by_cases hcb : cb = .message
      · simp only [if_pos hcb]
        omega
      · simp only [if_neg hcb]
        rw [h.announced (by simp [hcall, hcb])]
        exact hI.announced
  · intro cb rest hmem
    rcases mem_after_stack s o hmem with hmem | hnew
    · exact hI.left cb rest hmem
    · exact h.left cb rest hnew

theorem start_recvInv {fd : ℤ} {isSet : CallbacksSet} (hm : isSet.message = true) :
    RecvInv (start fd isSet) := by
  have h₀ : RecvInv ⟨Conn.new fd isSet, [], [], [], [], [], 0⟩ := by
    refine ⟨?_, hm, rfl, fun cb rest hmem => absurd hmem List.not_mem_nil⟩
    change [] ++ (Buf.new.toList ++ []) = []
    simp
  refine after_recvInv h₀ ⟨?_, ?_, fun _ => ?_, fun cb rest hcall => ?_⟩
  · rw [connectEstablished_conn]
    rfl
  · rw [connectEstablished_conn]
  · rw [connectEstablished_conn]
  · rw [connectEstablished_call] at hcall
    split_ifs at hcall
    cases hcall
    exact List.not_mem_nil

theorem shutdown_incoming (c : Conn) : c.shutdown.incoming = c.incoming ∧
    c.shutdown.isSet = c.isSet ∧ c.shutdown.sock.queue = c.sock.queue ∧
    (c.shutdown.state = .kDisconnected → c.state = .kDisconnected) := by
  unfold shutdown
  split_ifs
  · have hkeeps := shutdownInLoop_keepsIn (c := { c with state := .kDisconnecting })
    refine ⟨hkeeps.incoming, hkeeps.isSet, hkeeps.queue, fun hstate => ?_⟩
    rw [hkeeps.state] at hstate
    cases hstate
  · exact ⟨rfl, rfl, rfl, id⟩

/-- The callbacks of a dispatched event: a hang-up closes and nothing else, any other event
reads. -/
theorem handleEvent_cases {c : Conn} {revents : BitVec 32} {r : ReadResult} {w : WriteResult}
    {o : Out} (hm : c.isSet.message = true) (h : c.handleEvent revents r w = some o) :
    Reads c o ∧
      ((hasBits revents POLLHUP = true ∧ (c.state = .kConnected ∨ c.state = .kDisconnecting) ∧
          o.conn.state = .kDisconnected ∧ o.conn.sock.queue = c.sock.queue) ∨
        (hasBits revents POLLHUP = false ∧ ClosesDrained c o)) := by
  set c₁ : Conn := { c with channel := { c.channel with revents := revents } } with hc₁
  have hrun : c₁.runEvents r w (c₁.channel.handleEvent eventIsSet) = some o := h
  cases hhup : hasBits revents POLLHUP with
  | true =>
    rw [handleEvent_hup c₁.channel hhup, runEvents_close] at hrun
    obtain ⟨hstate, hconn, -⟩ := handleClose_cases hrun
    have hreads : Reads c₁ o := handleClose_reads List.not_mem_nil hrun
    refine ⟨⟨hreads.incoming, hreads.isSet, hreads.announced, hreads.left⟩, Or.inl ?_⟩
    exact ⟨rfl, hstate, by rw [hconn]; rfl, by rw [hconn]; rfl⟩
  | false =>
    obtain ⟨hreads, hdrained⟩ := runEvents_reads (c := c₁) hm
      (handleEvent_no_hup c₁.channel hhup) hrun
    exact ⟨⟨hreads.incoming, hreads.isSet, hreads.announced, hreads.left⟩, Or.inr ⟨rfl, hdrained⟩⟩

/-- **One step** keeps the incoming stream whole. -/
theorem step_recvInv {s s' : Session} {a : Act} (hI : RecvInv s) (h : step s a = some s') :
    RecvInv s' := by
  cases a with
  | send msg w =>
    obtain ⟨o, ho, rfl⟩ := Option.map_eq_some_iff.mp h
    have hI' : RecvInv { s with
        log := s.log ++ [⟨msg, false, s.conn.writesDirectly && w == .error⟩] } :=
      ⟨hI.stream, hI.message, hI.announced, hI.left⟩
    exact after_recvInv hI' (sendInLoop_reads ho)
  | shutdown =>
    cases h
    obtain ⟨hin, hset, hq, -⟩ := shutdown_incoming s.conn
    exact ⟨by rw [hin]; exact hI.stream, by rw [hset]; exact hI.message,
      by rw [hq]; exact hI.announced, hI.left⟩
  | retrieve len =>
    obtain ⟨b, hb, rfl⟩ := Option.map_eq_some_iff.mp h
    obtain ⟨-, hlist⟩ := Buf.retrieve_eq_some hb
    refine ⟨?_, hI.message, hI.announced, hI.left⟩
    have hstream := hI.stream
    change s.taken ++ s.conn.revBuffer.toList.take len ++ (b.toList ++ s.conn.sock.queue) = s.stream
    rw [hlist, List.append_assoc, ← List.append_assoc (s.conn.revBuffer.toList.take len),
      List.take_append_drop]
    exact hstream
  | ret r w =>
    obtain ⟨cb, rest, stack, o, hstack, ho, rfl⟩ := step_ret h
    have hleft := hI.left
    rw [hstack] at hleft
    have hI' : RecvInv { s with stack := stack } :=
      ⟨hI.stream, hI.message, hI.announced, fun cb rest hmem =>
        hleft cb rest (List.mem_cons_of_mem _ hmem)⟩
    exact after_recvInv hI' (resume_reads hI.message (hleft cb rest List.mem_cons_self) ho).1
  | dispatch revents r w =>
    obtain ⟨o, ho, rfl⟩ := step_dispatch h
    exact after_recvInv hI (handleEvent_cases hI.message ho).1
  | arrive data =>
    obtain rfl := step_arrive h
    refine ⟨?_, hI.message, ?_, hI.left⟩
    · change s.taken ++ (s.conn.revBuffer.toList ++ (s.conn.sock.queue ++ data)) = s.stream ++ data
      rw [← hI.stream, incoming]
      simp
    · have hann := hI.announced
      simp only [List.length_append]
      omega
  | peerClose =>
    cases h
    exact ⟨hI.stream, hI.message, hI.announced, hI.left⟩

/-! ### What a close loses -/

/-- If this step disconnects, everything received has been delivered. -/
def Delivers (s : Session) (a : Act) : Prop :=
  ∀ s', step s a = some s' → s.conn.state ≠ .kDisconnected → s'.conn.state = .kDisconnected →
    Delivered s'

/-- The step is not the dispatch of a hang-up with data still in the kernel. -/
def HupDrained (s : Session) : Act → Prop
  | .dispatch revents _ _ => hasBits revents POLLHUP = true → s.conn.sock.queue = []
  | _ => True

instance (s : Session) : ∀ a, Decidable (HupDrained s a)
  | .dispatch revents _ _ =>
    inferInstanceAs (Decidable (hasBits revents POLLHUP = true → s.conn.sock.queue = []))
  | .send .. | .shutdown | .retrieve _ | .ret .. | .arrive _ | .peerClose => .isTrue trivial

/-- A step that is not the dispatch of a hang-up disconnects with an empty queue only. -/
theorem step_closes_drained {s s' : Session} {a : Act} (hI : RecvInv s) (h : step s a = some s')
    (hhup : HupDrained s a) (hstate : s.conn.state ≠ .kDisconnected)
    (hstate' : s'.conn.state = .kDisconnected) : s'.conn.sock.queue = [] := by
  cases a with
  | send msg w =>
    obtain ⟨o, ho, rfl⟩ := Option.map_eq_some_iff.mp h
    rw [after_conn, (sendInLoop_keepsIn ho).state] at hstate'
    exact absurd hstate' hstate
  | shutdown =>
    cases h
    exact absurd ((shutdown_incoming s.conn).2.2.2 hstate') hstate
  | retrieve len =>
    obtain ⟨b, -, rfl⟩ := Option.map_eq_some_iff.mp h
    exact absurd hstate' hstate
  | ret r w =>
    obtain ⟨cb, rest, stack, o, hstack, ho, rfl⟩ := step_ret h
    have hleft : .close ∉ rest.left := hI.left cb rest (by rw [hstack]; exact List.mem_cons_self)
    rw [after_conn] at hstate' ⊢
    exact ((resume_reads hI.message hleft ho).2 hstate').resolve_left hstate
  | dispatch revents r w =>
    obtain ⟨o, ho, rfl⟩ := step_dispatch h
    rw [after_conn] at hstate' ⊢
    rcases (handleEvent_cases hI.message ho).2 with ⟨hbit, -, -, hqueue⟩ | ⟨-, hdrained⟩
    · rw [hqueue]
      exact hhup hbit
    · exact (hdrained hstate').resolve_left hstate
  | arrive data =>
    obtain rfl := step_arrive h
    exact absurd hstate' hstate
  | peerClose =>
    cases h
    exact absurd hstate' hstate

/-- **A close delivers** everything unless it is a hang-up with data still in the kernel. -/
theorem step_delivers_iff {s : Session} {a : Act} (hI : RecvInv s) (h : (step s a).isSome = true) :
    Delivers s a ↔ HupDrained s a := by
  obtain ⟨s', hs⟩ := Option.isSome_iff_exists.mp h
  constructor
  · intro hdel
    cases a with
    | dispatch revents r w =>
      intro hbit
      obtain ⟨o, ho, rfl⟩ := step_dispatch hs
      rcases (handleEvent_cases hI.message ho).2 with ⟨-, halive, hdisc, hqueue⟩ | ⟨hno, -⟩
      · have hstate : s.conn.state ≠ .kDisconnected := by
          rcases halive with halive | halive <;> rw [halive] <;> decide
        have hread := (hdel _ hs hstate (by rw [after_conn]; exact hdisc)).read
        rwa [after_conn, hqueue] at hread
      · rw [hno] at hbit
        cases hbit
    | send | shutdown | retrieve | ret | arrive | peerClose => trivial
  · intro hhup s'' hs'' hstate hstate'
    exact (step_recvInv hI hs'').delivered_iff.mpr
      (step_closes_drained hI hs'' hhup hstate hstate')

/-- **No received byte is lost at a close, exactly while no hang-up comes early.**  Along every run
of a connection with a message callback, every step that disconnects has delivered all received
bytes if and only if no `POLLHUP` is dispatched while the kernel still has data. -/
theorem delivers_along_iff {fd : ℤ} {isSet : CallbacksSet} (hm : isSet.message = true)
    {as : List Act} {s : Session} (h : run step (start fd isSet) as = some s) :
    Along step Delivers (start fd isSet) as ↔ Along step HupDrained (start fd isSet) as :=
  along_iff (I := RecvInv) (fun _ _ hI hL => step_delivers_iff hI hL)
    (fun _ _ _ hI _ _ hs => step_recvInv hI hs) (along_enabled h) (start_recvInv hm)

/-- Two reads, then the end of the stream after a local `Shutdown()`. -/
def drainedHup : List Act :=
  [.ret (.got 0) .wouldBlock, .arrive [1, 2], .dispatch POLLIN (.got 1) .wouldBlock, .retrieve 1,
    .ret (.got 0) .wouldBlock, .shutdown, .peerClose, .dispatch POLLIN (.got 1) .wouldBlock,
    .ret (.got 0) .wouldBlock, .dispatch (POLLIN ||| POLLHUP) (.got 0) .wouldBlock]

theorem delivers_along_drainedHup :
    ∃ s, run step (start 7 ⟨true, true, true, true⟩) drainedHup = some s ∧
      s.conn.state = .kDisconnected ∧
      Along step Delivers (start 7 ⟨true, true, true, true⟩) drainedHup := by
  obtain ⟨s, hs, hstate⟩ : ∃ s, run step (start 7 ⟨true, true, true, true⟩) drainedHup = some s ∧
      s.conn.state = .kDisconnected :=
    Option.map_eq_some_iff.mp (by decide +kernel)
  exact ⟨s, hs, hstate, (delivers_along_iff rfl hs).mpr (by decide +kernel)⟩

/-- What poll can report for a connection: a hang-up exactly when both directions are shut, and
readiness that was asked for and is there. -/
def Consistent (s : Session) : Act → Prop
  | .dispatch revents _ _ =>
    (hasBits revents POLLHUP = (s.conn.sock.peerClosed && s.conn.sock.writeShut)) ∧
    (hasBits revents POLLIN =
      (hasBits s.conn.channel.events POLLIN &&
        (!s.conn.sock.queue.isEmpty || s.conn.sock.peerClosed))) ∧
    (hasBits revents POLLOUT = true → s.conn.channel.isWritingEnabled = true) ∧
    hasBits revents (~~~(POLLIN ||| POLLOUT ||| POLLHUP)) = false
  | _ => True

instance (s : Session) : ∀ a, Decidable (Consistent s a)
  | .dispatch .. => inferInstanceAs (Decidable (_ ∧ _ ∧ (_ → _) ∧ _))
  | .send .. | .shutdown | .retrieve _ | .ret .. | .arrive _ | .peerClose => .isTrue trivial

/-- The peer's byte arrives after the local `Shutdown()`, then the peer closes. -/
def lateByte : List Act := [.ret (.got 0) .wouldBlock, .shutdown, .arrive [1], .peerClose]

/-- Poll reports both the data and the hang-up. -/
def dataAndHup : Act := .dispatch (POLLIN ||| POLLHUP) (.got 1) .wouldBlock

/-- The close callback runs alone: the byte stays in the kernel and is never announced. -/
theorem lateByte_lost : ∃ s s', run step (start 7 ⟨true, true, true, true⟩) lateByte = some s ∧
    Consistent s dataAndHup ∧ s.conn.state = .kDisconnecting ∧
    step s dataAndHup = some s' ∧ s'.conn.state = .kDisconnected ∧
    s'.stream = [1] ∧ s'.conn.sock.queue = [1] ∧ s'.announced = 0 ∧ ¬ Delivers s dataAndHup := by
  have heval : (run step (start 7 ⟨true, true, true, true⟩) lateByte).bind (fun s =>
      (step s dataAndHup).map fun s' =>
        ((decide (Consistent s dataAndHup), s.conn.state, s'.conn.state),
          s'.stream, s'.conn.sock.queue, s'.announced)) =
      some ((true, .kDisconnecting, .kDisconnected), [1], [1], 0) := by decide +kernel
  obtain ⟨s, hs, hmap⟩ := Option.bind_eq_some_iff.mp heval
  obtain ⟨s', hs', hobs⟩ := Option.map_eq_some_iff.mp hmap
  simp only [Prod.mk.injEq, decide_eq_true_eq] at hobs
  obtain ⟨⟨hcons, hstate, hstate'⟩, hstream, hqueue, hann⟩ := hobs
  refine ⟨s, s', hs, hcons, hstate, hs', hstate', hstream, hqueue, hann, fun hdel => ?_⟩
  have hread := (hdel s' hs' (by rw [hstate]; decide) hstate').read
  rw [hqueue] at hread
  cases hread

end Session

end Polly
