import Polly.ConnSpec
import Polly.Session

/-!
# SessionFlush — when the write end of a connection is shut

While a connection is not closed, data in `snd_buffer_` keeps writing enabled (`Flushing`), so a
`shutdownInLoop` with data pending is postponed and `HandleWrite` takes it up again when the buffer
is empty.  `continuesShutdown` says when a step takes that branch, from the state before it.

* `step_outInv`: no step but that branch shuts the write end, and it does with an empty buffer.
-/

namespace Polly

open Runs

/-- What can be left of an event behind a callback: the write callback is the last one. -/
def Rest.Tail : Rest → Prop
  | .handleWrite left => left = []
  | .event left => left = [] ∨ left = [.write]
  | _ => True

namespace Conn

variable {c : Conn} {o : Out} {msg : Bytes} {left : List EventCallback} {r : ReadResult}
  {w : WriteResult}

/-- Data in the output buffer is waiting for `POLLOUT`. -/
def Flushing (c : Conn) : Prop := c.sndBuffer.toList ≠ [] → c.channel.isWritingEnabled = true

/-- `HandleWrite` is among the callbacks, writes all there is and has no callback to invoke. -/
def drains (c : Conn) (evs : List EventCallback) (w : WriteResult) : Bool :=
  decide (.write ∈ evs) && c.channel.isWritingEnabled && w == .wrote c.sndBuffer.readableBytes &&
    !c.isSet.writeComplete

/-- What runs after a callback reaches the shutdown at the end of `HandleWrite`. -/
def continuesShutdown (c : Conn) (w : WriteResult) : Rest → Bool
  | .handleWrite _ => c.state == .kDisconnecting && !c.channel.isWritingEnabled
  | .event left => c.state == .kDisconnecting && c.drains left w
  | _ => false

/-- What a function that does not close does to the sending side; `B` says when it may shut the
write end. -/
structure Sends (c : Conn) (B : Prop) (o : Out) : Prop where
  state : o.conn.state = c.state
  flushing : Flushing c → Flushing o.conn
  stays : c.sock.writeShut = true → o.conn.sock.writeShut = true
  shut : o.conn.sock.writeShut = true → c.sock.writeShut = true ∨
    (B ∧ (Flushing c → o.conn.sndBuffer.toList = []))
  tail : ∀ cb rest, o.call = some (cb, rest) → rest.Tail

theorem Sends.imp {B B' : Prop} (h : Sends c B o) (hB : B → B') : Sends c B' o where
  state := h.state
  flushing := h.flushing
  stays := h.stays
  shut := fun hs => (h.shut hs).imp_right fun ⟨b, hempty⟩ => ⟨hB b, hempty⟩
  tail := h.tail

theorem sends_ends (c : Conn) (B : Prop) : Sends c B c.ends where
  state := rfl
  flushing := id
  stays := id
  shut := Or.inl
  tail := fun cb rest h => by cases h

theorem enableWriting_isWritingEnabled (c : Conn) :
    c.enableWriting.channel.isWritingEnabled = true := by
  have habsorb : (c.channel.events ||| kWriteEvent) &&& kWriteEvent = kWriteEvent := by
    ext i hi
    simp only [BitVec.getElem_and, BitVec.getElem_or]
    cases kWriteEvent[i] <;> simp
  change (((c.channel.events ||| kWriteEvent) &&& kWriteEvent) != 0) = true
  rw [habsorb]
  rfl

/-- What `sendInLoop` leaves in the buffer it leaves with writing enabled. -/
theorem sendRest_flushing (n : ℕ) (h : Flushing c) : Flushing (c.sendRest msg n) := by
  simp only [sendRest]
  split_ifs with h₁ h₂
  · exact fun _ => enableWriting_isWritingEnabled _
  · exact fun _ => by simpa using h₂
  · exact h

theorem sendInLoop_writeShut (h : c.sendInLoop msg w = some o) :
    o.conn.sock.writeShut = c.sock.writeShut := by
  rcases sendInLoop_cases h with
    ⟨-, rfl⟩ | ⟨-, ⟨-, rfl⟩ | ⟨-, rfl⟩ | ⟨n, -, -, rfl⟩ | ⟨-, hconn, -⟩⟩
  · simp
  · rfl
  · simp
  · simp [accept]
  · rw [hconn]
    rfl

theorem sendInLoop_sends (h : c.sendInLoop msg w = some o) : Sends c False o := by
  have hstate := (sendInLoop_keepsIn h).state
  have hshut := sendInLoop_writeShut h
  refine ⟨hstate, ?_, fun hs => hshut.trans hs, fun hs => Or.inl (hshut ▸ hs), ?_⟩
  · intro hf
    rcases sendInLoop_cases h with
      ⟨-, rfl⟩ | ⟨-, ⟨-, rfl⟩ | ⟨-, rfl⟩ | ⟨n, -, -, rfl⟩ | ⟨-, hconn, -⟩⟩
    · exact sendRest_flushing 0 hf
    · exact hf
    · exact sendRest_flushing 0 hf
    · have hf' : Flushing (c.accept (msg.take n)) := hf
      exact sendRest_flushing n hf'
    · rw [hconn]
      exact hf
  · intro cb rest hrest
    obtain ⟨-, rfl⟩ := sendInLoop_call h hrest
    trivial

theorem shutdownInLoop_shut (h : c.shutdownInLoop.sock.writeShut = true) :
    c.sock.writeShut = true ∨ c.channel.isWritingEnabled = false := by
  unfold shutdownInLoop at h
  split_ifs at h with hw
  · exact Or.inr (by simpa using hw)
  · exact Or.inl h

theorem shutdownInLoop_writeShut (h : c.sock.writeShut = true) :
    c.shutdownInLoop.sock.writeShut = true := by
  unfold shutdownInLoop
  split_ifs
  · rfl
  · exact h

@[simp] theorem shutdownInLoop_sndBuffer : c.shutdownInLoop.sndBuffer = c.sndBuffer := by
  unfold shutdownInLoop
  split_ifs <;> rfl

theorem shutdownInLoop_channel : c.shutdownInLoop.channel = c.channel := by
  unfold shutdownInLoop
  split_ifs <;> rfl

theorem handleWriteRest_writeShut (h : c.sock.writeShut = true) :
    c.handleWriteRest.sock.writeShut = true := by
  unfold handleWriteRest
  split_ifs
  · exact shutdownInLoop_writeShut h
  · exact h

/-- With writing disabled nothing is left to send. -/
theorem Flushing.nil (h : Flushing c) (hw : c.channel.isWritingEnabled = false) :
    c.sndBuffer.toList = [] := by
  by_contra hne
  rw [h hne] at hw
  cases hw

/-- The shutdown at the end of `HandleWrite`. -/
theorem handleWriteRest_sends :
    Sends c (c.state = .kDisconnecting ∧ c.channel.isWritingEnabled = false)
      c.handleWriteRest.ends := by
  refine ⟨handleWriteRest_keepsIn.state, ?_, handleWriteRest_writeShut, ?_, fun _ _ h => by cases h⟩
  · intro hf
    unfold handleWriteRest
    split_ifs
    · intro hne
      change c.shutdownInLoop.channel.isWritingEnabled = true
      rw [shutdownInLoop_channel]
      exact hf (by simpa using hne)
    · exact hf
  · intro hs
    change c.handleWriteRest.sock.writeShut = true at hs
    unfold handleWriteRest at hs
    split_ifs at hs with hstate
    · rcases shutdownInLoop_shut hs with hs | hw
      · exact Or.inl hs
      · refine Or.inr ⟨⟨hstate, hw⟩, fun hf => ?_⟩
        simp only [handleWriteRest, hstate, if_true, ends_conn, shutdownInLoop_sndBuffer]
        exact hf.nil hw
    · exact Or.inl hs

theorem handleWrite_sends {evs : List EventCallback} (hevs : .write ∈ evs)
    (h : c.handleWrite [] w = some o) :
    Sends c (c.state = .kDisconnecting ∧ c.drains evs w = true) o := by
  have hkeeps := (handleWrite_keepsIn h).state
  rcases handleWrite_cases h with rfl | ⟨he, n, snd, rfl, h0, hsnd, hleft⟩
  · exact sends_ends c _
  rcases hleft with ⟨-, rfl⟩ | ⟨hnil, ⟨-, rfl⟩ | ⟨hwc, rfl⟩⟩
  · exact ⟨hkeeps, fun _ _ => he, id, Or.inl, fun _ _ h => by cases h⟩
  · refine ⟨hkeeps, fun _ hne => absurd hnil hne, id, Or.inl, fun cb rest hcall => ?_⟩
    cases hcall
    rfl
  · have hrest := handleWriteRest_sends (c := (c.drain n snd).disableWriting)
    have hempty : (c.drain n snd).disableWriting.handleWriteRest.sndBuffer.toList = [] := by
      unfold handleWriteRest
      split_ifs
      · rw [shutdownInLoop_sndBuffer]
        exact hnil
      · exact hnil
    refine ⟨hkeeps, fun _ hne => absurd hempty hne, hrest.stays, fun hs => ?_,
      fun _ _ h => by cases h⟩
    rcases hrest.shut hs with hs | ⟨⟨hstate, -⟩, -⟩
    · exact Or.inl hs
    · refine Or.inr ⟨⟨hstate, ?_⟩, fun _ => hempty⟩
      obtain ⟨hle, hdrop⟩ := Buf.retrieve_eq_some hsnd
      have hge : c.sndBuffer.toList.length ≤ n := by
        rw [hnil] at hdrop
        exact List.drop_eq_nil_iff.mp hdrop.symm
      have hn : n = c.sndBuffer.readableBytes := by
        rw [← Buf.length_toList]
        omega
      simp [drains, hevs, he, hn, hwc]

/-- What only receives leaves the state and the sending side alone. -/
structure KeepsOut (c c' : Conn) : Prop where
  state : c'.state = c.state
  sndBuffer : c'.sndBuffer = c.sndBuffer
  channel : c'.channel = c.channel
  isSet : c'.isSet = c.isSet
  writeShut : c'.sock.writeShut = c.sock.writeShut

theorem KeepsOut.flushing {c' : Conn} (h : KeepsOut c c') : Flushing c' ↔ Flushing c := by
  rw [Flushing, Flushing, h.sndBuffer, h.channel]

theorem KeepsOut.drains {c' : Conn} (h : KeepsOut c c') (evs : List EventCallback) :
    c'.drains evs w = c.drains evs w := by
  rw [Conn.drains, Conn.drains, h.sndBuffer, h.channel, h.isSet]

theorem KeepsOut.sends {B : Prop} (h : KeepsOut c o.conn)
    (htail : ∀ cb rest, o.call = some (cb, rest) → rest.Tail) : Sends c B o where
  state := h.state
  flushing := h.flushing.mpr
  stays := fun hs => h.writeShut.trans hs
  shut := fun hs => Or.inl (h.writeShut ▸ hs)
  tail := htail

/-- A read that does not close. -/
theorem handleRead_keepsOut (h : c.handleRead left r = some o) :
    o.conn.state = .kDisconnected ∨ (KeepsOut c o.conn ∧
      ∀ cb rest, o.call = some (cb, rest) → rest = .event left) := by
  rcases handleRead_cases h with rfl | ⟨n, -, -, hconn, hcall⟩ | ⟨-, -, -, hclose⟩
  · exact Or.inr ⟨⟨rfl, rfl, rfl, rfl, rfl⟩, fun _ _ h => by cases h⟩
  · refine Or.inr ⟨by rw [hconn]; exact ⟨rfl, rfl, rfl, rfl, rfl⟩, fun cb rest hrest => ?_⟩
    rw [hcall] at hrest
    split_ifs at hrest
    cases hrest
    rfl
  · obtain ⟨-, hconn, -⟩ := handleClose_cases hclose
    exact Or.inl (by rw [hconn]; rfl)

/-- A read followed by a write: the callback of the read comes in between, or they run on. -/
theorem runEvents_read_write {o : Out} (h : c.runEvents r w [.read, .write] = some o) :
    c.handleRead [.write] r = some o ∨
      ∃ c₁ : Conn, c.handleRead [.write] r = some c₁.ends ∧ c₁.handleWrite [] w = some o := by
  obtain ⟨⟨c₁, call⟩, h₁, h₂⟩ := Option.bind_eq_some_iff.mp h
  cases call with
  | some cb => cases h₂; exact Or.inl h₁
  | none => exact Or.inr ⟨c₁, h₁, by rw [← runEvents_write]; exact h₂⟩

/-- The lists of callbacks `HandleEvent` can have to run. -/
theorem handleEvent_shape (ch : Channel) :
    ch.handleEvent eventIsSet ∈ [[], [.close], [.read], [.write], [.read, .write]] := by
  simp only [Channel.handleEvent, eventIsSet, Bool.and_true, Bool.and_false, Bool.false_eq_true,
    if_false, List.nil_append]
  split_ifs <;> simp

theorem runEvents_sends {evs : List EventCallback}
    (hevs : evs ∈ [[], [.close], [.read], [.write], [.read, .write]])
    (h : c.runEvents r w evs = some o) (hopen : o.conn.state ≠ .kDisconnected) :
    Sends c (c.state = .kDisconnecting ∧ c.drains evs w = true) o := by
  simp only [List.mem_cons, List.not_mem_nil, or_false] at hevs
  rcases hevs with rfl | rfl | rfl | rfl | rfl
  · cases h
    exact sends_ends c _
  · rw [runEvents_close] at h
    obtain ⟨-, hconn, -⟩ := handleClose_cases h
    exact absurd (by rw [hconn]; rfl) hopen
  · rw [runEvents_read] at h
    obtain ⟨hkeeps, htail⟩ := (handleRead_keepsOut h).resolve_left hopen
    exact hkeeps.sends fun cb rest hcall => htail cb rest hcall ▸ Or.inl rfl
  · rw [runEvents_write] at h
    exact handleWrite_sends List.mem_cons_self h
  · rcases runEvents_read_write h with h | ⟨c₁, h₁, h₂⟩
    · obtain ⟨hkeeps, htail⟩ := (handleRead_keepsOut h).resolve_left hopen
      exact hkeeps.sends fun cb rest hcall => htail cb rest hcall ▸ Or.inr rfl
    · have hmem : .write ∈ ([.read, .write] : List EventCallback) := by simp
      have hsends := handleWrite_sends hmem h₂
      have hopen₁ : c₁.state ≠ .kDisconnected := by rw [← hsends.state]; exact hopen
      obtain ⟨hkeeps, -⟩ := (handleRead_keepsOut h₁).resolve_left hopen₁
      rw [ends_conn] at hkeeps
      refine ⟨hsends.state.trans hkeeps.state, fun hf => hsends.flushing (hkeeps.flushing.mpr hf),
        fun hs => hsends.stays (hkeeps.writeShut.trans hs), fun hs => ?_, hsends.tail⟩
      have hshut := hsends.shut hs
      rwa [hkeeps.writeShut, hkeeps.state, hkeeps.drains, hkeeps.flushing] at hshut

theorem resume_sends {rest : Rest} (htail : rest.Tail) (h : c.resume r w rest = some o)
    (hopen : o.conn.state ≠ .kDisconnected) :
    Sends c (c.continuesShutdown w rest = true) o := by
  cases rest with
  | done => cases h; exact sends_ends c _
  | sendInLoop msg n =>
    cases h
    refine ⟨(sendRest_keepsIn n).state, sendRest_flushing n, fun hs => ?_, fun hs => Or.inl ?_,
      fun _ _ h => by cases h⟩
    · simpa using hs
    · simpa using hs
  | handleWrite left =>
    obtain rfl : left = [] := htail
    cases h
    refine handleWriteRest_sends.imp ?_
    rintro ⟨hstate, hw⟩
    simp [continuesShutdown, hstate, hw]
  | event left =>
    have hevs : left ∈ [[], [.close], [.read], [.write], [.read, .write]] := by
      rcases htail with rfl | rfl <;> simp
    refine (runEvents_sends hevs h hopen).imp ?_
    rintro ⟨hstate, hdrains⟩
    simp [continuesShutdown, hstate, hdrains]

/-- A dispatched event reaches the end of `HandleWrite` only with the buffer drained. -/
theorem handleEvent_sends {revents : BitVec 32} (h : c.handleEvent revents r w = some o)
    (hopen : o.conn.state ≠ .kDisconnected) :
    Sends c (c.state = .kDisconnecting ∧
      c.drains ({ c.channel with revents := revents }.handleEvent eventIsSet) w = true) o := by
  set c₁ : Conn := { c with channel := { c.channel with revents := revents } } with hc₁
  -- neither the state nor the sending side depends on the revents
  have hsends := runEvents_sends (c := c₁) (handleEvent_shape c₁.channel) h hopen
  exact ⟨hsends.state, hsends.flushing, hsends.stays, hsends.shut, hsends.tail⟩

end Conn

namespace Session

open Conn

/-- Data pending keeps writing enabled, and the callbacks under way left at most a write. -/
structure OutInv (s : Session) : Prop where
  flushing : Flushing s.conn
  tail : ∀ cb rest, (cb, rest) ∈ s.stack → rest.Tail

/-- The step reaches the shutdown at the end of `HandleWrite`. -/
def continuesShutdown (s : Session) : Act → Bool
  | .dispatch revents _ w =>
    s.conn.state == .kDisconnecting &&
      s.conn.drains ({ s.conn.channel with revents := revents }.handleEvent eventIsSet) w
  | .ret _ w =>
    match s.stack with
    | [] => false
    | (_, rest) :: _ => s.conn.continuesShutdown w rest
  | _ => false

theorem after_outInv {s : Session} {o : Out} {B : Prop} (hI : OutInv s) (h : Sends s.conn B o) :
    OutInv (s.after o) := by
  refine ⟨by rw [after_conn]; exact h.flushing hI.flushing, fun cb rest hmem => ?_⟩
  rcases mem_after_stack s o hmem with hmem | hnew
  · exact hI.tail cb rest hmem
  · exact h.tail cb rest hnew

theorem after_sends {s : Session} {o : Out} {B : Prop} (hI : OutInv s) (h : Sends s.conn B o) :
    OutInv (s.after o) ∧ (s.after o).conn.state = s.conn.state ∧
      (s.conn.sock.writeShut = true → (s.after o).conn.sock.writeShut = true) ∧
      ((s.after o).conn.sock.writeShut = true → s.conn.sock.writeShut = true ∨
        (B ∧ (s.after o).conn.sndBuffer.toList = [])) := by
  refine ⟨after_outInv hI h, ?_⟩
  rw [after_conn]
  exact ⟨h.state, h.stays, fun hs => (h.shut hs).imp_right fun ⟨b, hempty⟩ =>
    ⟨b, hempty hI.flushing⟩⟩

theorem start_outInv (fd : ℤ) (isSet : CallbacksSet) : OutInv (start fd isSet) := by
  refine ⟨?_, fun cb rest hmem => ?_⟩
  · rw [start, after_conn, connectEstablished_conn]
    intro hne
    exact absurd Buf.toList_new hne
  · rcases mem_after_stack _ _ hmem with hmem | hnew
    · exact absurd hmem List.not_mem_nil
    · rw [connectEstablished_call] at hnew
      split_ifs at hnew
      cases hnew
      trivial

theorem send_outInv {s s' : Session} {queued : Bool} {msg : Bytes} {w : WriteResult}
    (hI : OutInv s) (h : s.send queued msg w = some s') :
    OutInv s' ∧ s'.conn.state = s.conn.state ∧
      s'.conn.sock.writeShut = s.conn.sock.writeShut := by
  obtain ⟨o, ho, rfl⟩ := Option.map_eq_some_iff.mp h
  have hsends := sendInLoop_sends ho
  refine ⟨?_, by rw [after_conn]; exact hsends.state, ?_⟩
  · have hI' : OutInv { s with
        log := s.log ++ [⟨msg, queued, s.conn.writesDirectly && w == .error⟩] } :=
      ⟨hI.flushing, hI.tail⟩
    exact after_outInv hI' hsends
  · rw [after_conn]
    exact sendInLoop_writeShut ho

/-- **One step** that neither calls `Shutdown()` nor closes shuts the write end only at the end of
`HandleWrite`, with an empty buffer. -/
theorem step_outInv {s s' : Session} {a : Act} (hI : OutInv s) (h : step s a = some s')
    (hns : a ≠ .shutdown) (hopen : s'.conn.state ≠ .kDisconnected) :
    OutInv s' ∧ s'.conn.state = s.conn.state ∧
      (s.conn.sock.writeShut = true → s'.conn.sock.writeShut = true) ∧
      (s'.conn.sock.writeShut = true → s.conn.sock.writeShut = true ∨
        (s.continuesShutdown a = true ∧ s'.conn.sndBuffer.toList = [])) := by
  cases a with
  | send msg w =>
    obtain ⟨hI', hstate, hshut⟩ := send_outInv hI h
    exact ⟨hI', hstate, fun hs => hshut.trans hs, fun hs => Or.inl (hshut ▸ hs)⟩
  | shutdown => exact absurd rfl hns
  | retrieve len =>
    obtain ⟨b, -, rfl⟩ := Option.map_eq_some_iff.mp h
    exact ⟨⟨hI.flushing, hI.tail⟩, rfl, id, Or.inl⟩
  | ret r w =>
    obtain ⟨cb, rest, stack, o, hstack, ho, rfl⟩ := step_ret h
    rw [after_conn] at hopen
    have htail := hI.tail
    rw [hstack] at htail
    have hI' : OutInv { s with stack := stack } :=
      ⟨hI.flushing, fun cb rest hmem => htail cb rest (List.mem_cons_of_mem _ hmem)⟩
    refine after_sends hI' ((resume_sends (htail cb rest List.mem_cons_self) ho hopen).imp ?_)
    intro hcont
    simpa [continuesShutdown, hstack] using hcont
  | dispatch revents r w =>
    obtain ⟨o, ho, rfl⟩ := step_dispatch h
    rw [after_conn] at hopen
    refine after_sends hI ((handleEvent_sends ho hopen).imp ?_)
    rintro ⟨hstate, hdrains⟩
    simp [continuesShutdown, hstate, hdrains]
  | arrive data =>
    obtain rfl := step_arrive h
    exact ⟨⟨hI.flushing, hI.tail⟩, rfl, id, Or.inl⟩
  | peerClose =>
    cases h
    exact ⟨⟨hI.flushing, hI.tail⟩, rfl, id, Or.inl⟩

theorem continuesShutdown_state {s : Session} {a : Act} (h : s.continuesShutdown a = true) :
    s.conn.state = .kDisconnecting := by
  cases a with
  | dispatch revents r w =>
    simp only [continuesShutdown, Bool.and_eq_true, beq_iff_eq] at h
    exact h.1
  | ret r w =>
    simp only [continuesShutdown] at h
    split at h
    · cases h
    · rename_i cb rest stack hstack
      cases rest with
      | handleWrite left =>
        simp only [Conn.continuesShutdown, Bool.and_eq_true, beq_iff_eq] at h
        exact h.1
      | event left =>
        simp only [Conn.continuesShutdown, Bool.and_eq_true, beq_iff_eq] at h
        exact h.1
      | done | sendInLoop => cases h
  | send | shutdown | retrieve | arrive | peerClose => cases h

/-- Only `Send` writes the log. -/
theorem step_log {s s' : Session} {a : Act} (h : step s a = some s') :
    s'.log = s.log ∨ ∃ msg w, a = .send msg w ∧
      s'.log = s.log ++ [⟨msg, false, s.conn.writesDirectly && w == .error⟩] := by
  cases a with
  | send msg w =>
    obtain ⟨o, -, rfl⟩ := Option.map_eq_some_iff.mp h
    exact Or.inr ⟨msg, w, rfl, by simp⟩
  | shutdown => cases h; exact Or.inl rfl
  | retrieve len =>
    obtain ⟨b, -, rfl⟩ := Option.map_eq_some_iff.mp h
    exact Or.inl rfl
  | ret r w =>
    obtain ⟨cb, rest, stack, o, -, -, rfl⟩ := step_ret h
    exact Or.inl (by simp)
  | dispatch revents r w =>
    obtain ⟨o, -, rfl⟩ := step_dispatch h
    exact Or.inl (by simp)
  | arrive data =>
    obtain rfl := step_arrive h
    exact Or.inl rfl
  | peerClose => cases h; exact Or.inl rfl

end Session

end Polly
