import Polly.ConnSpec
import Polly.Session

/-!
# SessionSend — the outgoing byte stream of a connection

`outgoing` is what the socket has accepted followed by what `snd_buffer_` holds.  Only `sendInLoop`
changes it, and by its message or, after a hard error of the direct write, not at all
(`sendInLoop_outgoing`); `HandleWrite` moves bytes from the buffer to the socket.  A
write-complete callback is only invoked with an empty buffer, and a `sendInLoop` that invoked one
has nothing left to append when it returns (`CallOk`).

* `step_sendInv`: both facts along every run, at every re-entry point, if the message of a `Send`
  stays what it is until `Send` returns (`SessionStrings` reads it through a reference).
-/

namespace Polly

open Runs

namespace Conn

variable {c : Conn} {o : Out} {msg : Bytes} {left : List EventCallback} {r : ReadResult}
  {w : WriteResult}

/-- What the socket accepted, followed by what is buffered. -/
def outgoing (c : Conn) : Bytes := c.sock.accepted ++ c.sndBuffer.toList

@[simp] theorem shutdownInLoop_outgoing : c.shutdownInLoop.outgoing = c.outgoing := by
  unfold shutdownInLoop
  split_ifs <;> rfl

@[simp] theorem shutdown_outgoing : c.shutdown.outgoing = c.outgoing := by
  unfold shutdown
  split_ifs
  · exact shutdownInLoop_outgoing
  · rfl

@[simp] theorem handleWriteRest_outgoing : c.handleWriteRest.outgoing = c.outgoing := by
  unfold handleWriteRest
  split_ifs
  · exact shutdownInLoop_outgoing
  · rfl

/-- With an empty buffer, what the socket accepts comes next in the stream. -/
theorem accept_outgoing (h : c.sndBuffer.toList = []) (data : Bytes) :
    (c.accept data).outgoing = c.outgoing ++ data := by
  simp [outgoing, accept, h]

theorem drain_outgoing {n : ℕ} {snd : Buf} (h : c.sndBuffer.retrieve n = some snd) :
    (c.drain n snd).outgoing = c.outgoing := by
  obtain ⟨-, hsnd⟩ := Buf.retrieve_eq_some h
  change c.sock.accepted ++ c.sndBuffer.toList.take n ++ snd.toList = _
  rw [hsnd, List.append_assoc, List.take_append_drop]
  rfl

theorem sendRest_outgoing (n : ℕ) : (c.sendRest msg n).outgoing = c.outgoing ++ msg.drop n := by
  simp [outgoing]

theorem writesDirectly_iff :
    c.writesDirectly = true ↔ c.channel.isWritingEnabled = false ∧ c.sndBuffer.toList = [] := by
  simp [writesDirectly, Buf.readableBytes_eq_zero]

/-- What a function that invokes a callback owes: `sendInLoop` has written its whole message, and a
write-complete callback finds the buffer empty. -/
structure CallOk (o : Out) : Prop where
  sent : ∀ cb msg n, o.call = some (cb, .sendInLoop msg n) → msg.length ≤ n
  complete : ∀ rest, o.call = some (.writeComplete, rest) → o.conn.sndBuffer.toList = []

theorem callOk_of_none (h : o.call = none) : CallOk o where
  sent := fun cb msg n hcall => by rw [h] at hcall; cases hcall
  complete := fun rest hcall => by rw [h] at hcall; cases hcall

/-- **One `sendInLoop`** adds its message to the stream, or nothing after a hard error. -/
theorem sendInLoop_outgoing (h : c.sendInLoop msg w = some o) :
    o.conn.outgoing = c.outgoing ++ (if c.writesDirectly && w == .error then [] else msg) ∧
      CallOk o := by
  rcases sendInLoop_cases h with ⟨hd, rfl⟩ | ⟨hd, hw⟩
  · refine ⟨?_, callOk_of_none rfl⟩
    simpa [hd] using sendRest_outgoing 0
  obtain ⟨-, hempty⟩ := writesDirectly_iff.mp hd
  rcases hw with ⟨rfl, rfl⟩ | ⟨rfl, rfl⟩ | ⟨n, rfl, hn, rfl⟩ | ⟨rfl, hconn, hcall⟩
  · exact ⟨by simp [hd, ends], callOk_of_none rfl⟩
  · refine ⟨?_, callOk_of_none rfl⟩
    simpa [hd] using sendRest_outgoing 0
  · refine ⟨?_, callOk_of_none rfl⟩
    change ((c.accept (msg.take n)).sendRest msg n).outgoing = _
    rw [sendRest_outgoing, accept_outgoing hempty, List.append_assoc, List.take_append_drop]
    simp
  · refine ⟨by rw [hconn, accept_outgoing hempty]; simp, ?_⟩
    split_ifs at hcall
    · refine ⟨fun cb m n h => ?_, fun rest _ => by rw [hconn]; exact hempty⟩
      rw [hcall] at h
      cases h
      exact le_rfl
    · exact callOk_of_none hcall

theorem handleWrite_outgoing (h : c.handleWrite left w = some o) :
    o.conn.outgoing = c.outgoing ∧ CallOk o := by
  rcases handleWrite_cases h with rfl | ⟨-, n, snd, -, -, hsnd, hleft⟩
  · exact ⟨rfl, callOk_of_none rfl⟩
  have hdrain := drain_outgoing hsnd
  rcases hleft with ⟨-, rfl⟩ | ⟨hnil, ⟨-, rfl⟩ | ⟨-, rfl⟩⟩
  · exact ⟨hdrain, callOk_of_none rfl⟩
  · refine ⟨hdrain, fun cb m n h => ?_, fun rest _ => hnil⟩
    cases h
  · exact ⟨handleWriteRest_outgoing.trans hdrain, callOk_of_none rfl⟩

theorem handleClose_outgoing (h : c.handleClose left = some o) :
    o.conn.outgoing = c.outgoing ∧ CallOk o := by
  obtain ⟨-, hconn, hcall⟩ := handleClose_cases h
  refine ⟨by rw [hconn]; rfl, ?_⟩
  rcases hcall with hcall | hcall
  · exact callOk_of_none hcall
  · refine ⟨fun cb m n h => ?_, fun rest h => ?_⟩ <;> rw [hcall] at h <;> cases h

theorem handleRead_outgoing (h : c.handleRead left r = some o) :
    o.conn.outgoing = c.outgoing ∧ CallOk o := by
  rcases handleRead_cases h with rfl | ⟨n, -, -, hconn, hcall⟩ | ⟨-, -, -, hclose⟩
  · exact ⟨rfl, callOk_of_none rfl⟩
  · refine ⟨by rw [hconn]; rfl, ?_⟩
    split_ifs at hcall
    · refine ⟨fun cb m n h => ?_, fun rest h => ?_⟩ <;> rw [hcall] at h <;> cases h
    · exact callOk_of_none hcall
  · exact handleClose_outgoing (c := c.received 0) hclose

theorem runEvents_outgoing {evs : List EventCallback} (h : c.runEvents r w evs = some o) :
    o.conn.outgoing = c.outgoing ∧ CallOk o := by
  refine runEvents_rule (K := fun o => o.conn.outgoing = c.outgoing ∧ CallOk o) ?_ ?_ ?_ evs c
    (List.suffix_refl evs) ⟨rfl, callOk_of_none rfl⟩ h
  · intro c₁ left o₁ _ hK h₁
    exact ⟨(handleClose_outgoing h₁).1.trans hK.1, (handleClose_outgoing h₁).2⟩
  · intro c₁ left o₁ _ hK h₁
    exact ⟨(handleRead_outgoing h₁).1.trans hK.1, (handleRead_outgoing h₁).2⟩
  · intro c₁ left o₁ _ hK h₁
    exact ⟨(handleWrite_outgoing h₁).1.trans hK.1, (handleWrite_outgoing h₁).2⟩

/-- When a callback returns, the rest of the function it interrupted leaves the stream alone. -/
theorem resume_outgoing {rest : Rest} (hrest : ∀ msg n, rest = .sendInLoop msg n → msg.length ≤ n)
    (h : c.resume r w rest = some o) : o.conn.outgoing = c.outgoing ∧ CallOk o := by
  cases rest with
  | done => cases h; exact ⟨rfl, callOk_of_none rfl⟩
  | sendInLoop msg n =>
    cases h
    refine ⟨?_, callOk_of_none rfl⟩
    change (c.sendRest msg n).outgoing = _
    rw [sendRest_outgoing, List.drop_eq_nil_of_le (hrest msg n rfl), List.append_nil]
  | handleWrite left =>
    obtain ⟨hout, hcall⟩ := runEvents_outgoing h
    exact ⟨hout.trans handleWriteRest_outgoing, hcall⟩
  | event left => exact runEvents_outgoing h

end Conn

namespace Session

open Conn

/-- The messages so far, in order, and the callbacks under way left nothing to append. -/
structure SendInv (s : Session) : Prop where
  stream : s.conn.outgoing = payload s.log
  returns : ∀ cb msg n, (cb, .sendInLoop msg n) ∈ s.stack → msg.length ≤ n

/-- If this step invokes the write-complete callback, it does so with an empty buffer. -/
def CompletesEmpty (s s' : Session) : Prop :=
  s'.calls = s.calls ++ [.writeComplete] → s'.conn.sndBuffer.toList = []

theorem completesEmpty_of_calls {s s' : Session} (h : s'.calls = s.calls) :
    CompletesEmpty s s' := by
  intro h'
  rw [h] at h'
  simp at h'

theorem payload_append (log : List SendRec) (r : SendRec) :
    payload (log ++ [r]) = payload log ++ if r.dropped then [] else r.msg := by
  cases h : r.dropped <;> simp [payload, h]

theorem after_sendInv {s : Session} {o : Out} (hout : o.conn.outgoing = payload s.log)
    (hret : ∀ cb msg n, (cb, .sendInLoop msg n) ∈ s.stack → msg.length ≤ n) (hcall : CallOk o) :
    SendInv (s.after o) ∧ CompletesEmpty s (s.after o) := by
  refine ⟨⟨by simpa using hout, fun cb msg n hmem => ?_⟩, fun hcalls => ?_⟩
  · rcases mem_after_stack s o hmem with hmem | hnew
    · exact hret cb msg n hmem
    · exact hcall.sent cb msg n hnew
  · obtain ⟨rest, hrest⟩ := after_calls s o hcalls
    rw [after_conn]
    exact hcall.complete rest hrest

theorem start_sendInv (fd : ℤ) (isSet : CallbacksSet) : SendInv (start fd isSet) := by
  refine (after_sendInv ?_ (by simp) ⟨?_, ?_⟩).1
  · rw [connectEstablished_conn]
    simp [outgoing, new, payload, enableReading, updateChannel]
  · intro cb msg n h
    rw [connectEstablished_call] at h
    split_ifs at h
    cases h
  · intro rest h
    rw [connectEstablished_call] at h
    split_ifs at h
    cases h

theorem send_sendInv {s s' : Session} {queued : Bool} {msg : Bytes} {w : WriteResult}
    (hI : SendInv s) (h : s.send queued msg w = some s') : SendInv s' ∧ CompletesEmpty s s' := by
  obtain ⟨o, ho, rfl⟩ := Option.map_eq_some_iff.mp h
  obtain ⟨hout, hcall⟩ := sendInLoop_outgoing ho
  refine after_sendInv ?_ hI.returns hcall
  rw [hout, hI.stream, payload_append]

/-- **One step** keeps the stream and completes only with an empty buffer. -/
theorem step_sendInv {s s' : Session} {a : Act} (hI : SendInv s) (h : step s a = some s') :
    SendInv s' ∧ CompletesEmpty s s' := by
  cases a with
  | send msg w => exact send_sendInv hI h
  | shutdown =>
    cases h
    exact ⟨⟨by simpa using hI.stream, hI.returns⟩, completesEmpty_of_calls rfl⟩
  | retrieve len =>
    obtain ⟨b, -, rfl⟩ := Option.map_eq_some_iff.mp h
    exact ⟨⟨hI.stream, hI.returns⟩, completesEmpty_of_calls rfl⟩
  | ret r w =>
    obtain ⟨cb, rest, stack, o, hstack, ho, rfl⟩ := step_ret h
    have hret := hI.returns
    rw [hstack] at hret
    obtain ⟨hout, hcall⟩ :=
      resume_outgoing (fun msg n hr => hret cb msg n (by rw [hr]; exact List.mem_cons_self)) ho
    exact after_sendInv (hout.trans hI.stream)
      (fun cb msg n hmem => hret cb msg n (List.mem_cons_of_mem _ hmem)) hcall
  | dispatch revents r w =>
    obtain ⟨o, ho, rfl⟩ := step_dispatch h
    obtain ⟨hout, hcall⟩ := runEvents_outgoing ho
    exact after_sendInv (hout.trans hI.stream) hI.returns hcall
  | arrive data =>
    obtain rfl := step_arrive h
    exact ⟨⟨hI.stream, hI.returns⟩, completesEmpty_of_calls rfl⟩
  | peerClose =>
    cases h
    exact ⟨⟨hI.stream, hI.returns⟩, completesEmpty_of_calls rfl⟩

theorem Reachable.sendInv {s : Session} (h : Reachable s) : SendInv s := by
  refine h.inv ?_ fun _ _ _ hI hs => (step_sendInv hI hs).1
  rintro s ⟨fd, isSet, rfl⟩
  exact start_sendInv fd isSet

end Session

end Polly
