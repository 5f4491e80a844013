import Polly.SessionSend
import Polly.SessionInterest

/-!
# SessionShutdown — shutting down after the flush

`ShutdownWrite` is called from `Shutdown()` and again from the end of `HandleWrite`, in both cases
only with writing disabled.  The socket's flag does not show a second call, so `shutsWrite` asks
what a step does from the same state with the write end still open; no function looks at the flag
(`step_openEnd`), so this is the same step.

Between a `HandleWrite` that has emptied the buffer and its end the write-complete callback runs.
Its frame on the stack stands for the shutdown still to come (`DeferInv`).

* `shutdown_after_flush`: not too early and not forgotten.
-/

namespace Polly

open Runs

namespace Conn

/-- The connection with its write end open. -/
def openEnd (c : Conn) : Conn := { c with sock := { c.sock with writeShut := false } }

end Conn

def Out.openEnd (o : Out) : Out := ⟨o.conn.openEnd, o.call⟩

namespace Session

def openEnd (s : Session) : Session := { s with conn := s.conn.openEnd }

/-- The step calls `ShutdownWrite`. -/
def shutsWrite (s : Session) (a : Act) : Bool :=
  (step s.openEnd a).any fun s' => s'.conn.sock.writeShut

end Session

/-! ### No function looks at the flag -/

namespace Conn

variable {c c' c'' : Conn} {o : Out} {msg : Bytes} {left : List EventCallback} {r : ReadResult}
  {w : WriteResult}

theorem sendRest_openEnd (n : ℕ) : c.openEnd.sendRest msg n = (c.sendRest msg n).openEnd := by
  unfold sendRest
  by_cases hn : n < msg.length
  · cases hw : c.channel.isWritingEnabled with
    | true => simp [hn, hw, openEnd]
    | false => simp [hn, hw, openEnd, enableWriting, updateChannel]
  · simp [hn]

theorem write_openEnd (data : Bytes) : c.openEnd.sock.write data w =
    (c.sock.write data w).map fun sock => { sock with writeShut := false } := by
  cases w with
  | wrote n => by_cases hn : n ≤ data.length <;> simp [Sock.write, openEnd, hn]
  | wouldBlock => rfl
  | error => rfl

theorem readv_openEnd (room : ℕ) : c.openEnd.sock.readv room r =
    (c.sock.readv room r).map fun p => ({ p.1 with writeShut := false }, p.2) := by
  cases r with
  | got n =>
    simp only [Sock.readv]
    by_cases hn : n ≤ room ∧ n ≤ c.sock.queue.length ∧ (n = 0 → c.sock.queue = [] ∧
        c.sock.peerClosed)
    · rw [if_pos hn]
      exact if_pos hn
    · rw [if_neg hn]
      exact if_neg hn
  | error errno => rfl

theorem sendInLoop_openEnd :
    c.openEnd.sendInLoop msg w = (c.sendInLoop msg w).map Out.openEnd := by
  have hrest : ∀ (c₁ : Conn) (n : ℕ),
      (c₁.openEnd.sendRest msg n).ends = (c₁.sendRest msg n).ends.openEnd := fun c₁ n => by
    rw [sendRest_openEnd]
    rfl
  unfold sendInLoop
  rw [write_openEnd, show c.openEnd.writesDirectly = c.writesDirectly from rfl]
  by_cases hd : c.writesDirectly
  · rw [if_pos hd, if_pos hd, Option.map_map, Option.map_map]
    refine congrArg (Option.map · _) (funext fun sock => ?_)
    cases w with
    | wrote n =>
      by_cases hlt : n < msg.length
      · simp only [Function.comp_apply, if_pos hlt]
        exact hrest { c with sock := sock } n
      · by_cases hset : c.isSet.writeComplete
        · simp [hlt, hset, openEnd, Out.openEnd]
        · simp only [Function.comp_apply, if_neg hlt, if_neg hset,
            if_neg (show ¬c.openEnd.isSet.writeComplete = true from hset)]
          exact hrest { c with sock := sock } n
    | wouldBlock => exact hrest { c with sock := sock } 0
    | error => rfl
  · rw [if_neg hd, if_neg hd]
    exact congrArg some (hrest c 0)

theorem shutdownInLoop_openEnd : c.openEnd.shutdownInLoop.openEnd = c.shutdownInLoop.openEnd := by
  cases hw : c.channel.isWritingEnabled <;> simp [shutdownInLoop, openEnd, hw]

theorem shutdown_openEnd : c.openEnd.shutdown.openEnd = c.shutdown.openEnd := by
  unfold shutdown
  by_cases hs : c.state = .kConnected
  · rw [if_pos hs, if_pos (show c.openEnd.state = _ from hs)]
    exact shutdownInLoop_openEnd (c := { c with state := .kDisconnecting })
  · rw [if_neg hs, if_neg (show ¬c.openEnd.state = _ from hs)]
    rfl

theorem handleWriteRest_openEnd :
    c.openEnd.handleWriteRest.openEnd = c.handleWriteRest.openEnd := by
  unfold handleWriteRest
  by_cases hs : c.state = .kDisconnecting
  · rw [if_pos hs, if_pos (show c.openEnd.state = _ from hs)]
    exact shutdownInLoop_openEnd
  · rw [if_neg hs, if_neg (show ¬c.openEnd.state = _ from hs)]
    rfl

theorem handleWrite_openEnd : (c.openEnd.handleWrite left w).map Out.openEnd =
    (c.handleWrite left w).map Out.openEnd := by
  unfold handleWrite
  rw [show c.openEnd.channel = c.channel from rfl, show c.openEnd.sndBuffer = c.sndBuffer from rfl,
    write_openEnd]
  by_cases he : c.channel.isWritingEnabled
  · rw [if_pos he, if_pos he]
    cases c.sock.write c.sndBuffer.toList w with
    | none => rfl
    | some sock =>
      cases w with
      | error => rfl
      | wouldBlock => rfl
      | wrote n =>
        simp only [Option.map_some, Option.bind_some]
        by_cases h0 : 0 < n
        · rw [if_pos h0, if_pos h0]
          cases c.sndBuffer.retrieve n with
          | none => rfl
          | some snd =>
            by_cases hz : snd.readableBytes = 0
            · by_cases hset : c.isSet.writeComplete
              · simp [hz, hset, openEnd, Out.openEnd, disableWriting, updateChannel]
              · have hset' : ¬c.openEnd.isSet.writeComplete = true := hset
                simp only [Option.map_some, hz, if_true, disableWriting, updateChannel, hset, hset',
                  if_false, Bool.false_eq_true]
                have hrest := handleWriteRest_openEnd
                  (c := { c with sock := sock, sndBuffer := snd }.disableWriting)
                exact congrArg (fun c => some (Out.mk c none)) hrest
            · simp [hz, openEnd, Out.openEnd, ends]
        · rw [if_neg h0, if_neg h0]
          rfl
  · rw [if_neg he, if_neg he]
    rfl

theorem handleClose_openEnd :
    c.openEnd.handleClose left = (c.handleClose left).map Out.openEnd := by
  unfold handleClose
  by_cases hs : c.state = .kConnected ∨ c.state = .kDisconnecting
  · rw [if_pos hs, if_pos (show c.openEnd.state = _ ∨ c.openEnd.state = _ from hs)]
    change (if c.closed.isSet.close then some (c.closed.openEnd.connectDestroyed left)
      else some c.closed.openEnd.ends) = Option.map _ (if c.closed.isSet.close then
        some (c.closed.connectDestroyed left) else some c.closed.ends)
    rw [connectDestroyed_of_disconnected (c := c.closed) rfl,
      connectDestroyed_of_disconnected (c := c.closed.openEnd) rfl,
      show c.closed.openEnd.isSet = c.closed.isSet from rfl]
    split_ifs <;> rfl
  · rw [if_neg hs, if_neg (show ¬(c.openEnd.state = _ ∨ c.openEnd.state = _) from hs)]
    rfl

theorem handleRead_openEnd :
    c.openEnd.handleRead left r = (c.handleRead left r).map Out.openEnd := by
  unfold handleRead
  rw [show c.openEnd.revBuffer = c.revBuffer from rfl, readv_openEnd]
  cases c.sock.readv c.revBuffer.raw.offered r with
  | none => rfl
  | some p =>
    obtain ⟨sock, errno | data⟩ := p
    · rfl
    · simp only [Option.map_some, Option.bind_some]
      by_cases h0 : 0 < data.length
      · rw [if_pos h0, if_pos h0, show c.openEnd.isSet = c.isSet from rfl]
        split_ifs <;> rfl
      · rw [if_neg h0, if_neg h0]
        exact handleClose_openEnd
          (c := { c with sock := sock, revBuffer := c.revBuffer.readBytes data })

/-- How `runEvents` goes on behind one callback. -/
def Out.goOn (r : ReadResult) (w : WriteResult) (left : List EventCallback) (o : Out) :
    Option Out :=
  match o.call with
  | some _ => some o
  | none => o.conn.runEvents r w left

theorem runEvents_openEnd (evs : List EventCallback) (c : Conn) :
    (c.openEnd.runEvents r w evs).map Out.openEnd = (c.runEvents r w evs).map Out.openEnd := by
  induction evs generalizing c with
  | nil => rfl
  | cons e left ih =>
    -- one callback, then the others by induction, from connections that differ in the flag only
    have hcont : ∀ x y : Option Out, x.map Out.openEnd = y.map Out.openEnd →
        (x.bind (Out.goOn r w left)).map Out.openEnd =
          (y.bind (Out.goOn r w left)).map Out.openEnd := by
      intro x y hxy
      obtain _ | ⟨c₁, call₁⟩ := x
      · rw [Option.map_eq_none_iff.mp hxy.symm]
      · obtain _ | ⟨c₂, call₂⟩ := y
        · cases hxy
        · obtain ⟨hconn, rfl⟩ : c₁.openEnd = c₂.openEnd ∧ call₁ = call₂ := by
            simpa [Out.openEnd] using hxy
          cases call₁ with
          | some cb => exact congrArg (fun c => some (Out.mk c (some cb))) hconn
          | none =>
            change (c₁.runEvents r w left).map _ = (c₂.runEvents r w left).map _
            rw [← ih c₁, ← ih c₂, hconn]
    cases e with
    | close =>
      refine hcont (c.openEnd.handleClose left) (c.handleClose left) ?_
      rw [handleClose_openEnd, Option.map_map]
      rfl
    | error => exact hcont (some c.openEnd.ends) (some c.ends) rfl
    | read =>
      refine hcont (c.openEnd.handleRead left r) (c.handleRead left r) ?_
      rw [handleRead_openEnd, Option.map_map]
      rfl
    | write => exact hcont _ _ handleWrite_openEnd

theorem resume_openEnd (rest : Rest) :
    (c.openEnd.resume r w rest).map Out.openEnd = (c.resume r w rest).map Out.openEnd := by
  cases rest with
  | done => rfl
  | sendInLoop msg n =>
    change some (Out.openEnd (c.openEnd.sendRest msg n).ends) = _
    rw [sendRest_openEnd]
    rfl
  | handleWrite left =>
    change (c.openEnd.handleWriteRest.runEvents r w left).map _ =
      (c.handleWriteRest.runEvents r w left).map _
    rw [← runEvents_openEnd, handleWriteRest_openEnd, runEvents_openEnd]
  | event left => exact runEvents_openEnd left c

/-! ### Not too early -/

/-- What everything but `sendInLoop` does to the end of the stream: the write end is not opened
again, an empty buffer stays empty, and the write end is only shut with an empty buffer. -/
structure ShutsEmpty (c c' : Conn) : Prop where
  stays : c.sock.writeShut = true → c'.sock.writeShut = true
  empty : c.sndBuffer.toList = [] → c'.sndBuffer.toList = []
  shut : c'.sock.writeShut = true → c.sock.writeShut = true ∨ c'.sndBuffer.toList = []

theorem ShutsEmpty.of_eq (hs : c'.sock.writeShut = c.sock.writeShut)
    (hb : c'.sndBuffer = c.sndBuffer) : ShutsEmpty c c' where
  stays := fun h => hs.trans h
  empty := fun h => by rw [hb]; exact h
  shut := fun h => Or.inl (hs ▸ h)

theorem ShutsEmpty.trans (h₁ : ShutsEmpty c c') (h₂ : ShutsEmpty c' c'') : ShutsEmpty c c'' where
  stays := fun h => h₂.stays (h₁.stays h)
  empty := fun h => h₂.empty (h₁.empty h)
  shut := fun h => by
    rcases h₂.shut h with h | h
    · exact (h₁.shut h).imp_right h₂.empty
    · exact Or.inr h

theorem shutdownInLoop_shutsEmpty (hf : Flushing c) : ShutsEmpty c c.shutdownInLoop where
  stays := shutdownInLoop_writeShut
  empty := fun h => by rw [shutdownInLoop_sndBuffer]; exact h
  shut := fun h => by
    rw [shutdownInLoop_sndBuffer]
    exact (shutdownInLoop_shut h).imp_right hf.nil

theorem shutdown_shutsEmpty (hI : OpenInterested c) : ShutsEmpty c c.shutdown := by
  unfold shutdown
  split_ifs with hs
  · have hf : Flushing { c with state := .kDisconnecting } :=
      (hI (by rw [hs]; decide)).flushing
    have h := shutdownInLoop_shutsEmpty hf
    exact ⟨h.stays, h.empty, h.shut⟩
  · exact .of_eq rfl rfl

theorem handleWriteRest_shutsEmpty (hI : OpenInterested c) : ShutsEmpty c c.handleWriteRest := by
  unfold handleWriteRest
  split_ifs with hs
  · exact shutdownInLoop_shutsEmpty (hI (by rw [hs]; decide)).flushing
  · exact .of_eq rfl rfl

theorem handleWriteRest_sndBuffer : c.handleWriteRest.sndBuffer = c.sndBuffer := by
  unfold handleWriteRest
  split_ifs
  · exact shutdownInLoop_sndBuffer
  · rfl

theorem handleWrite_shutsEmpty (h : c.handleWrite left w = some o) : ShutsEmpty c o.conn := by
  rcases handleWrite_cases h with rfl | ⟨-, n, snd, -, -, hsnd, hleft⟩
  · exact .of_eq rfl rfl
  rcases hleft with ⟨-, rfl⟩ | ⟨hnil, ⟨-, rfl⟩ | ⟨-, rfl⟩⟩
  · refine ⟨id, fun hempty => ?_, Or.inl⟩
    change snd.toList = []
    rw [(Buf.retrieve_eq_some hsnd).2, hempty, List.drop_nil]
  · exact ⟨id, fun _ => hnil, Or.inl⟩
  · have hempty : (c.drain n snd).disableWriting.handleWriteRest.sndBuffer.toList = [] := by
      rw [handleWriteRest_sndBuffer]
      exact hnil
    exact ⟨handleWriteRest_writeShut (c := (c.drain n snd).disableWriting), fun _ => hempty,
      fun _ => Or.inr hempty⟩

theorem handleClose_shutsEmpty (h : c.handleClose left = some o) : ShutsEmpty c o.conn := by
  obtain ⟨-, hconn, -⟩ := handleClose_cases h
  rw [hconn]
  exact .of_eq rfl rfl

theorem handleRead_shutsEmpty (h : c.handleRead left r = some o) : ShutsEmpty c o.conn := by
  rcases handleRead_cases h with rfl | ⟨n, -, -, hconn, -⟩ | ⟨-, -, -, hclose⟩
  · exact .of_eq rfl rfl
  · rw [hconn]
    exact .of_eq rfl rfl
  · have hread : ShutsEmpty c (c.received 0) := .of_eq rfl rfl
    exact hread.trans (handleClose_shutsEmpty hclose)

theorem runEvents_shutsEmpty {evs : List EventCallback} (h : c.runEvents r w evs = some o) :
    ShutsEmpty c o.conn := by
  refine runEvents_rule (K := fun o => ShutsEmpty c o.conn) ?_ ?_ ?_ evs c (List.suffix_refl evs)
    (.of_eq rfl rfl) h
  · exact fun c₁ left o₁ _ hK h₁ => hK.trans (handleClose_shutsEmpty h₁)
  · exact fun c₁ left o₁ _ hK h₁ => hK.trans (handleRead_shutsEmpty h₁)
  · exact fun c₁ left o₁ _ hK h₁ => hK.trans (handleWrite_shutsEmpty h₁)

/-- When a callback returns inside `sendInLoop`, the flag stays as it is; elsewhere nothing new is
buffered. -/
theorem resume_shutsEmpty {rest : Rest} (hI : OpenInterested c) (h : c.resume r w rest = some o) :
    o.conn.sock.writeShut = c.sock.writeShut ∨ ShutsEmpty c o.conn := by
  cases rest with
  | done => cases h; exact Or.inl rfl
  | sendInLoop msg n => cases h; exact Or.inl (by simp)
  | handleWrite left =>
    exact Or.inr ((handleWriteRest_shutsEmpty hI).trans (runEvents_shutsEmpty h))
  | event left => exact Or.inr (runEvents_shutsEmpty h)

/-! ### Not forgotten -/

/-- A connection being shut down is shut, or has data to flush, or is inside the write-complete
callback of `HandleWrite`. -/
def Deferred (o : Out) : Prop :=
  o.conn.state = .kDisconnecting → o.conn.sock.writeShut = true ∨ o.conn.sndBuffer.toList ≠ [] ∨
    ∃ cb left, o.call = some (cb, .handleWrite left)

theorem Deferred.of_ends (h : Deferred c.ends) (hstate : c.state = .kDisconnecting) :
    c.sock.writeShut = true ∨ c.sndBuffer.toList ≠ [] := by
  rcases h hstate with hshut | hne | ⟨cb, left, hcall⟩
  · exact Or.inl hshut
  · exact Or.inr hne
  · cases hcall

theorem shutdownInLoop_deferred (hI : Interested c) : Deferred c.shutdownInLoop.ends := by
  intro _
  rw [ends_conn, shutdownInLoop_sndBuffer]
  cases hw : c.channel.isWritingEnabled with
  | true => exact Or.inr (Or.inl (hI.isWritingEnabled.mp hw))
  | false => exact Or.inl (by simp [shutdownInLoop, hw])

theorem handleWriteRest_deferred (hI : OpenInterested c) : Deferred c.handleWriteRest.ends := by
  unfold handleWriteRest
  split_ifs with hs
  · exact shutdownInLoop_deferred (hI (by rw [hs]; decide))
  · exact fun hstate => absurd hstate hs

theorem sendInLoop_deferred (h : c.sendInLoop msg w = some o) (hD : Deferred c.ends) :
    Deferred o := by
  intro hstate
  rw [(sendInLoop_keepsIn h).state] at hstate
  rw [sendInLoop_writeShut h]
  refine (hD.of_ends hstate).imp_right fun hne => Or.inl ?_
  rcases sendInLoop_cases h with
    ⟨-, rfl⟩ | ⟨-, ⟨-, rfl⟩ | ⟨-, rfl⟩ | ⟨n, -, -, rfl⟩ | ⟨-, hconn, -⟩⟩
  · simp [hne]
  · exact hne
  · simp [hne]
  · simp [accept, hne]
  · rw [hconn]
    exact hne

theorem handleWrite_deferred (h : c.handleWrite left w = some o) (hI : OpenInterested c)
    (hD : Deferred c.ends) : Deferred o := by
  rcases handleWrite_cases h with rfl | ⟨he, n, snd, -, -, hsnd, hleft⟩
  · exact hD
  rcases hleft with ⟨hne, rfl⟩ | ⟨hnil, ⟨-, rfl⟩ | ⟨hset, rfl⟩⟩
  · exact fun _ => Or.inr (Or.inl hne)
  · exact fun _ => Or.inr (Or.inr ⟨_, left, rfl⟩)
  · exact handleWriteRest_deferred fun hopen => (hI hopen).drained he hnil

theorem handleRead_deferred (h : c.handleRead left r = some o) (hD : Deferred c.ends) :
    Deferred o := by
  intro hstate
  have hopen : o.conn.state ≠ .kDisconnected := by rw [hstate]; decide
  obtain ⟨hkeeps, -⟩ := (handleRead_keepsOut h).resolve_left hopen
  rw [hkeeps.state] at hstate
  rw [hkeeps.writeShut, hkeeps.sndBuffer]
  exact (hD.of_ends hstate).imp_right Or.inl

theorem runEvents_deferred {evs : List EventCallback} (h : c.runEvents r w evs = some o)
    (hI : OpenInterested c) (hD : Deferred c.ends) : Deferred o := by
  refine (runEvents_rule (K := fun o => OpenInterested o.conn ∧ Deferred o) ?_ ?_ ?_ evs c
    (List.suffix_refl evs) ⟨hI, hD⟩ h).2
  · intro c₁ left o₁ _ _ h₁
    refine ⟨handleClose_openInterested h₁, fun hstate => ?_⟩
    obtain ⟨-, hconn, -⟩ := handleClose_cases h₁
    rw [hconn] at hstate
    cases hstate
  · exact fun c₁ left o₁ _ hK h₁ =>
      ⟨handleRead_openInterested h₁ hK.1, handleRead_deferred h₁ hK.2⟩
  · exact fun c₁ left o₁ _ hK h₁ =>
      ⟨handleWrite_openInterested h₁ hK.1, handleWrite_deferred h₁ hK.1 hK.2⟩

end Conn

namespace Session

open Conn

theorem after_openEnd (s : Session) (o : Out) :
    (s.after o).openEnd = s.openEnd.after o.openEnd := by
  obtain ⟨c, call⟩ := o
  cases call <;> rfl

/-- No step looks at the flag. -/
theorem step_openEnd (s : Session) (a : Act) :
    (step s.openEnd a).map openEnd = (step s a).map openEnd := by
  have hafter : ∀ (s : Session) (x y : Option Out), x.map Out.openEnd = y.map Out.openEnd →
      (x.map s.openEnd.after).map openEnd = (y.map s.after).map openEnd := by
    intro s x y hxy
    rw [Option.map_map, Option.map_map]
    have hcomp : openEnd ∘ s.openEnd.after = s.openEnd.after ∘ Out.openEnd :=
      funext fun o => after_openEnd s.openEnd o
    have hcomp' : openEnd ∘ s.after = s.openEnd.after ∘ Out.openEnd :=
      funext fun o => after_openEnd s o
    rw [hcomp, hcomp', ← Option.map_map, ← Option.map_map, hxy]
  cases a with
  | send msg w =>
    refine hafter { s with log := s.log ++ [⟨msg, false, s.conn.writesDirectly && w == .error⟩] }
      (s.conn.openEnd.sendInLoop msg w) (s.conn.sendInLoop msg w) ?_
    rw [sendInLoop_openEnd, Option.map_map]
    rfl
  | shutdown => exact congrArg (fun c => some { s with conn := c }) shutdown_openEnd
  | retrieve len =>
    change ((s.conn.revBuffer.retrieve len).map _).map _ =
      ((s.conn.revBuffer.retrieve len).map _).map _
    rw [Option.map_map, Option.map_map]
    rfl
  | ret r w =>
    simp only [step]
    rw [show s.openEnd.stack = s.stack from rfl]
    split
    · rfl
    · rename_i cb rest stack hstack
      exact hafter { s with stack := stack } _ _ (resume_openEnd rest)
  | dispatch revents r w =>
    simp only [step]
    rw [show s.openEnd.stack = s.stack from rfl]
    split_ifs
    · exact hafter s _ _ (runEvents_openEnd _
        { s.conn with channel := { s.conn.channel with revents := revents } })
    · rfl
  | arrive data =>
    simp only [step]
    rw [show s.openEnd.conn.sock.peerClosed = s.conn.sock.peerClosed from rfl]
    split_ifs <;> rfl
  | peerClose => rfl

/-- **One step** does not open the write end, and shuts it only with an empty buffer. -/
theorem step_shutsEmpty {s s' : Session} {a : Act} (hI : OpenInterested s.conn)
    (h : step s a = some s') :
    (s.conn.sock.writeShut = true → s'.conn.sock.writeShut = true) ∧
      (s'.conn.sock.writeShut = true → s.conn.sock.writeShut = true ∨
        s'.conn.sndBuffer.toList = []) := by
  have hsame : s'.conn.sock.writeShut = s.conn.sock.writeShut ∨ ShutsEmpty s.conn s'.conn := by
    rcases step_conn h with ⟨msg, w, o, -, ho, hconn⟩ | hconn |
      ⟨r, w, cb, rest, o, -, ho, hconn⟩ | ⟨revents, r, w, o, ho, hconn⟩ | ⟨hkeeps, -⟩
    · rw [hconn]
      exact Or.inl (sendInLoop_writeShut ho)
    · rw [hconn]
      exact Or.inr (shutdown_shutsEmpty hI)
    · rw [hconn]
      exact resume_shutsEmpty hI ho
    · rw [hconn]
      have hevents := runEvents_shutsEmpty ho
      exact Or.inr ⟨hevents.stays, hevents.empty, hevents.shut⟩
    · exact Or.inl hkeeps.writeShut
  rcases hsame with hsame | hshuts
  · rw [hsame]
    exact ⟨id, Or.inl⟩
  · exact ⟨hshuts.stays, hshuts.shut⟩

/-- `shutsWrite` is what becomes of the flag. -/
theorem step_writeShut {s s' : Session} {a : Act} (hI : OpenInterested s.conn)
    (h : step s a = some s') :
    s'.conn.sock.writeShut = (s.conn.sock.writeShut || s.shutsWrite a) := by
  cases hs : s.conn.sock.writeShut with
  | true => exact (step_shutsEmpty hI h).1 hs
  | false =>
    have hopen : s.openEnd = s := by
      obtain ⟨⟨state, channel, rev, snd, isSet, ⟨accepted, shut, queue, closed⟩, updates⟩, stack,
        log, calls, stream, taken, announced⟩ := s
      obtain rfl : shut = false := hs
      rfl
    simp [shutsWrite, hopen, h]

/-- A connection being shut down is shut, or has data to flush, or a `HandleWrite` is under way that
has flushed it. -/
def DeferInv (s : Session) : Prop :=
  s.conn.state = .kDisconnecting → s.conn.sock.writeShut = true ∨ s.conn.sndBuffer.toList ≠ [] ∨
    ∃ cb left, (cb, .handleWrite left) ∈ s.stack

theorem DeferInv.cases {s : Session} (h : DeferInv s) :
    Deferred s.conn.ends ∨ ∃ cb left, (cb, .handleWrite left) ∈ s.stack := by
  by_cases hframe : ∃ cb left, (cb, .handleWrite left) ∈ s.stack
  · exact Or.inr hframe
  · refine Or.inl fun hstate => ?_
    rcases h hstate with hshut | hne | hmem
    · exact Or.inl hshut
    · exact Or.inr (Or.inl hne)
    · exact absurd hmem hframe

theorem mem_after_of_stack {s : Session} {o : Out} {x : Callback × Rest}
    (h : x ∈ s.stack ∨ o.call = some x) : x ∈ (s.after o).stack := by
  unfold after
  split
  · rename_i hcall
    rcases h with h | h
    · exact h
    · rw [hcall] at h
      cases h
  · rename_i cb rest hcall
    rcases h with h | h
    · exact List.mem_cons_of_mem _ h
    · rw [hcall] at h
      cases h
      exact List.mem_cons_self

theorem after_deferInv {s : Session} {o : Out}
    (h : Deferred o ∨ ∃ cb left, (cb, .handleWrite left) ∈ s.stack) : DeferInv (s.after o) := by
  intro hstate
  rw [after_conn] at hstate ⊢
  rcases h with hD | ⟨cb, left, hmem⟩
  · rcases hD hstate with hshut | hne | ⟨cb, left, hcall⟩
    · exact Or.inl hshut
    · exact Or.inr (Or.inl hne)
    · exact Or.inr (Or.inr ⟨cb, left, mem_after_of_stack (Or.inr hcall)⟩)
  · exact Or.inr (Or.inr ⟨cb, left, mem_after_of_stack (Or.inl hmem)⟩)

/-- When a callback returns, the end of a `HandleWrite` takes the shutdown up, and any other frame
leaves it to those below. -/
theorem ret_deferInv {s s' : Session} {r : ReadResult} {w : WriteResult}
    (hO : OpenInterested s.conn) (hI : DeferInv s) (h : step s (.ret r w) = some s') :
    DeferInv s' := by
  obtain ⟨cb, rest, stack, o, hstack, ho, rfl⟩ := step_ret h
  have hbelow : (∀ left, rest ≠ .handleWrite left) → DeferInv { s with stack := stack } := by
    intro hrest hstate
    refine (hI hstate).imp_right (Or.imp_right ?_)
    rintro ⟨cb', left, hmem⟩
    rw [hstack] at hmem
    rcases List.mem_cons.mp hmem with heq | hmem
    · exact absurd (Prod.ext_iff.mp heq).2.symm (hrest left)
    · exact ⟨cb', left, hmem⟩
  cases rest with
  | done =>
    cases ho
    exact after_deferInv (s := { s with stack := stack }) (hbelow nofun).cases
  | sendInLoop msg n =>
    cases ho
    refine after_deferInv (s := { s with stack := stack }) ((hbelow nofun).cases.imp_left ?_)
    intro hD hstate
    rw [ends_conn, (sendRest_keepsIn n).state] at hstate
    rw [ends_conn, sendRest_sock, sendRest_sndBuffer]
    refine (hD.of_ends hstate).imp_right fun hne => Or.inl ?_
    exact fun hnil => hne (List.append_eq_nil_iff.mp hnil).1
  | handleWrite left =>
    have hO' : OpenInterested s.conn.handleWriteRest := fun hopen => by
      rw [handleWriteRest_keepsIn.state] at hopen
      exact handleWriteRest_interested (hO hopen)
    exact after_deferInv (Or.inl (runEvents_deferred ho hO' (handleWriteRest_deferred hO)))
  | event left =>
    refine after_deferInv (s := { s with stack := stack }) ((hbelow nofun).cases.imp_left ?_)
    exact runEvents_deferred ho hO

theorem step_deferInv {s s' : Session} {a : Act} (hO : OpenInterested s.conn) (hI : DeferInv s)
    (h : step s a = some s') : DeferInv s' := by
  cases a with
  | send msg w =>
    obtain ⟨o, ho, rfl⟩ := Option.map_eq_some_iff.mp h
    exact after_deferInv
      (s := { s with log := s.log ++ [⟨msg, false, s.conn.writesDirectly && w == .error⟩] })
      (hI.cases.imp_left (sendInLoop_deferred ho))
  | shutdown =>
    cases h
    intro hstate
    change s.conn.shutdown.state = .kDisconnecting at hstate
    change s.conn.shutdown.sock.writeShut = true ∨ s.conn.shutdown.sndBuffer.toList ≠ [] ∨ _
    unfold shutdown at hstate ⊢
    split_ifs at hstate ⊢ with hs
    · have hint : Interested { s.conn with state := .kDisconnecting } := hO (by rw [hs]; decide)
      exact ((shutdownInLoop_deferred hint).of_ends hstate).imp_right Or.inl
    · exact hI hstate
  | retrieve len =>
    obtain ⟨b, -, rfl⟩ := Option.map_eq_some_iff.mp h
    exact hI
  | ret r w => exact ret_deferInv hO hI h
  | dispatch revents r w =>
    obtain ⟨o, ho, rfl⟩ := step_dispatch h
    refine after_deferInv (hI.cases.imp_left fun hD => ?_)
    have hD' : Deferred
        { s.conn with channel := { s.conn.channel with revents := revents } }.ends := hD
    have hO' : OpenInterested
        { s.conn with channel := { s.conn.channel with revents := revents } } := hO
    exact runEvents_deferred ho hO' hD'
  | arrive data =>
    obtain rfl := step_arrive h
    exact hI
  | peerClose => cases h; exact hI

theorem Reachable.deferInv {s : Session} (h : Reachable s) : DeferInv s := by
  refine (h.inv (I := fun s => OpenInterested s.conn ∧ DeferInv s) ?_ ?_).2
  · rintro s ⟨fd, isSet, rfl⟩
    refine ⟨start_openInterested fd isSet, fun hstate => ?_⟩
    rw [start, after_conn, connectEstablished_conn] at hstate
    cases hstate
  · exact fun _ _ _ hI hs => ⟨step_openInterested hI.1 hs, step_deferInv hI.1 hI.2 hs⟩

/-- **Graceful shutdown after the flush.**  In every reachable state: a step that calls
`ShutdownWrite` ends with an empty `snd_buffer_` and with every byte of every message that was not
dropped accepted by the socket; and when no handler is on the stack, a connection in state
`kDisconnecting` has its write end shut, or it has data in `snd_buffer_` and waits for `POLLOUT`. -/
theorem shutdown_after_flush {s : Session} (h : Reachable s) :
    (∀ a s', step s a = some s' → s.shutsWrite a = true →
      s'.conn.sndBuffer.toList = [] ∧ s'.conn.sock.accepted = payload s'.log) ∧
    (s.stack = [] → s.conn.state = .kDisconnecting →
      s.conn.sock.writeShut = true ∨
        (0 < s.conn.sndBuffer.readableBytes ∧ hasBits s.conn.channel.events POLLOUT = true)) := by
  have hO := h.openInterested
  refine ⟨fun a s' hs hshuts => ?_, fun hstack hstate => ?_⟩
  · -- the same step from the open end
    obtain ⟨t, ht, hshut⟩ : ∃ t, step s.openEnd a = some t ∧ t.conn.sock.writeShut = true := by
      unfold shutsWrite at hshuts
      exact (Option.any_eq_true _ _).mp hshuts
    have hO' : OpenInterested s.openEnd.conn := hO
    have hnil := ((step_shutsEmpty hO' ht).2 hshut).resolve_left Bool.false_ne_true
    have heq : t.openEnd = s'.openEnd := by
      have hmap := step_openEnd s a
      rw [ht, hs] at hmap
      exact Option.some.inj hmap
    have hnil' : s'.conn.sndBuffer.toList = [] := by
      rw [show s'.conn.sndBuffer = t.conn.sndBuffer from
        (congrArg (fun s => s.conn.sndBuffer) heq).symm]
      exact hnil
    refine ⟨hnil', ?_⟩
    have hstream := (step_sendInv h.sendInv hs).1.stream
    rwa [outgoing, hnil', List.append_nil] at hstream
  · rcases h.deferInv hstate with hshut | hne | ⟨cb, left, hmem⟩
    · exact Or.inl hshut
    · have hint : Interested s.conn := hO (by rw [hstate]; decide)
      refine Or.inr ⟨?_, hint.isWritingEnabled.mpr hne⟩
      rw [Nat.pos_iff_ne_zero, Ne, Buf.readableBytes_eq_zero]
      exact hne
    · rw [hstack] at hmem
      exact absurd hmem List.not_mem_nil

/-- A shutdown with data pending, up to the write-complete callback of the flush. -/
def deferredShutdown : List Act :=
  [.ret (.got 0) .wouldBlock, .send [1, 2, 3] (.wrote 1), .shutdown,
    .dispatch POLLOUT (.got 0) (.wrote 2)]

theorem shutdown_after_flush_deferred :
    ∃ s s', run step (start 7 ⟨true, true, true, true⟩) deferredShutdown = some s ∧
      s.conn.sock.writeShut = false ∧ step s (.ret (.got 0) .wouldBlock) = some s' ∧
      payload s'.log = [1, 2, 3] ∧ s'.conn.sndBuffer.toList = [] ∧
      s'.conn.sock.accepted = payload s'.log := by
  have hend : (run step (start 7 ⟨true, true, true, true⟩) deferredShutdown).map (fun s =>
      (s.conn.sock.writeShut, s.shutsWrite (.ret (.got 0) .wouldBlock),
        (step s (.ret (.got 0) .wouldBlock)).map fun s' => payload s'.log)) =
      some (false, true, some [1, 2, 3]) := by decide +kernel
  obtain ⟨s, hs, heq⟩ := Option.map_eq_some_iff.mp hend
  obtain ⟨hopen, hshuts, hret⟩ : s.conn.sock.writeShut = false ∧ _ ∧ _ := by
    simpa only [Prod.mk.injEq] using heq
  obtain ⟨s', hs', hlog⟩ := Option.map_eq_some_iff.mp hret
  have hreach : Reachable s := ⟨_, deferredShutdown, ⟨7, ⟨true, true, true, true⟩, rfl⟩, hs⟩
  exact ⟨s, s', hs, hopen, hs', hlog, (shutdown_after_flush hreach).1 _ s' hs' hshuts⟩

end Session

end Polly
