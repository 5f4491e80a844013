import Polly.SessionFlush

/-!
# SessionInterest — write interest matches pending output

As long as a connection is open its mask is a function of `snd_buffer_` (`Interested`): reading,
and writing exactly if there is something to write.  `sendInLoop` and `HandleWrite` keep this from
one user callback to the next, so it holds at every point where user code can look.  `Passed` says
which masks a function brings to the poller: the mask it leaves is the last of them.

* `interest_matches`: both, in every reachable state.
-/

namespace Polly

open Runs

namespace Conn

variable {c c' c'' : Conn} {o : Out} {msg : Bytes} {left : List EventCallback} {r : ReadResult}
  {w : WriteResult}

/-! ### The masks that reach the poller -/

/-- From `c` to `c'` the poller was given some masks of the descriptor, the last of which is the
mask of `c'`; if it was given none, the mask is as before. -/
def Passed (c c' : Conn) : Prop :=
  c'.channel.fd = c.channel.fd ∧ ∃ masks, c'.updates = c.updates ++ masks ∧
    c'.channel.events = masks.getLast?.getD c.channel.events

theorem Passed.of_eq (hu : c'.updates = c.updates) (hch : c'.channel = c.channel) :
    Passed c c' :=
  ⟨congrArg Channel.fd hch, [], by rw [hu, List.append_nil], congrArg Channel.events hch⟩

theorem Passed.trans (h₁ : Passed c c') (h₂ : Passed c' c'') : Passed c c'' := by
  obtain ⟨hfd₁, m₁, hu₁, he₁⟩ := h₁
  obtain ⟨hfd₂, m₂, hu₂, he₂⟩ := h₂
  refine ⟨hfd₂.trans hfd₁, m₁ ++ m₂, by rw [hu₂, hu₁, List.append_assoc], ?_⟩
  rw [he₂, he₁, List.getLast?_append]
  cases m₂.getLast? <;> rfl

theorem updateChannel_passed (c : Conn) {ch : Channel} (hfd : ch.fd = c.channel.fd) :
    Passed c (c.updateChannel ch) := ⟨hfd, [ch.events], rfl, rfl⟩

theorem sendRest_passed (n : ℕ) : Passed c (c.sendRest msg n) := by
  simp only [sendRest]
  split_ifs
  · exact updateChannel_passed { c with sndBuffer := c.sndBuffer.append (msg.drop n) } rfl
  · exact .of_eq rfl rfl
  · exact .of_eq rfl rfl

theorem shutdownInLoop_passed : Passed c c.shutdownInLoop := by
  unfold shutdownInLoop
  split_ifs <;> exact .of_eq rfl rfl

theorem shutdown_passed : Passed c c.shutdown := by
  unfold shutdown
  split_ifs
  · exact shutdownInLoop_passed (c := { c with state := .kDisconnecting })
  · exact .of_eq rfl rfl

theorem handleWriteRest_passed : Passed c c.handleWriteRest := by
  unfold handleWriteRest
  split_ifs
  · exact shutdownInLoop_passed
  · exact .of_eq rfl rfl

theorem sendInLoop_passed (h : c.sendInLoop msg w = some o) : Passed c o.conn := by
  rcases sendInLoop_cases h with
    ⟨-, rfl⟩ | ⟨-, ⟨-, rfl⟩ | ⟨-, rfl⟩ | ⟨n, -, -, rfl⟩ | ⟨-, hconn, -⟩⟩
  · exact sendRest_passed 0
  · exact .of_eq rfl rfl
  · exact sendRest_passed 0
  · exact sendRest_passed (c := c.accept (msg.take n)) n
  · rw [hconn]
    exact .of_eq rfl rfl

theorem handleWrite_passed (h : c.handleWrite left w = some o) : Passed c o.conn := by
  rcases handleWrite_cases h with
    rfl | ⟨-, n, snd, -, -, -, ⟨-, rfl⟩ | ⟨-, ⟨-, rfl⟩ | ⟨-, rfl⟩⟩⟩
  · exact .of_eq rfl rfl
  · exact .of_eq rfl rfl
  · exact updateChannel_passed (c.drain n snd) rfl
  · have hdisable : Passed c (c.drain n snd).disableWriting :=
      updateChannel_passed (c.drain n snd) rfl
    exact hdisable.trans handleWriteRest_passed

theorem handleClose_passed (h : c.handleClose left = some o) : Passed c o.conn := by
  obtain ⟨-, hconn, -⟩ := handleClose_cases h
  rw [hconn]
  exact updateChannel_passed c rfl

theorem handleRead_passed (h : c.handleRead left r = some o) : Passed c o.conn := by
  rcases handleRead_cases h with rfl | ⟨n, -, -, hconn, -⟩ | ⟨-, -, -, hclose⟩
  · exact .of_eq rfl rfl
  · rw [hconn]
    exact .of_eq rfl rfl
  · exact handleClose_passed (c := c.received 0) hclose

theorem runEvents_passed {evs : List EventCallback} (h : c.runEvents r w evs = some o) :
    Passed c o.conn := by
  refine runEvents_rule (K := fun o => Passed c o.conn) ?_ ?_ ?_ evs c (List.suffix_refl evs)
    (.of_eq rfl rfl) h
  · exact fun c₁ left o₁ _ hK h₁ => hK.trans (handleClose_passed h₁)
  · exact fun c₁ left o₁ _ hK h₁ => hK.trans (handleRead_passed h₁)
  · exact fun c₁ left o₁ _ hK h₁ => hK.trans (handleWrite_passed h₁)

theorem resume_passed {rest : Rest} (h : c.resume r w rest = some o) : Passed c o.conn := by
  cases rest with
  | done => cases h; exact .of_eq rfl rfl
  | sendInLoop msg n => cases h; exact sendRest_passed n
  | handleWrite left => exact handleWriteRest_passed.trans (runEvents_passed h)
  | event left => exact runEvents_passed h

/-! ### The mask of an open connection -/

/-- Reading is enabled, and writing exactly with data to write. -/
def Interested (c : Conn) : Prop :=
  c.channel.events = if c.sndBuffer.toList = [] then kReadEvent else kReadEvent ||| kWriteEvent

theorem Interested.isWritingEnabled (h : Interested c) :
    c.channel.isWritingEnabled = true ↔ c.sndBuffer.toList ≠ [] := by
  unfold Channel.isWritingEnabled
  rw [h]
  split_ifs with hnil <;> simp [hnil] <;> decide

theorem Interested.flushing (h : Interested c) : Flushing c := h.isWritingEnabled.mpr

theorem sendRest_interested (n : ℕ) (h : Interested c) : Interested (c.sendRest msg n) := by
  have hw := h.isWritingEnabled
  unfold Interested at h
  simp only [sendRest]
  split_ifs with hlt hen
  · -- writing was not enabled, so the buffer was empty
    have hen' : ¬c.channel.isWritingEnabled = true := by simpa using hen
    have hnil : c.sndBuffer.toList = [] := by
      by_contra hne
      exact hen' (hw.mpr hne)
    have hne : (c.sndBuffer.append (msg.drop n)).toList ≠ [] := by
      simp only [Buf.toList_append, ne_eq, List.append_eq_nil_iff, not_and, List.drop_eq_nil_iff]
      omega
    refine Eq.trans ?_ (if_neg hne).symm
    change c.channel.events ||| kWriteEvent = _
    rw [h, if_pos hnil]
  · have hen' : c.channel.isWritingEnabled = true := by simpa using hen
    have hne : (c.sndBuffer.append (msg.drop n)).toList ≠ [] := by
      simp [Buf.toList_append, hw.mp hen']
    refine Eq.trans ?_ (if_neg hne).symm
    change c.channel.events = _
    rw [h, if_neg (hw.mp hen')]
  · exact h

theorem sendInLoop_interested (h : c.sendInLoop msg w = some o) (hI : Interested c) :
    Interested o.conn := by
  rcases sendInLoop_cases h with
    ⟨-, rfl⟩ | ⟨-, ⟨-, rfl⟩ | ⟨-, rfl⟩ | ⟨n, -, -, rfl⟩ | ⟨-, hconn, -⟩⟩
  · exact sendRest_interested 0 hI
  · exact hI
  · exact sendRest_interested 0 hI
  · exact sendRest_interested (c := c.accept (msg.take n)) n hI
  · rw [hconn]
    exact hI

theorem shutdownInLoop_interested (h : Interested c) : Interested c.shutdownInLoop := by
  unfold Interested
  rw [shutdownInLoop_channel, shutdownInLoop_sndBuffer]
  exact h

theorem handleWriteRest_interested (h : Interested c) : Interested c.handleWriteRest := by
  unfold handleWriteRest
  split_ifs
  · exact shutdownInLoop_interested h
  · exact h

theorem Interested.events (h : Interested c) (he : c.channel.isWritingEnabled = true) :
    c.channel.events = kReadEvent ||| kWriteEvent := by
  have hne := h.isWritingEnabled.mp he
  unfold Interested at h
  rwa [if_neg hne] at h

/-- `HandleWrite` disables writing when it has written everything. -/
theorem Interested.drained (h : Interested c) (he : c.channel.isWritingEnabled = true) {n : ℕ}
    {snd : Buf} (hnil : snd.toList = []) : Interested (c.drain n snd).disableWriting := by
  change c.channel.events &&& ~~~kWriteEvent = if snd.toList = [] then _ else _
  rw [if_pos hnil, h.events he]
  decide

theorem handleWrite_interested (h : c.handleWrite left w = some o) (hI : Interested c) :
    Interested o.conn := by
  rcases handleWrite_cases h with rfl | ⟨he, n, snd, -, -, -, hleft⟩
  · exact hI
  rcases hleft with ⟨hne, rfl⟩ | ⟨hnil, ⟨-, rfl⟩ | ⟨-, rfl⟩⟩
  · change c.channel.events = if snd.toList = [] then _ else _
    rw [if_neg hne, hI.events he]
  · exact hI.drained he hnil
  · exact handleWriteRest_interested (hI.drained he hnil)

/-- An open connection is interested. -/
def OpenInterested (c : Conn) : Prop := c.state ≠ .kDisconnected → Interested c

theorem handleWrite_openInterested (h : c.handleWrite left w = some o) (hI : OpenInterested c) :
    OpenInterested o.conn := by
  intro hopen
  rw [(handleWrite_keepsIn h).state] at hopen
  exact handleWrite_interested h (hI hopen)

theorem KeepsOut.openInterested (h : KeepsOut c c') (hI : OpenInterested c) :
    OpenInterested c' := by
  intro hopen
  rw [h.state] at hopen
  have hint := hI hopen
  unfold Interested
  rw [h.channel, h.sndBuffer]
  exact hint

theorem handleRead_openInterested (h : c.handleRead left r = some o) (hI : OpenInterested c) :
    OpenInterested o.conn := by
  rcases handleRead_keepsOut h with hclosed | ⟨hkeeps, -⟩
  · exact fun hopen => absurd hclosed hopen
  · exact hkeeps.openInterested hI

theorem handleClose_openInterested (h : c.handleClose left = some o) : OpenInterested o.conn := by
  obtain ⟨-, hconn, -⟩ := handleClose_cases h
  intro hopen
  rw [hconn] at hopen
  exact absurd rfl hopen

theorem runEvents_openInterested {evs : List EventCallback} (h : c.runEvents r w evs = some o)
    (hI : OpenInterested c) : OpenInterested o.conn := by
  refine runEvents_rule (K := fun o => OpenInterested o.conn) ?_ ?_ ?_ evs c
    (List.suffix_refl evs) hI h
  · exact fun c₁ left o₁ _ _ h₁ => handleClose_openInterested h₁
  · exact fun c₁ left o₁ _ hK h₁ => handleRead_openInterested h₁ hK
  · exact fun c₁ left o₁ _ hK h₁ => handleWrite_openInterested h₁ hK

theorem resume_openInterested {rest : Rest} (h : c.resume r w rest = some o)
    (hI : OpenInterested c) : OpenInterested o.conn := by
  cases rest with
  | done => cases h; exact hI
  | sendInLoop msg n =>
    cases h
    intro hopen
    rw [ends_conn, (sendRest_keepsIn n).state] at hopen
    exact sendRest_interested n (hI hopen)
  | handleWrite left =>
    refine runEvents_openInterested h fun hopen => ?_
    rw [handleWriteRest_keepsIn.state] at hopen
    exact handleWriteRest_interested (hI hopen)
  | event left => exact runEvents_openInterested h hI

theorem shutdown_openInterested (h : OpenInterested c) : OpenInterested c.shutdown := by
  unfold shutdown
  split_ifs with hs
  · intro _
    have hint : Interested { c with state := .kDisconnecting } := h (by rw [hs]; decide)
    exact shutdownInLoop_interested hint
  · exact h

end Conn

namespace Session

open Conn

/-- **What a step does to the connection**: it runs one of its functions, or something that only
receives. -/
theorem step_conn {s s' : Session} {a : Act} (h : step s a = some s') :
    (∃ msg w o, a = .send msg w ∧ s.conn.sendInLoop msg w = some o ∧ s'.conn = o.conn) ∨
    s'.conn = s.conn.shutdown ∨
    (∃ r w cb rest o, (cb, rest) ∈ s.stack ∧ s.conn.resume r w rest = some o ∧
      s'.conn = o.conn) ∨
    (∃ revents r w o, s.conn.handleEvent revents r w = some o ∧ s'.conn = o.conn) ∨
    (KeepsOut s.conn s'.conn ∧ s'.conn.updates = s.conn.updates) := by
  cases a with
  | send msg w =>
    obtain ⟨o, ho, rfl⟩ := Option.map_eq_some_iff.mp h
    exact Or.inl ⟨msg, w, o, rfl, ho, after_conn _ o⟩
  | shutdown =>
    cases h
    exact Or.inr (Or.inl rfl)
  | retrieve len =>
    obtain ⟨b, -, rfl⟩ := Option.map_eq_some_iff.mp h
    exact Or.inr (Or.inr (Or.inr (Or.inr ⟨⟨rfl, rfl, rfl, rfl, rfl⟩, rfl⟩)))
  | ret r w =>
    obtain ⟨cb, rest, stack, o, hstack, ho, rfl⟩ := step_ret h
    have hmem : (cb, rest) ∈ s.stack := by rw [hstack]; exact List.mem_cons_self
    exact Or.inr (Or.inr (Or.inl ⟨r, w, cb, rest, o, hmem, ho, after_conn _ o⟩))
  | dispatch revents r w =>
    obtain ⟨o, ho, rfl⟩ := step_dispatch h
    exact Or.inr (Or.inr (Or.inr (Or.inl ⟨revents, r, w, o, ho, after_conn _ o⟩)))
  | arrive data =>
    obtain rfl := step_arrive h
    exact Or.inr (Or.inr (Or.inr (Or.inr ⟨⟨rfl, rfl, rfl, rfl, rfl⟩, rfl⟩)))
  | peerClose =>
    cases h
    exact Or.inr (Or.inr (Or.inr (Or.inr ⟨⟨rfl, rfl, rfl, rfl, rfl⟩, rfl⟩)))

/-- **One step** keeps an open connection interested. -/
theorem step_openInterested {s s' : Session} {a : Act} (hI : OpenInterested s.conn)
    (h : step s a = some s') : OpenInterested s'.conn := by
  rcases step_conn h with ⟨msg, w, o, -, ho, hconn⟩ | hconn | ⟨r, w, cb, rest, o, -, ho, hconn⟩ |
    ⟨revents, r, w, o, ho, hconn⟩ | ⟨hkeeps, -⟩
  · rw [hconn]
    intro hopen
    rw [(sendInLoop_keepsIn ho).state] at hopen
    exact sendInLoop_interested ho (hI hopen)
  · rw [hconn]
    exact shutdown_openInterested hI
  · rw [hconn]
    exact resume_openInterested ho hI
  · rw [hconn]
    have hI' : OpenInterested
        { s.conn with channel := { s.conn.channel with revents := revents } } := hI
    exact runEvents_openInterested ho hI'
  · exact hkeeps.openInterested hI

/-- **One step** brings every change of the mask to the poller. -/
theorem step_passed {s s' : Session} {a : Act} (h : step s a = some s') :
    Passed s.conn s'.conn := by
  rcases step_conn h with ⟨msg, w, o, -, ho, hconn⟩ | hconn | ⟨r, w, cb, rest, o, -, ho, hconn⟩ |
    ⟨revents, r, w, o, ho, hconn⟩ | ⟨hkeeps, hu⟩
  · rw [hconn]
    exact sendInLoop_passed ho
  · rw [hconn]
    exact shutdown_passed
  · rw [hconn]
    exact resume_passed ho
  · rw [hconn]
    exact runEvents_passed
      (c := { s.conn with channel := { s.conn.channel with revents := revents } }) ho
  · exact .of_eq hu hkeeps.channel

theorem start_openInterested (fd : ℤ) (isSet : CallbacksSet) :
    OpenInterested (start fd isSet).conn := by
  intro _
  rw [start, after_conn, connectEstablished_conn]
  unfold Interested
  rw [if_pos (show (new fd isSet).sndBuffer.toList = [] from Buf.toList_new)]
  change (0 : BitVec 32) ||| kReadEvent = kReadEvent
  decide

theorem Reachable.openInterested {s : Session} (h : Reachable s) : OpenInterested s.conn := by
  refine h.inv ?_ fun _ _ _ => step_openInterested
  rintro s ⟨fd, isSet, rfl⟩
  exact start_openInterested fd isSet

/-- The poller's mask is the connection's. -/
theorem Reachable.updates {s : Session} (h : Reachable s) :
    s.conn.updates.getLast? = some s.conn.channel.events := by
  refine h.inv (I := fun s => s.conn.updates.getLast? = some s.conn.channel.events) ?_ ?_
  · rintro s ⟨fd, isSet, rfl⟩
    rw [start, after_conn, connectEstablished_conn]
    rfl
  · intro s a s' hI hs
    obtain ⟨-, masks, hu, he⟩ := step_passed hs
    rw [hu, List.getLast?_append, hI, he]
    cases masks.getLast? <;> rfl

/-- **Write interest matches pending output.**  In every reachable state, also inside user
callbacks: an open connection has `POLLOUT` in its mask exactly if `snd_buffer_` has readable bytes,
and it has `POLLIN`; the mask is the one the poller was given last; and every step that changes the
mask gives it to the poller. -/
theorem interest_matches {s : Session} (h : Reachable s) :
    (s.conn.state = .kConnected ∨ s.conn.state = .kDisconnecting →
      (hasBits s.conn.channel.events POLLOUT = true ↔ 0 < s.conn.sndBuffer.readableBytes) ∧
      hasBits s.conn.channel.events POLLIN = true) ∧
    s.conn.updates.getLast? = some s.conn.channel.events ∧
    ∀ a s', step s a = some s' → Passed s.conn s'.conn := by
  refine ⟨fun hopen => ?_, h.updates, fun a s' hs => step_passed hs⟩
  have hint : Interested s.conn := h.openInterested (by rcases hopen with hs | hs <;> simp [hs])
  constructor
  · rw [Nat.pos_iff_ne_zero, Ne, Buf.readableBytes_eq_zero]
    exact hint.isWritingEnabled
  · rw [show s.conn.channel.events = _ from hint]
    split_ifs <;> decide

/-- A short write, and a message with `POLLOUT` while it is pending. -/
def pendingOutput : List Act :=
  [.ret (.got 0) .wouldBlock, .send [1, 2, 3] (.wrote 1), .arrive [9],
    .dispatch (POLLIN ||| POLLOUT) (.got 1) .wouldBlock]

theorem interest_matches_pending :
    ∃ s, run step (start 7 ⟨true, true, true, true⟩) pendingOutput = some s ∧
      s.conn.sndBuffer.toList = [2, 3] ∧ hasBits s.conn.channel.events POLLOUT = true := by
  obtain ⟨s, hs, hst, hsnd⟩ : ∃ s,
      run step (start 7 ⟨true, true, true, true⟩) pendingOutput = some s ∧
        s.conn.state = .kConnected ∧ s.conn.sndBuffer.toList = [2, 3] := by
    have hend : (run step (start 7 ⟨true, true, true, true⟩) pendingOutput).map
        (fun s => (s.conn.state, s.conn.sndBuffer.toList)) = some (.kConnected, [2, 3]) := by
      decide +kernel
    obtain ⟨s, hs, heq⟩ := Option.map_eq_some_iff.mp hend
    exact ⟨s, hs, (Prod.ext_iff.mp heq).1, (Prod.ext_iff.mp heq).2⟩
  have hreach : Reachable s := ⟨_, pendingOutput, ⟨7, ⟨true, true, true, true⟩, rfl⟩, hs⟩
  refine ⟨s, hs, hsnd, (((interest_matches hreach).1 (Or.inl hst)).1).mpr ?_⟩
  rw [← Buf.length_toList, hsnd]
  decide

end Session

end Polly
