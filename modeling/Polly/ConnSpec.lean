import Polly.Conn

/-!
# ConnSpec — what each function of a connection can do

One inversion lemma per function of `Conn`: the ways it can end, each with its guard and the
connection it leaves (`accept`, `drain`, `closed`, `received` name the changes).  Proofs about
connections use these and do not unfold the functions.  `runEvents_rule` is the induction over the
callbacks of one `HandleEvent`.  `KeepsIn` is the frame of everything that only sends.
-/

namespace Polly.Conn

variable {c : Conn} {o : Out} {msg : Bytes} {left : List EventCallback} {r : ReadResult}
  {w : WriteResult}

/-- The socket accepts `data`. -/
def accept (c : Conn) (data : Bytes) : Conn :=
  { c with sock := { c.sock with accepted := c.sock.accepted ++ data } }

/-- A write of `HandleWrite`: the socket accepts the first `n` readable bytes, `snd` is left. -/
def drain (c : Conn) (n : ℕ) (snd : Buf) : Conn :=
  { c.accept (c.sndBuffer.toList.take n) with sndBuffer := snd }

/-- `HandleClose` up to the close callback. -/
def closed (c : Conn) : Conn := { c.disbaleAll with state := .kDisconnected }

/-- A read of `n` bytes. -/
def received (c : Conn) (n : ℕ) : Conn :=
  { c with
    sock := { c.sock with queue := c.sock.queue.drop n }
    revBuffer := c.revBuffer.readBytes (c.sock.queue.take n) }

@[simp] theorem ends_conn : c.ends.conn = c := rfl

@[simp] theorem ends_call : c.ends.call = none := rfl

theorem connectEstablished_conn :
    c.connectEstablished.conn = { c with state := .kConnected } := by
  simp only [connectEstablished]
  split_ifs <;> rfl

theorem connectEstablished_call :
    c.connectEstablished.call = if c.isSet.connection then some (.connection, .done) else none := by
  simp only [connectEstablished]
  split_ifs <;> rfl

theorem write_wrote {k k' : Sock} {data : Bytes} {n : ℕ} (h : k.write data (.wrote n) = some k') :
    n ≤ data.length ∧ k' = { k with accepted := k.accepted ++ data.take n } := by
  simp only [Sock.write] at h
  split_ifs at h with hn
  exact ⟨hn, (Option.some.inj h).symm⟩

theorem readv_got {k k' : Sock} {room n : ℕ} {got : Readv}
    (h : k.readv room (.got n) = some (k', got)) :
    n ≤ room ∧ n ≤ k.queue.length ∧ (n = 0 → k.queue = [] ∧ k.peerClosed) ∧
      k' = { k with queue := k.queue.drop n } ∧ got = .bytes (k.queue.take n) := by
  simp only [Sock.readv] at h
  split_ifs at h with hn
  cases h
  exact ⟨hn.1, hn.2.1, hn.2.2, rfl, rfl⟩

/-! ### Sending -/

@[simp] theorem sendRest_sock (n : ℕ) : (c.sendRest msg n).sock = c.sock := by
  simp only [sendRest]
  split_ifs <;> rfl

@[simp] theorem sendRest_sndBuffer (n : ℕ) :
    (c.sendRest msg n).sndBuffer.toList = c.sndBuffer.toList ++ msg.drop n := by
  simp only [sendRest]
  split_ifs with h
  · exact Buf.toList_append ..
  · exact Buf.toList_append ..
  · rw [List.drop_eq_nil_of_le (by omega), List.append_nil]

theorem sendInLoop_cases (h : c.sendInLoop msg w = some o) :
    (c.writesDirectly = false ∧ o = (c.sendRest msg 0).ends) ∨
    (c.writesDirectly = true ∧
      ((w = .error ∧ o = c.ends) ∨
       (w = .wouldBlock ∧ o = (c.sendRest msg 0).ends) ∨
       (∃ n, w = .wrote n ∧ n < msg.length ∧ o = ((c.accept (msg.take n)).sendRest msg n).ends) ∨
       (w = .wrote msg.length ∧ o.conn = c.accept msg ∧
         o.call = if c.isSet.writeComplete then
           some (.writeComplete, .sendInLoop msg msg.length) else none))) := by
  unfold sendInLoop at h
  by_cases hd : c.writesDirectly
  · rw [if_pos hd] at h
    refine Or.inr ⟨hd, ?_⟩
    cases w with
    | error => cases h; exact Or.inl ⟨rfl, rfl⟩
    | wouldBlock => cases h; exact Or.inr (Or.inl ⟨rfl, rfl⟩)
    | wrote n =>
      obtain ⟨sock, hsock, h⟩ := Option.map_eq_some_iff.mp h
      obtain ⟨hn, rfl⟩ := write_wrote hsock
      rcases Nat.lt_or_eq_of_le hn with hlt | rfl
      · simp only [if_pos hlt] at h
        exact Or.inr (Or.inr (Or.inl ⟨n, rfl, hlt, h.symm⟩))
      · simp only [if_neg (lt_irrefl _)] at h
        refine Or.inr (Or.inr (Or.inr ⟨rfl, ?_⟩))
        subst h
        split_ifs with hw
        · exact ⟨by simp [accept], rfl⟩
        · exact ⟨by simp [accept, ends, sendRest], rfl⟩
  · rw [if_neg hd] at h
    exact Or.inl ⟨by simpa using hd, (Option.some.inj h).symm⟩

/-- The only callback of `sendInLoop` comes after its whole message is written. -/
theorem sendInLoop_call {cb : Callback} {rest : Rest} (h : c.sendInLoop msg w = some o)
    (hcall : o.call = some (cb, rest)) :
    cb = .writeComplete ∧ rest = .sendInLoop msg msg.length := by
  rcases sendInLoop_cases h with
    ⟨-, rfl⟩ | ⟨-, ⟨-, rfl⟩ | ⟨-, rfl⟩ | ⟨n, -, -, rfl⟩ | ⟨-, -, hcall'⟩⟩
  · cases hcall
  · cases hcall
  · cases hcall
  · cases hcall
  · rw [hcall'] at hcall
    split_ifs at hcall
    cases hcall
    exact ⟨rfl, rfl⟩

theorem handleWrite_cases (h : c.handleWrite left w = some o) :
    o = c.ends ∨
    (c.channel.isWritingEnabled = true ∧ ∃ n snd, w = .wrote n ∧ 0 < n ∧
      c.sndBuffer.retrieve n = some snd ∧
      ((snd.toList ≠ [] ∧ o = (c.drain n snd).ends) ∨
       (snd.toList = [] ∧
        ((c.isSet.writeComplete = true ∧
          o = ⟨(c.drain n snd).disableWriting, some (.writeComplete, .handleWrite left)⟩) ∨
         (c.isSet.writeComplete = false ∧
          o = (c.drain n snd).disableWriting.handleWriteRest.ends))))) := by
  unfold handleWrite at h
  by_cases he : c.channel.isWritingEnabled
  · rw [if_pos he] at h
    cases w with
    | error => cases h; exact Or.inl rfl
    | wouldBlock => cases h; exact Or.inl rfl
    | wrote n =>
      obtain ⟨sock, hsock, h⟩ := Option.bind_eq_some_iff.mp h
      obtain ⟨-, rfl⟩ := write_wrote hsock
      by_cases h0 : 0 < n
      · simp only [if_pos h0, Option.map_eq_some_iff] at h
        obtain ⟨snd, hsnd, h⟩ := h
        refine Or.inr ⟨he, n, snd, rfl, h0, hsnd, ?_⟩
        by_cases hz : snd.readableBytes = 0
        · rw [if_pos hz] at h
          refine Or.inr ⟨Buf.readableBytes_eq_zero.mp hz, ?_⟩
          subst h
          cases hw : c.isSet.writeComplete with
          | true => exact Or.inl ⟨rfl, if_pos hw⟩
          | false => exact Or.inr ⟨rfl, if_neg (by rw [Bool.not_eq_true]; exact hw)⟩
        · rw [if_neg hz] at h
          exact Or.inl ⟨fun hnil => hz (Buf.readableBytes_eq_zero.mpr hnil), h.symm⟩
      · simp only [if_neg h0] at h
        obtain rfl : n = 0 := by omega
        refine Or.inl ?_
        rw [← Option.some.inj h]
        simp [ends]
  · rw [if_neg he] at h
    exact Or.inl (Option.some.inj h).symm

/-- The only callback of `HandleWrite` comes after everything is written. -/
theorem handleWrite_call {cb : Callback} {rest : Rest} (h : c.handleWrite left w = some o)
    (hcall : o.call = some (cb, rest)) : cb = .writeComplete ∧ rest = .handleWrite left := by
  rcases handleWrite_cases h with
    rfl | ⟨-, n, snd, -, -, -, ⟨-, rfl⟩ | ⟨-, ⟨-, rfl⟩ | ⟨-, rfl⟩⟩⟩
  · cases hcall
  · cases hcall
  · cases hcall
    exact ⟨rfl, rfl⟩
  · cases hcall

/-- What only sends leaves the state and the receiving side alone. -/
structure KeepsIn (c c' : Conn) : Prop where
  state : c'.state = c.state
  revBuffer : c'.revBuffer = c.revBuffer
  queue : c'.sock.queue = c.sock.queue
  isSet : c'.isSet = c.isSet

theorem sendRest_keepsIn (n : ℕ) : KeepsIn c (c.sendRest msg n) := by
  simp only [sendRest]
  split_ifs <;> exact ⟨rfl, rfl, rfl, rfl⟩

theorem shutdownInLoop_keepsIn : KeepsIn c c.shutdownInLoop := by
  unfold shutdownInLoop
  split_ifs <;> exact ⟨rfl, rfl, rfl, rfl⟩

theorem handleWriteRest_keepsIn : KeepsIn c c.handleWriteRest := by
  unfold handleWriteRest
  split_ifs
  · exact shutdownInLoop_keepsIn
  · exact ⟨rfl, rfl, rfl, rfl⟩

theorem sendInLoop_keepsIn (h : c.sendInLoop msg w = some o) : KeepsIn c o.conn := by
  rcases sendInLoop_cases h with
    ⟨-, rfl⟩ | ⟨-, ⟨-, rfl⟩ | ⟨-, rfl⟩ | ⟨n, -, -, rfl⟩ | ⟨-, hconn, -⟩⟩
  · exact sendRest_keepsIn 0
  · exact ⟨rfl, rfl, rfl, rfl⟩
  · exact sendRest_keepsIn 0
  · have hrest : KeepsIn (c.accept (msg.take n)) ((c.accept (msg.take n)).sendRest msg n) :=
      sendRest_keepsIn n
    exact ⟨hrest.state, hrest.revBuffer, hrest.queue, hrest.isSet⟩
  · rw [hconn]
    exact ⟨rfl, rfl, rfl, rfl⟩

theorem handleWrite_keepsIn (h : c.handleWrite left w = some o) : KeepsIn c o.conn := by
  rcases handleWrite_cases h with
    rfl | ⟨-, n, snd, -, -, -, ⟨-, rfl⟩ | ⟨-, ⟨-, rfl⟩ | ⟨-, rfl⟩⟩⟩
  · exact ⟨rfl, rfl, rfl, rfl⟩
  · exact ⟨rfl, rfl, rfl, rfl⟩
  · exact ⟨rfl, rfl, rfl, rfl⟩
  · have hrest := handleWriteRest_keepsIn (c := (c.drain n snd).disableWriting)
    exact ⟨hrest.state, hrest.revBuffer, hrest.queue, hrest.isSet⟩

/-! ### Receiving and closing -/

/-- `ConnectDestroyed` closes an open connection, and notifies the user in any case. -/
theorem connectDestroyed_eq : c.connectDestroyed left =
    ⟨if c.state = .kConnected ∨ c.state = .kDisconnecting then c.closed
      else { c with state := .kDisconnected },
     if c.isSet.connection then some (.connection, .event left) else none⟩ := by
  unfold connectDestroyed
  by_cases hs : c.state = .kConnected ∨ c.state = .kDisconnecting <;>
    by_cases hc : c.isSet.connection <;>
    simp [hs, hc, closed, disbaleAll, updateChannel, ends]

/-- `ConnectDestroyed` after `HandleClose` only notifies the user. -/
theorem connectDestroyed_of_disconnected (h : c.state = .kDisconnected) :
    c.connectDestroyed left =
      ⟨c, if c.isSet.connection then some (.connection, .event left) else none⟩ := by
  obtain ⟨state, channel, rev, snd, isSet, sock, updates⟩ := c
  obtain rfl : state = .kDisconnected := h
  unfold connectDestroyed
  split_ifs with h₁ h₂ h₂ <;> simp_all [ends]

theorem handleClose_cases (h : c.handleClose left = some o) :
    (c.state = .kConnected ∨ c.state = .kDisconnecting) ∧ o.conn = c.closed ∧
      (o.call = none ∨ o.call = some (.connection, .event left)) := by
  unfold handleClose at h
  by_cases hs : c.state = .kConnected ∨ c.state = .kDisconnecting
  · refine ⟨hs, ?_⟩
    rw [if_pos hs] at h
    change (if c.closed.isSet.close then some (c.closed.connectDestroyed left)
      else some c.closed.ends) = some o at h
    rw [connectDestroyed_of_disconnected (c := c.closed) rfl] at h
    split_ifs at h <;> cases h
    · exact ⟨rfl, Or.inr rfl⟩
    · exact ⟨rfl, Or.inl rfl⟩
    · exact ⟨rfl, Or.inl rfl⟩
  · rw [if_neg hs] at h
    cases h

/-- With the server's close callback, `HandleClose` of an open connection closes it and notifies the
user. -/
theorem handleClose_eq (hs : c.state = .kConnected ∨ c.state = .kDisconnecting)
    (hclose : c.isSet.close = true) : c.handleClose left =
      some ⟨c.closed, if c.isSet.connection then some (.connection, .event left) else none⟩ := by
  unfold handleClose
  rw [if_pos hs]
  change (if c.closed.isSet.close then some (c.closed.connectDestroyed left)
    else some c.closed.ends) = _
  rw [connectDestroyed_of_disconnected (c := c.closed) rfl]
  exact if_pos hclose

theorem handleRead_cases (h : c.handleRead left r = some o) :
    o = c.ends ∨
    (∃ n, 0 < n ∧ n ≤ c.sock.queue.length ∧ o.conn = c.received n ∧
      o.call = if c.isSet.message then some (.message, .event left) else none) ∨
    (r = .got 0 ∧ c.sock.queue = [] ∧ c.sock.peerClosed = true ∧
      (c.received 0).handleClose left = some o) := by
  unfold handleRead at h
  obtain ⟨⟨sock, got⟩, hgot, h⟩ := Option.bind_eq_some_iff.mp h
  cases r with
  | error e =>
    cases hgot
    exact Or.inl (Option.some.inj h).symm
  | got n =>
    obtain ⟨-, hq, hz, rfl, rfl⟩ := readv_got hgot
    by_cases h0 : 0 < n
    · refine Or.inr (Or.inl ⟨n, h0, hq, ?_⟩)
      simp only [List.length_take, if_pos (show 0 < min n c.sock.queue.length by omega)] at h
      split_ifs at h with hm <;> cases h
      · exact ⟨rfl, (if_pos hm).symm⟩
      · exact ⟨rfl, (if_neg hm).symm⟩
    · obtain rfl : n = 0 := by omega
      exact Or.inr (Or.inr ⟨rfl, (hz rfl).1, (hz rfl).2, h⟩)

/-- A read of zero bytes closes. -/
theorem handleRead_zero (h : c.handleRead left (.got 0) = some o) :
    (c.received 0).handleClose left = some o := by
  unfold handleRead at h
  obtain ⟨⟨sock, got⟩, hgot, h⟩ := Option.bind_eq_some_iff.mp h
  obtain ⟨-, -, -, rfl, rfl⟩ := readv_got hgot
  exact h

/-- After the last callback of an event there is nothing to run on with. -/
theorem runEvents_last (x : Option Out) : (x.bind fun o =>
    match o.call with
    | some _ => some o
    | none => o.conn.runEvents r w []) = x := by
  cases x with
  | none => rfl
  | some o =>
    obtain ⟨c', call⟩ := o
    cases call <;> rfl

theorem runEvents_close (c : Conn) : c.runEvents r w [.close] = c.handleClose [] :=
  runEvents_last (c.handleClose [])

theorem runEvents_read (c : Conn) : c.runEvents r w [.read] = c.handleRead [] r :=
  runEvents_last (c.handleRead [] r)

theorem runEvents_write (c : Conn) : c.runEvents r w [.write] = c.handleWrite [] w :=
  runEvents_last (c.handleWrite [] w)

/-- **The callbacks of one event.**  A property of outcomes that every callback `HandleEvent` still
has to run keeps, holds at the end of the sequence. -/
theorem runEvents_rule {K : Out → Prop} {evs₀ : List EventCallback}
    (hclose : ∀ c left o, .close :: left <:+ evs₀ → K (ends c) → c.handleClose left = some o → K o)
    (hread : ∀ c left o, .read :: left <:+ evs₀ → K (ends c) → c.handleRead left r = some o → K o)
    (hwrite : ∀ c left o, .write :: left <:+ evs₀ → K (ends c) → c.handleWrite left w = some o →
      K o) :
    ∀ (evs : List EventCallback) (c : Conn), evs <:+ evs₀ → K c.ends →
      c.runEvents r w evs = some o → K o
  | [], c, _, hK, h => by
    cases h
    exact hK
  | e :: left, c, hevs, hK, h => by
    obtain ⟨o₁, h₁, h₂⟩ := Option.bind_eq_some_iff.mp h
    have key : K o₁ := by
      cases e with
      | close => exact hclose c left o₁ hevs hK h₁
      | error => cases h₁; exact hK
      | read => exact hread c left o₁ hevs hK h₁
      | write => exact hwrite c left o₁ hevs hK h₁
    have hleft : left <:+ evs₀ := (List.suffix_cons e left).trans hevs
    obtain ⟨c₁, call⟩ := o₁
    cases call with
    | some cb => cases h₂; exact key
    | none => exact runEvents_rule hclose hread hwrite left c₁ hleft key h₂

end Polly.Conn
