import Mathlib

/-!
# Channel — event masks and dispatch of one descriptor (`net/channel.h`, `net/channel.cc`)

A `Channel` ties a descriptor to the events it is interested in (`events_`), the events the last
poll reported (`revents_`) and its position in the poller's table (`index_`, `-1` while it has
none).  `HandleEvent` reads `revents_` and calls the callbacks in a fixed order; nothing it reads
is changed by the callbacks, so it is modelled by the list of callbacks it calls.
-/

namespace Polly

/-! ### The bits of poll(2) -/

def POLLIN : BitVec 32 := 0x001
def POLLPRI : BitVec 32 := 0x002
def POLLOUT : BitVec 32 := 0x004
def POLLERR : BitVec 32 := 0x008
def POLLHUP : BitVec 32 := 0x010
def POLLNVAL : BitVec 32 := 0x020
def POLLRDHUP : BitVec 32 := 0x2000

/-- `m & bits` as a condition. -/
def hasBits (m bits : BitVec 32) : Bool := m &&& bits != 0

def kNoneEvent : BitVec 32 := 0
def kReadEvent : BitVec 32 := POLLIN ||| POLLPRI
def kWriteEvent : BitVec 32 := POLLOUT

structure Channel where
  fd : ℤ
  events : BitVec 32
  revents : BitVec 32
  index : ℤ
  deriving DecidableEq, Repr

namespace Channel

/-- The constructor `Channel(loop, fd)`. -/
def new (fd : ℤ) : Channel := ⟨fd, 0, 0, -1⟩

/-! ### The mask part of the four interest calls (each then calls `update()`) -/

def enableReading (ch : Channel) : Channel := { ch with events := ch.events ||| kReadEvent }
def enableWriting (ch : Channel) : Channel := { ch with events := ch.events ||| kWriteEvent }
def disableWriting (ch : Channel) : Channel := { ch with events := ch.events &&& ~~~kWriteEvent }
def disbaleAll (ch : Channel) : Channel := { ch with events := kNoneEvent }

def isWritingEnabled (ch : Channel) : Bool := hasBits ch.events kWriteEvent
def isNoneEvent (ch : Channel) : Bool := ch.events == kNoneEvent

end Channel

/-- The calls that change a channel's mask and then reach `Poller::UpdateChannel`. -/
inductive Interest where
  | enableReading | enableWriting | disableWriting | disbaleAll
  deriving DecidableEq, Repr

/-- The channel after the mask part of the call. -/
def Interest.apply : Interest → Channel → Channel
  | .enableReading => Channel.enableReading
  | .enableWriting => Channel.enableWriting
  | .disableWriting => Channel.disableWriting
  | .disbaleAll => Channel.disbaleAll

@[simp] theorem Interest.apply_fd (op : Interest) (ch : Channel) : (op.apply ch).fd = ch.fd := by
  cases op <;> rfl

@[simp] theorem Interest.apply_index (op : Interest) (ch : Channel) :
    (op.apply ch).index = ch.index := by
  cases op <;> rfl

/-! ### The masks that occur -/

/-- A mask built from `kReadEvent` and `kWriteEvent`. -/
def IsMask (m : BitVec 32) : Prop := m = 0 ∨ m = 3 ∨ m = 4 ∨ m = 7

instance : DecidablePred IsMask := fun m =>
  inferInstanceAs (Decidable (m = 0 ∨ m = 3 ∨ m = 4 ∨ m = 7))

theorem IsMask.or_read {m : BitVec 32} (h : IsMask m) : IsMask (m ||| kReadEvent) := by
  rcases h with rfl | rfl | rfl | rfl <;> decide

theorem IsMask.or_write {m : BitVec 32} (h : IsMask m) : IsMask (m ||| kWriteEvent) := by
  rcases h with rfl | rfl | rfl | rfl <;> decide

theorem IsMask.and_not_write {m : BitVec 32} (h : IsMask m) : IsMask (m &&& ~~~kWriteEvent) := by
  rcases h with rfl | rfl | rfl | rfl <;> decide

theorem Interest.apply_isMask (op : Interest) {ch : Channel} (h : IsMask ch.events) :
    IsMask (op.apply ch).events := by
  cases op with
  | enableReading => exact h.or_read
  | enableWriting => exact h.or_write
  | disableWriting => exact h.and_not_write
  | disbaleAll => exact Or.inl rfl

/-- Masks survive the cast to the `short` of `struct pollfd`. -/
theorem IsMask.cast_short {m : BitVec 32} (h : IsMask m) : (m.setWidth 16).signExtend 32 = m := by
  rcases h with rfl | rfl | rfl | rfl <;> decide

/-! ### Dispatch -/

/-- The four callbacks a channel may have. -/
inductive EventCallback where
  | close | error | read | write
  deriving DecidableEq, Repr

/-- `Channel::HandleEvent`: the callbacks it calls, in order; `isSet` says which ones are set. -/
def Channel.handleEvent (isSet : EventCallback → Bool) (ch : Channel) : List EventCallback :=
  if hasBits ch.revents POLLHUP && isSet .close then [.close]
  else
    (if hasBits ch.revents (POLLERR ||| POLLNVAL) && isSet .error then [.error] else []) ++
    (if hasBits ch.revents (POLLIN ||| POLLPRI ||| POLLRDHUP) && isSet .read then [.read]
      else []) ++
    (if hasBits ch.revents POLLOUT && isSet .write then [.write] else [])

end Polly
