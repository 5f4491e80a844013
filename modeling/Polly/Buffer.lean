import Polly.Runs
import Polly.Vec

/-!
# Buffer — the byte buffer of a connection (`util/buffer.h`, `util/buffer.cc`)

A vector with two indices: the readable bytes are `[readerIndex_, writerIndex_)`, before them is
room to prepend, behind them room to write.  Every assertion of the class is a test of the model:
an operation is `none` when one fails.  The constructor computes in `size_t`, since its argument is
any number; from then on sizes are natural numbers (no vector and no data come near `2^64`).

* `WF`: the two indices lie in order inside the vector, which holds the reserved area.
* one spec lemma per operation (`append_spec`, `prepend_spec`, `retrieve_spec`, `readFd_spec`):
  from a well-formed buffer and within its precondition the operation passes its assertions,
  stays well-formed, and does to `toList` what a byte deque does.
* `construct_eq_new`, `construct_wrapped`: the constructor makes the vector it says, unless
  `kCheapPrepend + initialSize` wraps around.
* `Buf`: well-formed buffers, with the operations a connection uses as total functions.
-/

namespace Polly

open Vec Runs

def kCheapPrepend : ℕ := 8
def kInitialSize : ℕ := 1024

structure Buffer where
  buffer : List UInt8
  readerIndex : ℕ
  writerIndex : ℕ
  deriving DecidableEq, Repr

/-- The outcome of readv(2): an error number, or the bytes taken from the descriptor in order. -/
inductive Readv where
  | error (errno : ℤ)
  | bytes (data : List UInt8)
  deriving DecidableEq, Repr

namespace Buffer

def readableBytes (b : Buffer) : ℕ := b.writerIndex - b.readerIndex
def writableBytes (b : Buffer) : ℕ := b.buffer.length - b.writerIndex
def prependableBytes (b : Buffer) : ℕ := b.readerIndex

/-- The constructor, with its three assertions: the size of the vector and `writableBytes()` are
`size_t` expressions, and the allocation succeeds. -/
def construct (initialSize : BitVec 64) : Option Buffer :=
  let size := BitVec.ofNat 64 kCheapPrepend + initialSize
  let b : Buffer := ⟨List.replicate size.toNat 0, kCheapPrepend, kCheapPrepend⟩
  if b.readableBytes = 0 ∧ size - BitVec.ofNat 64 b.writerIndex = initialSize ∧
      b.prependableBytes = kCheapPrepend then
    some b
  else none

/-- The constructor in exact arithmetic. -/
def new (initialSize : ℕ) : Option Buffer :=
  let b : Buffer := ⟨List.replicate (kCheapPrepend + initialSize) 0, kCheapPrepend, kCheapPrepend⟩
  if b.readableBytes = 0 ∧ b.writableBytes = initialSize ∧ b.prependableBytes = kCheapPrepend then
    some b
  else none

def swap (b rhs : Buffer) : Buffer × Buffer := (rhs, b)

/-- The readable bytes, where `peek` points. -/
def toList (b : Buffer) : List UInt8 := window b.buffer b.readerIndex b.writerIndex

def retrieveAll (b : Buffer) : Buffer :=
  { b with readerIndex := kCheapPrepend, writerIndex := kCheapPrepend }

def retrieve (b : Buffer) (len : ℕ) : Option Buffer :=
  if len ≤ b.readableBytes then
    if len < b.readableBytes then some { b with readerIndex := b.readerIndex + len }
    else some b.retrieveAll
  else none

def makeSpace (b : Buffer) (len : ℕ) : Option Buffer :=
  if b.writableBytes + b.prependableBytes < len + kCheapPrepend then
    some { b with buffer := resize b.buffer (b.writerIndex + len) 0 }
  else if kCheapPrepend < b.readerIndex then
    -- move readable data to the front, make space inside buffer
    let readable := b.readableBytes
    let b' : Buffer :=
      { buffer := copyForward b.buffer b.readerIndex kCheapPrepend readable
        readerIndex := kCheapPrepend
        writerIndex := kCheapPrepend + readable }
    if readable = b'.readableBytes then some b' else none
  else none

def append (b : Buffer) (data : List UInt8) : Option Buffer :=
  (if b.writableBytes < data.length then b.makeSpace data.length else some b).bind fun b =>
    if data.length ≤ b.writableBytes then
      some { b with
        buffer := overwrite b.buffer b.writerIndex data
        writerIndex := b.writerIndex + data.length }
    else none

def prepend (b : Buffer) (data : List UInt8) : Option Buffer :=
  if data.length ≤ b.prependableBytes then
    some { b with
      readerIndex := b.readerIndex - data.length
      buffer := overwrite b.buffer (b.readerIndex - data.length) data }
  else none

/-- `sizeof extrabuf`. -/
def kExtraSize : ℕ := 65536

/-- The total size of the iovecs `readFd` offers: the side buffer only joins in when the writable
space is smaller than it. -/
def offered (b : Buffer) : ℕ :=
  if b.writableBytes < kExtraSize then b.writableBytes + kExtraSize else b.writableBytes

/-- `Buffer::readFd`: readv fills the writable space first and the side buffer `extrabuf` with the
rest.  Besides the buffer: the returned count (`-1` on an error) and what `*savedErrno` becomes
when the pointer is not null. -/
def readFd (b : Buffer) (saveErrno : Bool) : Readv → Option (Buffer × ℤ × Option ℤ)
  | .error errno => some (b, -1, if saveErrno then some errno else none)
  | .bytes data =>
    let writable := b.writableBytes
    let b' := { b with buffer := overwrite b.buffer b.writerIndex (data.take writable) }
    if data.length ≤ writable then
      some ({ b' with writerIndex := b'.writerIndex + data.length }, data.length, none)
    else
      ({ b' with writerIndex := b'.buffer.length }.append (data.drop writable)).map
        (fun b => (b, (data.length : ℤ), none))

/-! ### Well-formed buffers -/

structure WF (b : Buffer) : Prop where
  reader_le : b.readerIndex ≤ b.writerIndex
  writer_le : b.writerIndex ≤ b.buffer.length
  cheap_le : kCheapPrepend ≤ b.buffer.length

variable {b : Buffer}

theorem WF.length_toList (h : WF b) : b.toList.length = b.readableBytes :=
  window_length h.writer_le

theorem new_spec (initialSize : ℕ) :
    ∃ b, new initialSize = some b ∧ WF b ∧ b.toList = [] ∧ b.readerIndex = kCheapPrepend := by
  have hlen : (List.replicate (kCheapPrepend + initialSize) (0 : UInt8)).length =
      kCheapPrepend + initialSize := List.length_replicate
  have hle : kCheapPrepend ≤ (List.replicate (kCheapPrepend + initialSize) (0 : UInt8)).length := by
    omega
  have hw : (List.replicate (kCheapPrepend + initialSize) (0 : UInt8)).length - kCheapPrepend =
      initialSize := by omega
  exact ⟨_, if_pos ⟨Nat.sub_self _, hw, rfl⟩, ⟨le_rfl, hle, hle⟩, window_self _ _, rfl⟩

/-- The assertions of the constructor hold for every argument, also where the size wraps around. -/
theorem construct_eq (initialSize : BitVec 64) : construct initialSize =
    some ⟨List.replicate (BitVec.ofNat 64 kCheapPrepend + initialSize).toNat 0, kCheapPrepend,
      kCheapPrepend⟩ := by
  have hw : BitVec.ofNat 64 kCheapPrepend + initialSize - BitVec.ofNat 64 kCheapPrepend =
      initialSize := by
    rw [BitVec.add_comm, BitVec.add_sub_cancel]
  exact if_pos ⟨Nat.sub_self _, hw, rfl⟩

theorem toNat_size (initialSize : BitVec 64) :
    (BitVec.ofNat 64 kCheapPrepend + initialSize).toNat =
      (kCheapPrepend + initialSize.toNat) % 2 ^ 64 := by
  rw [BitVec.toNat_add, BitVec.toNat_ofNat, Nat.mod_add_mod]

theorem construct_eq_new {initialSize : BitVec 64}
    (h : initialSize.toNat < 2 ^ 64 - kCheapPrepend) :
    construct initialSize = new initialSize.toNat := by
  have hsize : (BitVec.ofNat 64 kCheapPrepend + initialSize).toNat =
      kCheapPrepend + initialSize.toNat := by
    rw [toNat_size, Nat.mod_eq_of_lt (by omega)]
  have hw : (List.replicate (kCheapPrepend + initialSize.toNat) (0 : UInt8)).length -
      kCheapPrepend = initialSize.toNat := by
    rw [List.length_replicate, Nat.add_sub_cancel_left]
  rw [construct_eq, hsize]
  exact (if_pos ⟨Nat.sub_self _, hw, rfl⟩).symm

/-- Where the size wraps around, the vector ends before the indices. -/
theorem construct_wrapped {initialSize : BitVec 64} {b : Buffer}
    (h : 2 ^ 64 - kCheapPrepend ≤ initialSize.toNat) (hb : construct initialSize = some b) :
    b.buffer.length < b.writerIndex := by
  have hlt := initialSize.isLt
  rw [construct_eq] at hb
  cases hb
  rw [List.length_replicate, toNat_size]
  simp only [kCheapPrepend] at h ⊢
  omega

theorem WF.retrieveAll (h : WF b) : WF b.retrieveAll := ⟨le_rfl, h.cheap_le, h.cheap_le⟩

@[simp] theorem toList_retrieveAll (b : Buffer) : b.retrieveAll.toList = [] := window_self _ _

/-- `retrieve` drops from the front. -/
theorem retrieve_spec (h : WF b) {len : ℕ} (hlen : len ≤ b.readableBytes) :
    ∃ b', b.retrieve len = some b' ∧ WF b' ∧ b'.toList = b.toList.drop len ∧
      (kCheapPrepend ≤ b.readerIndex → kCheapPrepend ≤ b'.readerIndex) := by
  have h₁ := h.reader_le
  rw [retrieve, if_pos hlen]
  by_cases hlt : len < b.readableBytes
  · rw [if_pos hlt]
    refine ⟨_, rfl, ⟨?_, h.writer_le, h.cheap_le⟩, (window_drop _ _ _ _).symm, ?_⟩
    · simp only [readableBytes] at hlt; dsimp only; omega
    · intro h₂; exact h₂.trans (Nat.le_add_right _ _)
  · rw [if_neg hlt]
    refine ⟨_, rfl, h.retrieveAll, ?_, fun _ => le_rfl⟩
    rw [toList_retrieveAll, List.drop_eq_nil_of_le]
    rw [h.length_toList]
    omega

/-- `prepend` adds at the front. -/
theorem prepend_spec (h : WF b) {data : List UInt8} (hlen : data.length ≤ b.prependableBytes) :
    ∃ b', b.prepend data = some b' ∧ WF b' ∧ b'.toList = data ++ b.toList := by
  have h₁ := h.reader_le
  have h₂ := h.writer_le
  simp only [prependableBytes] at hlen
  have hin : b.readerIndex - data.length + data.length ≤ b.buffer.length := by omega
  refine ⟨_, if_pos hlen, ⟨?_, ?_, ?_⟩, ?_⟩
  · dsimp only; omega
  · rw [overwrite_length hin]; exact h₂
  · rw [overwrite_length hin]; exact h.cheap_le
  · simp only [toList]
    have hself := window_overwrite_self (d := data)
      (show b.readerIndex - data.length ≤ b.buffer.length by omega)
    have hrest := window_overwrite_right (d := data) (i := b.readerIndex - data.length)
      (j := b.readerIndex) (k := b.writerIndex) (l := b.buffer) (by omega) (by omega)
    rw [Nat.sub_add_cancel hlen] at hself
    rw [window_append (show b.readerIndex - data.length ≤ b.readerIndex by omega) h₁, hself, hrest]

theorem makeSpace_grow {len : ℕ}
    (hg : b.writableBytes + b.prependableBytes < len + kCheapPrepend) :
    b.makeSpace len = some { b with buffer := resize b.buffer (b.writerIndex + len) 0 } :=
  if_pos hg

/-- When the vector does not grow, the reader stands behind the reserved area, so the assertion
holds and the overlapping copy moves the readable bytes to the front. -/
theorem makeSpace_compact {len : ℕ} (h : WF b) (hlen : b.writableBytes < len)
    (hg : ¬ b.writableBytes + b.prependableBytes < len + kCheapPrepend) :
    kCheapPrepend < b.readerIndex ∧ b.makeSpace len = some
      { buffer := overwrite b.buffer kCheapPrepend b.toList
        readerIndex := kCheapPrepend
        writerIndex := kCheapPrepend + b.readableBytes } := by
  have h₁ := h.reader_le
  have h₂ := h.writer_le
  have hr : kCheapPrepend < b.readerIndex := by
    simp only [writableBytes, prependableBytes] at hlen hg; omega
  have hcopy := copyForward_eq b.buffer (n := b.readableBytes) hr.le
    (by simp only [readableBytes]; omega)
  rw [show b.readerIndex + b.readableBytes = b.writerIndex by simp only [readableBytes]; omega]
    at hcopy
  refine ⟨hr, ?_⟩
  rw [makeSpace, if_neg hg, if_pos hr]
  simp only
  rw [if_pos (by simp only [readableBytes]; omega), hcopy]
  rfl

/-- `makeSpace` keeps the readable bytes and leaves room for `len` more. -/
theorem makeSpace_spec (h : WF b) {len : ℕ} (hlen : b.writableBytes < len) :
    ∃ b', b.makeSpace len = some b' ∧ WF b' ∧ b'.toList = b.toList ∧ len ≤ b'.writableBytes ∧
      (kCheapPrepend ≤ b.readerIndex → kCheapPrepend ≤ b'.readerIndex) := by
  have h₁ := h.reader_le
  have h₂ := h.writer_le
  have h₃ := h.cheap_le
  by_cases hg : b.writableBytes + b.prependableBytes < len + kCheapPrepend
  · refine ⟨_, makeSpace_grow hg, ⟨h₁, ?_, ?_⟩, window_resize h₂ (Nat.le_add_right _ _), ?_,
      fun h => h⟩
    · rw [resize_length]; exact Nat.le_add_right _ _
    · rw [resize_length]; simp only [writableBytes] at hlen; omega
    · rw [writableBytes, resize_length]; dsimp only; omega
  · obtain ⟨hr, heq⟩ := makeSpace_compact h hlen hg
    have hw := h.length_toList
    simp only [writableBytes, prependableBytes, readableBytes] at hg hw hlen
    have hl := overwrite_length (d := b.toList)
      (show kCheapPrepend + b.toList.length ≤ b.buffer.length by omega)
    refine ⟨_, heq, ⟨Nat.le_add_right _ _, ?_, ?_⟩, ?_, ?_, fun _ => le_rfl⟩
    · rw [hl]; simp only [readableBytes]; omega
    · rw [hl]; exact h₃
    · have := window_overwrite_self (d := b.toList) h₃
      rwa [h.length_toList] at this
    · simp only [writableBytes, readableBytes]; rw [hl]; omega

theorem append_of_room (h : WF b) {data : List UInt8} (hroom : data.length ≤ b.writableBytes) :
    WF { b with
      buffer := overwrite b.buffer b.writerIndex data
      writerIndex := b.writerIndex + data.length } ∧
    window (overwrite b.buffer b.writerIndex data) b.readerIndex (b.writerIndex + data.length) =
      b.toList ++ data := by
  obtain ⟨h₁, h₂, h₃⟩ := h
  simp only [writableBytes] at hroom
  have hin : b.writerIndex + data.length ≤ b.buffer.length := by omega
  refine ⟨⟨?_, ?_, ?_⟩, ?_⟩
  · dsimp only; omega
  · rw [overwrite_length hin]; exact hin
  · rw [overwrite_length hin]; exact h₃
  · rw [window_append h₁ (Nat.le_add_right _ _), window_overwrite_left le_rfl h₂,
      window_overwrite_self h₂]
    rfl

/-- `append` adds at the back. -/
theorem append_spec (h : WF b) (data : List UInt8) :
    ∃ b', b.append data = some b' ∧ WF b' ∧ b'.toList = b.toList ++ data ∧
      (kCheapPrepend ≤ b.readerIndex → kCheapPrepend ≤ b'.readerIndex) := by
  by_cases hlt : b.writableBytes < data.length
  · obtain ⟨b₁, hm, hwf, htl, hroom, hch⟩ := makeSpace_spec h hlt
    obtain ⟨hwf', htl'⟩ := append_of_room hwf hroom
    refine ⟨_, ?_, hwf', ?_, hch⟩
    · rw [append, if_pos hlt, hm, Option.bind_some, if_pos hroom]
    · rw [toList, htl', htl]
  · have hroom : data.length ≤ b.writableBytes := not_lt.mp hlt
    obtain ⟨hwf', htl'⟩ := append_of_room h hroom
    refine ⟨_, ?_, hwf', htl', fun h => h⟩
    rw [append, if_neg hlt, Option.bind_some, if_pos hroom]

/-- `readFd` adds the bytes read at the back, and nothing on an error. -/
theorem readFd_spec (h : WF b) (saveErrno : Bool) (data : List UInt8) :
    ∃ b', b.readFd saveErrno (.bytes data) = some (b', (data.length : ℤ), none) ∧ WF b' ∧
      b'.toList = b.toList ++ data ∧
      (kCheapPrepend ≤ b.readerIndex → kCheapPrepend ≤ b'.readerIndex) := by
  by_cases hle : data.length ≤ b.writableBytes
  · obtain ⟨hwf', htl'⟩ := append_of_room h hle
    refine ⟨_, ?_, hwf', htl', fun h => h⟩
    simp only [readFd, if_pos hle, List.take_of_length_le hle]
  · -- the writable space is filled first, then the side buffer is appended
    have hfill : (data.take b.writableBytes).length = b.writableBytes := by
      rw [List.length_take]; omega
    obtain ⟨hwf₁, htl₁⟩ := append_of_room h hfill.le
    have hend : b.writerIndex + (data.take b.writableBytes).length =
        (overwrite b.buffer b.writerIndex (data.take b.writableBytes)).length := by
      have := h.writer_le
      rw [overwrite_length (by rw [hfill]; simp only [writableBytes]; omega), hfill, writableBytes]
      omega
    rw [hend] at hwf₁ htl₁
    obtain ⟨b', ha, hwf', htl', hch⟩ := append_spec hwf₁ (data.drop b.writableBytes)
    refine ⟨b', ?_, hwf', ?_, hch⟩
    · simp only [readFd, if_neg hle]
      rw [ha, Option.map_some]
    · rw [htl', toList, htl₁, List.append_assoc, List.take_append_drop]

end Buffer

/-- Well-formed buffers: what a connection holds. -/
structure Buf where
  raw : Buffer
  wf : raw.WF

namespace Buf

/-- The buffer behind an operation that is known to pass its assertions. -/
def ofOption (o : Option Buffer) (h : ∃ b, o = some b ∧ b.WF) : Buf :=
  ⟨o.get (by obtain ⟨b, hb, -⟩ := h; simp [hb]), by obtain ⟨b, rfl, hwf⟩ := h; exact hwf⟩

theorem ofOption_raw {o : Option Buffer} (h : ∃ b, o = some b ∧ b.WF) :
    o = some (ofOption o h).raw := by
  simp [ofOption]

/-- A buffer as `Buffer()` makes it. -/
def new : Buf :=
  ofOption (Buffer.new kInitialSize) (by
    obtain ⟨b, h, hwf, -⟩ := Buffer.new_spec kInitialSize
    exact ⟨b, h, hwf⟩)

def toList (b : Buf) : List UInt8 := b.raw.toList

def readableBytes (b : Buf) : ℕ := b.raw.readableBytes

def append (b : Buf) (data : List UInt8) : Buf :=
  ofOption (b.raw.append data) (by
    obtain ⟨b', h, hwf, -⟩ := Buffer.append_spec b.wf data
    exact ⟨b', h, hwf⟩)

/-- `retrieve`; only its own assertion can fail. -/
def retrieve (b : Buf) (len : ℕ) : Option Buf :=
  if h : len ≤ b.readableBytes then
    some (ofOption (b.raw.retrieve len) (by
      obtain ⟨b', h, hwf, -⟩ := Buffer.retrieve_spec b.wf h
      exact ⟨b', h, hwf⟩))
  else none

def retrieveAll (b : Buf) : Buf := ⟨b.raw.retrieveAll, b.wf.retrieveAll⟩

/-- The buffer after `readFd` took `data` from the descriptor. -/
def readBytes (b : Buf) (data : List UInt8) : Buf :=
  ofOption ((b.raw.readFd false (.bytes data)).map Prod.fst) (by
    obtain ⟨b', h, hwf, -⟩ := Buffer.readFd_spec b.wf false data
    exact ⟨b', by rw [h]; rfl, hwf⟩)

theorem raw_append (b : Buf) (data : List UInt8) : b.raw.append data = some (b.append data).raw :=
  ofOption_raw _

theorem raw_readFd (b : Buf) (data : List UInt8) :
    b.raw.readFd false (.bytes data) = some ((b.readBytes data).raw, (data.length : ℤ), none) := by
  obtain ⟨b', h, -⟩ := Buffer.readFd_spec b.wf false data
  simp [readBytes, ofOption, h]

theorem length_toList (b : Buf) : b.toList.length = b.readableBytes := b.wf.length_toList

theorem readableBytes_eq_zero {b : Buf} : b.readableBytes = 0 ↔ b.toList = [] := by
  rw [← b.length_toList, List.length_eq_zero_iff]

theorem raw_new : Buffer.new kInitialSize = some new.raw := ofOption_raw _

@[simp] theorem toList_new : new.toList = [] := by
  obtain ⟨b, h, -, htl, -⟩ := Buffer.new_spec kInitialSize
  rw [raw_new] at h
  rw [toList, Option.some.inj h, htl]

@[simp] theorem toList_append (b : Buf) (data : List UInt8) :
    (b.append data).toList = b.toList ++ data := by
  obtain ⟨b', h, -, htl, -⟩ := Buffer.append_spec b.wf data
  rw [raw_append] at h
  cases h
  exact htl

@[simp] theorem toList_readBytes (b : Buf) (data : List UInt8) :
    (b.readBytes data).toList = b.toList ++ data := by
  obtain ⟨b', h, -, htl, -⟩ := Buffer.readFd_spec b.wf false data
  rw [raw_readFd] at h
  cases h
  exact htl

@[simp] theorem toList_retrieveAll (b : Buf) : b.retrieveAll.toList = [] :=
  Buffer.toList_retrieveAll b.raw

theorem retrieve_eq_some {b b' : Buf} {len : ℕ} (h : b.retrieve len = some b') :
    len ≤ b.toList.length ∧ b'.toList = b.toList.drop len := by
  unfold retrieve at h
  split_ifs at h with hlen
  cases h
  obtain ⟨b', h, hwf, htl, -⟩ := Buffer.retrieve_spec b.wf hlen
  refine ⟨by rwa [length_toList], ?_⟩
  simp only [toList, ofOption, h, Option.get_some]
  exact htl

end Buf

end Polly
