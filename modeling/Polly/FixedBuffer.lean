import Polly.Vec

/-!
# FixedBuffer — arrays filled from the front (`util/buffer.h`)

A `FixedBuffer N` is an array of `N` bytes and the position behind the last one written; both bounds
are fields.  `append` refuses (`none`) where the code's assertion fails.  `reset` forgets the bytes
without clearing them.
-/

namespace Polly

def kSmallBufferSize : ℕ := 4096

structure FixedBuffer (N : ℕ) where
  data : List UInt8
  cur : ℕ
  length_data : data.length = N
  cur_le : cur ≤ N

namespace FixedBuffer

variable {N : ℕ}

def new : FixedBuffer N where
  data := List.replicate N 0
  cur := 0
  length_data := List.length_replicate
  cur_le := Nat.zero_le N

def size (b : FixedBuffer N) : ℕ := b.cur

def slice (b : FixedBuffer N) : List UInt8 := b.data.take b.size

/-- Available space. -/
def space (b : FixedBuffer N) : ℕ := N - b.cur

def reset (b : FixedBuffer N) : FixedBuffer N := { b with cur := 0, cur_le := Nat.zero_le N }

def append (b : FixedBuffer N) (s : List UInt8) : Option (FixedBuffer N) :=
  if h : s.length ≤ b.space then
    have hle : b.cur + s.length ≤ N := by
      have := b.cur_le
      unfold space at h
      omega
    some
      { data := Vec.overwrite b.data b.cur s
        cur := b.cur + s.length
        length_data := by
          rw [Vec.overwrite_length (by rw [b.length_data]; exact hle), b.length_data]
        cur_le := hle }
  else none

@[simp] theorem slice_new : (new : FixedBuffer N).slice = [] := List.take_zero

@[simp] theorem slice_reset (b : FixedBuffer N) : b.reset.slice = [] := List.take_zero

theorem length_slice (b : FixedBuffer N) : b.slice.length = b.size := by
  have := b.cur_le
  rw [slice, List.length_take, b.length_data, size]
  omega

/-- A buffer without bytes has all its space. -/
theorem space_of_slice_nil {b : FixedBuffer N} (h : b.slice = []) : b.space = N := by
  have hlen := b.length_slice
  rw [h, List.length_nil, size] at hlen
  rw [space, ← hlen, Nat.sub_zero]

theorem append_isSome {b : FixedBuffer N} {s : List UInt8} :
    (b.append s).isSome ↔ s.length ≤ b.space := by
  unfold append
  split_ifs with h <;> simp [h]

/-- `append` adds to what is stored. -/
theorem slice_append {b b' : FixedBuffer N} {s : List UInt8} (h : b.append s = some b') :
    b'.slice = b.slice ++ s := by
  unfold append at h
  split_ifs at h
  cases h
  have hcur : (b.data.take b.cur).length = b.cur := b.length_slice
  have hsplit : Vec.overwrite b.data b.cur s =
      b.data.take b.cur ++ s ++ b.data.drop (b.cur + s.length) := rfl
  simp only [slice, size]
  rw [hsplit, List.take_left' (by rw [List.length_append, hcur])]

theorem space_append {b b' : FixedBuffer N} {s : List UInt8} (h : b.append s = some b') :
    b'.space + s.length = b.space := by
  unfold append at h
  split_ifs at h with hle
  cases h
  simp only [space] at hle ⊢
  omega

/-- The bytes behind the stored ones are still those of the constructor. -/
def ZeroTail (b : FixedBuffer N) : Prop := b.data = b.slice ++ List.replicate b.space 0

theorem zeroTail_new : (new : FixedBuffer N).ZeroTail := by
  rw [ZeroTail, slice_new, List.nil_append]
  rfl

theorem zeroTail_append {b b' : FixedBuffer N} {s : List UInt8} (hb : b.ZeroTail)
    (h : b.append s = some b') : b'.ZeroTail := by
  have hslice := slice_append h
  have hspace := space_append h
  unfold append at h
  split_ifs at h
  cases h
  have hdrop : b.data.drop (b.cur + s.length) = List.replicate (b.space - s.length) 0 := by
    have hcur : b.cur + s.length = b.slice.length + s.length := by rw [b.length_slice, size]
    rw [hb, hcur, List.drop_length_add_append, List.drop_replicate]
  rw [ZeroTail, hslice, Nat.eq_sub_of_add_eq hspace, ← hdrop]
  rfl

end FixedBuffer

end Polly
