import Polly.Buffer

/-!
# BufferRun — buffers refine byte deques

Any number of buffers (`ι` names them) of any initial sizes, run through any sequence of the
operations of `Buffer`, each within its precondition.  The reference keeps one list of bytes per
buffer.

* `run_deques`: no assertion fails, the readable bytes are those of the reference, the indices stay
  in order, and without `prepend` the reserved area is never given away.
* `deque_refines_iff`: that is so of every run of constructed buffers exactly if the sizes of all
  their vectors, `kCheapPrepend + initialSize`, are a `size_t`.
-/

namespace Polly.Buffer

open Runs

variable {ι : Type*} [DecidableEq ι]

inductive Op (ι : Type*) where
  | append (i : ι) (data : List UInt8)
  | prepend (i : ι) (data : List UInt8)
  | retrieve (i : ι) (len : ℕ)
  | retrieveAll (i : ι)
  | swap (i j : ι)
  | readFd (i : ι) (r : Readv)
  deriving DecidableEq, Repr

def Op.isPrepend : Op ι → Bool
  | .prepend _ _ => true
  | _ => false

/-- One operation on the buffers; `none` if an assertion fails. -/
def step (bs : ι → Buffer) : Op ι → Option (ι → Buffer)
  | .append i data => ((bs i).append data).map (Function.update bs i)
  | .prepend i data => ((bs i).prepend data).map (Function.update bs i)
  | .retrieve i len => ((bs i).retrieve len).map (Function.update bs i)
  | .retrieveAll i => some (Function.update bs i (bs i).retrieveAll)
  | .swap i j =>
    let p := (bs i).swap (bs j)
    some (Function.update (Function.update bs i p.1) j p.2)
  | .readFd i r => ((bs i).readFd false r).map (fun o => Function.update bs i o.1)

/-- What the callers promise: `prepend` and `retrieve` stay within the room and the data there
is, and readv does not return more than it was offered room for. -/
def Pre (bs : ι → Buffer) : Op ι → Prop
  | .prepend i data => data.length ≤ (bs i).prependableBytes
  | .retrieve i len => len ≤ (bs i).readableBytes
  | .readFd i (.bytes data) => data.length ≤ (bs i).offered
  | _ => True

/-- The reference: byte deques. -/
def dequeStep (ls : ι → List UInt8) : Op ι → ι → List UInt8
  | .append i data => Function.update ls i (ls i ++ data)
  | .prepend i data => Function.update ls i (data ++ ls i)
  | .retrieve i len => Function.update ls i ((ls i).drop len)
  | .retrieveAll i => Function.update ls i []
  | .swap i j => Function.update (Function.update ls i (ls j)) j (ls i)
  | .readFd i (.bytes data) => Function.update ls i (ls i ++ data)
  | .readFd _ (.error _) => ls

/-- Every buffer is well-formed and holds what its deque holds. -/
def Holds (bs : ι → Buffer) (ls : ι → List UInt8) : Prop :=
  ∀ i, WF (bs i) ∧ (bs i).toList = ls i

theorem Holds.update {bs : ι → Buffer} {ls : ι → List UInt8} (h : Holds bs ls) {i : ι} {b : Buffer}
    {l : List UInt8} (hb : WF b) (hl : b.toList = l) :
    Holds (Function.update bs i b) (Function.update ls i l) := by
  intro j
  by_cases hj : j = i
  · subst hj; simp [hb, hl]
  · simp [hj, h j]

theorem step_holds {bs : ι → Buffer} {ls : ι → List UInt8} (h : Holds bs ls) (op : Op ι)
    (hpre : Pre bs op) : ∃ bs', step bs op = some bs' ∧ Holds bs' (dequeStep ls op) := by
  cases op with
  | append i data =>
    obtain ⟨b, heq, hwf, htl, -⟩ := append_spec (h i).1 data
    exact ⟨_, by rw [step, heq]; rfl, h.update hwf (by rw [htl, (h i).2])⟩
  | prepend i data =>
    obtain ⟨b, heq, hwf, htl⟩ := prepend_spec (h i).1 hpre
    exact ⟨_, by rw [step, heq]; rfl, h.update hwf (by rw [htl, (h i).2])⟩
  | retrieve i len =>
    obtain ⟨b, heq, hwf, htl, -⟩ := retrieve_spec (h i).1 hpre
    exact ⟨_, by rw [step, heq]; rfl, h.update hwf (by rw [htl, (h i).2])⟩
  | retrieveAll i => exact ⟨_, rfl, h.update (h i).1.retrieveAll (toList_retrieveAll _)⟩
  | swap i j => exact ⟨_, rfl, (h.update (h j).1 (h j).2).update (h i).1 (h i).2⟩
  | readFd i r =>
    cases r with
    | error errno =>
      refine ⟨bs, ?_, h⟩
      simp [step, readFd]
    | bytes data =>
      obtain ⟨b, heq, hwf, htl, -⟩ := readFd_spec (h i).1 false data
      exact ⟨_, by rw [step, heq]; rfl, h.update hwf (by rw [htl, (h i).2])⟩

/-- Without `prepend` the reader never enters the reserved area. -/
theorem step_cheap {bs bs' : ι → Buffer} {op : Op ι}
    (h : ∀ i, WF (bs i) ∧ kCheapPrepend ≤ (bs i).readerIndex) (hpre : Pre bs op)
    (hop : op.isPrepend = false) (hs : step bs op = some bs') :
    ∀ i, WF (bs' i) ∧ kCheapPrepend ≤ (bs' i).readerIndex := by
  have hupd : ∀ {i : ι} {b : Buffer}, WF b → kCheapPrepend ≤ b.readerIndex → ∀ j,
      WF (Function.update bs i b j) ∧ kCheapPrepend ≤ (Function.update bs i b j).readerIndex := by
    intro i b hb hr
    exact (Function.forall_update_iff bs fun _ b => WF b ∧ kCheapPrepend ≤ b.readerIndex).mpr
      ⟨⟨hb, hr⟩, fun j _ => h j⟩
  cases op with
  | append i data =>
    obtain ⟨b, heq, hwf, -, hch⟩ := append_spec (h i).1 data
    rw [step, heq] at hs
    cases hs
    exact hupd hwf (hch (h i).2)
  | prepend i data => cases hop
  | retrieve i len =>
    obtain ⟨b, heq, hwf, -, hch⟩ := retrieve_spec (h i).1 hpre
    rw [step, heq] at hs
    cases hs
    exact hupd hwf (hch (h i).2)
  | retrieveAll i =>
    cases hs
    exact hupd (h i).1.retrieveAll le_rfl
  | swap i j =>
    cases hs
    intro k
    by_cases hk : k = j
    · subst hk; simp [swap, h i]
    · rw [Function.update_of_ne hk]
      exact hupd (h j).1 (h j).2 k
  | readFd i r =>
    cases r with
    | error errno =>
      simp only [step, readFd, Option.map_some, Function.update_eq_self, Option.some.injEq] at hs
      subst hs
      exact h
    | bytes data =>
      obtain ⟨b, heq, hwf, -, hch⟩ := readFd_spec (h i).1 false data
      rw [step, heq] at hs
      cases hs
      exact hupd hwf (hch (h i).2)

/-- What a run of operations from `bs₀` is to do: it passes all assertions, and at its end every
buffer holds the bytes of its deque between indices that are in order inside the vector, and if the
run has no `prepend`, at least `kCheapPrepend` bytes are prependable. -/
def RefinesDeques (bs₀ : ι → Buffer) (ops : List (Op ι)) : Prop :=
  ∃ bs, run step bs₀ ops = some bs ∧
    ∀ i, (bs i).toList = ops.foldl dequeStep (fun _ => []) i ∧
      (bs i).readerIndex ≤ (bs i).writerIndex ∧
      (bs i).writerIndex ≤ (bs i).buffer.length ∧
      ((∀ op ∈ ops, op.isPrepend = false) → kCheapPrepend ≤ (bs i).prependableBytes)

theorem run_deques {bs₀ : ι → Buffer} {sizes : ι → ℕ} (hnew : ∀ i, new (sizes i) = some (bs₀ i))
    {ops : List (Op ι)} (hpre : Along step Pre bs₀ ops) : RefinesDeques bs₀ ops := by
  have hstart : ∀ i, WF (bs₀ i) ∧ (bs₀ i).toList = [] ∧ (bs₀ i).readerIndex = kCheapPrepend := by
    intro i
    obtain ⟨b, hb, hspec⟩ := new_spec (sizes i)
    rw [hnew i] at hb
    cases hb
    exact hspec
  obtain ⟨bs, hrun, hholds⟩ := run_refines (R := Holds) (g := dequeStep)
    (fun _ _ op h hp => step_holds h op hp) hpre (t := fun _ => [])
    (fun i => ⟨(hstart i).1, (hstart i).2.1⟩)
  refine ⟨bs, hrun, fun i => ⟨(hholds i).2, (hholds i).1.reader_le, (hholds i).1.writer_le, ?_⟩⟩
  intro hno
  have hinv := run_inv_along (I := fun bs => ∀ i, WF (bs i) ∧ kCheapPrepend ≤ (bs i).readerIndex)
    (fun _ _ _ h hp hs => step_cheap h hp.1 hp.2 hs) hrun (hpre.and (along_of_forall bs₀ hno))
    (fun i => ⟨(hstart i).1, (hstart i).2.2.ge⟩)
  exact (hinv i).2

/-- **Buffers refine byte deques.**  The constructors succeed and every run of operations within
their preconditions does what the deques do, if and only if no initial size is among the last
`kCheapPrepend` values of a `size_t`. -/
theorem deque_refines_iff (sizes : ι → BitVec 64) :
    (∃ bs₀, (∀ i, construct (sizes i) = some (bs₀ i)) ∧
        ∀ ops, Along step Pre bs₀ ops → RefinesDeques bs₀ ops) ↔
      ∀ i, (sizes i).toNat < 2 ^ 64 - kCheapPrepend := by
  constructor
  · rintro ⟨bs₀, hbs, hops⟩ i
    by_contra hlarge
    -- before any operation the write index lies behind the vector
    obtain ⟨bs, hrun, hend⟩ := hops [] trivial
    cases hrun
    have hlt := construct_wrapped (not_lt.mp hlarge) (hbs i)
    have hle := (hend i).2.2.1
    omega
  · intro hsizes
    choose bs₀ hnew _ using fun i => new_spec (sizes i).toNat
    exact ⟨bs₀, fun i => (construct_eq_new (hsizes i)).trans (hnew i),
      fun ops hpre => run_deques hnew hpre⟩

/-- `Buffer(SIZE_MAX)`: the assertions pass, and the vector has 7 bytes with both indices at 8. -/
theorem deque_refines_sizeMax : ∃ b, construct (BitVec.ofNat 64 (2 ^ 64 - 1)) = some b ∧
    b.buffer.length = 7 ∧ b.readerIndex = 8 ∧ b.writerIndex = 8 :=
  ⟨_, construct_eq _, by decide, rfl, rfl⟩

end Polly.Buffer
