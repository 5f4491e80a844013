import Polly.BufferRun

/-!
# BufferGrowth — the size of the vector behind a buffer

`makeSpace` resizes the vector only if the room before and behind the readable bytes together does
not do; then the reader stands at most `len + kCheapPrepend` bytes into it, and the new size is at
most twice what is readable afterwards, up to the reserved area.  Everything else leaves the size
alone.

* `Grows`: what an operation may do to the size; one lemma per operation that can change it.
* `size_le_peak`: over whole runs the size stays below the largest content ever held, doubled.
-/

namespace Polly.Buffer

open Runs Vec

/-- `buffer_.size()`. -/
def size (b : Buffer) : ℕ := b.buffer.length

/-- From `b` to `b'` the vector does not shrink, and if it grows then to a size in proportion to
what is readable in `b'`. -/
structure Grows (b b' : Buffer) : Prop where
  le : b.size ≤ b'.size
  bound : b'.size = b.size ∨ b'.size ≤ 2 * b'.readableBytes + kCheapPrepend

variable {b b' : Buffer}

theorem Grows.of_eq (h : b'.size = b.size) : Grows b b' := ⟨h.ge, Or.inl h⟩

theorem new_size {initialSize : ℕ} (h : new initialSize = some b) : b.size = 8 + initialSize := by
  unfold new at h
  dsimp only at h
  split_ifs at h
  cases h
  exact List.length_replicate

theorem append_grows (h : WF b) {data : List UInt8} (ha : b.append data = some b') :
    Grows b b' := by
  obtain ⟨h₁, h₂, h₃⟩ := h
  unfold append at ha
  by_cases hlt : b.writableBytes < data.length
  · rw [if_pos hlt] at ha
    by_cases hg : b.writableBytes + b.prependableBytes < data.length + kCheapPrepend
    · rw [makeSpace_grow hg, Option.bind_some] at ha
      have hlen : (resize b.buffer (b.writerIndex + data.length) 0).length =
          b.writerIndex + data.length := resize_length ..
      split_ifs at ha
      cases ha
      have hsize := overwrite_length (d := data) hlen.ge
      simp only [writableBytes, prependableBytes] at hlt hg
      constructor
      · simp only [size]
        omega
      · right
        simp only [size, readableBytes]
        omega
    · obtain ⟨hr, heq⟩ := makeSpace_compact ⟨h₁, h₂, h₃⟩ hlt hg
      rw [heq, Option.bind_some] at ha
      have hread : b.toList.length = b.readableBytes := WF.length_toList ⟨h₁, h₂, h₃⟩
      simp only [writableBytes, prependableBytes, readableBytes] at hlt hg hread
      have hcopy : (overwrite b.buffer kCheapPrepend b.toList).length = b.buffer.length :=
        overwrite_length (by omega)
      split_ifs at ha with hroom
      cases ha
      simp only [writableBytes, readableBytes] at hroom
      refine Grows.of_eq ?_
      simp only [size, readableBytes]
      rw [overwrite_length (by omega), hcopy]
  · rw [if_neg hlt, Option.bind_some] at ha
    split_ifs at ha with hroom
    cases ha
    simp only [writableBytes] at hroom
    exact Grows.of_eq (overwrite_length (by omega))

theorem prepend_grows (h : WF b) {data : List UInt8} (hp : b.prepend data = some b') :
    Grows b b' := by
  have h₁ := h.reader_le
  have h₂ := h.writer_le
  unfold prepend at hp
  split_ifs at hp with hlen
  cases hp
  simp only [prependableBytes] at hlen
  exact Grows.of_eq (overwrite_length (by omega))

theorem retrieve_grows {len : ℕ} (hr : b.retrieve len = some b') : Grows b b' := by
  unfold retrieve at hr
  split_ifs at hr <;> cases hr <;> exact Grows.of_eq rfl

theorem readFd_grows (h : WF b) {r : Readv} {o : ℤ × Option ℤ}
    (hr : b.readFd false r = some (b', o)) : Grows b b' := by
  have h₂ := h.writer_le
  cases r with
  | error errno =>
    cases hr
    exact Grows.of_eq rfl
  | bytes data =>
    have hfill : (overwrite b.buffer b.writerIndex (data.take b.writableBytes)).length =
        b.buffer.length := by
      refine overwrite_length ?_
      rw [List.length_take, writableBytes]
      omega
    simp only [readFd] at hr
    split_ifs at hr with hle
    · cases hr
      exact Grows.of_eq hfill
    · -- the side buffer is appended behind a vector that is full
      obtain ⟨b'', happ, heq⟩ := Option.map_eq_some_iff.mp hr
      cases heq
      have hwf : WF { b with
          buffer := overwrite b.buffer b.writerIndex (data.take b.writableBytes)
          writerIndex :=
            (overwrite b.buffer b.writerIndex (data.take b.writableBytes)).length } := by
        have h₁ := h.reader_le
        have h₃ := h.cheap_le
        refine ⟨?_, le_rfl, ?_⟩
        · dsimp only
          omega
        · dsimp only
          omega
      obtain ⟨hle', hbound⟩ := append_grows hwf happ
      simp only [size] at hle' hbound
      rw [hfill] at hle' hbound
      exact ⟨hle', hbound⟩

/-! ### Runs -/

section Runs

variable {ι : Type*} [DecidableEq ι] {bs bs' : ι → Buffer}

def Op.isSwap : Op ι → Bool
  | .swap _ _ => true
  | _ => false

theorem step_grows {op : Op ι} (hwf : ∀ i, WF (bs i)) (hop : op.isSwap = false)
    (h : step bs op = some bs') (i : ι) : Grows (bs i) (bs' i) := by
  have hupd : ∀ {j : ι} {b : Buffer}, Grows (bs j) b → Grows (bs i) (Function.update bs j b i) := by
    intro j b hb
    by_cases hij : i = j
    · subst hij
      rwa [Function.update_self]
    · rw [Function.update_of_ne hij]
      exact Grows.of_eq rfl
  cases op with
  | append j data =>
    obtain ⟨b, hb, rfl⟩ := Option.map_eq_some_iff.mp h
    exact hupd (append_grows (hwf j) hb)
  | prepend j data =>
    obtain ⟨b, hb, rfl⟩ := Option.map_eq_some_iff.mp h
    exact hupd (prepend_grows (hwf j) hb)
  | retrieve j len =>
    obtain ⟨b, hb, rfl⟩ := Option.map_eq_some_iff.mp h
    exact hupd (retrieve_grows hb)
  | retrieveAll j =>
    cases h
    exact hupd (Grows.of_eq rfl)
  | swap j k => cases hop
  | readFd j r =>
    obtain ⟨⟨b, o⟩, hb, rfl⟩ := Option.map_eq_some_iff.mp h
    exact hupd (readFd_grows (hwf j) hb)

/-- The largest `readableBytes()` of buffer `i` in the run. -/
def peak (i : ι) (bs : ι → Buffer) : List (Op ι) → ℕ
  | [] => (bs i).readableBytes
  | op :: ops => max (bs i).readableBytes ((step bs op).elim 0 fun bs' => peak i bs' ops)

theorem readableBytes_le_peak (i : ι) (bs : ι → Buffer) (ops : List (Op ι)) :
    (bs i).readableBytes ≤ peak i bs ops := by
  cases ops with
  | nil => exact le_rfl
  | cons op ops => exact le_max_left _ _

theorem peak_cons {op : Op ι} (i : ι) (ops : List (Op ι)) (h : step bs op = some bs') :
    peak i bs' ops ≤ peak i bs (op :: ops) := by
  rw [peak, h, Option.elim_some]
  exact le_max_right _ _

theorem step_wf {op : Op ι} (hwf : ∀ i, WF (bs i)) (hpre : Pre bs op) (h : step bs op = some bs') :
    ∀ i, WF (bs' i) := by
  have hself : Holds bs fun i => (bs i).toList := fun i => ⟨hwf i, rfl⟩
  obtain ⟨bs'', hs, hholds⟩ := step_holds hself op hpre
  rw [h] at hs
  cases hs
  exact fun i => (hholds i).1

/-- Along a run the size is what it was, or bounded by the largest content reached on the way. -/
theorem run_size {ops : List (Op ι)} (hwf : ∀ i, WF (bs i)) (hpre : Along step Pre bs ops)
    (hops : ∀ op ∈ ops, op.isSwap = false) (h : run step bs ops = some bs') (i : ι) :
    (bs' i).size = (bs i).size ∨ (bs' i).size ≤ 2 * peak i bs ops + kCheapPrepend := by
  induction ops generalizing bs with
  | nil =>
    cases h
    exact Or.inl rfl
  | cons op ops ih =>
    obtain ⟨bs₁, h₁, h₂⟩ := run_cons_some.mp h
    have hpeak := peak_cons i ops h₁
    rcases ih (step_wf hwf hpre.1 h₁) (hpre.2 bs₁ h₁) (fun o ho => hops o (by simp [ho])) h₂ with
      hsame | hle
    · have hgrows := step_grows hwf (hops op (by simp)) h₁ i
      have hread := readableBytes_le_peak i bs₁ ops
      rw [hsame]
      rcases hgrows.bound with heq | hle
      · exact Or.inl heq
      · right
        omega
    · right
      omega

/-- **Memory in proportion to the contents.**  For all initial sizes and every run without `swap`
of operations within their preconditions, the vector of every buffer never shrinks, and its size is
at most the initial one or twice the largest number of readable bytes reached, plus the reserved
area. -/
theorem size_le_peak (sizes : ι → ℕ) :
    ∃ bs₀, (∀ i, new (sizes i) = some (bs₀ i)) ∧
      ∀ ops, Along step Pre bs₀ ops → (∀ op ∈ ops, op.isSwap = false) →
        ∃ bs, run step bs₀ ops = some bs ∧
          ∀ i, (bs i).size ≤ max (8 + sizes i) (2 * peak i bs₀ ops + 8) ∧
            Along step (fun bs op => ∀ bs', step bs op = some bs' → (bs i).size ≤ (bs' i).size)
              bs₀ ops := by
  choose bs₀ hnew hwf hnil hch using fun i => new_spec (sizes i)
  refine ⟨bs₀, hnew, fun ops hpre hops => ?_⟩
  obtain ⟨bs, hrun, -⟩ := run_refines (R := Holds) (g := dequeStep)
    (fun _ _ op h hp => step_holds h op hp) hpre (t := fun _ => []) (fun i => ⟨hwf i, hnil i⟩)
  refine ⟨bs, hrun, fun i => ⟨?_, ?_⟩⟩
  · rw [← new_size (hnew i)]
    rcases run_size hwf hpre hops hrun i with heq | hle
    · exact heq.le.trans (le_max_left _ _)
    · exact hle.trans (le_max_right _ _)
  · refine Along.of_inv (I := fun bs => ∀ i, WF (bs i))
      (C := fun bs op => Pre bs op ∧ op.isSwap = false) ?_ ?_ (hpre.and (along_of_forall bs₀ hops))
      hwf
    · exact fun bs op hI hC bs' h => (step_grows hI hC.2 h i).le
    · exact fun bs op bs' hI hC h => step_wf hI hC.1 h

end Runs

end Polly.Buffer
