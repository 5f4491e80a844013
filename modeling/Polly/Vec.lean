import Mathlib

/-!
# Vec — storage operations of a contiguous vector, on lists

* `overwrite l i d`: store `d` at position `i` (a copy from outside the vector).
* `copyForward l first dest n`: the element-by-element forward copy inside one vector, as
  `std::copy` does it; `copyForward_eq`: with `dest ≤ first` the overlap does no harm.
* `resize l n x`: cut or extend to length `n`.
* `window l i j`: the elements at positions `[i, j)`, with what the operations above do to it.
-/

namespace Vec

variable {α : Type*}

def overwrite (l : List α) (i : ℕ) (d : List α) : List α :=
  l.take i ++ d ++ l.drop (i + d.length)

/-- Copy `n` elements from `first` on to `dest` on, lowest position first. -/
def copyForward (l : List α) (first dest : ℕ) : ℕ → List α
  | 0 => l
  | n + 1 =>
    match l[first]? with
    | some x => copyForward (l.set dest x) (first + 1) (dest + 1) n
    | none => l

def resize (l : List α) (n : ℕ) (x : α) : List α := l.take n ++ List.replicate (n - l.length) x

def window (l : List α) (i j : ℕ) : List α := (l.drop i).take (j - i)

/-! ### Lengths -/

theorem overwrite_length {l d : List α} {i : ℕ} (h : i + d.length ≤ l.length) :
    (overwrite l i d).length = l.length := by
  simp only [overwrite, List.length_append, List.length_take, List.length_drop]
  omega

@[simp] theorem resize_length (l : List α) (n : ℕ) (x : α) : (resize l n x).length = n := by
  simp only [resize, List.length_append, List.length_take, List.length_replicate]
  omega

theorem window_length {l : List α} {i j : ℕ} (h : j ≤ l.length) :
    (window l i j).length = j - i := by
  simp only [window, List.length_drop, List.length_take]
  omega

/-! ### Windows -/

@[simp] theorem window_self (l : List α) (i : ℕ) : window l i i = [] := by
  simp [window]

theorem window_append {l : List α} {i j k : ℕ} (hij : i ≤ j) (hjk : j ≤ k) :
    window l i k = window l i j ++ window l j k := by
  simp only [window]
  rw [show k - i = (j - i) + (k - j) by omega, List.take_add, List.drop_drop,
    show i + (j - i) = j by omega]

theorem window_drop (l : List α) (i j n : ℕ) : (window l i j).drop n = window l (i + n) j := by
  simp only [window]
  rw [List.drop_take, List.drop_drop, Nat.sub_sub]

/-- A window that ends before the written part does not change. -/
theorem window_overwrite_left {l d : List α} {i j k : ℕ} (hk : k ≤ i) (hi : i ≤ l.length) :
    window (overwrite l i d) j k = window l j k := by
  simp only [window, overwrite]
  rw [← List.drop_take, ← List.drop_take, List.append_assoc,
    List.take_append_of_le_length (by rw [List.length_take]; omega), List.take_take,
    min_eq_left hk]

/-- A window that starts behind the written part does not change. -/
theorem window_overwrite_right {l d : List α} {i j k : ℕ} (hj : i + d.length ≤ j)
    (hi : i ≤ l.length) : window (overwrite l i d) j k = window l j k := by
  have hlen : (l.take i ++ d).length = i + d.length := by
    rw [List.length_append, List.length_take]; omega
  simp only [window, overwrite]
  rw [List.drop_append, hlen, List.drop_eq_nil_of_le (by omega), List.nil_append, List.drop_drop,
    show i + d.length + (j - (i + d.length)) = j by omega]

/-- The written part itself. -/
theorem window_overwrite_self {l d : List α} {i : ℕ} (hi : i ≤ l.length) :
    window (overwrite l i d) i (i + d.length) = d := by
  have hlen : (l.take i).length = i := by rw [List.length_take]; omega
  simp only [window, overwrite]
  rw [List.append_assoc, List.drop_append, List.drop_eq_nil_of_le hlen.le, hlen, Nat.sub_self,
    List.drop_zero, List.nil_append, Nat.add_sub_cancel_left, List.take_left]

theorem window_resize {l : List α} {n i j : ℕ} {x : α} (hj : j ≤ l.length) (hn : j ≤ n) :
    window (resize l n x) i j = window l i j := by
  simp only [window, resize]
  rw [← List.drop_take, ← List.drop_take,
    List.take_append_of_le_length (by rw [List.length_take]; omega), List.take_take,
    min_eq_left hn]

/-! ### The forward copy -/

theorem copyForward_eq (l : List α) {first dest n : ℕ} (hd : dest ≤ first)
    (hn : first + n ≤ l.length) :
    copyForward l first dest n = overwrite l dest (window l first (first + n)) := by
  induction n generalizing l first dest with
  | zero => simp [copyForward, overwrite]
  | succ n ih =>
    have hlt : first < l.length := by omega
    rw [copyForward, List.getElem?_eq_getElem hlt]
    simp only
    rw [ih (l.set dest l[first]) (by omega) (by rw [List.length_set]; omega)]
    -- what is still to be read lies behind the written cell
    have hw : window (l.set dest l[first]) (first + 1) (first + 1 + n) =
        window l (first + 1) (first + 1 + n) := by
      simp only [window]
      rw [List.drop_set_of_lt (by omega)]
    have hc : window l first (first + (n + 1)) =
        l[first] :: window l (first + 1) (first + 1 + n) := by
      simp only [window]
      rw [List.drop_eq_getElem_cons hlt,
        show first + (n + 1) - first = n + 1 by omega, List.take_succ_cons,
        show first + 1 + n - (first + 1) = n by omega]
    rw [hw, hc]
    have hlen : (window l (first + 1) (first + 1 + n)).length = n := by
      rw [window_length (by omega)]; omega
    simp only [overwrite, List.length_cons, hlen]
    rw [List.drop_set_of_lt (by omega), List.take_add_one, List.getElem?_set_self (by omega),
      List.take_set_of_le (le_refl _)]
    simp only [Option.toList_some, List.append_assoc, List.cons_append, List.nil_append]
    congr 4
    omega

end Vec
