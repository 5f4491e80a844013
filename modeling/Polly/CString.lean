import Mathlib

/-!
# CString — texts that end with a zero byte

A pointer to characters is the memory from there on, as far as it is known.  Its text ends at the
first zero byte.

* `cstr_append`: a text without zero bytes, and one behind it.
* `strrchr_eq_none`, `strrchr_eq_some`: the last occurrence of a character.
* `fputs_append_eq_iff`: when fputs(3) prints some bytes and no others.
-/

namespace CString

/-- The text at a pointer. -/
def cstr (mem : List UInt8) : List UInt8 := mem.takeWhile (· ≠ 0)

/-- strrchr(3) of a character other than the terminator, as an index. -/
def strrchr (mem : List UInt8) (c : UInt8) : Option ℕ :=
  ((cstr mem).reverse.idxOf? c).map fun i => (cstr mem).length - 1 - i

/-- What fputs(3) prints; `none` if it leaves the known memory. -/
def fputs (mem : List UInt8) : Option (List UInt8) := if 0 ∈ mem then some (cstr mem) else none

theorem zero_notMem_cstr (mem : List UInt8) : 0 ∉ cstr mem := by
  intro h
  have hne := List.mem_takeWhile_imp h
  simp at hne

theorem cstr_append {bs : List UInt8} (h : 0 ∉ bs) (rest : List UInt8) :
    cstr (bs ++ rest) = bs ++ cstr rest := by
  refine List.takeWhile_append_of_pos fun b hb => ?_
  rw [decide_eq_true_eq]
  rintro rfl
  exact h hb

theorem cstr_eq_nil_iff {mem : List UInt8} (h : 0 ∈ mem) : cstr mem = [] ↔ mem.head? = some 0 := by
  cases mem with
  | nil => cases h
  | cons b rest => simp [cstr, List.takeWhile_cons]

theorem cstr_terminated {bs : List UInt8} (h : 0 ∉ bs) : cstr (bs ++ [0]) = bs := by
  rw [cstr_append h]
  exact List.append_nil bs

theorem strrchr_eq_none {bs : List UInt8} {c : UInt8} (h : 0 ∉ bs) (hc : c ∉ bs) :
    strrchr (bs ++ [0]) c = none := by
  have hnone : bs.reverse.idxOf? c = none :=
    List.idxOf?_eq_none_iff.mpr fun hmem => hc (List.mem_reverse.mp hmem)
  rw [strrchr, cstr_terminated h, hnone, Option.map_none]

theorem idxOf?_append_cons {α : Type*} [DecidableEq α] {l₁ : List α} {c : α} (h : c ∉ l₁)
    (l₂ : List α) : (l₁ ++ c :: l₂).idxOf? c = some l₁.length := by
  induction l₁ with
  | nil => simp [List.idxOf?_cons]
  | cons a l₁ ih =>
    obtain ⟨hne, hmem⟩ := List.ne_and_not_mem_of_not_mem_cons h
    rw [List.cons_append, List.idxOf?_cons, if_neg (by simpa using hne.symm), ih hmem]
    rfl

theorem strrchr_eq_some {dir bs : List UInt8} {c : UInt8} (h : 0 ∉ dir ++ c :: bs) (hc : c ∉ bs) :
    strrchr (dir ++ c :: bs ++ [0]) c = some dir.length := by
  have hreverse : (dir ++ c :: bs).reverse = bs.reverse ++ c :: dir.reverse := by simp
  have hmem : c ∉ bs.reverse := fun hmem => hc (List.mem_reverse.mp hmem)
  rw [strrchr, cstr_terminated h, hreverse, idxOf?_append_cons hmem, Option.map_some,
    List.length_reverse, List.length_append, List.length_cons]
  congr 1
  omega

/-- The bytes are printed, and no others, if none of them is zero and a zero follows. -/
theorem fputs_append_eq_iff {bs rest : List UInt8} :
    fputs (bs ++ rest) = some bs ↔ 0 ∉ bs ∧ rest.head? = some 0 := by
  constructor
  · intro h
    rw [fputs] at h
    split_ifs at h with hmem
    have hcstr := Option.some.inj h
    have hzero : 0 ∉ bs := hcstr ▸ zero_notMem_cstr _
    rw [cstr_append hzero, List.append_right_eq_self] at hcstr
    exact ⟨hzero, (cstr_eq_nil_iff ((List.mem_append.mp hmem).resolve_left hzero)).mp hcstr⟩
  · rintro ⟨hzero, hhead⟩
    have hrest : 0 ∈ rest := List.mem_of_head? hhead
    rw [fputs, if_pos (List.mem_append_right bs hrest), cstr_append hzero,
      (cstr_eq_nil_iff hrest).mpr hhead, List.append_nil]

end CString
