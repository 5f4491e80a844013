import Mathlib

/-!
# Multimap — ordered tables with repeated keys (`std::multimap`)

A `Multimap` is a list of entries sorted by key.  `emplace` inserts behind the entries with the same
key, so that equal keys keep their order of insertion; `below k` are the entries before
`lower_bound(k)` and `eraseBelow k` the table without them.

* `filter_key_emplace`: what `emplace` does to the entries of each key.
* `below_eq_filter` / `eraseBelow_eq_filter`: a bound in a sorted table selects by the key.
* `foldl_emplace_below`: emplacing the entries below a bound into an empty table keeps them as they
  are.
-/

structure Multimap (κ α : Type*) [LinearOrder κ] where
  entries : List (κ × α)
  sorted : entries.Pairwise fun a b => a.1 ≤ b.1

namespace Multimap

variable {κ α : Type*} [LinearOrder κ] (m : Multimap κ α) (k : κ) (v : α)

/-- In a list that satisfies `p` first and then no more, the longest initial part is the filter. -/
theorem takeWhile_eq_filter {β : Type*} {p : β → Bool} {l : List β}
    (h : l.Pairwise fun a b => p b → p a) :
    l.takeWhile p = l.filter p ∧ l.dropWhile p = l.filter fun a => !p a := by
  induction l with
  | nil => exact ⟨rfl, rfl⟩
  | cons a l ih =>
    obtain ⟨ha, hl⟩ := List.pairwise_cons.mp h
    by_cases hp : p a
    · obtain ⟨ih₁, ih₂⟩ := ih hl
      simp [hp, ih₁, ih₂]
    · have hnone : ∀ b ∈ l, p b = false := fun b hb => by
        by_contra hpb
        exact hp (ha b hb (by simpa using hpb))
      have h₁ : l.filter p = [] := List.filter_eq_nil_iff.mpr fun b hb => by simp [hnone b hb]
      have h₂ : (l.filter fun b => !p b) = l := List.filter_eq_self.mpr fun b hb => by
        simp [hnone b hb]
      simp [hp, h₁, h₂]

def empty : Multimap κ α := ⟨[], List.Pairwise.nil⟩

theorem below_pairwise : m.entries.Pairwise fun a b => decide (b.1 < k) → decide (a.1 < k) :=
  m.sorted.imp fun {a b} hab hb => by
    rw [decide_eq_true_eq] at hb ⊢
    exact lt_of_le_of_lt hab hb

theorem upTo_pairwise : m.entries.Pairwise fun a b => decide (b.1 ≤ k) → decide (a.1 ≤ k) :=
  m.sorted.imp fun {a b} hab hb => by
    rw [decide_eq_true_eq] at hb ⊢
    exact hab.trans hb

/-- The entries before `lower_bound(k)`. -/
def below : List (κ × α) := m.entries.takeWhile fun e => e.1 < k

theorem below_eq_filter : m.below k = m.entries.filter fun e => e.1 < k :=
  (takeWhile_eq_filter (m.below_pairwise k)).1

/-- `erase(begin(), lower_bound(k))`. -/
def eraseBelow : Multimap κ α where
  entries := m.entries.dropWhile fun e => e.1 < k
  sorted := m.sorted.sublist (List.dropWhile_sublist _)

theorem eraseBelow_eq_filter :
    (m.eraseBelow k).entries = m.entries.filter fun e => !decide (e.1 < k) :=
  (takeWhile_eq_filter (m.below_pairwise k)).2

/-- The entries up to `upper_bound(k)` and those behind it. -/
theorem upTo_eq_filter : (m.entries.takeWhile fun e => decide (e.1 ≤ k)) =
      m.entries.filter (fun e => e.1 ≤ k) ∧
    (m.entries.dropWhile fun e => decide (e.1 ≤ k)) =
      m.entries.filter fun e => !decide (e.1 ≤ k) :=
  takeWhile_eq_filter (m.upTo_pairwise k)

/-- Insert behind all entries whose key is not larger. -/
def emplace : Multimap κ α where
  entries := m.entries.takeWhile (fun e => e.1 ≤ k) ++
    (k, v) :: m.entries.dropWhile (fun e => e.1 ≤ k)
  sorted := by
    obtain ⟨htake, hdrop⟩ := m.upTo_eq_filter k
    have hle : ∀ e ∈ m.entries.takeWhile (fun e => decide (e.1 ≤ k)), e.1 ≤ k := fun e he => by
      rw [htake] at he
      simpa using (List.mem_filter.mp he).2
    have hlt : ∀ e ∈ m.entries.dropWhile (fun e => decide (e.1 ≤ k)), k < e.1 := fun e he => by
      rw [hdrop] at he
      simpa using (List.mem_filter.mp he).2
    refine List.pairwise_append.mpr ⟨m.sorted.sublist (List.takeWhile_sublist _), ?_, ?_⟩
    · exact List.pairwise_cons.mpr
        ⟨fun e he => (hlt e he).le, m.sorted.sublist (List.dropWhile_sublist _)⟩
    · intro a ha b hb
      rcases List.mem_cons.mp hb with rfl | hb
      · exact hle a ha
      · exact (hle a ha).trans (hlt b hb).le

theorem emplace_entries : (m.emplace k v).entries =
    m.entries.takeWhile (fun e => decide (e.1 ≤ k)) ++
      (k, v) :: m.entries.dropWhile (fun e => decide (e.1 ≤ k)) := rfl

/-- **Equal keys keep their order**: the new entry is the last one of its key. -/
theorem filter_key_emplace (j : κ) :
    (m.emplace k v).entries.filter (fun e => e.1 = j) =
      m.entries.filter (fun e => e.1 = j) ++ if k = j then [(k, v)] else [] := by
  obtain ⟨-, hdrop⟩ := m.upTo_eq_filter k
  have hsplit := congrArg (List.filter fun e => decide (e.1 = j))
    (List.takeWhile_append_dropWhile (p := fun e : κ × α => decide (e.1 ≤ k)) (l := m.entries))
  rw [List.filter_append] at hsplit
  rw [← hsplit]
  simp only [emplace, List.filter_append, List.append_assoc]
  congr 1
  by_cases hkj : k = j
  · -- behind the new entry all keys are larger
    subst hkj
    have hnil : (m.entries.dropWhile fun e => decide (e.1 ≤ k)).filter (fun e => e.1 = k) = [] := by
      rw [hdrop, List.filter_filter]
      refine List.filter_eq_nil_iff.mpr fun e _ => ?_
      simp only [Bool.and_eq_true, decide_eq_true_eq, Bool.not_eq_eq_eq_not, Bool.not_true,
        decide_eq_false_iff_not, not_and, not_not]
      exact le_of_eq
    simp [hnil]
  · simp [hkj]

/-- Behind smaller keys, `emplace` appends. -/
theorem emplace_entries_of_le (h : ∀ e ∈ m.entries, e.1 ≤ k) :
    (m.emplace k v).entries = m.entries ++ [(k, v)] := by
  have hall : ∀ e ∈ m.entries, decide (e.1 ≤ k) = true := fun e he => by simpa using h e he
  simp only [emplace]
  rw [List.takeWhile_eq_self_iff.mpr hall, List.dropWhile_eq_nil_iff.mpr hall]

theorem foldl_emplace_entries (l : List (κ × α)) (m : Multimap κ α)
    (hl : l.Pairwise fun a b => a.1 ≤ b.1) (hml : ∀ a ∈ m.entries, ∀ b ∈ l, a.1 ≤ b.1) :
    (l.foldl (fun m e => m.emplace e.1 e.2) m).entries = m.entries ++ l := by
  induction l generalizing m with
  | nil => simp
  | cons e l ih =>
    obtain ⟨he, hl⟩ := List.pairwise_cons.mp hl
    have hentries := m.emplace_entries_of_le e.1 e.2 fun a ha => hml a ha e List.mem_cons_self
    rw [List.foldl_cons, ih (m.emplace e.1 e.2) hl ?_, hentries]
    · simp
    · intro a ha b hb
      rw [hentries] at ha
      rcases List.mem_append.mp ha with ha | ha
      · exact hml a ha b (List.mem_cons_of_mem _ hb)
      · rw [List.mem_singleton.mp ha]
        exact he b hb

/-- Emplacing the entries below a bound into an empty table keeps them as they are. -/
theorem foldl_emplace_below :
    ((m.below k).foldl (fun m e => m.emplace e.1 e.2) (empty : Multimap κ α)).entries =
      m.below k := by
  have hsorted : (m.below k).Pairwise fun a b => a.1 ≤ b.1 :=
    m.sorted.sublist (List.takeWhile_sublist _)
  rw [foldl_emplace_entries _ _ hsorted fun a ha => absurd ha List.not_mem_nil]
  rfl

end Multimap
