import Mathlib

/-!
# Runs — runs of a partial step function

A system is given by `step : σ → α → Option σ`: from state `s` the action `a` is either refused
(`none`) or leads to one next state; everything that is not determined (scheduling, results of
system calls, what user code does) is part of the action.  `run step s as` executes a list of
actions, `Reach step init` are the states some run reaches from an initial one.

* `run_inv` / `Reach.inv`: what every step preserves holds at the end of every run.
* `Along step P s as`: `P` holds of every (state before, action) of the run.
* `logged`: the system with a log of what its steps put out.
* `run_inv_along`: the invariant rule for runs whose steps all meet a side condition.
* `along_iff`: two step conditions that agree on invariant states agree along whole runs.
* `run_refines`: steps that follow a total reference function do so along whole runs.
-/

namespace Runs

variable {σ α τ : Type*} (step : σ → α → Option σ)

/-- An action that is possible under a condition only. -/
def guarded (c : Prop) [Decidable c] (s : σ) : Option σ := if c then some s else none

/-- Execute a list of actions; `none` as soon as one is refused. -/
def run : σ → List α → Option σ
  | s, [] => some s
  | s, a :: as => (step s a).bind (fun s' => run s' as)

/-- The states reached by some run from an initial state. -/
def Reach (init : σ → Prop) (s : σ) : Prop :=
  ∃ s₀ as, init s₀ ∧ run step s₀ as = some s

/-- `P` holds of the state before and the action of every step of the run. -/
def Along (P : σ → α → Prop) : σ → List α → Prop
  | _, [] => True
  | s, a :: as => P s a ∧ ∀ s', step s a = some s' → Along P s' as

variable {step}

theorem guarded_eq_some {c : Prop} [Decidable c] {s t : σ} :
    guarded c s = some t ↔ c ∧ s = t := by
  unfold guarded
  split_ifs with h <;> simp [h]

@[simp] theorem run_nil (s : σ) : run step s [] = some s := rfl

theorem run_cons (s : σ) (a : α) (as : List α) :
    run step s (a :: as) = (step s a).bind (fun s' => run step s' as) := rfl

theorem run_cons_some {s t : σ} {a : α} {as : List α} :
    run step s (a :: as) = some t ↔ ∃ s', step s a = some s' ∧ run step s' as = some t := by
  rw [run_cons, Option.bind_eq_some_iff]

theorem run_append (s : σ) (as bs : List α) :
    run step s (as ++ bs) = (run step s as).bind (fun s' => run step s' bs) := by
  induction as generalizing s with
  | nil => rfl
  | cons a as ih =>
    rw [List.cons_append, run_cons, run_cons, Option.bind_assoc]
    exact congrArg _ (funext ih)

@[simp] theorem along_nil (P : σ → α → Prop) (s : σ) : Along step P s [] := trivial

theorem along_cons {P : σ → α → Prop} {s : σ} {a : α} {as : List α} :
    Along step P s (a :: as) ↔ P s a ∧ ∀ s', step s a = some s' → Along step P s' as := Iff.rfl

theorem along_append {P : σ → α → Prop} {s : σ} {as bs : List α} :
    Along step P s (as ++ bs) ↔
      Along step P s as ∧ ∀ t, run step s as = some t → Along step P t bs := by
  induction as generalizing s with
  | nil => simp
  | cons a as ih =>
    simp only [List.cons_append, along_cons, ih, run_cons_some, forall_and, and_assoc]
    refine and_congr_right fun _ => and_congr_right fun _ => ?_
    constructor
    · rintro h t ⟨s', h₁, h₂⟩
      exact h s' h₁ t h₂
    · exact fun h s' h₁ t h₂ => h t ⟨s', h₁, h₂⟩

instance Along.decidable {P : σ → α → Prop} [∀ s a, Decidable (P s a)] :
    ∀ (s : σ) (as : List α), Decidable (Along step P s as)
  | _, [] => .isTrue trivial
  | s, a :: as =>
    match h : step s a with
    | none => decidable_of_iff (P s a) (by rw [along_cons, h]; simp)
    | some s' =>
      have := Along.decidable (P := P) s' as
      decidable_of_iff (P s a ∧ Along step P s' as) (by rw [along_cons, h]; simp)

/-! ### Invariants -/

/-- What every step preserves holds at the end of every run. -/
theorem run_inv {I : σ → Prop} (hstep : ∀ s a s', I s → step s a = some s' → I s')
    {s t : σ} {as : List α} (h : run step s as = some t) (hs : I s) : I t := by
  induction as generalizing s with
  | nil => cases h; exact hs
  | cons a as ih =>
    obtain ⟨s', h₁, h₂⟩ := run_cons_some.mp h
    exact ih h₂ (hstep s a s' hs h₁)

theorem Reach.inv {init I : σ → Prop} (h0 : ∀ s, init s → I s)
    (hstep : ∀ s a s', I s → step s a = some s' → I s') {s : σ} (h : Reach step init s) : I s := by
  obtain ⟨s₀, as, hi, hr⟩ := h
  exact run_inv hstep hr (h0 s₀ hi)

theorem Reach.next {init : σ → Prop} {s s' : σ} {a : α} (h : Reach step init s)
    (hs : step s a = some s') : Reach step init s' := by
  obtain ⟨s₀, as, hi, hr⟩ := h
  refine ⟨s₀, as ++ [a], hi, ?_⟩
  rw [run_append, hr]
  exact run_cons_some.mpr ⟨s', hs, rfl⟩

/-- The invariant rule for runs whose steps all meet a side condition. -/
theorem run_inv_along {I : σ → Prop} {P : σ → α → Prop}
    (hstep : ∀ s a s', I s → P s a → step s a = some s' → I s')
    {s t : σ} {as : List α} (h : run step s as = some t) (hP : Along step P s as) (hs : I s) :
    I t := by
  induction as generalizing s with
  | nil => cases h; exact hs
  | cons a as ih =>
    obtain ⟨s', h₁, h₂⟩ := run_cons_some.mp h
    exact ih h₂ (hP.2 s' h₁) (hstep s a s' hs hP.1 h₁)

/-! ### Logs -/

variable {β : Type*}

/-- The system with a log of what its steps put out. -/
def logged (step : σ → α → Option σ) (out : σ → α → List β) (s : σ × List β) (a : α) :
    Option (σ × List β) :=
  (step s.1 a).map fun s' => (s', s.2 ++ out s.1 a)

theorem logged_some {out : σ → α → List β} {s s' : σ × List β} {a : α} :
    logged step out s a = some s' ↔ step s.1 a = some s'.1 ∧ s'.2 = s.2 ++ out s.1 a := by
  unfold logged
  rw [Option.map_eq_some_iff]
  constructor
  · rintro ⟨t, ht, rfl⟩
    exact ⟨ht, rfl⟩
  · rintro ⟨ht, hlog⟩
    exact ⟨s'.1, ht, by rw [← hlog]⟩

/-! ### Step conditions along a run -/

theorem Along.and {P Q : σ → α → Prop} {s : σ} {as : List α} (hP : Along step P s as)
    (hQ : Along step Q s as) : Along step (fun s a => P s a ∧ Q s a) s as := by
  induction as generalizing s with
  | nil => trivial
  | cons a as ih => exact ⟨⟨hP.1, hQ.1⟩, fun s' hs' => ih (hP.2 s' hs') (hQ.2 s' hs')⟩

theorem along_of_forall {Q : α → Prop} (s : σ) {as : List α} (h : ∀ a ∈ as, Q a) :
    Along step (fun _ a => Q a) s as := by
  induction as generalizing s with
  | nil => trivial
  | cons a as ih =>
    exact ⟨h a (by simp), fun s' _ => ih s' fun a' ha' => h a' (List.mem_cons_of_mem a ha')⟩

/-- In a run to the end no step is refused. -/
theorem along_enabled {s t : σ} {as : List α} (h : run step s as = some t) :
    Along step (fun s a => (step s a).isSome = true) s as := by
  induction as generalizing s with
  | nil => trivial
  | cons a as ih =>
    obtain ⟨s', h₁, h₂⟩ := run_cons_some.mp h
    refine ⟨by simp [h₁], fun s'' h₁' => ih ?_⟩
    rw [h₁] at h₁'
    rwa [← Option.some.inj h₁']

/-- What holds of every step from an invariant state holds along the run. -/
theorem Along.of_inv {I : σ → Prop} {C P : σ → α → Prop} (hP : ∀ s a, I s → C s a → P s a)
    (hstep : ∀ s a s', I s → C s a → step s a = some s' → I s') {s : σ} {as : List α}
    (hC : Along step C s as) (hs : I s) : Along step P s as := by
  induction as generalizing s with
  | nil => trivial
  | cons a as ih =>
    exact ⟨hP s a hs hC.1, fun s' h₁ => ih (hC.2 s' h₁) (hstep s a s' hs hC.1 h₁)⟩

/-- Along the steps that keep `I`, a condition may be replaced by one that is equivalent to it
on `I`: both fail for the first time at the same step. -/
theorem along_iff {I : σ → Prop} {L P Q : σ → α → Prop}
    (hPQ : ∀ s a, I s → L s a → (P s a ↔ Q s a))
    (hstep : ∀ s a s', I s → L s a → Q s a → step s a = some s' → I s')
    {s : σ} {as : List α} (hL : Along step L s as) (hs : I s) :
    Along step P s as ↔ Along step Q s as := by
  induction as generalizing s with
  | nil => exact Iff.rfl
  | cons a as ih =>
    rw [along_cons, along_cons, hPQ s a hs hL.1]
    refine and_congr_right fun hQ => ?_
    refine forall_congr' fun s' => forall_congr' fun h₁ => ?_
    exact ih (hL.2 s' h₁) (hstep s a s' hs hL.1 hQ h₁)

/-! ### Refinement -/

/-- Refinement of a total reference: as long as every step meets its precondition, no step is
refused and the states stay related to those of the reference. -/
theorem run_refines {R : σ → τ → Prop} {P : σ → α → Prop} {g : τ → α → τ}
    (hstep : ∀ s t a, R s t → P s a → ∃ s', step s a = some s' ∧ R s' (g t a))
    {s : σ} {t : τ} {as : List α} (hP : Along step P s as) (hR : R s t) :
    ∃ s', run step s as = some s' ∧ R s' (as.foldl g t) := by
  induction as generalizing s t with
  | nil => exact ⟨s, rfl, hR⟩
  | cons a as ih =>
    obtain ⟨s₁, h₁, hR₁⟩ := hstep s t a hR hP.1
    obtain ⟨s', h₂, hR'⟩ := ih (hP.2 s₁ h₁) hR₁
    exact ⟨s', run_cons_some.mpr ⟨s₁, h₁, h₂⟩, hR'⟩

end Runs
