import Polly.Runs

/-!
# Component — what a run is to one part of a system

A step may mean something to a part of the system, or nothing.  `trace step out s as` collects what
the steps of a run put out, each in the state it is taken from; with `out` the actions of a part,
it is what the run is to that part.

* `run_trace`: if every step is a run of the part, so is every run.
* `trace_inv`: what relates the state to the trace so far.
-/

namespace Runs

variable {σ α κ β : Type*} {step : σ → α → Option σ} {out : σ → α → List β}

/-- What the steps of a run put out. -/
def trace (step : σ → α → Option σ) (out : σ → α → List β) : σ → List α → List β
  | _, [] => []
  | s, a :: as => out s a ++ (step s a).elim [] fun s' => trace step out s' as

theorem run_single (s : σ) (a : α) : run step s [a] = step s a := by
  rw [run_cons]
  exact Option.bind_fun_some _

@[simp] theorem trace_nil (s : σ) : trace step out s [] = [] := rfl

theorem trace_cons {s s' : σ} {a : α} (h : step s a = some s') (as : List α) :
    trace step out s (a :: as) = out s a ++ trace step out s' as := by
  rw [trace, h, Option.elim_some]

/-- What the actions put out by themselves. -/
theorem trace_flatMap {f : α → List β} {s t : σ} {as : List α} (h : run step s as = some t) :
    trace step (fun _ a => f a) s as = as.flatMap f := by
  induction as generalizing s with
  | nil => rfl
  | cons a as ih =>
    obtain ⟨s', h₁, h₂⟩ := run_cons_some.mp h
    rw [trace_cons h₁, ih h₂, List.flatMap_cons]

/-- What relates the state to the trace so far, if every step keeps it. -/
theorem trace_inv (R : σ → List β → Prop)
    (hstep : ∀ s a s' log, R s log → step s a = some s' → R s' (log ++ out s a))
    {s t : σ} {as : List α} {log : List β} (h : run step s as = some t) (hs : R s log) :
    R t (log ++ trace step out s as) := by
  induction as generalizing s log with
  | nil =>
    cases h
    rwa [trace_nil, List.append_nil]
  | cons a as ih =>
    obtain ⟨s', h₁, h₂⟩ := run_cons_some.mp h
    rw [trace_cons h₁, ← List.append_assoc]
    exact ih h₂ (hstep s a s' log hs h₁)

/-- If every step is a run of the part, so is every run. -/
theorem run_trace (view : σ → κ) (part : κ → β → Option κ) (I : σ → Prop) {own : σ → α → List β}
    (hinv : ∀ s a s', I s → step s a = some s' → I s')
    (hstep : ∀ s a s', I s → step s a = some s' → run part (view s) (own s a) = some (view s'))
    {s t : σ} {as : List α} (h : run step s as = some t) (hs : I s) :
    run part (view s) (trace step own s as) = some (view t) := by
  induction as generalizing s with
  | nil => cases h; rfl
  | cons a as ih =>
    obtain ⟨s', h₁, h₂⟩ := run_cons_some.mp h
    rw [trace_cons h₁, run_append, hstep s a s' hs h₁, Option.bind_some]
    exact ih h₂ (hinv s a s' hs h₁)

/-! ### Two systems -/

variable {τ : Type*} {step' : τ → α → Option τ}

/-- A condition on the part that every step of the system leaves to it. -/
theorem Along.of_view (view : σ → τ)
    (hview : ∀ s a s', step s a = some s' → step' (view s) a = some (view s')) {P : τ → α → Prop}
    {s : σ} {as : List α} (h : Along step' P (view s) as) :
    Along step (fun s a => P (view s) a) s as := by
  induction as generalizing s with
  | nil => trivial
  | cons a as ih => exact ⟨h.1, fun s' hs' => ih (h.2 _ (hview s a s' hs'))⟩

/-- Two systems that refuse the same steps, and otherwise stay related, do so over whole runs. -/
theorem run_bisim {R : σ → τ → Prop} {P : σ → α → Prop}
    (hstep : ∀ s t a, R s t → P s a → Option.Rel R (step s a) (step' t a)) {s : σ} {t : τ}
    {as : List α} (hP : Along step P s as) (hR : R s t) :
    Option.Rel R (run step s as) (run step' t as) := by
  induction as generalizing s t with
  | nil => exact .some hR
  | cons a as ih =>
    have hrel := hstep s t a hR hP.1
    rw [run_cons, run_cons]
    cases hs : step s a with
    | none =>
      cases ht : step' t a with
      | none => exact .none
      | some t' =>
        rw [hs, ht] at hrel
        cases hrel
    | some s' =>
      cases ht : step' t a with
      | none =>
        rw [hs, ht] at hrel
        cases hrel
      | some t' =>
        rw [hs, ht] at hrel
        cases hrel with
        | some hR' => exact ih (hP.2 s' hs) hR'

end Runs
