import Mathlib

/-! # Runs of a labelled transition system

`Run step s ops s'` says that the calls `ops`, made in this order, lead from `s` to `s'`; a call
that does not return ends no run.  The rules below suffice for every result about runs:

* `Run.invariant`: what every step preserves holds in every state reached;
* `Run.simulation`: a relation to an abstract state that every step preserves relates the
  final state to the abstract run over the same calls;
* `Run.of_exec`: an executable form of the steps computes runs;
* `Run.mono_of_invariant`: where an invariant holds, a run of one system is a run of another;
* `Run.iff_of_invariant`: where an invariant holds, systems whose steps agree have the same runs.

Every beginning of a run is a run, so that a statement about the final states of all runs is a
statement about every intermediate state. -/

namespace HeroOS

variable {σ τ ι : Type}

/-- `s'` is reached from `s` by the calls `ops`. -/
inductive Run (step : σ → ι → σ → Prop) : σ → List ι → σ → Prop
  | nil (s : σ) : Run step s [] s
  | cons {s s₁ s₂ : σ} {op : ι} {ops : List ι} :
      step s op s₁ → Run step s₁ ops s₂ → Run step s (op :: ops) s₂

namespace Run

variable {step : σ → ι → σ → Prop} {s s' s'' : σ}

theorem single {op : ι} (h : step s op s') : Run step s [op] s' := .cons h (.nil s')

theorem append {ops ops' : List ι} (h : Run step s ops s') (h' : Run step s' ops' s'') :
    Run step s (ops ++ ops') s'' := by
  induction h with
  | nil s => exact h'
  | cons hs _ ih => exact .cons hs (ih h')

/-- **Invariant rule.** -/
theorem invariant {I : σ → Prop} (hstep : ∀ s op s', I s → step s op s' → I s')
    {ops : List ι} (h : Run step s ops s') (h0 : I s) : I s' := by
  induction h with
  | nil s => exact h0
  | cons hs _ ih => exact ih (hstep _ _ _ h0 hs)

/-- Where an invariant holds, a run of steps that are steps of another system is a run of that
system. -/
theorem mono_of_invariant {I : σ → Prop} {step' : σ → ι → σ → Prop}
    (hstep : ∀ s op s', I s → step s op s' → I s' ∧ step' s op s') {ops : List ι} (h : Run step s ops s')
    (h0 : I s) : Run step' s ops s' := by
  induction h with
  | nil s => exact .nil s
  | cons hs _ ih =>
      obtain ⟨h1, hs'⟩ := hstep _ _ _ h0 hs
      exact .cons hs' (ih h1)

/-- A run of steps that are steps of another system is a run of that system. -/
theorem mono {step' : σ → ι → σ → Prop} (hstep : ∀ s op s', step s op s' → step' s op s')
    {ops : List ι} (h : Run step s ops s') : Run step' s ops s' :=
  h.mono_of_invariant (I := fun _ => True) (fun s op s' _ hs => ⟨trivial, hstep s op s' hs⟩) trivial

/-- A run of calls that all have a property. -/
theorem restrict {P : ι → Prop} {ops : List ι} (h : Run step s ops s') (hP : ∀ op ∈ ops, P op) :
    Run (fun s op s' => P op ∧ step s op s') s ops s' := by
  induction h with
  | nil s => exact .nil s
  | cons hs _ ih => exact .cons ⟨hP _ List.mem_cons_self, hs⟩ (ih fun op hop => hP op (List.mem_cons_of_mem _ hop))

/-- **Exchange rule**: where an invariant holds, two systems whose steps agree there, and keep it, have the
same runs. -/
theorem iff_of_invariant {I : σ → Prop} {step' : σ → ι → σ → Prop}
    (hiff : ∀ s op s', I s → (step s op s' ↔ step' s op s'))
    (hkeep : ∀ s op s', I s → step s op s' → step' s op s' → I s') {ops : List ι} (h0 : I s) :
    Run step s ops s' ↔ Run step' s ops s' := by
  constructor
  · intro h
    apply h.mono_of_invariant (I := I) (fun s op s' hI hs => ?_) h0
    have hs' := (hiff s op s' hI).mp hs
    exact ⟨hkeep s op s' hI hs hs', hs'⟩
  · intro h
    apply h.mono_of_invariant (I := I) (fun s op s' hI hs' => ?_) h0
    have hs := (hiff s op s' hI).mpr hs'
    exact ⟨hkeep s op s' hI hs hs', hs⟩

/-- **Simulation rule**: the abstract system makes the same calls. -/
theorem simulation {R : σ → τ → Prop} {astep : τ → ι → τ}
    (hstep : ∀ s t op s', R s t → step s op s' → R s' (astep t op))
    {ops : List ι} (h : Run step s ops s') {t : τ} (h0 : R s t) : R s' (ops.foldl astep t) := by
  induction h generalizing t with
  | nil s => exact h0
  | cons hs _ ih => exact ih (hstep _ _ _ _ h0 hs)

/-- A step function that follows the step relation computes runs. -/
theorem of_exec {exec : σ → ι → Option σ} (hexec : ∀ s op s', exec s op = some s' → step s op s') :
    ∀ {ops : List ι} {s : σ}, ops.foldlM exec s = some s' → Run step s ops s'
  | [], s, h => by
      obtain rfl : s = s' := by simpa using h
      exact .nil s
  | op :: ops, s, h => by
      rw [List.foldlM_cons, Option.bind_eq_bind, Option.bind_eq_some_iff] at h
      obtain ⟨s₁, h1, h2⟩ := h
      exact .cons (hexec s op s₁ h1) (of_exec hexec h2)

end Run
end HeroOS
