import Mathlib.Tactic.Common

/-!
# Runs of a labelled transition system

A system is a predicate on start states and a partial step function on labels. `Reach` is
what a run passes through when each of its steps meets a condition on the state before the
step; an unrestricted run has the trivial condition. Invariants are proved by `Reach.inv`,
and a concrete run is a list of labels that the step function accepts.
-/

namespace Transition

variable {σ ι : Type*} {init : σ → Prop} {step : σ → ι → Option σ}
  {ok ok' : σ → ι → Prop} {s s' : σ}

/-- The states of the runs whose steps all meet `ok`. -/
inductive Reach (init : σ → Prop) (step : σ → ι → Option σ) (ok : σ → ι → Prop) : σ → Prop
  | start {s : σ} (h : init s) : Reach init step ok s
  | step {s s' : σ} {l : ι} (h : Reach init step ok s) (hok : ok s l)
      (hs : step s l = some s') : Reach init step ok s'

/-- The condition of an unrestricted run. -/
def Any (_ : σ) (_ : ι) : Prop := True

instance (s : σ) (l : ι) : Decidable (Any s l) := inferInstanceAs (Decidable True)

/-- The rule of invariants. -/
theorem Reach.inv {I : σ → Prop} (h : Reach init step ok s) (hinit : ∀ s, init s → I s)
    (hstep : ∀ s l s', I s → ok s l → step s l = some s' → I s') : I s := by
  induction h with
  | start h => exact hinit _ h
  | step _ hok hs ih => exact hstep _ _ _ ih hok hs

/-- Runs under a stronger condition are runs under a weaker one. -/
theorem Reach.mono (h : Reach init step ok s) (hle : ∀ s l, ok s l → ok' s l) :
    Reach init step ok' s := by
  induction h with
  | start h => exact .start h
  | step _ hok hs ih => exact .step ih (hle _ _ hok) hs

/-- Run the labels of a list one after the other, as long as they meet the condition. -/
def runAll (ok : σ → ι → Prop) [∀ s l, Decidable (ok s l)] (step : σ → ι → Option σ) :
    σ → List ι → Option σ
  | s, [] => some s
  | s, l :: ls => if ok s l then (step s l).bind fun s' => runAll ok step s' ls else none

variable [∀ s l, Decidable (ok s l)]

theorem runAll_cons {l : ι} {ls : List ι} (h : runAll ok step s (l :: ls) = some s') :
    ok s l ∧ ∃ s₁, step s l = some s₁ ∧ runAll ok step s₁ ls = some s' := by
  rw [runAll] at h
  split at h
  · rename_i hok
    exact ⟨hok, Option.bind_eq_some_iff.mp h⟩
  · cases h

theorem runAll_append {s₁ : σ} {ls ls' : List ι} (h : runAll ok step s ls = some s₁)
    (h' : runAll ok step s₁ ls' = some s') : runAll ok step s (ls ++ ls') = some s' := by
  induction ls generalizing s with
  | nil =>
    cases h
    exact h'
  | cons l ls ih =>
    obtain ⟨hok, s₂, hs, hr⟩ := runAll_cons h
    rw [List.cons_append, runAll, if_pos hok, hs]
    exact ih hr

theorem Reach.runAll {ls : List ι} (h : Reach init step ok s)
    (hr : runAll ok step s ls = some s') : Reach init step ok s' := by
  induction ls generalizing s with
  | nil =>
    cases hr
    exact h
  | cons l ls ih =>
    obtain ⟨hok, s₁, hs, hr⟩ := runAll_cons hr
    exact ih (h.step hok hs) hr

/-- The state that a concrete run ends in. -/
theorem Reach.runAll_get {ls : List ι} (h : Reach init step ok s)
    (hr : (Transition.runAll ok step s ls).isSome) :
    Reach init step ok ((Transition.runAll ok step s ls).get hr) :=
  h.runAll (Option.some_get hr).symm

end Transition
