import Mathlib

-- Finite runs of a machine from a start state, all of whose steps meet a condition.
inductive Runs {σ α : Type} (step : σ → α → σ) (fair : σ → α → Prop) (start : σ) : List α → σ → Prop where
  | nil : Runs step fair start [] start
  | snoc : Runs step fair start actions s → fair s action → Runs step fair start (actions ++ [action]) (step s action)

namespace Runs
variable {σ α : Type} {step : σ → α → σ} {fair : σ → α → Prop} {start s : σ}

theorem invariant {holds : σ → Prop} (initially : holds start)
    (preserved : ∀ s action, holds s → fair s action → holds (step s action))
    (run : Runs step fair start actions s) : holds s := by
  induction run with
  | nil => exact initially
  | snoc _ allowed ih => exact preserved _ _ ih allowed

theorem append (first : Runs step fair start before s) (second : Runs step fair s later t) :
    Runs step fair start (before ++ later) t := by
  induction second with
  | nil =>
    rw [List.append_nil]
    exact first
  | snoc _ allowed ih =>
    rw [← List.append_assoc]
    exact .snoc ih allowed

-- Without a condition every list of actions is a run.
theorem free (start : σ) (actions : List α) : Runs step (fun _ _ => True) start actions (actions.foldl step start) := by
  induction actions using List.reverseRecOn with
  | nil => exact .nil
  | append_singleton actions action ih =>
    rw [List.foldl_append]
    exact .snoc ih trivial

end Runs
