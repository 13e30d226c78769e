import Mathlib.Tactic.Common

/-!
# Transition systems

The states a system reaches from its initial ones, and the induction over them.
-/

/-- The states a run reaches. -/
inductive Reach {σ : Type} (init : σ → Prop) (step : σ → σ → Prop) : σ → Prop
  | start : init s → Reach init step s
  | next : Reach init step s → step s s' → Reach init step s'

namespace Reach
variable {σ : Type} {init : σ → Prop} {step step' : σ → σ → Prop} {s : σ}

/-- What holds initially and is kept by every step holds of every reachable state. -/
theorem invariant {I : σ → Prop} (hs : Reach init step s) (h0 : ∀ s, init s → I s)
    (hstep : ∀ s s', I s → step s s' → I s') : I s := by
  induction hs with
  | start h => exact h0 _ h
  | next _ h ih => exact hstep _ _ ih h

theorem mono (hs : Reach init step s) (h : ∀ s s', step s s' → step' s s') : Reach init step' s := by
  induction hs with
  | start h0 => exact .start h0
  | next _ hstep ih => exact .next ih (h _ _ hstep)

end Reach
