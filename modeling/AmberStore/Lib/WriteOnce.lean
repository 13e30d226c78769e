import Mathlib.Logic.Function.Basic

/-!
# Write-once maps

A map that keeps, for each key, the first value ever given for it.
-/

namespace WriteOnce
variable {K V : Type} [DecidableEq K] {m : K → Option V}

def add (m : K → Option V) (k : K) (v : V) : K → Option V :=
  if (m k).isSome then m else Function.update m k (some v)

theorem add_of_isSome (h : (m k).isSome) (v : V) : add m k v = m := if_pos h

theorem add_eq_some (h : m k = none) : add m k v k' = some v' ↔ m k' = some v' ∨ k' = k ∧ v' = v := by
  rw [add, if_neg (by simp [h])]
  by_cases hk : k' = k
  · subst hk
    simp [h, eq_comm]
  · simp [hk]

theorem add_mono (h : m k' = some v') (k : K) (v : V) : add m k v k' = some v' := by
  unfold add
  split
  · exact h
  · next hk =>
    rwa [Function.update_of_ne]
    rintro rfl
    rw [h] at hk
    exact hk rfl

theorem add_isSome (m : K → Option V) (k : K) (v : V) : (add m k v k).isSome := by
  unfold add
  split
  · assumption
  · simp

end WriteOnce
