import Mathlib.Tactic.Common

/-!
# Chains of checks

A computation in `Except` that succeeds has passed every one of its checks.
-/

namespace Except

/-- Fail unless the condition holds. -/
def require (p : Prop) [Decidable p] (e : ε) : Except ε Unit := if p then .ok () else .error e

/-- Fail if there is no value. -/
def ofOption (e : ε) : Option α → Except ε α
  | none => .error e
  | some a => .ok a

theorem bind_eq_ok {x : Except ε α} {f : α → Except ε β} :
    (x >>= f) = .ok b ↔ ∃ a, x = .ok a ∧ f a = .ok b := by
  cases x with
  | error e => simp [bind, Except.bind]
  | ok a => simp [bind, Except.bind]

theorem bind_ok {x : Except ε α} {f : α → Except ε β} (h : x = .ok a) : (x >>= f) = f a := by
  rw [h]
  rfl

theorem bind_error {x : Except ε α} {f : α → Except ε β} (h : x = .error e) :
    (x >>= f) = .error e := by
  rw [h]
  rfl

@[simp] theorem require_eq_ok {p : Prop} [Decidable p] {e : ε} :
    require p e = .ok u ↔ p := by
  unfold require
  split
  · next h => exact ⟨fun _ => h, fun _ => rfl⟩
  · next h => exact ⟨nofun, fun hp => absurd hp h⟩

@[simp] theorem ofOption_eq_ok {e : ε} {x : Option α} : ofOption e x = .ok a ↔ x = some a := by
  cases x with
  | none => exact ⟨nofun, nofun⟩
  | some b => simp [ofOption]

@[simp] theorem mapError_eq_ok {f : ε → ε'} {x : Except ε α} : x.mapError f = .ok a ↔ x = .ok a := by
  cases x with
  | error e => exact ⟨nofun, nofun⟩
  | ok b => simp [Except.mapError]

end Except
