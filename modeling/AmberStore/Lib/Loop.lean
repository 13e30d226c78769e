import Mathlib.Order.WellFounded
import Mathlib.Tactic.Common

/-!
# Loops

A loop body takes a state to the next one or to a result. `run` executes it with a bound on the
passes; `Returns` says what it returns with no bound, and holds of at most one result.
-/

namespace Loop
variable {σ ρ : Type}

/-- Run the body for at most so many passes. -/
def run (body : σ → σ ⊕ ρ) : Nat → σ → Option ρ
  | 0, _ => none
  | n + 1, s =>
    match body s with
    | .inl t => run body n t
    | .inr r => some r

/-- The loop, started in a state, ends with a result. -/
inductive Returns (body : σ → σ ⊕ ρ) : σ → ρ → Prop
  | done : body s = .inr r → Returns body s r
  | next : body s = .inl t → Returns body t r → Returns body s r

variable {body body' : σ → σ ⊕ ρ} {s : σ} {r r' : ρ}

theorem returns_iff_run : Returns body s r ↔ ∃ n, run body n s = some r := by
  constructor
  · intro h
    induction h with
    | done h => exact ⟨1, by rw [run, h]⟩
    | next h _ ih =>
      obtain ⟨n, hn⟩ := ih
      exact ⟨n + 1, by rw [run, h]; exact hn⟩
  · rintro ⟨n, hn⟩
    induction n generalizing s with
    | zero => cases hn
    | succ n ih =>
      rw [run] at hn
      split at hn
      · next h => exact .next h (ih hn)
      · next h =>
        cases hn
        exact .done h

/-- A function of a bound gives a result once the bound is large enough. -/
def Yields (f : Nat → Option ρ) (r : ρ) : Prop := ∃ n, ∀ m, n ≤ m → f m = some r

theorem run_mono (h : run body n s = some r) (hnm : n ≤ m) : run body m s = some r := by
  induction n generalizing s m with
  | zero => cases h
  | succ n ih =>
    obtain ⟨m, rfl⟩ := Nat.exists_eq_add_of_le' (Nat.le_trans (Nat.succ_le_succ n.zero_le) hnm)
    rw [run] at h ⊢
    split at h
    · exact ih h (Nat.le_of_succ_le_succ hnm)
    · exact h

theorem yields_run : Yields (fun n => run body n s) r ↔ Returns body s r := by
  rw [returns_iff_run]
  constructor
  · rintro ⟨n, hn⟩
    exact ⟨n, hn n (Nat.le_refl _)⟩
  · rintro ⟨n, hn⟩
    exact ⟨n, fun m hm => run_mono hn hm⟩

theorem Yields.map {ρ' : Type} {f : Nat → Option ρ} (h : Yields f r) (g : ρ → ρ') :
    Yields (fun n => (f n).map g) (g r) := by
  obtain ⟨n, hn⟩ := h
  exact ⟨n, fun m hm => by simp only [hn m hm, Option.map_some]⟩

theorem Returns.unique (h : Returns body s r) (h' : Returns body s r') : r = r' := by
  induction h with
  | done hb =>
    cases h' with
    | done hb' => exact Sum.inr.inj (hb.symm.trans hb')
    | next hb' _ => cases hb.symm.trans hb'
  | next hb _ ih =>
    cases h' with
    | done hb' => cases hb.symm.trans hb'
    | next hb' h' =>
      cases hb.symm.trans hb'
      exact ih h'

/-- The last pass of a loop starts where the invariant holds. -/
theorem Returns.last {I : σ → Prop} (h : Returns body s r) (hs : I s)
    (hstep : ∀ s t, I s → body s = .inl t → I t) : ∃ t, I t ∧ body t = .inr r := by
  induction h with
  | done hb => exact ⟨_, hs, hb⟩
  | next hb _ ih => exact ih (hstep _ _ hs hb)

/-- A loop ends when its passes go down a well-founded order. -/
theorem exists_returns {α : Type} {lt : α → α → Prop} (hwf : WellFounded lt) (μ : σ → α)
    {I : σ → Prop} (hs : I s) (hstep : ∀ s t, I s → body s = .inl t → I t ∧ lt (μ t) (μ s)) :
    ∃ r, Returns body s r := by
  induction hm : μ s using hwf.induction generalizing s with
  | _ m ih =>
    cases hb : body s with
    | inr r => exact ⟨r, .done hb⟩
    | inl t =>
      obtain ⟨ht, hlt⟩ := hstep s t hs hb
      obtain ⟨r, hr⟩ := ih (μ t) (hm ▸ hlt) ht rfl
      exact ⟨r, .next hb hr⟩

/-- Two bodies that agree where one of them goes return the same. -/
theorem Returns.congr {I : σ → Prop} (h : Returns body s r) (hs : I s)
    (hstep : ∀ s t, I s → body s = .inl t → I t) (heq : ∀ s, I s → body s = body' s) :
    Returns body' s r := by
  induction h with
  | done hb => exact .done (heq _ hs ▸ hb)
  | next hb _ ih => exact .next (heq _ hs ▸ hb) (ih (hstep _ _ hs hb))

end Loop
