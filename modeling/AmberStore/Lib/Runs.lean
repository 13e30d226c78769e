import AmberStore.Lib.Except
import Mathlib.Data.List.Basic

/-!
# Cutting a sequence into runs

Items come one after the other, and an item may end the run it is in: the run then becomes an output
and the next one starts empty. What comes after an item that ended a run does not depend on what was
before it.
-/

namespace Runs
open List Except
variable {α β ε : Type} (ends : α → Nat → Bool) (close : List α → Except ε β)

/-- The open run and the outputs after some more items. -/
def feed : List α → List α → Except ε (List α × List β)
  | run, [] => .ok (run, [])
  | run, x :: xs =>
    if ends x (run ++ [x]).length then do
      let y ← close (run ++ [x])
      let (run, ys) ← feed [] xs
      return (run, y :: ys)
    else feed (run ++ [x]) xs

/-- The output for an open run at the end, if it is long enough. -/
def trailing (least : Nat) (run : List α) : Except ε (List β) :=
  if least ≤ run.length then do
    let y ← close run
    return [y]
  else .ok []

/-- All outputs, with the one for the run that is open at the end. -/
def feedAll (least : Nat) (run xs : List α) : Except ε (List β) := do
  let (run, ys) ← feed ends close run xs
  let last ← trailing close least run
  return ys ++ last

variable {ends close} {least : Nat}

theorem feed_append (h : feed ends close run xs = .ok (run', ys))
    (h' : feed ends close run' xs' = .ok (run'', ys')) :
    feed ends close run (xs ++ xs') = .ok (run'', ys ++ ys') := by
  induction xs generalizing run ys with
  | nil =>
    cases h
    exact h'
  | cons x xs ih =>
    rw [cons_append, feed]
    rw [feed] at h
    split
    · next hb =>
      rw [if_pos hb] at h
      obtain ⟨y, hy, h⟩ := bind_eq_ok.mp h
      obtain ⟨⟨r, ys₁⟩, hr, h⟩ := bind_eq_ok.mp h
      cases h
      rw [hy]
      refine bind_eq_ok.mpr ⟨y, rfl, ?_⟩
      exact bind_eq_ok.mpr ⟨_, ih hr, rfl⟩
    · next hb =>
      rw [if_neg hb] at h
      exact ih h

theorem feed_append_ok (h : feed ends close run (xs ++ xs') = .ok (run'', out)) :
    ∃ run' ys ys', feed ends close run xs = .ok (run', ys) ∧
      feed ends close run' xs' = .ok (run'', ys') ∧ out = ys ++ ys' := by
  induction xs generalizing run out with
  | nil => exact ⟨run, [], out, rfl, h, rfl⟩
  | cons x xs ih =>
    rw [cons_append, feed] at h
    rw [feed]
    split at h
    · next hb =>
      obtain ⟨y, hy, h⟩ := bind_eq_ok.mp h
      obtain ⟨⟨r, ys₁⟩, hr, h⟩ := bind_eq_ok.mp h
      cases h
      obtain ⟨run', ys, ys', hxs, hxs', rfl⟩ := ih hr
      refine ⟨run', y :: ys, ys', ?_, hxs', rfl⟩
      rw [if_pos hb]
      exact bind_eq_ok.mpr ⟨y, hy, bind_eq_ok.mpr ⟨_, hxs, rfl⟩⟩
    · next hb =>
      obtain ⟨run', ys, ys', hxs, hxs', rfl⟩ := ih h
      exact ⟨run', ys, ys', by rw [if_neg hb, hxs], hxs', rfl⟩

theorem feedAll_append (h : feed ends close run xs = .ok (run', ys))
    (h' : feedAll ends close least run' xs' = .ok ys') :
    feedAll ends close least run (xs ++ xs') = .ok (ys ++ ys') := by
  obtain ⟨⟨run'', ys₁⟩, hf, h'⟩ := bind_eq_ok.mp h'
  obtain ⟨last, hl, h'⟩ := bind_eq_ok.mp h'
  cases h'
  refine bind_eq_ok.mpr ⟨_, feed_append h hf, ?_⟩
  refine bind_eq_ok.mpr ⟨last, hl, ?_⟩
  rw [append_assoc]
  rfl

theorem feedAll_append_ok (h : feedAll ends close least run (xs ++ xs') = .ok out) :
    ∃ run' ys ys', feed ends close run xs = .ok (run', ys) ∧
      feedAll ends close least run' xs' = .ok ys' ∧ out = ys ++ ys' := by
  obtain ⟨⟨run'', ys₁⟩, hf, h⟩ := bind_eq_ok.mp h
  obtain ⟨last, hl, h⟩ := bind_eq_ok.mp h
  cases h
  obtain ⟨run', ys, ys', hxs, hxs', rfl⟩ := feed_append_ok hf
  refine ⟨run', ys, ys' ++ last, hxs, ?_, append_assoc ..⟩
  exact bind_eq_ok.mpr ⟨_, hxs', bind_eq_ok.mpr ⟨last, hl, rfl⟩⟩

theorem feed_no_outputs (h : feed ends close run xs = .ok (run', [])) : run' = run ++ xs := by
  induction xs generalizing run with
  | nil =>
    cases h
    exact (append_nil _).symm
  | cons x xs ih =>
    rw [feed] at h
    split at h
    · obtain ⟨y, -, h⟩ := bind_eq_ok.mp h
      obtain ⟨⟨r, ys⟩, -, h⟩ := bind_eq_ok.mp h
      cases h
    · rw [ih h, append_assoc, singleton_append]

/-- Two sequences that both end a run and then go on with the same items: the outputs for these items
are the same, and so are all later ones if nothing else follows. -/
theorem feedAll_shared (h₁ : feed ends close [] xs₁ = .ok ([], ys₁))
    (h₂ : feed ends close [] xs₂ = .ok ([], ys₂))
    (hall₁ : feedAll ends close least [] (xs₁ ++ (xs ++ more₁)) = .ok out₁)
    (hall₂ : feedAll ends close least [] (xs₂ ++ (xs ++ more₂)) = .ok out₂) :
    ∃ run ys later₁ later₂, feed ends close [] xs = .ok (run, ys) ∧ out₁ = ys₁ ++ (ys ++ later₁) ∧
      out₂ = ys₂ ++ (ys ++ later₂) ∧ (more₁ = more₂ → later₁ = later₂) := by
  obtain ⟨r₁, u₁, v₁, hu₁, hv₁, rfl⟩ := feedAll_append_ok hall₁
  obtain ⟨r₂, u₂, v₂, hu₂, hv₂, rfl⟩ := feedAll_append_ok hall₂
  cases h₁.symm.trans hu₁
  cases h₂.symm.trans hu₂
  obtain ⟨run, ys, w₁, hs, hw₁, rfl⟩ := feedAll_append_ok hv₁
  obtain ⟨run', ys', w₂, hs', hw₂, rfl⟩ := feedAll_append_ok hv₂
  cases hs.symm.trans hs'
  refine ⟨run, ys, w₁, w₂, hs, rfl, rfl, fun hmore => ?_⟩
  subst hmore
  cases hw₁.symm.trans hw₂
  rfl

end Runs
