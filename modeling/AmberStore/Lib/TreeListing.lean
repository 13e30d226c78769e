import Mathlib.Data.List.Nodup

/-!
# Listing a tree

The nodes of a tree, each with its path and whether it is an inner node, one after the other: a node comes after
the inner nodes it is below, and no path comes twice.
-/

namespace TreeListing
open List
variable {α : Type}

/-- A listing of nodes whose paths have components with `P`. -/
inductive Listing (P : α → Prop) : List (List α × Bool) → Prop
  | nil : Listing P []
  | snoc : Listing P xs → p ≠ [] → (∀ c ∈ p, P c) → (∀ x ∈ xs, x.1 ≠ p) →
    (∀ q r, p = q ++ r → q ≠ [] → r ≠ [] → (q, true) ∈ xs) → Listing P (xs ++ [(p, b)])

/-- The inner nodes down to a path are listed, and nothing below those children of its end that have `S`. -/
structure Open (d : List α) (S : α → Prop) (xs : List (List α × Bool)) : Prop where
  listed : ∀ q r, d = q ++ r → q ≠ [] → (q, true) ∈ xs
  empty : ∀ x ∈ xs, ∀ c r, S c → x.1 ≠ d ++ c :: r

/-- Between two listings only nodes below such children were added. -/
structure Adds (d : List α) (S : α → Prop) (xs ys : List (List α × Bool)) : Prop where
  old : ∀ x ∈ xs, x ∈ ys
  new : ∀ y ∈ ys, y ∈ xs ∨ ∃ c r, S c ∧ y.1 = d ++ c :: r

variable {d : List α} {xs ys zs : List (List α × Bool)} {P S T : α → Prop}

theorem Adds.refl (xs : List (List α × Bool)) : Adds d S xs xs := ⟨fun _ => id, fun _ => .inl⟩

theorem Adds.trans (h : Adds d S xs ys) (h' : Adds d S ys zs) : Adds d S xs zs := by
  refine ⟨fun x hx => h'.old x (h.old x hx), fun z hz => ?_⟩
  rcases h'.new z hz with hz | hz
  · exact h.new z hz
  · exact .inr hz

theorem Adds.mono (h : Adds d S xs ys) (hS : ∀ c, S c → T c) : Adds d T xs ys :=
  ⟨h.old, fun y hy => (h.new y hy).imp_right fun ⟨c, r, hc, heq⟩ => ⟨c, r, hS c hc, heq⟩⟩

theorem Adds.single (d : List α) (c : α) (b : Bool) : Adds d (· = c) xs (xs ++ [(d ++ [c], b)]) := by
  refine ⟨fun x hx => mem_append_left _ hx, fun y hy => ?_⟩
  refine (mem_append.mp hy).imp_right fun hy => ⟨c, [], rfl, ?_⟩
  rw [mem_singleton.mp hy]

/-- What was added below a child. -/
theorem Adds.lift (h : Adds (d ++ [c]) S xs ys) : Adds d (· = c) xs ys := by
  refine ⟨h.old, fun y hy => (h.new y hy).imp_right fun ⟨c', r, _, heq⟩ => ⟨c, c' :: r, rfl, ?_⟩⟩
  rw [heq, append_assoc, singleton_append]

theorem Open.mono (h : Open d T xs) (hS : ∀ c, S c → T c) : Open d S xs :=
  ⟨h.listed, fun x hx c r hc => h.empty x hx c r (hS c hc)⟩

/-- The other children are as they were. -/
theorem Open.adds (h : Open d S xs) (ha : Adds d T xs ys) (hdisjoint : ∀ c, S c → ¬T c) : Open d S ys := by
  refine ⟨fun q r heq hq => ha.old _ (h.listed q r heq hq), fun y hy c r hc heq => ?_⟩
  rcases ha.new y hy with hy | ⟨c', r', hc', heq'⟩
  · exact h.empty y hy c r hc heq
  · obtain ⟨rfl, -⟩ := List.cons.inj (append_cancel_left (heq.symm.trans heq'))
    exact hdisjoint c hc hc'

/-- A child that is an inner node is open in turn. -/
theorem Open.child (h : Open d (· = c) xs) : Open (d ++ [c]) T (xs ++ [(d ++ [c], true)]) := by
  refine ⟨fun q r heq hq => ?_, fun x hx c' r _ heq => ?_⟩
  · rcases eq_nil_or_concat r with rfl | ⟨r, y, rfl⟩
    · rw [heq, append_nil]
      exact mem_append_right _ (mem_singleton_self _)
    · rw [concat_eq_append, ← append_assoc] at heq
      exact mem_append_left _ (h.listed q r (append_inj_left' heq rfl) hq)
  · rw [append_assoc, singleton_append] at heq
    rcases mem_append.mp hx with hx | hx
    · exact h.empty x hx c (c' :: r) rfl heq
    · rw [mem_singleton.mp hx] at heq
      cases append_cancel_left heq

namespace Listing

theorem path (h : Listing P xs) : ∀ x ∈ xs, x.1 ≠ [] ∧ ∀ c ∈ x.1, P c := by
  induction h with
  | nil => exact nofun
  | snoc _ hne hp _ _ ih =>
    intro x hx
    rcases mem_append.mp hx with hx | hx
    · exact ih x hx
    · rw [mem_singleton.mp hx]
      exact ⟨hne, hp⟩

theorem nodup (h : Listing P xs) : (xs.map Prod.fst).Nodup := by
  induction h with
  | nil => exact nodup_nil
  | snoc _ _ _ hnew _ ih =>
    rw [map_append, map_singleton, nodup_append']
    refine ⟨ih, nodup_singleton _, fun q hq hp => ?_⟩
    obtain ⟨x, hx, rfl⟩ := mem_map.mp hq
    exact hnew x hx (mem_singleton.mp hp)

theorem ordered (h : Listing P xs) (before after : List (List α × Bool)) (heq : xs = before ++ x :: after)
    (hx : x.1 = q ++ r) (hq : q ≠ []) (hr : r ≠ []) : (q, true) ∈ before := by
  induction h generalizing after with
  | nil => cases (append_eq_nil_iff.mp heq.symm).2
  | snoc _ _ _ _ hparents ih =>
    rcases eq_nil_or_concat after with rfl | ⟨after, y, rfl⟩
    · obtain ⟨rfl, hlast⟩ := append_inj' heq rfl
      cases hlast
      exact hparents q r hx hq hr
    · rw [concat_eq_append, ← cons_append, ← append_assoc] at heq
      exact ih after (append_inj_left' heq rfl)

theorem child (h : Listing P xs) (ho : Open d (· = c) xs) (hd : ∀ x ∈ d, P x) (hc : P c) (b : Bool) :
    Listing P (xs ++ [(d ++ [c], b)]) := by
  refine h.snoc (by simp) (fun x hx => ?_) (fun x hx => ho.empty x hx c [] rfl) fun q r heq hq hr => ?_
  · rcases mem_append.mp hx with hx | hx
    · exact hd x hx
    · rw [mem_singleton.mp hx]
      exact hc
  · obtain ⟨r, y, rfl⟩ := (eq_nil_or_concat r).resolve_left hr
    rw [concat_eq_append, ← append_assoc] at heq
    exact ho.listed q r (append_inj_left' heq rfl) hq

end Listing

end TreeListing
