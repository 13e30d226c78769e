import Mathlib.Data.List.Forall2

/-!
# Lists related element by element
-/

namespace List.Forall₂
variable {R : α → β → Prop}

theorem exists_right (h : Forall₂ R l l') (ha : a ∈ l) : ∃ b ∈ l', R a b := by
  induction h with
  | nil => cases ha
  | cons hab _ ih =>
    rcases List.mem_cons.mp ha with rfl | ha
    · exact ⟨_, List.mem_cons_self, hab⟩
    · obtain ⟨b, hb, hr⟩ := ih ha
      exact ⟨b, List.mem_cons_of_mem _ hb, hr⟩

theorem exists_left (h : Forall₂ R l l') (hb : b ∈ l') : ∃ a ∈ l, R a b :=
  exists_right (R := fun b a => R a b) h.flip hb

theorem filter (h : Forall₂ R l l') (p : α → Bool) :
    ∃ l'', Forall₂ R (l.filter p) l'' ∧ l''.Sublist l' := by
  induction h with
  | nil => exact ⟨[], .nil, .slnil⟩
  | @cons a b l l' hab _ ih =>
    obtain ⟨l'', hrel, hsub⟩ := ih
    by_cases hp : p a = true
    · rw [List.filter_cons_of_pos hp]
      exact ⟨b :: l'', .cons hab hrel, hsub.cons_cons b⟩
    · rw [List.filter_cons_of_neg hp]
      exact ⟨l'', hrel, hsub.cons b⟩

end List.Forall₂
