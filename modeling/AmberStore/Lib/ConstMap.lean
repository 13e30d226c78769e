import Mathlib.Data.List.AList

/-!
# Maps with one value
-/

namespace AList
variable {α γ : Type} {β : α → Type} [DecidableEq α]

omit [DecidableEq α] in
/-- The map that gives every key of another map the same value. -/
def const (l : AList β) (c : γ) : AList fun _ : α => γ where
  entries := l.entries.map fun e => ⟨e.1, c⟩
  nodupKeys := by
    rw [List.NodupKeys, List.keys, List.map_map]
    exact l.nodupKeys

theorem lookup_const (l : AList β) (c : γ) (k : α) :
    (l.const c).lookup k = (l.lookup k).map fun _ => c := by
  have hiff : ∀ b, (l.const c).lookup k = some b ↔ ∃ v, l.lookup k = some v ∧ b = c := by
    intro b
    rw [← Option.mem_def, AList.mem_lookup_iff]
    simp only [const, List.mem_map]
    constructor
    · rintro ⟨⟨k', v⟩, he, heq⟩
      cases heq
      exact ⟨v, AList.mem_lookup_iff.mpr he, rfl⟩
    · rintro ⟨v, hv, rfl⟩
      exact ⟨⟨k, v⟩, AList.mem_lookup_iff.mp hv, rfl⟩
  cases hv : l.lookup k with
  | none =>
    cases hc : (l.const c).lookup k with
    | none => rfl
    | some b =>
      obtain ⟨v, hv', -⟩ := (hiff b).mp hc
      cases hv.symm.trans hv'
  | some v => exact (hiff c).mpr ⟨v, hv, rfl⟩

end AList
