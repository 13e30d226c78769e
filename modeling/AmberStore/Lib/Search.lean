import Mathlib.Data.List.Basic
import Mathlib.Data.List.Pairwise

/-!
# Binary search and bucketed sorted lists

`search n f` is the least index below `n` at which a monotone predicate holds, found by halving.
A list sorted by a small bucket number first falls into consecutive runs, one per bucket, and the
position of a run is given by counting.
-/

namespace Search
open List

/-- Halve the range `[i, j)` until it is empty. The first argument bounds the number of halvings. -/
def loop (f : Nat → Bool) : Nat → Nat → Nat → Nat
  | 0, i, _ => i
  | fuel + 1, i, j =>
    if i < j then
      let h := (i + j) / 2
      if f h then loop f fuel i h else loop f fuel (h + 1) j
    else i

def search (n : Nat) (f : Nat → Bool) : Nat := loop f n 0 n

/-- The search ends at the boundary: `f` fails everywhere below it and holds at it. -/
theorem loop_spec {f : Nat → Bool} (hmono : ∀ a b, a ≤ b → b < n → f a = true → f b = true)
    (fuel i j : Nat) (hij : i ≤ j) (hjn : j ≤ n) (hfuel : j - i ≤ fuel)
    (hlo : ∀ a, a < i → f a = false) (hhi : ∀ a, j ≤ a → a < n → f a = true) :
    loop f fuel i j ≤ n ∧ (∀ a, a < loop f fuel i j → f a = false) ∧
      ∀ a, loop f fuel i j ≤ a → a < n → f a = true := by
  induction fuel generalizing i j with
  | zero =>
    obtain rfl : i = j := by omega
    exact ⟨hjn, hlo, hhi⟩
  | succ fuel ih =>
    simp only [loop]
    split
    · next hlt =>
      split
      · next hf =>
        refine ih i ((i + j) / 2) (by omega) (by omega) (by omega) hlo ?_
        intro a ha han
        exact hmono _ a ha han hf
      · next hf =>
        refine ih ((i + j) / 2 + 1) j (by omega) hjn (by omega) ?_ hhi
        intro a ha
        by_contra hne
        exact hf (hmono a _ (by omega) (by omega) (by simpa using hne))
    · next hge =>
      obtain rfl : i = j := by omega
      exact ⟨hjn, hlo, hhi⟩

theorem search_spec {f : Nat → Bool} (hmono : ∀ a b, a ≤ b → b < n → f a = true → f b = true) :
    search n f ≤ n ∧ (∀ a, a < search n f → f a = false) ∧
      ∀ a, search n f ≤ a → a < n → f a = true :=
  loop_spec hmono n 0 n (Nat.zero_le _) (Nat.le_refl _) (by omega) (fun _ h => absurd h (by omega))
    (fun _ h h' => absurd h (by omega))

/-- In a list where a predicate once true stays true, the search finds where the rest satisfies it. -/
theorem drop_search {l : List α} {p : α → Bool}
    (h : l.Pairwise fun a b => p a = true → p b = true) :
    l.drop (search l.length fun i => (l[i]?).any p) = l.filter p := by
  have hmono : ∀ a b, a ≤ b → b < l.length → (l[a]?).any p = true → (l[b]?).any p = true := by
    intro a b hab hb ha
    rcases Nat.lt_or_eq_of_le hab with hlt | rfl
    · rw [getElem?_eq_getElem (Nat.lt_trans hlt hb), Option.any_some] at ha
      rw [getElem?_eq_getElem hb, Option.any_some]
      exact pairwise_iff_getElem.mp h a b _ hb hlt ha
    · exact ha
  obtain ⟨-, hlo, hhi⟩ := search_spec hmono
  generalize search l.length (fun i => (l[i]?).any p) = i at hlo hhi
  have hfront : (l.take i).filter p = [] := by
    refine filter_eq_nil_iff.mpr fun x hx => ?_
    obtain ⟨j, hj, rfl⟩ := mem_iff_getElem.mp hx
    rw [length_take] at hj
    have hfalse := hlo j (by omega)
    rw [getElem?_eq_getElem (by omega), Option.any_some] at hfalse
    simp [hfalse]
  have hback : (l.drop i).filter p = l.drop i := by
    refine filter_eq_self.mpr fun x hx => ?_
    obtain ⟨j, hj, rfl⟩ := mem_iff_getElem.mp hx
    rw [length_drop] at hj
    have htrue := hhi (i + j) (by omega) (by omega)
    rw [getElem?_eq_getElem (by omega), Option.any_some] at htrue
    rwa [getElem_drop]
  rw [← hback, ← nil_append ((l.drop i).filter p), ← hfront, ← filter_append,
    take_append_drop]

/-! ## Runs of a list sorted by bucket -/

section Buckets
variable {α : Type _} (bucket : α → Nat) {l : List α}

/-- In a list whose bucket numbers do not decrease, bucket `b` is the run that starts after the
elements of smaller buckets. -/
theorem drop_countP_lt (h : l.Pairwise fun x y => bucket x ≤ bucket y) (b : Nat) :
    (l.drop (l.countP fun x => decide (bucket x < b))).take
        (l.countP fun x => decide (bucket x = b)) = l.filter fun x => decide (bucket x = b) := by
  induction l with
  | nil => simp
  | cons x l ih =>
    have hl := (pairwise_cons.mp h).2
    have hx := (pairwise_cons.mp h).1
    rcases Nat.lt_trichotomy (bucket x) b with hb | hb | hb
    · have hne : bucket x ≠ b := by omega
      simp [hb, hne, ih hl]
    · -- the head opens the run, so nothing after it is smaller
      have hlt : l.countP (fun y => decide (bucket y < b)) = 0 := by
        rw [countP_eq_zero]
        intro y hy
        have := hx y hy
        simp; omega
      have ih := ih hl
      rw [hlt] at ih
      simp only [drop_zero] at ih
      simp [hb, hlt, ih]
    · have hlt : l.countP (fun y => decide (bucket y < b)) = 0 := by
        rw [countP_eq_zero]
        intro y hy
        have := hx y hy
        simp; omega
      have heq : l.countP (fun y => decide (bucket y = b)) = 0 := by
        rw [countP_eq_zero]
        intro y hy
        have := hx y hy
        simp; omega
      have hne : bucket x ≠ b := by omega
      have hnlt : ¬bucket x < b := by omega
      have hf : l.filter (fun y => decide (bucket y = b)) = [] := by
        rw [filter_eq_nil_iff]
        intro y hy
        have := hx y hy
        simp; omega
      simp [hlt, heq, hne, hnlt, hf]

theorem countP_lt_add_eq (l : List α) (b : Nat) :
    l.countP (fun x => decide (bucket x < b)) + l.countP (fun x => decide (bucket x = b)) =
      l.countP fun x => decide (bucket x ≤ b) := by
  induction l with
  | nil => simp
  | cons x l ih =>
    simp only [countP_cons]
    rcases Nat.lt_trichotomy (bucket x) b with hb | hb | hb
    · have h1 : bucket x ≠ b := by omega
      have h2 : bucket x ≤ b := by omega
      simp [hb, h1, h2]; omega
    · simp [hb]; omega
    · have h1 : bucket x ≠ b := by omega
      have h2 : ¬bucket x < b := by omega
      have h3 : ¬bucket x ≤ b := by omega
      simp [h1, h2, h3]; omega

end Buckets

end Search
