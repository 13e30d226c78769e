import AmberStore.Lib.Bytes
import AmberStore.Lib.Search

/-!
# Checked computations

Reads and sums of machine integers that have no value where the program would fail or wrap around. A
computation that has a value performs none of the two.
-/

namespace AmberStore.Checked

/-- An element by its index. -/
def at? (l : List α) (i : Nat) : Option α := l[i]?

/-- The bytes between two indices, which must be in order and in range. -/
def slice (b : Bytes) (i j : Nat) : Option Bytes :=
  if i ≤ j ∧ j ≤ b.length then some (b.slice i j) else none

/-- A sum of integers of `w` bits. -/
def add (w a b : Nat) : Option Nat := if a + b < 2 ^ w then some (a + b) else none

/-- A difference of unsigned integers. -/
def sub (a b : Nat) : Option Nat := if b ≤ a then some (a - b) else none

/-- A product of integers of `w` bits. -/
def mul (w a b : Nat) : Option Nat := if a * b < 2 ^ w then some (a * b) else none

theorem bind_eq {x : Option α} {f : α → Option β} (h : x = some a) : (x >>= f) = f a := by
  rw [h]
  rfl

theorem slice_eq {b : Bytes} (hij : i ≤ j) (hj : j ≤ b.length) : slice b i j = some (b.slice i j) :=
  if_pos ⟨hij, hj⟩

theorem add_eq (h : a + b < 2 ^ w) : add w a b = some (a + b) := if_pos h

theorem sub_eq (h : b ≤ a) : sub a b = some (a - b) := if_pos h

theorem mul_eq (h : a * b < 2 ^ w) : mul w a b = some (a * b) := if_pos h

theorem at?_eq {l : List α} (h : i < l.length) (d : α) : at? l i = some (l.getD i d) := by
  rw [at?, List.getD_eq_getElem?_getD, List.getElem?_eq_getElem h, Option.getD_some]

/-- A binary search whose probes may fail. -/
def searchLoop (f : Nat → Option Bool) : Nat → Nat → Nat → Option Nat
  | 0, i, _ => some i
  | fuel + 1, i, j =>
    if i < j then do
      let s ← add 64 i j
      let found ← f (s / 2)
      if found then searchLoop f fuel i (s / 2) else searchLoop f fuel (s / 2 + 1) j
    else some i

def search (n : Nat) (f : Nat → Option Bool) : Option Nat := searchLoop f n 0 n

/-- A search none of whose probes fails is one without checks. -/
theorem searchLoop_eq {f : Nat → Option Bool} {g : Nat → Bool} (hf : ∀ i, i < n → f i = some (g i))
    (hn : n < 2 ^ 63) (hj : j ≤ n) : searchLoop f fuel i j = some (Search.loop g fuel i j) := by
  induction fuel generalizing i j with
  | zero => rfl
  | succ fuel ih =>
    rw [searchLoop, Search.loop]
    by_cases hij : i < j
    · rw [if_pos hij, if_pos hij, bind_eq (add_eq (by omega)), bind_eq (hf _ (by omega))]
      dsimp only
      cases g ((i + j) / 2) with
      | true => exact ih (by omega)
      | false => exact ih hj
    · rw [if_neg hij, if_neg hij]

theorem search_eq {f : Nat → Option Bool} {g : Nat → Bool} (hf : ∀ i, i < n → f i = some (g i))
    (hn : n < 2 ^ 63) : search n f = some (Search.search n g) :=
  searchLoop_eq hf hn (Nat.le_refl n)

end AmberStore.Checked
