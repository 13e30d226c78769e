import Mathlib.Data.Nat.Bitwise
import Mathlib.Data.UInt

/-!
# Bit sets

A set of positions in a list of 64-bit words, one bit for each position.
-/

namespace Bitset
open List

/-- Words for so many positions, none of them in the set. -/
def empty (n : Nat) : List UInt64 := List.replicate ((n + 63) / 64) 0

/-- The bit of a position in its word. -/
def bit (pos : Nat) : UInt64 := 1 <<< (UInt64.ofNat (pos % 64))

def contains (ws : List UInt64) (pos : Nat) : Bool := ws.getD (pos / 64) 0 &&& bit pos != 0

def insert (ws : List UInt64) (pos : Nat) : List UInt64 := ws.modify (pos / 64) (· ||| bit pos)

theorem bit_toNat (pos : Nat) : (bit pos).toNat = 2 ^ (pos % 64) := by
  have hlt : pos % 64 < 64 := Nat.mod_lt _ (by decide)
  have hmod : (UInt64.ofNat (pos % 64)).toNat = pos % 64 := by
    rw [UInt64.toNat_ofNat']
    exact Nat.mod_eq_of_lt (by omega)
  rw [bit, UInt64.toNat_shiftLeft, hmod, Nat.mod_eq_of_lt hlt, UInt64.toNat_one, Nat.shiftLeft_eq,
    Nat.one_mul]
  exact Nat.mod_eq_of_lt (Nat.pow_lt_pow_right (by decide) hlt)

theorem contains_eq (ws : List UInt64) (pos : Nat) :
    contains ws pos = (ws.getD (pos / 64) 0).toNat.testBit (pos % 64) := by
  rw [contains, Bool.eq_iff_iff, bne_iff_ne, ne_eq, ← UInt64.toNat_inj, UInt64.toNat_and, bit_toNat,
    Nat.and_two_pow]
  cases (ws.getD (pos / 64) 0).toNat.testBit (pos % 64) <;> simp

@[simp] theorem length_insert (ws : List UInt64) (pos : Nat) : (insert ws pos).length = ws.length :=
  length_modify ..

theorem contains_insert {ws : List UInt64} (h : pos / 64 < ws.length) (q : Nat) :
    contains (insert ws pos) q = (contains ws q || decide (q = pos)) := by
  rw [contains_eq, contains_eq, insert]
  by_cases hword : pos / 64 = q / 64
  · have hget : (ws.modify (pos / 64) (· ||| bit pos)).getD (q / 64) 0 =
        ws.getD (q / 64) 0 ||| bit pos := by
      rw [hword] at h ⊢
      simp [getD_eq_getElem?_getD, h]
    have heq : (pos % 64 = q % 64) ↔ q = pos := by omega
    rw [hget, UInt64.toNat_or, Nat.testBit_or, bit_toNat, Nat.testBit_two_pow]
    simp only [heq]
  · have hget : (ws.modify (pos / 64) (· ||| bit pos)).getD (q / 64) 0 = ws.getD (q / 64) 0 := by
      simp [getD_eq_getElem?_getD, hword]
    have hne : q ≠ pos := fun heq => hword (by rw [heq])
    rw [hget, decide_eq_false hne, Bool.or_false]

theorem contains_empty (n q : Nat) : contains (empty n) q = false := by
  have hget : (empty n).getD (q / 64) 0 = 0 := by
    rw [empty, getD_eq_getElem?_getD, getElem?_replicate]
    split <;> rfl
  rw [contains_eq, hget]
  exact Nat.zero_testBit _

theorem length_empty (n : Nat) : (empty n).length = (n + 63) / 64 := length_replicate

end Bitset
