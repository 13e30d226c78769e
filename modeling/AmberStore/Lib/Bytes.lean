import Mathlib.Data.UInt
import Mathlib.Tactic.Ring

/-!
# Byte strings

Big-endian integers, slices, and positioned reads and writes on byte strings. A field that is too
narrow drops the high bits of the value stored in it, as the fixed-width integer stores of systems
languages do.
-/

abbrev Bytes := List UInt8

namespace Bytes

/-! ## Big-endian integers -/

/-- `n` in `w` bytes, most significant first. -/
def putUint : Nat → Nat → Bytes
  | 0, _ => []
  | w + 1, n => putUint w (n / 256) ++ [UInt8.ofNat n]

/-- The integer a byte string spells, most significant byte first. -/
def uint (b : Bytes) : Nat := b.foldl (fun acc x => acc * 256 + x.toNat) 0

@[simp] theorem length_putUint (w n : Nat) : (putUint w n).length = w := by
  induction w generalizing n with
  | zero => rfl
  | succ w ih => simp [putUint, ih]

theorem uint_append_singleton (b : Bytes) (x : UInt8) : uint (b ++ [x]) = uint b * 256 + x.toNat := by
  simp [uint]

theorem uint_cons (x : UInt8) (b : Bytes) : uint (x :: b) = x.toNat * 256 ^ b.length + uint b := by
  induction b using List.reverseRecOn with
  | nil => simp [uint]
  | append_singleton b y ih =>
    rw [← List.cons_append, uint_append_singleton, ih, uint_append_singleton, List.length_append,
      List.length_singleton, Nat.pow_succ]
    ring

theorem uint_putUint (w n : Nat) : uint (putUint w n) = n % 256 ^ w := by
  induction w generalizing n with
  | zero => simp [putUint, uint, Nat.mod_one]
  | succ w ih =>
    have hpow : n % 256 ^ (w + 1) = n % 256 + 256 * (n / 256 % 256 ^ w) := by
      rw [Nat.pow_succ, Nat.mul_comm, Nat.mod_mul]
    rw [putUint, uint_append_singleton, ih, UInt8.toNat_ofNat', hpow]
    omega

/-- Strings of one length that differ compare as their longer ones do. -/
theorem append_lt_append {a b : Bytes} (h : a < b) (hlen : a.length = b.length) (c d : Bytes) :
    a ++ c < b ++ d := by
  induction a generalizing b with
  | nil =>
    rw [List.length_nil, eq_comm, List.length_eq_zero_iff] at hlen
    exact absurd (hlen ▸ h) (List.lt_irrefl _)
  | cons x a ih =>
    cases b with
    | nil => cases hlen
    | cons y b =>
      rw [List.cons_lt_cons_iff] at h
      rw [List.cons_append, List.cons_append, List.cons_lt_cons_iff]
      exact h.imp id fun ⟨heq, hlt⟩ => ⟨heq, ih hlt (by simpa using hlen)⟩

theorem putUint_lt (h : m < n) (hn : n < 256 ^ w) : putUint w m < putUint w n := by
  induction w generalizing m n with
  | zero =>
    rw [Nat.pow_zero] at hn
    omega
  | succ w ih =>
    rw [putUint, putUint]
    have hdiv : n / 256 < 256 ^ w := by
      rw [Nat.div_lt_iff_lt_mul (by decide), ← Nat.pow_succ]
      exact hn
    rcases Nat.lt_or_eq_of_le (Nat.div_le_div_right (Nat.le_of_lt h)) with hlt | heq
    · exact append_lt_append (ih hlt hdiv) (by simp) _ _
    · rw [heq]
      refine List.append_left_lt (List.cons_lt_cons_iff.mpr (.inl ?_))
      rw [UInt8.lt_iff_toNat_lt, UInt8.toNat_ofNat', UInt8.toNat_ofNat']
      omega

theorem uint_putUint_of_lt (h : n < 256 ^ w) : uint (putUint w n) = n := by
  rw [uint_putUint, Nat.mod_eq_of_lt h]

theorem uint_lt (b : Bytes) : uint b < 256 ^ b.length := by
  induction b using List.reverseRecOn with
  | nil => simp [uint]
  | append_singleton b x ih =>
    rw [uint_append_singleton, List.length_append, List.length_singleton, Nat.pow_succ]
    have := x.toNat_lt
    omega

/-- Reading an integer and storing it back at the same width gives the same bytes. -/
theorem putUint_uint (b : Bytes) : putUint b.length (uint b) = b := by
  induction b using List.reverseRecOn with
  | nil => rfl
  | append_singleton b x ih =>
    rw [uint_append_singleton, List.length_append, List.length_singleton, putUint]
    have hdiv : (uint b * 256 + x.toNat) / 256 = uint b := by have := x.toNat_lt; omega
    have hmod : UInt8.ofNat (uint b * 256 + x.toNat) = x := by
      apply UInt8.toNat_inj.mp
      rw [UInt8.toNat_ofNat']
      have := x.toNat_lt
      omega
    rw [hdiv, hmod, ih]

/-! ## Slices -/

/-- The bytes of `b` at positions `i` up to `j`. -/
def slice (b : Bytes) (i j : Nat) : Bytes := (b.drop i).take (j - i)

theorem length_slice (b : Bytes) (i j : Nat) : (slice b i j).length = min (j - i) (b.length - i) := by
  simp [slice]

theorem length_slice_of_le {b : Bytes} (h : j ≤ b.length) : (slice b i j).length = j - i := by
  rw [length_slice]; omega

/-- The integer in a field is bounded by the width of the field. -/
theorem uint_slice_lt (b : Bytes) (i j : Nat) : uint (slice b i j) < 256 ^ (j - i) := by
  refine Nat.lt_of_lt_of_le (uint_lt _) (Nat.pow_le_pow_right (by decide) ?_)
  rw [length_slice]
  exact Nat.min_le_left _ _

/-- A slice that lies in the middle part of a concatenation. -/
theorem slice_append (a b c : Bytes) (hi : i = a.length) (hj : j = a.length + b.length) :
    slice (a ++ b ++ c) i j = b := by
  subst hi hj
  simp [slice]

theorem slice_append_left {a : Bytes} (b : Bytes) (h : j ≤ a.length) :
    slice (a ++ b) i j = slice a i j := by
  simp only [slice, List.drop_append, List.take_append, List.length_drop]
  rw [show j - i - (a.length - i) = 0 by omega]
  simp

theorem slice_append_right {a : Bytes} (b : Bytes) (h : a.length ≤ i) :
    slice (a ++ b) i j = slice b (i - a.length) (j - a.length) := by
  simp only [slice, List.drop_append, List.drop_eq_nil_of_le h, List.nil_append]
  congr 1
  omega

theorem slice_take {b : Bytes} (h : j ≤ n) : slice (b.take n) i j = slice b i j := by
  simp only [slice, List.drop_take, List.take_take]
  congr 1
  omega

theorem slice_zero (b : Bytes) (j : Nat) : slice b 0 j = b.take j := by simp [slice]

theorem slice_slice {b : Bytes} (h : y ≤ j - i) : slice (slice b i j) x y = slice b (i + x) (i + y) := by
  simp only [slice, List.drop_take, List.take_take, List.drop_drop]
  congr 1
  omega

theorem getD_slice {b : Bytes} (h : x < j - i) (d : UInt8) :
    (slice b i j).getD x d = b.getD (i + x) d := by
  simp only [slice, List.getD_eq_getElem?_getD, List.getElem?_take_of_lt h, List.getElem?_drop]

theorem slice_of_prefix {p b : Bytes} (h : p <+: b) (hj : j ≤ p.length) : slice p i j = slice b i j := by
  obtain ⟨t, rfl⟩ := h
  rw [slice_append_left t hj]

/-! ## Concatenations of fields -/

theorem slice_flatten (ps : List Bytes) (i : Nat) {p : Bytes} (h : ps[i]? = some p)
    (ha : a = ((ps.take i).map List.length).sum) (hb : b = a + p.length) :
    slice ps.flatten a b = p := by
  induction ps generalizing i a b with
  | nil => simp at h
  | cons q ps ih =>
    cases i with
    | zero =>
      simp only [List.getElem?_cons_zero, Option.some.injEq] at h
      subst h
      simp only [List.take_zero, List.map_nil, List.sum_nil] at ha
      subst ha hb
      simp [slice]
    | succ i =>
      simp only [List.getElem?_cons_succ] at h
      simp only [List.take_succ_cons, List.map_cons, List.sum_cons] at ha
      rw [List.flatten_cons, slice_append_right _ (by omega)]
      exact ih i h (by omega) (by omega)

section FlatMap
variable {α : Type _} {f : α → Bytes} {l : List α}

theorem length_flatMap_const (hw : ∀ a ∈ l, (f a).length = w) : (l.flatMap f).length = l.length * w := by
  induction l with
  | nil => simp
  | cons a l ih =>
    simp only [List.flatMap_cons, List.length_append, List.length_cons]
    rw [hw a List.mem_cons_self, ih fun b hb => hw b (List.mem_cons_of_mem _ hb), Nat.succ_mul]
    omega

theorem drop_flatMap_const (hw : ∀ a ∈ l, (f a).length = w) (i : Nat) :
    (l.flatMap f).drop (i * w) = (l.drop i).flatMap f := by
  induction i generalizing l with
  | zero => simp
  | succ i ih =>
    cases l with
    | nil => simp
    | cons a l =>
      have ha := hw a List.mem_cons_self
      rw [List.flatMap_cons, List.drop_succ_cons,
        ← ih fun b hb => hw b (List.mem_cons_of_mem _ hb), List.drop_append, List.drop_eq_nil_of_le]
      · rw [List.nil_append]
        congr 1
        rw [ha, Nat.succ_mul]
        omega
      · rw [ha, Nat.succ_mul]; omega

theorem slice_flatMap_const (hw : ∀ a ∈ l, (f a).length = w) (hi : l[i]? = some a) :
    slice (l.flatMap f) (i * w) (i * w + w) = f a := by
  have hmem := List.mem_of_getElem? hi
  obtain ⟨hlt, rfl⟩ := List.getElem?_eq_some_iff.mp hi
  rw [slice, drop_flatMap_const hw, List.drop_eq_getElem_cons hlt, List.flatMap_cons,
    Nat.add_sub_cancel_left]
  have := hw _ hmem
  rw [List.take_append_of_le_length (by omega), List.take_of_length_le (by omega)]

end FlatMap

/-! ## Positioned reads and writes -/

/-- Read exactly `n` bytes at `off`; `none` when the string ends first. -/
def readAt (b : Bytes) (off n : Nat) : Option Bytes :=
  if off + n ≤ b.length then some (slice b off (off + n)) else none

/-- Write `p` at `off`; a gap past the end is filled with zero bytes. -/
def writeAt (b : Bytes) (off : Nat) (p : Bytes) : Bytes :=
  b.take off ++ List.replicate (off - b.length) 0 ++ p ++ b.drop (off + p.length)

theorem writeAt_end (b p : Bytes) : writeAt b b.length p = b ++ p := by
  simp [writeAt, List.drop_eq_nil_of_le]

theorem prefix_writeAt {pre b : Bytes} (h : pre <+: b) (p : Bytes) :
    pre ++ p <+: writeAt b pre.length p := by
  obtain ⟨t, rfl⟩ := h
  refine ⟨t.drop p.length, ?_⟩
  simp [writeAt, List.drop_append]

end Bytes
