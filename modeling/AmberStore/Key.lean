import AmberStore.Lib.Bytes
import Mathlib.Data.List.GetD
import Mathlib.Tactic.IntervalCases

/-!
# Keys

The 32-byte lookup key: a header byte (object type in the high nibble, size of the length field in
the low three bits), the big-endian logical length, and the leading bytes of the payload's BLAKE3
digest.
-/

namespace AmberStore
open List

/-- The type nibble of a key. The values 5 to 15 are reserved. -/
inductive ObjType where
  | blob
  | fileNode
  | dirLeaf
  | dirNode
  | xattrSet
  | reserved (n : UInt8)
  deriving DecidableEq

namespace ObjType

def ofByte (n : UInt8) : ObjType :=
  if n = 0 then .blob
  else if n = 1 then .fileNode
  else if n = 2 then .dirLeaf
  else if n = 3 then .dirNode
  else if n = 4 then .xattrSet
  else .reserved n

def toByte : ObjType → UInt8
  | .blob => 0
  | .fileNode => 1
  | .dirLeaf => 2
  | .dirNode => 3
  | .xattrSet => 4
  | .reserved n => n

def isValid : ObjType → Bool
  | .reserved _ => false
  | _ => true

/-- Objects of these types have no children. -/
def isLeaf : ObjType → Bool
  | .blob | .xattrSet => true
  | _ => false

end ObjType

inductive KeyError where
  | badKeyLength (n : Nat)
  | reservedBitSet
  | reservedType (t : ObjType)
  | nonCanonicalLength
  deriving DecidableEq

@[ext] structure Key where
  bytes : Bytes
  size_eq : bytes.length = 32
  deriving DecidableEq

/-- A full 256-bit digest. -/
abbrev Digest := { b : Bytes // b.length = 32 }

/-- BLAKE3, with a 32-byte digest. -/
abbrev Blake3 := Bytes → Digest

theorem length_zeros : (replicate 32 (0 : UInt8)).length = 32 := rfl

theorem length_two_zeros : (0 :: 2 :: replicate 30 (0 : UInt8)).length = 32 := rfl

namespace Key

def byte (k : Key) (i : Nat) : UInt8 := k.bytes.getD i 0

/-- The byte a segment index fans out on. -/
def lastByte (k : Key) : UInt8 := k.byte 31

def type (k : Key) : ObjType := .ofByte (k.byte 0 >>> 4)

def lengthSize (k : Key) : Nat := (k.byte 0 &&& 0x07).toNat + 1

def length (k : Key) : UInt64 := .ofNat (Bytes.uint (Bytes.slice k.bytes 1 (1 + k.lengthSize)))

def hash (k : Key) : Bytes := k.bytes.drop (1 + k.lengthSize)

def validate (k : Key) : Except KeyError Unit :=
  if k.byte 0 &&& 0x08 ≠ 0 then .error .reservedBitSet
  else if !k.type.isValid then .error (.reservedType k.type)
  else if k.byte 1 = 0 ∧ ¬(k.lengthSize = 1 ∧ k.length = 0) then .error .nonCanonicalLength
  else .ok ()

def parse (b : Bytes) : Except KeyError Key :=
  if h : b.length = 32 then
    match validate ⟨b, h⟩ with
    | .ok () => .ok ⟨b, h⟩
    | .error e => .error e
  else .error (.badKeyLength b.length)

/-- The least number of bytes that hold `n`; zero takes one byte. -/
def lengthSizeFor (n : UInt64) : Nat := if n = 0 then 1 else (Nat.log2 n.toNat + 1 + 7) / 8

theorem lengthSizeFor_pos (n : UInt64) : 1 ≤ lengthSizeFor n := by
  unfold lengthSizeFor; split <;> omega

theorem lengthSizeFor_le (n : UInt64) : lengthSizeFor n ≤ 8 := by
  unfold lengthSizeFor
  split
  · omega
  · next h =>
    have hn : n.toNat ≠ 0 := fun h' => h (UInt64.toNat_inj.mp h')
    have := (Nat.log2_lt hn).mpr n.toNat_lt
    omega

/-- The header byte of a key with type `t` and an `ls`-byte length field. -/
def header (t : ObjType) (ls : Nat) : UInt8 := t.toByte <<< 4 ||| UInt8.ofNat (ls - 1)

def newFromHash (t : ObjType) (length : UInt64) (fullHash : Digest) : Except KeyError Key :=
  if !t.isValid then .error (.reservedType t)
  else
    let ls := lengthSizeFor length
    .ok {
      bytes := header t ls :: ((Bytes.putUint 8 length.toNat).drop (8 - ls) ++
        fullHash.1.take (31 - ls))
      size_eq := by
        have h1 := lengthSizeFor_pos length
        have h2 := lengthSizeFor_le length
        have h3 := fullHash.2
        simp only [length_cons, length_append, length_drop, length_take,
          Bytes.length_putUint, h3]
        omega }

/-- The key of serialized bytes. -/
def new (H : Blake3) (t : ObjType) (length : UInt64) (serialized : Bytes) : Except KeyError Key :=
  newFromHash t length (H serialized)

/-- A key that `parse` accepts. -/
def Canonical (k : Key) : Prop := k.validate = .ok ()

instance (k : Key) : Decidable k.Canonical := decEq ..

theorem Canonical.parse (h : Canonical k) : Key.parse k.bytes = .ok k := by
  unfold Canonical at h
  simp [Key.parse, k.size_eq, h]

theorem parse_ok (h : Key.parse b = .ok k) : k.bytes = b ∧ k.Canonical := by
  unfold Key.parse at h
  split at h
  · split at h
    · next hv => cases h; exact ⟨rfl, hv⟩
    · cases h
  · cases h

/-! ## Keys built from a digest -/

theorem header_type (ht : t.isValid = true) (h1 : 1 ≤ ls) (h8 : ls ≤ 8) :
    ObjType.ofByte (header t ls >>> 4) = t := by
  cases t <;> simp [ObjType.isValid] at ht <;> interval_cases ls <;> decide

theorem header_lengthSize (ht : t.isValid = true) (h1 : 1 ≤ ls) (h8 : ls ≤ 8) :
    (header t ls &&& 0x07).toNat + 1 = ls := by
  cases t <;> simp [ObjType.isValid] at ht <;> interval_cases ls <;> decide

theorem header_reserved (ht : t.isValid = true) (h1 : 1 ≤ ls) (h8 : ls ≤ 8) :
    header t ls &&& 0x08 = 0 := by
  cases t <;> simp [ObjType.isValid] at ht <;> interval_cases ls <;> decide

theorem lt_pow_lengthSizeFor (n : UInt64) : n.toNat < 256 ^ lengthSizeFor n := by
  unfold lengthSizeFor
  split
  · next h => subst h; decide
  · next h =>
    have hn : n.toNat ≠ 0 := fun h' => h (UInt64.toNat_inj.mp h')
    have hlt := (Nat.log2_lt hn).mp (Nat.lt_succ_self _)
    calc n.toNat < 2 ^ (Nat.log2 n.toNat + 1) := hlt
      _ ≤ 2 ^ (8 * ((Nat.log2 n.toNat + 1 + 7) / 8)) := Nat.pow_le_pow_right (by decide) (by omega)
      _ = 256 ^ ((Nat.log2 n.toNat + 1 + 7) / 8) := by rw [Nat.pow_mul]

/-- The length field is minimal: dropping its first byte would lose the value. -/
theorem pow_le_of_lengthSizeFor {n : UInt64} (h : n ≠ 0) : 256 ^ (lengthSizeFor n - 1) ≤ n.toNat := by
  have hn : n.toNat ≠ 0 := fun h' => h (UInt64.toNat_inj.mp h')
  rw [lengthSizeFor, if_neg h]
  calc 256 ^ ((Nat.log2 n.toNat + 1 + 7) / 8 - 1)
      = 2 ^ (8 * ((Nat.log2 n.toNat + 1 + 7) / 8 - 1)) := by rw [Nat.pow_mul]
    _ ≤ 2 ^ Nat.log2 n.toNat := Nat.pow_le_pow_right (by decide) (by omega)
    _ ≤ n.toNat := Nat.log2_self_le hn

/-- The low bytes of a fixed-width integer are the integer at the smaller width. -/
theorem drop_putUint (w d n : Nat) : (Bytes.putUint (d + w) n).drop d = Bytes.putUint w n := by
  induction w generalizing n with
  | zero => simp [Bytes.putUint]
  | succ w ih =>
    rw [← Nat.add_assoc, Bytes.putUint, Bytes.putUint,
      drop_append_of_le_length (by simp), ih]

theorem head_putUint (h : 256 ^ w ≤ n) (hn : n < 256 ^ (w + 1)) :
    (Bytes.putUint (w + 1) n).getD 0 0 ≠ 0 := by
  induction w generalizing n with
  | zero =>
    simp only [Bytes.putUint, nil_append, getD_cons_zero]
    intro h0
    have := congrArg UInt8.toNat h0
    rw [UInt8.toNat_ofNat'] at this
    simp at this hn
    omega
  | succ w ih =>
    rw [Bytes.putUint]
    have hdiv : 256 ^ w ≤ n / 256 := by
      rw [Nat.le_div_iff_mul_le (by decide), ← Nat.pow_succ]; exact h
    have hdiv' : n / 256 < 256 ^ (w + 1) := by
      rw [Nat.div_lt_iff_lt_mul (by decide), ← Nat.pow_succ]; exact hn
    have := ih hdiv hdiv'
    rwa [getD_append _ _ _ _ (by simp)]

section NewFromHash
variable {t : ObjType} {n : UInt64} {h : Digest} {k : Key}

section
variable (hk : newFromHash t n h = .ok k)
include hk

theorem newFromHash_bytes :
    t.isValid = true ∧ k.bytes = header t (lengthSizeFor n) ::
      (Bytes.putUint (lengthSizeFor n) n.toNat ++ h.1.take (31 - lengthSizeFor n)) := by
  unfold newFromHash at hk
  split at hk
  · cases hk
  · next ht =>
    cases hk
    have hd : (Bytes.putUint 8 n.toNat).drop (8 - lengthSizeFor n) =
        Bytes.putUint (lengthSizeFor n) n.toNat := by
      have h8 := lengthSizeFor_le n
      conv_lhs => rw [show (8 : Nat) = (8 - lengthSizeFor n) + lengthSizeFor n by omega]
      rw [show 8 - lengthSizeFor n + lengthSizeFor n - lengthSizeFor n = 8 - lengthSizeFor n by omega]
      exact drop_putUint _ _ _
    refine ⟨by simpa using ht, ?_⟩
    change header t (lengthSizeFor n) :: ((Bytes.putUint 8 n.toNat).drop (8 - lengthSizeFor n) ++ _) = _
    rw [hd]

theorem newFromHash_type : k.type = t := by
  obtain ⟨ht, hb⟩ := newFromHash_bytes hk
  have : k.byte 0 = header t (lengthSizeFor n) := by rw [byte, hb]; rfl
  rw [type, this, header_type ht (lengthSizeFor_pos n) (lengthSizeFor_le n)]

theorem newFromHash_lengthSize : k.lengthSize = lengthSizeFor n := by
  obtain ⟨ht, hb⟩ := newFromHash_bytes hk
  have : k.byte 0 = header t (lengthSizeFor n) := by rw [byte, hb]; rfl
  rw [lengthSize, this, header_lengthSize ht (lengthSizeFor_pos n) (lengthSizeFor_le n)]

theorem newFromHash_length : k.length = n := by
  obtain ⟨_, hb⟩ := newFromHash_bytes hk
  have hs : Bytes.slice k.bytes 1 (1 + lengthSizeFor n) = Bytes.putUint (lengthSizeFor n) n.toNat := by
    rw [hb]
    exact Bytes.slice_append [header t (lengthSizeFor n)] _ _ rfl (by simp)
  rw [length, newFromHash_lengthSize hk, hs, Bytes.uint_putUint_of_lt (lt_pow_lengthSizeFor n),
    UInt64.ofNat_toNat]

theorem newFromHash_canonical : k.Canonical := by
  obtain ⟨ht, hb⟩ := newFromHash_bytes hk
  have h1 := lengthSizeFor_pos n
  have h0 : k.byte 0 = header t (lengthSizeFor n) := by rw [byte, hb]; rfl
  have hv : k.type.isValid = true := by rw [newFromHash_type hk]; exact ht
  unfold Canonical validate
  rw [h0, header_reserved ht h1 (lengthSizeFor_le n), newFromHash_length hk,
    newFromHash_lengthSize hk]
  simp only [ne_eq, not_true_eq_false, if_false, hv, Bool.not_true, Bool.false_eq_true]
  rw [if_neg]
  rintro ⟨hz, hne⟩
  by_cases hn : n = 0
  · exact hne ⟨by rw [lengthSizeFor, if_pos hn], hn⟩
  · obtain ⟨w, hw⟩ : ∃ w, lengthSizeFor n = w + 1 := ⟨lengthSizeFor n - 1, by omega⟩
    have hge := pow_le_of_lengthSizeFor hn
    have hlt := lt_pow_lengthSizeFor n
    rw [hw] at hge hlt
    refine head_putUint hge hlt ?_
    have : k.byte 1 = (Bytes.putUint (w + 1) n.toNat).getD 0 0 := by
      rw [byte, hb, hw, getD_cons_succ, getD_append _ _ _ _ (by simp)]
    rwa [Nat.add_sub_cancel, ← this]

theorem newFromHash_hash : k.hash = h.1.take (31 - lengthSizeFor n) := by
  obtain ⟨_, hb⟩ := newFromHash_bytes hk
  rw [hash, newFromHash_lengthSize hk, hb, Nat.add_comm, drop_succ_cons]
  exact drop_left' (Bytes.length_putUint ..)

end

theorem newFromHash_ok (ht : t.isValid = true) : ∃ k, newFromHash t n h = .ok k := by
  unfold newFromHash
  rw [ht]
  exact ⟨_, rfl⟩

end NewFromHash

/-! ## The canonical form -/

/-- The header byte says the type and the size of the length field, and nothing else. -/
theorem header_of_byte (b : UInt8) (h : b &&& 0x08 = 0) :
    (ObjType.ofByte (b >>> 4)).toByte <<< 4 ||| UInt8.ofNat ((b &&& 0x07).toNat + 1 - 1) = b := by
  have hall : ∀ i : Fin 256, UInt8.ofNat i &&& 0x08 = 0 →
      (ObjType.ofByte (UInt8.ofNat i >>> 4)).toByte <<< 4 ||| UInt8.ofNat ((UInt8.ofNat i &&& 0x07).toNat + 1 - 1) =
        UInt8.ofNat i := by decide +kernel
  have hb := hall ⟨b.toNat, b.toNat_lt⟩
  rw [UInt8.ofNat_toNat] at hb
  exact hb h

theorem lengthSize_pos (k : Key) : 1 ≤ k.lengthSize := Nat.le_add_left ..

theorem lengthSize_le (k : Key) : k.lengthSize ≤ 8 := by
  have hle : (k.byte 0 &&& 0x07).toNat ≤ 7 := by
    rw [UInt8.toNat_and]
    exact Nat.and_le_right
  exact Nat.succ_le_succ hle

/-- A width that holds `n` and is not too wide is the least one. -/
theorem lengthSizeFor_unique {n : UInt64} {w : Nat} (hlt : n.toNat < 256 ^ (w + 1)) (hle : 256 ^ w ≤ n.toNat) :
    lengthSizeFor n = w + 1 := by
  have hn : n ≠ 0 := by
    rintro rfl
    exact absurd hle (Nat.not_le_of_lt (Nat.pow_pos (by decide)))
  have hpos := lengthSizeFor_pos n
  have h₁ := (Nat.pow_lt_pow_iff_right (by decide)).mp (Nat.lt_of_le_of_lt hle (lt_pow_lengthSizeFor n))
  have h₂ := (Nat.pow_lt_pow_iff_right (by decide)).mp (Nat.lt_of_le_of_lt (pow_le_of_lengthSizeFor hn) hlt)
  omega

section Canonical
variable {k : Key}

/-- The length field as it stands in the key. -/
def lengthField (k : Key) : Bytes := Bytes.slice k.bytes 1 (1 + k.lengthSize)

theorem length_lengthField (k : Key) : k.lengthField.length = k.lengthSize := by
  have hle := k.lengthSize_le
  have hsize := k.size_eq
  rw [lengthField, Bytes.length_slice_of_le (by omega)]
  omega

theorem toNat_length (k : Key) : k.length.toNat = Bytes.uint k.lengthField := by
  have hlt := Bytes.uint_lt k.lengthField
  have hpow : 256 ^ k.lengthSize ≤ 2 ^ 64 := Nat.pow_le_pow_right (by decide) k.lengthSize_le
  rw [length_lengthField] at hlt
  rw [length, UInt64.toNat_ofNat']
  exact Nat.mod_eq_of_lt (Nat.lt_of_lt_of_le hlt hpow)

/-- A key is its header byte, its length field and its hash. -/
theorem bytes_eq (k : Key) : k.bytes = k.byte 0 :: (k.lengthField ++ k.hash) := by
  have hne : k.bytes ≠ [] := fun h => absurd k.size_eq (by rw [h]; decide)
  obtain ⟨x, rest, hb⟩ := exists_cons_of_ne_nil hne
  have hbyte : k.byte 0 = x := by rw [byte, hb, getD_cons_zero]
  have hfield : k.lengthField = rest.take k.lengthSize := by
    rw [lengthField, hb, Bytes.slice, drop_succ_cons, drop_zero, Nat.add_sub_cancel_left]
  have hhash : k.hash = rest.drop k.lengthSize := by rw [hash, hb, Nat.add_comm, drop_succ_cons]
  rw [hbyte, hfield, hhash, take_append_drop, hb]

/-- The first byte of the length field is the second one of the key. -/
theorem lengthField_cons (k : Key) : ∃ f, k.lengthField = k.byte 1 :: f := by
  have hpos := k.lengthSize_pos
  have hne : k.lengthField ≠ [] := by
    rw [← length_pos_iff, length_lengthField]
    exact hpos
  obtain ⟨y, f, hf⟩ := exists_cons_of_ne_nil hne
  have hy : k.byte 1 = y := by
    rw [byte, k.bytes_eq, hf, cons_append, getD_cons_succ, getD_cons_zero]
  exact ⟨f, by rw [hf, hy]⟩

theorem Canonical.reserved (h : k.Canonical) : k.byte 0 &&& 0x08 = 0 := by
  unfold Canonical validate at h
  by_contra hne
  rw [if_pos hne] at h
  cases h

theorem Canonical.type_valid (h : k.Canonical) : k.type.isValid = true := by
  have hres := h.reserved
  unfold Canonical validate at h
  rw [if_neg (not_not.mpr hres)] at h
  by_contra hne
  rw [if_pos (by simpa using hne)] at h
  cases h

/-- The length field has no leading zero, unless it is the single zero of an empty payload. -/
theorem Canonical.minimal (h : k.Canonical) (h0 : k.byte 1 = 0) : k.lengthSize = 1 ∧ k.length = 0 := by
  have hres := h.reserved
  have hvalid := h.type_valid
  unfold Canonical validate at h
  rw [if_neg (not_not.mpr hres), if_neg (by rw [hvalid]; decide)] at h
  by_contra hne
  rw [if_pos ⟨h0, hne⟩] at h
  cases h

theorem Canonical.lengthSizeFor_length (h : k.Canonical) : lengthSizeFor k.length = k.lengthSize := by
  obtain ⟨f, hf⟩ := k.lengthField_cons
  have hlen : f.length + 1 = k.lengthSize := by rw [← k.length_lengthField, hf, length_cons]
  by_cases h0 : k.byte 1 = 0
  · obtain ⟨hsize, hzero⟩ := h.minimal h0
    rw [hzero, hsize]
    rfl
  · have hpos : 1 ≤ (k.byte 1).toNat := Nat.one_le_iff_ne_zero.mpr fun hz => h0 (UInt8.toNat_inj.mp hz)
    have hnat : k.length.toNat = (k.byte 1).toNat * 256 ^ f.length + Bytes.uint f := by
      rw [toNat_length, hf, Bytes.uint_cons]
    have hlt : k.length.toNat < 256 ^ (f.length + 1) := by
      rw [hlen, ← length_lengthField, toNat_length]
      exact Bytes.uint_lt _
    have hle : 256 ^ f.length ≤ k.length.toNat := by
      calc 256 ^ f.length = 1 * 256 ^ f.length := (Nat.one_mul _).symm
        _ ≤ (k.byte 1).toNat * 256 ^ f.length := Nat.mul_le_mul_right _ hpos
        _ ≤ k.length.toNat := by rw [hnat]; exact Nat.le_add_right ..
    rw [lengthSizeFor_unique hlt hle, hlen]

theorem length_hash (k : Key) : k.hash.length = 31 - k.lengthSize := by
  rw [hash, length_drop, k.size_eq]
  omega

/-- A canonical key is made of its type, its length and any digest that starts with its hash. -/
theorem Canonical.newFromHash_eq (h : k.Canonical) {d : Digest} (hd : d.1.take (31 - k.lengthSize) = k.hash) :
    newFromHash k.type k.length d = .ok k := by
  obtain ⟨k', hk'⟩ := newFromHash_ok (n := k.length) (h := d) h.type_valid
  have hb := (newFromHash_bytes hk').2
  have hheader : header k.type k.lengthSize = k.byte 0 := header_of_byte _ h.reserved
  have hfield : Bytes.putUint k.lengthSize k.length.toNat = k.lengthField := by
    rw [toNat_length, ← length_lengthField, Bytes.putUint_uint]
  rw [h.lengthSizeFor_length, hheader, hfield, hd, ← k.bytes_eq] at hb
  rw [hk', Key.ext hb]

theorem Canonical.exists_newFromHash (h : k.Canonical) : ∃ d, newFromHash k.type k.length d = .ok k := by
  have hle := k.lengthSize_le
  refine ⟨⟨k.hash ++ List.replicate (1 + k.lengthSize) 0, ?_⟩, h.newFromHash_eq ?_⟩
  · rw [length_append, length_replicate, length_hash]
    omega
  · exact take_left' k.length_hash

theorem parse_iff {b : Bytes} : parse b = .ok k ↔ k.bytes = b ∧ ∃ t n d, newFromHash t n d = .ok k := by
  constructor
  · intro h
    obtain ⟨hb, hcan⟩ := parse_ok h
    obtain ⟨d, hd⟩ := hcan.exists_newFromHash
    exact ⟨hb, _, _, d, hd⟩
  · rintro ⟨rfl, t, n, d, hd⟩
    exact (newFromHash_canonical hd).parse

/-- The type, the length and the hash of a canonical key determine it. -/
theorem Canonical.ext {k' : Key} (h : k.Canonical) (h' : k'.Canonical) (ht : k.type = k'.type)
    (hn : k.length = k'.length) (hh : k.hash = k'.hash) : k = k' := by
  obtain ⟨d, hd⟩ := h'.exists_newFromHash
  have hsize : k.lengthSize = k'.lengthSize := by
    rw [← h.lengthSizeFor_length, ← h'.lengthSizeFor_length, hn]
  have htake := newFromHash_hash hd
  rw [h'.lengthSizeFor_length, ← hsize, ← hh] at htake
  have heq := h.newFromHash_eq htake.symm
  rw [ht, hn, hd] at heq
  exact (Except.ok.inj heq).symm

end Canonical

/-- Keys have one canonical form: `parse` accepts what `newFromHash` builds and nothing else, the parts of a key
can be read back from it, and they determine it. -/
theorem canonical_form :
    (∀ b : Bytes, (∃ k, parse b = .ok k) ↔
      ∃ t n d k, t.isValid = true ∧ newFromHash t n d = .ok k ∧ k.bytes = b) ∧
    (∀ (t : ObjType) (n : UInt64) (d : Digest), t.isValid = true → ∃ k, newFromHash t n d = .ok k ∧
      k.type = t ∧ k.length = n ∧ k.hash = d.1.take (31 - lengthSizeFor n)) ∧
    ∀ (b b' : Bytes) (k k' : Key), parse b = .ok k → parse b' = .ok k' →
      (k = k' ↔ k.type = k'.type ∧ k.length = k'.length ∧ k.hash = k'.hash) := by
  refine ⟨fun b => ⟨fun ⟨k, hk⟩ => ?_, fun ⟨t, n, d, k, _, hd, hb⟩ => ⟨k, ?_⟩⟩, fun t n d ht => ?_, ?_⟩
  · obtain ⟨hb, t, n, d, hd⟩ := parse_iff.mp hk
    exact ⟨t, n, d, k, (newFromHash_bytes hd).1, hd, hb⟩
  · exact parse_iff.mpr ⟨hb, t, n, d, hd⟩
  · obtain ⟨k, hk⟩ := newFromHash_ok (n := n) (h := d) ht
    exact ⟨k, hk, newFromHash_type hk, newFromHash_length hk, newFromHash_hash hk⟩
  · intro b b' k k' hk hk'
    refine ⟨fun heq => ?_, fun ⟨ht, hn, hh⟩ => (parse_ok hk).2.ext (parse_ok hk').2 ht hn hh⟩
    rw [heq]
    exact ⟨rfl, rfl, rfl⟩

end Key
end AmberStore
