import AmberStore.Key
import AmberStore.Lib.Crc32

/-!
# The record codec

A record is a 46-byte header (tag, key, flags, uncompressed length, stored length, CRC-32C) followed
by the stored payload. On-disk segments and wire packs share it.
-/

namespace AmberStore

/-- One CAS object: its key and its serialized bytes. -/
structure Object where
  key : Key
  data : Bytes
  deriving DecidableEq

/-- The one-shot zstd compressor and decompressor. `decodeAll stored cap` stops at the capacity of
the destination buffer. -/
structure Zstd where
  encodeAll : Bytes → Bytes
  decodeAll : Bytes → Nat → Option Bytes
  decodeAll_encodeAll : ∀ d cap, d.length ≤ cap → decodeAll (encodeAll d) cap = some d

/-- The codec that compresses nothing. -/
def Zstd.stored : Zstd where
  encodeAll := fun d => d
  decodeAll := fun d cap => if d.length ≤ cap then some d else none
  decodeAll_encodeAll := fun _ _ h => if_pos h

namespace Amberpack
open Bytes Crc32

def recHeaderSize : Nat := 46

def tagChunk : UInt8 := 0x01

def flagZstd : UInt8 := 0x01

/-- Bound on one object's payload, stored or decoded. -/
def maxPayload : Nat := 256 <<< 20

def zero4 : Bytes := [0, 0, 0, 0]

inductive RecordError where
  | tooLarge (n : Nat)
  | truncatedHeader
  | unexpectedTag (tag : UInt8)
  | unknownFlags (flags : UInt8)
  | truncatedPayload
  | rawLengths (ulen slen : Nat)
  | ulenExceedsLimit (ulen : Nat)
  | compressedLengths (slen ulen : Nat)
  | crcMismatch
  | badKey (e : KeyError)
  | zstd
  | decompressedTo (n ulen : Nat)
  deriving DecidableEq

/-- A parsed record header. -/
structure Record where
  key : Key
  flags : UInt8
  ulen : Nat
  slen : Nat
  deriving DecidableEq

/-- The header up to the CRC field. -/
def recordHead (k : Key) (flags : UInt8) (ulen slen : Nat) : Bytes :=
  tagChunk :: (k.bytes ++ [flags] ++ putUint 4 ulen ++ putUint 4 slen)

/-- A complete record. The CRC covers the whole record with its own field zero. -/
def recordBytes (k : Key) (flags : UInt8) (ulen : Nat) (payload : Bytes) : Bytes :=
  let head := recordHead k flags ulen payload.length
  head ++ putUint 4 (checksum castagnoli (head ++ zero4 ++ payload)).toNat ++ payload

def encodeRecord (Z : Zstd) (k : Key) (data : Bytes) : Except RecordError Bytes :=
  if data.length > maxPayload then .error (.tooLarge data.length)
  else
    let comp := Z.encodeAll data
    if comp.length < data.length then .ok (recordBytes k flagZstd data.length comp)
    else .ok (recordBytes k 0 data.length data)

def parseRecord (b : Bytes) : Except RecordError Record :=
  if b.length < recHeaderSize then .error .truncatedHeader
  else if b.getD 0 0 ≠ tagChunk then .error (.unexpectedTag (b.getD 0 0))
  else
    let flags := b.getD 33 0
    if flags &&& ~~~flagZstd ≠ 0 then .error (.unknownFlags flags)
    else
      let ulen := uint (slice b 34 38)
      let slen := uint (slice b 38 42)
      if b.length < recHeaderSize + slen then .error .truncatedPayload
      else if flags &&& flagZstd = 0 ∧ ulen ≠ slen then .error (.rawLengths ulen slen)
      else if ulen > maxPayload then .error (.ulenExceedsLimit ulen)
      else if flags &&& flagZstd ≠ 0 ∧ slen ≥ ulen then .error (.compressedLengths slen ulen)
      else
        let c := update castagnoli 0 (b.take 42)
        let c := update castagnoli c zero4
        let c := update castagnoli c (slice b recHeaderSize (recHeaderSize + slen))
        if c.toNat ≠ uint (slice b 42 46) then .error .crcMismatch
        else
          match Key.parse (slice b 1 33) with
          | .error e => .error (.badKey e)
          | .ok k => .ok { key := k, flags, ulen, slen }

def decodePayload (Z : Zstd) (flags : UInt8) (ulen : Nat) (stored : Bytes) :
    Except RecordError Bytes :=
  if flags &&& flagZstd = 0 then .ok stored
  else
    match Z.decodeAll stored ulen with
    | none => .error .zstd
    | some out =>
      if out.length % 2 ^ 32 ≠ ulen then .error (.decompressedTo out.length ulen) else .ok out

/-! ## Fields of an encoded record -/

section Fields
variable {k : Key} {flags : UInt8} {ulen slen : Nat} {payload x : Bytes}

@[simp] theorem length_recordHead : (recordHead k flags ulen slen).length = 42 := by
  simp [recordHead, k.size_eq]

@[simp] theorem length_recordBytes :
    (recordBytes k flags ulen payload).length = recHeaderSize + payload.length := by
  simp only [recordBytes, List.length_append, length_recordHead, length_putUint, recHeaderSize]

/-- Header fields before the CRC are read from `recordHead`. -/
theorem slice_recordBytes_head (h : j ≤ 42) :
    slice (recordBytes k flags ulen payload ++ x) i j =
      slice (recordHead k flags ulen payload.length) i j := by
  simp only [recordBytes, List.append_assoc]
  rw [slice_append_left]
  simpa using h

theorem recordBytes_tag : (recordBytes k flags ulen payload ++ x).getD 0 0 = tagChunk := rfl

theorem recordBytes_key : slice (recordBytes k flags ulen payload ++ x) 1 33 = k.bytes := by
  rw [slice_recordBytes_head (by decide)]
  have : recordHead k flags ulen payload.length =
      [tagChunk] ++ k.bytes ++ ([flags] ++ putUint 4 ulen ++ putUint 4 payload.length) := by
    simp [recordHead]
  rw [this, slice_append _ _ _ (by simp) (by simp [k.size_eq])]

theorem recordBytes_flags : (recordBytes k flags ulen payload ++ x).getD 33 0 = flags := by
  have : recordBytes k flags ulen payload ++ x =
      ([tagChunk] ++ k.bytes) ++ flags :: (putUint 4 ulen ++ putUint 4 payload.length ++
        putUint 4 (checksum castagnoli (recordHead k flags ulen payload.length ++ zero4 ++
          payload)).toNat ++ payload ++ x) := by
    simp [recordBytes, recordHead]
  rw [this, List.getD_append_right _ _ _ _ (by simp [k.size_eq])]
  simp [k.size_eq]

theorem recordBytes_ulen : slice (recordBytes k flags ulen payload ++ x) 34 38 = putUint 4 ulen := by
  rw [slice_recordBytes_head (by decide)]
  have : recordHead k flags ulen payload.length =
      (tagChunk :: (k.bytes ++ [flags])) ++ putUint 4 ulen ++ putUint 4 payload.length := by
    simp [recordHead]
  rw [this, slice_append _ _ _ (by simp [k.size_eq]) (by simp [k.size_eq])]

theorem recordBytes_slen :
    slice (recordBytes k flags ulen payload ++ x) 38 42 = putUint 4 payload.length := by
  rw [slice_recordBytes_head (by decide)]
  have : recordHead k flags ulen payload.length =
      (tagChunk :: (k.bytes ++ [flags] ++ putUint 4 ulen)) ++ putUint 4 payload.length ++ [] := by
    simp [recordHead]
  rw [this, slice_append _ _ _ (by simp [k.size_eq]) (by simp [k.size_eq])]

theorem recordBytes_crc : slice (recordBytes k flags ulen payload ++ x) 42 46 =
    putUint 4 (checksum castagnoli (recordHead k flags ulen payload.length ++ zero4 ++
      payload)).toNat := by
  simp only [recordBytes, List.append_assoc]
  rw [← List.append_assoc]
  exact slice_append _ _ _ (by simp) (by simp)

theorem recordBytes_payload :
    slice (recordBytes k flags ulen payload ++ x) 46 (46 + payload.length) = payload := by
  rw [recordBytes]
  exact slice_append _ _ _ (by simp) (by simp)

theorem take_recordBytes :
    (recordBytes k flags ulen payload ++ x).take 42 = recordHead k flags ulen payload.length := by
  rw [← slice_zero, slice_recordBytes_head (by decide), slice_zero,
    List.take_of_length_le (by simp)]

end Fields

/-! ## Encoding then parsing -/

/-- The relation between flag, logical and stored length that `parseRecord` checks. -/
def LengthsOk (flags : UInt8) (ulen slen : Nat) : Prop :=
  (flags = 0 ∧ ulen = slen ∨ flags = flagZstd ∧ slen < ulen) ∧ ulen ≤ maxPayload

theorem LengthsOk.slen_le (h : LengthsOk flags ulen slen) : slen ≤ maxPayload := by
  obtain ⟨⟨_, rfl⟩ | ⟨_, h⟩, hm⟩ := h
  · exact hm
  · omega

theorem parseRecord_recordBytes {k : Key} (hk : k.Canonical)
    (hl : LengthsOk flags ulen payload.length) (x : Bytes) :
    parseRecord (recordBytes k flags ulen payload ++ x) =
      .ok { key := k, flags, ulen, slen := payload.length } := by
  have hsl := hl.slen_le
  obtain ⟨hcase, hul⟩ := hl
  have hbig : maxPayload < 256 ^ 4 := by decide
  have hu : uint (putUint 4 ulen) = ulen := uint_putUint_of_lt (by omega)
  have hs : uint (putUint 4 payload.length) = payload.length := uint_putUint_of_lt (by omega)
  have hflags : flags &&& ~~~flagZstd = 0 := by
    obtain ⟨rfl, _⟩ | ⟨rfl, _⟩ := hcase <;> decide
  have hraw : ¬(flags &&& flagZstd = 0 ∧ ulen ≠ payload.length) := by
    obtain ⟨_, h⟩ | ⟨rfl, _⟩ := hcase
    · exact fun h' => h'.2 h
    · exact fun h' => absurd h'.1 (by decide)
  have hcomp : ¬(flags &&& flagZstd ≠ 0 ∧ payload.length ≥ ulen) := by
    obtain ⟨rfl, _⟩ | ⟨_, h⟩ := hcase
    · exact fun h' => absurd h'.1 (by decide)
    · exact fun h' => absurd h'.2 (by omega)
  -- the CRC is fed the head, four zero bytes and the payload in turn
  have hcrc : update castagnoli (update castagnoli (update castagnoli 0
      (recordHead k flags ulen payload.length)) zero4) payload =
      checksum castagnoli (recordHead k flags ulen payload.length ++ zero4 ++ payload) := by
    rw [checksum, update_append, update_append]
  unfold parseRecord
  simp only [List.length_append, length_recordBytes, recordBytes_tag, recordBytes_flags,
    recordBytes_ulen, recordBytes_slen, recordBytes_crc, recordBytes_payload, recordBytes_key,
    take_recordBytes, hu, hs, recHeaderSize, hcrc]
  rw [if_neg (by omega), if_neg (by simp), if_neg (by simp [hflags]), if_neg (by omega),
    if_neg hraw, if_neg (by omega), if_neg hcomp, if_neg]
  · rw [hk.parse]
  · rw [not_not, uint_putUint_of_lt]
    exact UInt32.toNat_lt _

/-- What a successful parse says about the bytes: the record lies within them, and its fields are
consistent. -/
structure ParsesTo (b : Bytes) (r : Record) : Prop where
  length : recHeaderSize + r.slen ≤ b.length
  tag : b.getD 0 0 = tagChunk
  flags : r.flags = b.getD 33 0
  ulen : r.ulen = uint (slice b 34 38)
  slen : r.slen = uint (slice b 38 42)
  raw : r.flags &&& flagZstd = 0 → r.ulen = r.slen
  limit : r.ulen ≤ maxPayload
  compressed : r.flags &&& flagZstd ≠ 0 → r.slen < r.ulen
  key : Key.parse (slice b 1 33) = .ok r.key

theorem parseRecord_inv (h : parseRecord b = .ok r) : ParsesTo b r := by
  unfold parseRecord at h
  split at h
  · cases h
  split at h
  · cases h
  next htag =>
  simp only at h
  split at h
  · cases h
  split at h
  · cases h
  next hlen =>
  split at h
  · cases h
  next hraw =>
  split at h
  · cases h
  next hlimit =>
  split at h
  · cases h
  next hcomp =>
  split at h
  · cases h
  split at h
  · cases h
  · next hk =>
    cases h
    exact {
      length := Nat.le_of_not_lt hlen
      tag := not_not.mp htag
      flags := rfl
      ulen := rfl
      slen := rfl
      raw := fun hf => not_not.mp (not_and.mp hraw hf)
      limit := Nat.le_of_not_lt hlimit
      compressed := fun hf => Nat.lt_of_not_le (not_and.mp hcomp hf)
      key := hk }

theorem parseRecord_ok (h : parseRecord b = .ok r) :
    recHeaderSize + r.slen ≤ b.length ∧ r.slen = uint (slice b 38 42) ∧
      b.getD 0 0 = tagChunk ∧ r.key.Canonical := by
  have hp := parseRecord_inv h
  exact ⟨hp.length, hp.slen, hp.tag, (Key.parse_ok hp.key).2⟩

/-- The stored payload of a record that parses is within the limit. -/
theorem parseRecord_slen_le (h : parseRecord b = .ok r) : r.slen ≤ maxPayload := by
  have hp := parseRecord_inv h
  by_cases hflag : r.flags &&& flagZstd = 0
  · rw [← hp.raw hflag]
    exact hp.limit
  · exact Nat.le_of_lt (Nat.lt_of_lt_of_le (hp.compressed hflag) hp.limit)

/-- A record that parses does so without the bytes behind it. -/
theorem parseRecord_cut (h : parseRecord b = .ok r) (hn : recHeaderSize + r.slen ≤ n) :
    parseRecord (b.take n) = .ok r := by
  have hp := parseRecord_inv h
  have hlen := hp.length
  rw [hp.slen] at hn hlen
  have hmin := Nat.le_min.mpr ⟨hn, hlen⟩
  have h46 : 46 ≤ n := by simp only [recHeaderSize] at hn; omega
  have hget : ∀ i, i < 46 → (b.take n).getD i 0 = b.getD i 0 := by
    intro i hi
    rw [← slice_zero, getD_slice (by omega), Nat.zero_add]
  have htake : (b.take n).take 42 = b.take 42 := by
    rw [List.take_take, Nat.min_eq_left (by omega)]
  have hslice : ∀ i j, j ≤ 46 → slice (b.take n) i j = slice b i j :=
    fun i j hj => slice_take (Nat.le_trans hj h46)
  rw [← h]
  unfold parseRecord
  simp only [hget 0 (by decide), hget 33 (by decide), htake, List.length_take,
    hslice 34 38 (by decide), hslice 38 42 (by decide), hslice 42 46 (by decide),
    hslice 1 33 (by decide), slice_take hn]
  rw [if_neg (Nat.not_lt.mpr (Nat.le_trans (Nat.le_add_right _ _) hmin)),
    if_neg (Nat.not_lt.mpr (Nat.le_trans (Nat.le_add_right _ _) hlen)),
    if_neg (Nat.not_lt.mpr hmin), if_neg (Nat.not_lt.mpr hlen)]

theorem parseRecord_take (hl : payload.length ≤ maxPayload)
    (hn : n < recHeaderSize + payload.length) :
    ∃ e, parseRecord ((recordBytes k flags ulen payload).take n) = .error e := by
  cases h : parseRecord ((recordBytes k flags ulen payload).take n) with
  | error e => exact ⟨e, rfl⟩
  | ok r =>
    exfalso
    obtain ⟨hlen, hslen, -⟩ := parseRecord_ok h
    rw [List.length_take, length_recordBytes] at hlen
    have hbig : maxPayload < 256 ^ 4 := by decide
    have hfield : slice ((recordBytes k flags ulen payload).take n) 38 42 =
        putUint 4 payload.length := by
      rw [slice_take (by simp only [recHeaderSize] at hlen; omega)]
      have hslen : slice (recordBytes k flags ulen payload ++ []) 38 42 =
          putUint 4 payload.length := recordBytes_slen
      rwa [List.append_nil] at hslen
    rw [hfield, uint_putUint_of_lt (by omega)] at hslen
    omega

/-! ## Encoded objects -/

/-- The stored form of a payload: its flag byte and its stored bytes. -/
def storedForm (Z : Zstd) (data : Bytes) : UInt8 × Bytes :=
  if (Z.encodeAll data).length < data.length then (flagZstd, Z.encodeAll data) else (0, data)

/-- The record of an object whose payload fits. -/
def objectRecord (Z : Zstd) (o : Object) : Bytes :=
  recordBytes o.key (storedForm Z o.data).1 o.data.length (storedForm Z o.data).2

variable {Z : Zstd}

theorem encodeRecord_eq (h : data.length ≤ maxPayload) :
    encodeRecord Z k data = .ok (objectRecord Z ⟨k, data⟩) := by
  unfold encodeRecord objectRecord storedForm
  rw [if_neg (by omega)]
  simp only
  split <;> rfl

theorem encodeRecord_ok (h : encodeRecord Z k data = .ok rec) :
    data.length ≤ maxPayload ∧ rec = objectRecord Z ⟨k, data⟩ := by
  have hle : data.length ≤ maxPayload := by
    unfold encodeRecord at h
    split at h
    · cases h
    · omega
  rw [encodeRecord_eq hle] at h
  cases h
  exact ⟨hle, rfl⟩

theorem storedForm_lengths (h : data.length ≤ maxPayload) :
    LengthsOk (storedForm Z data).1 data.length (storedForm Z data).2.length := by
  unfold storedForm
  split
  · next hlt => exact ⟨.inr ⟨rfl, hlt⟩, h⟩
  · exact ⟨.inl ⟨rfl, rfl⟩, h⟩

theorem storedForm_le (data : Bytes) : (storedForm Z data).2.length ≤ data.length := by
  unfold storedForm
  split
  · next hlt => exact Nat.le_of_lt hlt
  · exact Nat.le_refl _

theorem storedForm_stored (data : Bytes) : storedForm .stored data = (0, data) := if_neg (Nat.lt_irrefl _)

theorem decodePayload_storedForm (h : data.length ≤ maxPayload) :
    decodePayload Z (storedForm Z data).1 data.length (storedForm Z data).2 = .ok data := by
  have hbig : maxPayload < 2 ^ 32 := by decide
  unfold storedForm
  split
  · change decodePayload Z flagZstd data.length (Z.encodeAll data) = _
    rw [decodePayload, if_neg (by decide), Z.decodeAll_encodeAll _ _ (Nat.le_refl _)]
    simp only [Nat.mod_eq_of_lt (show data.length < 2 ^ 32 by omega), ne_eq, not_true_eq_false,
      if_false]
  · change decodePayload Z 0 data.length data = _
    rw [decodePayload, if_pos (by decide)]

end Amberpack
end AmberStore
