import AmberStore.Lib.Checked
import AmberStore.Packstore.Accepted
import AmberStore.Packstore.Read

/-!
# Reading a hostile segment

The reads of a sealed segment, with every slice, index and sum of the program checked: a read has no
value where the program would fail or an integer would wrap around. For a file whose footer was
accepted all of them have a value, whatever the index and the filter in it say, and it is the value of
the reads without checks.
-/

namespace AmberStore.Packstore
open Bytes Amberpack

/-! ## The filter -/

/-- The hashes of a fuse filter with three segments: where a lookup of a key starts, what it flips in
the positions one and two segments further on, and the fingerprint of the key. -/
structure FuseHash where
  base : BinaryFuse → UInt64 → UInt32
  flip1 : BinaryFuse → UInt64 → UInt32
  flip2 : BinaryFuse → UInt64 → UInt32
  fingerprint : BinaryFuse → UInt64 → UInt16
  base_lt : ∀ f k, 0 < f.segmentCountLength.toNat → base f k < f.segmentCountLength
  flip1_lt : ∀ f k, 0 < f.segmentLength.toNat → f.segmentLengthMask = f.segmentLength - 1 →
    flip1 f k < f.segmentLength
  flip2_lt : ∀ f k, 0 < f.segmentLength.toNat → f.segmentLengthMask = f.segmentLength - 1 →
    flip2 f k < f.segmentLength

/-- All lookups start at the first position. -/
def FuseHash.first : FuseHash where
  base _ _ := 0
  flip1 _ _ := 0
  flip2 _ _ := 0
  fingerprint _ _ := 0
  base_lt _ _ h := UInt32.lt_iff_toNat_lt.mpr h
  flip1_lt _ _ h _ := UInt32.lt_iff_toNat_lt.mpr h
  flip2_lt _ _ h _ := UInt32.lt_iff_toNat_lt.mpr h

/-- A lookup: the fingerprint must be the sum of those at the three positions. -/
def FuseHash.contains (h : FuseHash) (f : BinaryFuse) (k : UInt64) : Option Bool := do
  let h0 := (h.base f k).toNat
  let h1 ← Checked.add 32 h0 f.segmentLength.toNat
  let h2 ← Checked.add 32 h1 f.segmentLength.toNat
  let f0 ← Checked.at? f.fingerprints h0
  let f1 ← Checked.at? f.fingerprints (h1 ^^^ (h.flip1 f k).toNat)
  let f2 ← Checked.at? f.fingerprints (h2 ^^^ (h.flip2 f k).toNat)
  return h.fingerprint f k ^^^ (f0 ^^^ f1 ^^^ f2) == 0

theorem xor_lt_mul_two_pow (ha : a < m * 2 ^ e) (hv : v < 2 ^ e) : a ^^^ v < m * 2 ^ e := by
  have hpos : 0 < 2 ^ e := Nat.two_pow_pos e
  have hdiv : (a ^^^ v) / 2 ^ e = a / 2 ^ e := by
    rw [Nat.xor_div_two_pow, Nat.div_eq_of_lt hv, Nat.xor_zero]
  apply (Nat.div_lt_iff_lt_mul hpos).mp
  rw [hdiv]
  exact (Nat.div_lt_iff_lt_mul hpos).mpr ha

/-- The three positions of a lookup are those of fingerprints. -/
theorem FilterAccepted.contains {f : BinaryFuse} (hf : FilterAccepted f) (h : FuseHash) (k : UInt64) :
    ∃ b, h.contains f k = some b := by
  obtain ⟨e, he⟩ := hf.power
  have hpos : 0 < 2 ^ e := Nat.two_pow_pos e
  have hcount := hf.countLength
  have hlen := hf.fingerprints
  have hbig := hf.fingerprints_lt
  rw [he] at hcount hlen
  have hscl : 0 < f.segmentCountLength.toNat := by
    rw [hcount]
    exact Nat.mul_pos hf.count_pos hpos
  have hbase := UInt32.lt_iff_toNat_lt.mp (h.base_lt f k hscl)
  have hflip1 := UInt32.lt_iff_toNat_lt.mp (h.flip1_lt f k (he ▸ hpos) hf.mask)
  have hflip2 := UInt32.lt_iff_toNat_lt.mp (h.flip2_lt f k (he ▸ hpos) hf.mask)
  rw [he] at hflip1 hflip2
  have h1 : (h.base f k).toNat + 2 ^ e < (f.segmentCount.toNat + 1) * 2 ^ e := by
    rw [Nat.add_mul, ← hcount]
    omega
  have h2 : (h.base f k).toNat + 2 ^ e + 2 ^ e < (f.segmentCount.toNat + 2) * 2 ^ e := by
    rw [Nat.add_mul, ← hcount]
    omega
  have hlt1 := xor_lt_mul_two_pow h1 hflip1
  have hlt2 := xor_lt_mul_two_pow h2 hflip2
  rw [Nat.add_mul, ← hcount] at hlt1 hlt2
  unfold FuseHash.contains
  dsimp only
  rw [he, Checked.bind_eq (Checked.add_eq (by omega)), Checked.bind_eq (Checked.add_eq (by omega)),
    Checked.bind_eq (Checked.at?_eq (by omega) 0), Checked.bind_eq (Checked.at?_eq (by omega) 0),
    Checked.bind_eq (Checked.at?_eq (by omega) 0)]
  exact ⟨_, rfl⟩

/-! ## The index -/

/-- The key in the row at a position. -/
def rowKeyChecked (entries : Bytes) (lo i : Nat) : Option Bytes := do
  let pos ← Checked.add 63 lo i
  let start ← Checked.mul 63 pos indexEntrySize
  let e ← Checked.slice entries start entries.length
  Checked.slice e 0 32

/-- Where the bucket of a byte starts. -/
def bucketStart (fanout : List Nat) (b : Nat) : Option Nat :=
  if b > 0 then Checked.at? fanout (b - 1) else some 0

def searchIndexPosChecked (fanout : List Nat) (entries : Bytes) (k : Key) : Option (Option Nat) := do
  let b := k.lastByte.toNat
  let lo ← bucketStart fanout b
  let hi ← Checked.at? fanout b
  let n ← Checked.sub hi lo
  let i ← Checked.search n fun i => do
    let row ← rowKeyChecked entries lo i
    return decide (k.bytes ≤ row)
  if i ≥ n then return none
  else
    let row ← rowKeyChecked entries lo i
    if row ≠ k.bytes then return none
    else return some (lo + i)

def searchIndexChecked (fanout : List Nat) (entries : Bytes) (k : Key) : Option (Option (Nat × Nat)) := do
  match ← searchIndexPosChecked fanout entries k with
  | none => return none
  | some pos =>
    let start ← Checked.mul 63 pos indexEntrySize
    let e ← Checked.slice entries start entries.length
    let off ← Checked.slice e 32 40
    let slen ← Checked.slice e 40 44
    return some (uint off, uint slen)

section Index
variable {b entries : Bytes} {n : Nat} {fanout : List Nat}

theorem slice_row (entries : Bytes) (pos : Nat) :
    slice entries (pos * indexEntrySize) entries.length = rowAt entries pos := by
  rw [rowAt, slice, List.take_of_length_le (by rw [List.length_drop])]

section
variable (h : IndexAccepted b n fanout entries)
include h

theorem rowKeyChecked_eq (hn : n < 2 ^ 32) (hpos : lo + i < n) :
    rowKeyChecked entries lo i = some ((rowAt entries (lo + i)).take 32) := by
  have hlen := h.entries_length
  have hrow : (lo + i + 1) * indexEntrySize ≤ n * indexEntrySize := Nat.mul_le_mul_right _ hpos
  simp only [indexEntrySize, Nat.add_mul] at hlen hrow
  unfold rowKeyChecked
  rw [Checked.bind_eq (Checked.add_eq (by omega)),
    Checked.bind_eq (Checked.mul_eq (by simp only [indexEntrySize]; omega)),
    Checked.bind_eq (Checked.slice_eq (by simp only [indexEntrySize]; omega) (Nat.le_refl _)),
    Checked.slice_eq (by decide)]
  · rw [slice_zero, slice_row]
  · rw [length_slice_of_le (Nat.le_refl _)]
    simp only [indexEntrySize]
    omega

theorem searchIndexPosChecked_eq (hn : n < 2 ^ 32) (k : Key) :
    searchIndexPosChecked fanout entries k = some (searchIndexPos fanout entries k) := by
  have hb : k.lastByte.toNat < 256 := k.lastByte.toNat_lt
  have hlen := h.fanout_length
  have hlo : bucketStart fanout k.lastByte.toNat =
      some (if k.lastByte.toNat > 0 then fanout.getD (k.lastByte.toNat - 1) 0 else 0) := by
    unfold bucketStart
    split
    · exact Checked.at?_eq (by omega) 0
    · rfl
  have hle : (if k.lastByte.toNat > 0 then fanout.getD (k.lastByte.toNat - 1) 0 else 0) ≤
      fanout.getD k.lastByte.toNat 0 := by
    split
    · exact h.getD_mono (Nat.sub_le _ _) hb
    · exact Nat.zero_le _
  have hhi := h.getD_le hb
  unfold searchIndexPosChecked searchIndexPos
  dsimp only
  rw [Checked.bind_eq hlo]
  generalize (if k.lastByte.toNat > 0 then fanout.getD (k.lastByte.toNat - 1) 0 else 0) = lo at hle ⊢
  rw [Checked.bind_eq (Checked.at?_eq (by omega) 0), Checked.bind_eq (Checked.sub_eq hle)]
  generalize fanout.getD k.lastByte.toNat 0 = hi at hle hhi ⊢
  have hprobe : ∀ i, i < hi - lo → (do
      let row ← rowKeyChecked entries lo i
      return decide (k.bytes ≤ row)) = some (decide (k.bytes ≤ (rowAt entries (lo + i)).take 32)) := by
    intro i hi
    rw [rowKeyChecked_eq h hn (by omega)]
    rfl
  rw [Checked.bind_eq (Checked.search_eq hprobe (by omega))]
  split
  · rfl
  · rw [Checked.bind_eq (rowKeyChecked_eq h hn (by omega))]
    split <;> rfl

theorem searchIndexPos_lt (hk : searchIndexPos fanout entries k = some pos) :
    pos < n := by
  have hb : k.lastByte.toNat < 256 := k.lastByte.toNat_lt
  have hhi := h.getD_le hb
  unfold searchIndexPos at hk
  dsimp only at hk
  generalize (if k.lastByte.toNat > 0 then fanout.getD (k.lastByte.toNat - 1) 0 else 0) = lo at hk
  split at hk
  · cases hk
  · split at hk
    · cases hk
    · cases hk
      omega

theorem searchIndexChecked_eq (hn : n < 2 ^ 32) (k : Key) :
    searchIndexChecked fanout entries k = some (searchIndex fanout entries k) := by
  have hlen := h.entries_length
  unfold searchIndexChecked searchIndex
  rw [Checked.bind_eq (searchIndexPosChecked_eq h hn k)]
  cases hpos : searchIndexPos fanout entries k with
  | none => rfl
  | some pos =>
    have hlt := searchIndexPos_lt h hpos
    have hrow : (pos + 1) * indexEntrySize ≤ n * indexEntrySize := Nat.mul_le_mul_right _ hlt
    simp only [indexEntrySize, Nat.add_mul] at hlen hrow
    have hlong : 44 ≤ (rowAt entries pos).length := by
      rw [rowAt, List.length_drop]
      simp only [indexEntrySize]
      omega
    dsimp only
    rw [Checked.bind_eq (Checked.mul_eq (by simp only [indexEntrySize]; omega)),
      Checked.bind_eq (Checked.slice_eq (by simp only [indexEntrySize]; omega) (Nat.le_refl _)), slice_row,
      Checked.bind_eq (Checked.slice_eq (by decide) (by omega)),
      Checked.bind_eq (Checked.slice_eq (by decide) hlong)]
    rfl

end

end Index

/-! ## The reads -/

/-- The errors that stand for a corrupt file. -/
def Err.Corrupt : Err → Prop
  | .outOfBounds | .record _ | .footer _ | .corrupt .. => True
  | _ => False

/-- The end of a record that lies in the body. -/
def recordEndChecked (bodyLen off slen : Nat) : Option (Option Nat) :=
  if off < magicHeader.length ∨ off > bodyLen then some none
  else do
    let need ← Checked.add 64 recHeaderSize slen
    let room ← Checked.sub bodyLen off
    if need > room then return none
    else
      let start ← Checked.add 64 off recHeaderSize
      let stop ← Checked.add 64 start slen
      return some stop

namespace SealedSegment
variable (hash : FuseHash) (g : SealedSegment) (k : Key)

def findChecked : Option (Option (Nat × Nat)) := do
  let maybe ← hash.contains g.fv.filter (filterKey k)
  if maybe then searchIndexChecked g.fv.fanout g.fv.entries k else return none

def hasChecked : Option Bool := (g.findChecked hash k).map Option.isSome

/-- The payload of the record at an offset. -/
def payloadChecked (Z : Zstd) (off stop : Nat) : Option (Except Err (Option Bytes)) := do
  let start ← Checked.add 64 off recHeaderSize
  let h ← Checked.slice g.mm off start
  let flags ← Checked.at? h 33
  let ulen ← Checked.slice h 34 38
  let stored ← Checked.slice g.mm start stop
  match decodePayload Z flags (uint ulen) stored with
  | .error e => return .error (.record e)
  | .ok data => return .ok (some data)

def getChecked (Z : Zstd) : Option (Except Err (Option Bytes)) := do
  match ← g.findChecked hash k with
  | none => return .ok none
  | some (off, slen) =>
    match ← recordEndChecked g.fv.bodyLen off slen with
    | none => return .error .outOfBounds
    | some stop => g.payloadChecked Z off stop

/-- A copy of the record at an offset. -/
def copyChecked (off stop : Nat) : Option (Except Err (Option Bytes)) := do
  let _ ← Checked.sub stop off
  let rec ← Checked.slice g.mm off stop
  return .ok (some rec)

def getRecordChecked : Option (Except Err (Option Bytes)) := do
  match ← g.findChecked hash k with
  | none => return .ok none
  | some (off, slen) =>
    match ← recordEndChecked g.fv.bodyLen off slen with
    | none => return .error .outOfBounds
    | some stop => g.copyChecked off stop

def storedSizeChecked : Option (Option Nat) := (g.findChecked hash k).map (Option.map Prod.snd)

def locateChecked : Option (Option Nat) := (g.findChecked hash k).map (Option.map Prod.fst)

/-- What `get` makes of what is found. -/
def payloadOf (Z : Zstd) : Option (Nat × Nat) → Except Err (Option Bytes)
  | none => .ok none
  | some (off, slen) =>
    if g.outOfBounds off slen then .error .outOfBounds
    else
      let h := slice g.mm off (off + recHeaderSize)
      let stored := slice g.mm (off + recHeaderSize) (off + recHeaderSize + slen)
      match decodePayload Z (h.getD 33 0) (uint (slice h 34 38)) stored with
      | .error e => .error (.record e)
      | .ok data => .ok (some data)

/-- What `getRecord` makes of what is found. -/
def recordOf : Option (Nat × Nat) → Except Err (Option Bytes)
  | none => .ok none
  | some (off, slen) =>
    if g.outOfBounds off slen then .error .outOfBounds
    else .ok (some (slice g.mm off (off + recHeaderSize + slen)))

theorem get_eq (F : FuseLib) (Z : Zstd) : g.get F k Z = g.payloadOf Z (g.find F k) := by
  rw [SealedSegment.get]
  cases g.find F k with
  | none => rfl
  | some p => rfl

theorem getRecord_eq (F : FuseLib) : g.getRecord F k = g.recordOf (g.find F k) := by
  rw [SealedSegment.getRecord]
  cases g.find F k with
  | none => rfl
  | some p => rfl

end SealedSegment

section Reads
variable {mm : Bytes} {fv : FooterView} {hash : FuseHash} {k : Key}

theorem Accepted.findChecked (h : Accepted mm fv) (hb : hash.contains fv.filter (filterKey k) = some b)
    (id : Nat) : SealedSegment.findChecked hash ⟨id, mm, fv⟩ k = some (if b then fv.lookup k else none) := by
  have hcount : fv.keyCount < 2 ^ 32 := Nat.lt_of_le_of_lt h.keyCount_le (by decide)
  rw [SealedSegment.findChecked, Checked.bind_eq hb]
  cases b with
  | false => rfl
  | true => exact searchIndexChecked_eq (parseIndexSection_accepted h.index) hcount k

/-- The offset and the length in a row are machine integers. -/
theorem lookup_lt (h : fv.lookup k = some (off, slen)) : off < 2 ^ 64 ∧ slen < 2 ^ 32 := by
  unfold FooterView.lookup searchIndex at h
  split at h
  · cases h
  · cases h
    exact ⟨uint_slice_lt _ 32 40, uint_slice_lt _ 40 44⟩

theorem recordEndChecked_eq (g : SealedSegment) (hbody : g.fv.bodyLen < 2 ^ 63) (hslen : slen < 2 ^ 32) :
    recordEndChecked g.fv.bodyLen off slen =
      some (if g.outOfBounds off slen then none else some (off + recHeaderSize + slen)) := by
  unfold recordEndChecked
  by_cases hoff : off < magicHeader.length ∨ off > g.fv.bodyLen
  · have hout : g.outOfBounds off slen = true := decide_eq_true (hoff.imp_right .inl)
    rw [if_pos hoff, hout, if_pos rfl]
  · have hle : off ≤ g.fv.bodyLen := Nat.le_of_not_lt (not_or.mp hoff).2
    rw [if_neg hoff, Checked.bind_eq (Checked.add_eq (by simp only [recHeaderSize]; omega)),
      Checked.bind_eq (Checked.sub_eq hle)]
    by_cases hroom : recHeaderSize + slen > g.fv.bodyLen - off
    · have hout : g.outOfBounds off slen = true := decide_eq_true (.inr (.inr hroom))
      rw [if_pos hroom, hout, if_pos rfl]
      rfl
    · have hout : g.outOfBounds off slen = false := decide_eq_false fun h =>
        h.elim (fun h => hoff (.inl h)) fun h => h.elim (fun h => hoff (.inr h)) hroom
      rw [if_neg hroom, Checked.bind_eq (Checked.add_eq (by simp only [recHeaderSize] at hroom ⊢; omega)),
        Checked.bind_eq (Checked.add_eq (by simp only [recHeaderSize] at hroom ⊢; omega)), hout,
        if_neg Bool.false_ne_true]
      rfl

theorem outOfBounds_eq_false {g : SealedSegment} (h : ¬g.outOfBounds off slen = true) :
    off + recHeaderSize + slen ≤ g.fv.bodyLen := by
  have hin := of_decide_eq_false (Bool.eq_false_iff.mpr h)
  simp only [not_or] at hin
  omega

theorem payloadChecked_eq {g : SealedSegment} (Z : Zstd) (hstop : off + recHeaderSize + slen ≤ g.mm.length)
    (hmm : g.mm.length < 2 ^ 63) (hin : ¬g.outOfBounds off slen = true) :
    g.payloadChecked Z off (off + recHeaderSize + slen) = some (g.payloadOf Z (some (off, slen))) := by
  have hlen : (slice g.mm off (off + recHeaderSize)).length = recHeaderSize := by
    rw [length_slice_of_le (by omega), Nat.add_sub_cancel_left]
  unfold SealedSegment.payloadChecked SealedSegment.payloadOf
  rw [Checked.bind_eq (Checked.add_eq (by omega)),
    Checked.bind_eq (Checked.slice_eq (Nat.le_add_right _ _) (by omega)),
    Checked.bind_eq (Checked.at?_eq (by rw [hlen]; decide) 0),
    Checked.bind_eq (Checked.slice_eq (by decide) (by rw [hlen]; decide)),
    Checked.bind_eq (Checked.slice_eq (Nat.le_add_right _ _) hstop)]
  dsimp only
  rw [if_neg hin]
  split <;> rfl

theorem copyChecked_eq {g : SealedSegment} (hstop : off + recHeaderSize + slen ≤ g.mm.length)
    (hin : ¬g.outOfBounds off slen = true) :
    g.copyChecked off (off + recHeaderSize + slen) = some (g.recordOf (some (off, slen))) := by
  have hle : off ≤ off + recHeaderSize + slen := by omega
  unfold SealedSegment.copyChecked SealedSegment.recordOf
  rw [Checked.bind_eq (Checked.sub_eq hle), Checked.bind_eq (Checked.slice_eq hle hstop)]
  dsimp only
  rw [if_neg hin]
  rfl

section
variable {id : Nat} {found : Option (Nat × Nat)} (h : Accepted mm fv) (hmm : mm.length < 2 ^ 63)
  (hfound : SealedSegment.findChecked hash ⟨id, mm, fv⟩ k = some found)
  (hlt : ∀ p, found = some p → p.1 < 2 ^ 64 ∧ p.2 < 2 ^ 32)
include h hmm hfound hlt

theorem Accepted.readChecked {read : Nat → Nat → Option (Except Err (Option Bytes))}
    {value : Option (Nat × Nat) → Except Err (Option Bytes)} (hnone : value none = .ok none)
    (hout : ∀ off slen, SealedSegment.outOfBounds ⟨id, mm, fv⟩ off slen = true →
      value (some (off, slen)) = .error .outOfBounds)
    (hin : ∀ off slen, off + recHeaderSize + slen ≤ mm.length →
      ¬SealedSegment.outOfBounds ⟨id, mm, fv⟩ off slen = true →
      read off (off + recHeaderSize + slen) = some (value (some (off, slen)))) :
    (do
      match ← SealedSegment.findChecked hash ⟨id, mm, fv⟩ k with
      | none => return .ok none
      | some (off, slen) =>
        match ← recordEndChecked fv.bodyLen off slen with
        | none => return .error .outOfBounds
        | some stop => read off stop) = some (value found) := by
  have hbody := h.bodyLen_le
  rw [Checked.bind_eq hfound]
  cases found with
  | none => exact congrArg some hnone.symm
  | some p =>
    obtain ⟨off, slen⟩ := p
    have hend : recordEndChecked fv.bodyLen off slen = _ :=
      recordEndChecked_eq ⟨id, mm, fv⟩ (Nat.lt_of_le_of_lt hbody hmm) (hlt _ rfl).2
    dsimp only
    rw [Checked.bind_eq hend]
    by_cases hob : SealedSegment.outOfBounds ⟨id, mm, fv⟩ off slen = true
    · rw [if_pos hob, hout off slen hob]
      rfl
    · have hstop := outOfBounds_eq_false hob
      rw [if_neg hob]
      exact hin off slen (Nat.le_trans hstop hbody) hob

theorem Accepted.getChecked (Z : Zstd) : SealedSegment.getChecked hash ⟨id, mm, fv⟩ k Z =
    some (SealedSegment.payloadOf ⟨id, mm, fv⟩ Z found) := by
  refine h.readChecked hmm hfound hlt rfl (fun off slen hob => ?_) fun off slen hstop hob =>
    payloadChecked_eq Z hstop hmm hob
  rw [SealedSegment.payloadOf, if_pos hob]

theorem Accepted.getRecordChecked : SealedSegment.getRecordChecked hash ⟨id, mm, fv⟩ k =
    some (SealedSegment.recordOf ⟨id, mm, fv⟩ found) := by
  refine h.readChecked hmm hfound hlt rfl (fun off slen hob => ?_) fun off slen hstop hob =>
    copyChecked_eq hstop hob
  rw [SealedSegment.recordOf, if_pos hob]

end

theorem payloadOf_corrupt {g : SealedSegment} (h : g.payloadOf Z found = .error e) : e.Corrupt := by
  unfold SealedSegment.payloadOf at h
  split at h
  · cases h
  · split at h
    · cases h
      trivial
    · dsimp only at h
      split at h
      · cases h
        trivial
      · cases h

theorem recordOf_corrupt {g : SealedSegment} (h : g.recordOf found = .error e) : e.Corrupt := by
  unfold SealedSegment.recordOf at h
  split at h
  · cases h
  · split at h
    · cases h
      trivial
    · cases h

/-- The read ends with a value, with nothing, or with the error for a corrupt file. -/
def Answers (x : Option (Except Err α)) : Prop := ∃ r, x = some r ∧ ∀ e, r = .error e → e.Corrupt

/-- No file whose footer was accepted makes a read fail or wrap around: every slice and every index is
in range, those of the filter included, and the reads are those of the segment. -/
theorem reads_in_range (mm : Bytes) (fv : FooterView) (h : parseFooter mm = .ok fv)
    (hmm : mm.length < 2 ^ 63) (hash : FuseHash) (Z : Zstd) (id : Nat) (k : Key) :
    (∃ b, hash.contains fv.filter (filterKey k) = some b) ∧
    (∃ b, SealedSegment.hasChecked hash ⟨id, mm, fv⟩ k = some b) ∧
    Answers (SealedSegment.getChecked hash ⟨id, mm, fv⟩ k Z) ∧
    Answers (SealedSegment.getRecordChecked hash ⟨id, mm, fv⟩ k) ∧
    (∃ r, SealedSegment.storedSizeChecked hash ⟨id, mm, fv⟩ k = some r) ∧
    (∃ r, SealedSegment.locateChecked hash ⟨id, mm, fv⟩ k = some r) ∧
    ∀ F : FuseLib, hash.contains fv.filter (filterKey k) = some (F.contains fv.filter (filterKey k)) →
      SealedSegment.hasChecked hash ⟨id, mm, fv⟩ k = some (SealedSegment.has F ⟨id, mm, fv⟩ k) ∧
      SealedSegment.getChecked hash ⟨id, mm, fv⟩ k Z = some (SealedSegment.get F ⟨id, mm, fv⟩ k Z) ∧
      SealedSegment.getRecordChecked hash ⟨id, mm, fv⟩ k = some (SealedSegment.getRecord F ⟨id, mm, fv⟩ k) ∧
      SealedSegment.storedSizeChecked hash ⟨id, mm, fv⟩ k =
        some (SealedSegment.storedSize F ⟨id, mm, fv⟩ k) ∧
      SealedSegment.locateChecked hash ⟨id, mm, fv⟩ k = some (SealedSegment.locate F ⟨id, mm, fv⟩ k) := by
  have hacc := parseFooter_accepted h
  obtain ⟨_, hfilter⟩ := hacc.filter
  obtain ⟨b, hb⟩ := (parseFilterSection_accepted hfilter).contains hash (filterKey k)
  have hfound := hacc.findChecked hb id
  have hlt : ∀ p, (if b then fv.lookup k else none) = some p → p.1 < 2 ^ 64 ∧ p.2 < 2 ^ 32 := by
    intro p hp
    split at hp
    · exact lookup_lt hp
    · cases hp
  have hget := hacc.getChecked hmm hfound hlt Z
  have hrec := hacc.getRecordChecked hmm hfound hlt
  refine ⟨⟨b, hb⟩, ⟨_, congrArg _ hfound⟩, ⟨_, hget, fun e => payloadOf_corrupt⟩,
    ⟨_, hrec, fun e => recordOf_corrupt⟩, ⟨_, congrArg _ hfound⟩, ⟨_, congrArg _ hfound⟩, fun F hF => ?_⟩
  have hfind : (if b then fv.lookup k else none) = SealedSegment.find F ⟨id, mm, fv⟩ k := by
    rw [hb] at hF
    rw [Option.some.inj hF]
    rfl
  rw [hfind] at hfound hget hrec
  exact ⟨congrArg _ hfound, by rw [hget, SealedSegment.get_eq], by rw [hrec, SealedSegment.getRecord_eq],
    congrArg _ hfound, congrArg _ hfound⟩

/-- Reading a key from a segment with one record. -/
theorem reads_in_range_one : ∃ mm fv, parseFooter mm = .ok fv ∧
    Answers (SealedSegment.getChecked .first ⟨1, mm, fv⟩ zeroEntry.key .stored) ∧
    Answers (SealedSegment.getRecordChecked .first ⟨1, mm, fv⟩ zeroEntry.key) := by
  obtain ⟨foot, f, hfoot, -, hparse, -⟩ := parseFooter_buildFooter .full (List.prefix_refl magicHeader)
    (List.cons_ne_nil zeroEntry []) (by decide)
    fun foot hfoot => Nat.lt_trans (length_zeroEntry hfoot) (by decide)
  have hsafe := reads_in_range _ _ hparse (length_zeroEntry hfoot) .first .stored 1 zeroEntry.key
  exact ⟨_, _, hparse, hsafe.2.2.1, hsafe.2.2.2.1⟩

end Reads

end AmberStore.Packstore
