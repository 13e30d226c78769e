import AmberStore.Amberpack.Record
import AmberStore.Lib.Search

/-!
# Segment footers

A sealed segment ends in a footer: the seal marker, the index section (a fanout table on the last
key byte and the sorted entries), a binary fuse filter over the keys' tails, and a fixed trailer
that locates the rest from the end of the file.
-/

namespace AmberStore.Packstore
open Bytes Crc32

def tagSeal : UInt8 := 0xF0

/-- `AMBERSG\x01` -/
def magicHeader : Bytes := [0x41, 0x4D, 0x42, 0x45, 0x52, 0x53, 0x47, 0x01]

/-- `AMBERSGF` -/
def magicTrailer : Bytes := [0x41, 0x4D, 0x42, 0x45, 0x52, 0x53, 0x47, 0x46]

def fanoutSize : Nat := 256 * 4

def indexEntrySize : Nat := 32 + 8 + 4

def trailerSize : Nat := 64

def filterHeaderSize : Nat := 29

def filterTypeBinaryFuse16 : UInt8 := 1

def maxUint32 : Nat := 2 ^ 32 - 1

/-- The least length of a sealed segment file. -/
def minSealedSize : Nat :=
  magicHeader.length + 1 + fanoutSize + indexEntrySize + filterHeaderSize + trailerSize

inductive FooterError where
  | tooShort (n : Nat)
  | badHeaderMagic
  | badTrailerMagic
  | nonzeroReserved
  | inconsistentOffsets
  | crcMismatch
  | missingSealMarker
  | keyCountExceedsLimit (n : Nat)
  | indexLength (n want : Nat)
  | fanoutNotMonotonic
  | fanoutTotal (n keyCount : Nat)
  | filterTooShort (n : Nat)
  | filterType (t : UInt8)
  | filterLength (n want : Nat)
  | filterSegmentCountZero
  | filterGeometry
  | emptySegment
  | fuseBuild
  deriving DecidableEq

/-- One row of a sealed segment's index. -/
structure IndexEntry where
  key : Key
  off : Nat
  slen : Nat
  deriving DecidableEq

/-! ## The binary fuse filter -/

structure BinaryFuse where
  seed : UInt64
  segmentLength : UInt32
  segmentLengthMask : UInt32
  segmentCount : UInt32
  segmentCountLength : UInt32
  fingerprints : List UInt16
  deriving DecidableEq

/-- The construction invariants `parseFilterSection` re-checks, `fpCount` being the number of
fingerprints. -/
def geometryOk (segLen segLenMask segCountLen segCount : UInt32) (fpCount : Nat) : Bool :=
  segLen != 0 && segLen &&& (segLen - 1) == 0 && segLenMask == segLen - 1 &&
    segCountLen.toNat == segCount.toNat * segLen.toNat &&
    fpCount == segCountLen.toNat + 2 * segLen.toNat

/-- The fuse filter library. A filter built over distinct keys satisfies the construction
invariants and contains each of the keys. -/
structure FuseLib where
  newBinaryFuse : List UInt64 → Option BinaryFuse
  contains : BinaryFuse → UInt64 → Bool
  build : ∀ ks, ks ≠ [] → ks.Nodup → ks.length < 2 ^ 32 → ∃ f, newBinaryFuse ks = some f
  geometry : ∀ {ks f}, newBinaryFuse ks = some f → f.segmentCount ≠ 0 ∧
    f.fingerprints.length < 2 ^ 32 ∧
    geometryOk f.segmentLength f.segmentLengthMask f.segmentCountLength f.segmentCount
      f.fingerprints.length = true
  contains_built : ∀ {ks f}, newBinaryFuse ks = some f → ∀ k ∈ ks, contains f k = true

/-- The filter that lets every key through. -/
def FuseLib.full : FuseLib where
  newBinaryFuse := fun _ => some ⟨0, 1, 0, 1, 1, [0, 0, 0]⟩
  contains := fun _ _ => true
  build := fun _ _ _ _ => ⟨_, rfl⟩
  geometry := by
    rintro ks f ⟨⟩
    decide
  contains_built := fun _ _ _ => rfl

/-- The filter input for a key: its last eight bytes. -/
def filterKey (k : Key) : UInt64 := .ofNat (uint (slice k.bytes 24 32))

/-- Drop an element equal to its successor. -/
def slicesCompact {α : Type _} [DecidableEq α] : List α → List α
  | [] => []
  | [a] => [a]
  | a :: b :: l => if a = b then slicesCompact (b :: l) else a :: slicesCompact (b :: l)

/-- The tails a segment's filter is built over: sorted, without repetitions. -/
def filterTails (entries : List IndexEntry) : List UInt64 :=
  slicesCompact ((entries.map fun e => filterKey e.key).mergeSort fun a b => decide (a ≤ b))

def serializeFilter (f : BinaryFuse) : Bytes :=
  [filterTypeBinaryFuse16] ++ putUint 8 f.seed.toNat ++ putUint 4 f.segmentLength.toNat ++
    putUint 4 f.segmentLengthMask.toNat ++ putUint 4 f.segmentCount.toNat ++
    putUint 4 f.segmentCountLength.toNat ++ putUint 4 f.fingerprints.length ++
    f.fingerprints.flatMap fun fp => putUint 2 fp.toNat

def buildFilterSection (F : FuseLib) (entries : List IndexEntry) : Except FooterError Bytes :=
  match F.newBinaryFuse (filterTails entries) with
  | none => .error .fuseBuild
  | some f => .ok (serializeFilter f)

def parseFilterSection (b : Bytes) : Except FooterError BinaryFuse :=
  if b.length < filterHeaderSize then .error (.filterTooShort b.length)
  else if b.getD 0 0 ≠ filterTypeBinaryFuse16 then .error (.filterType (b.getD 0 0))
  else
    let fpCount := uint (slice b 25 29)
    if b.length ≠ filterHeaderSize + 2 * fpCount then
      .error (.filterLength b.length (filterHeaderSize + 2 * fpCount))
    else
      let segLen := UInt32.ofNat (uint (slice b 9 13))
      let segLenMask := UInt32.ofNat (uint (slice b 13 17))
      let segCount := UInt32.ofNat (uint (slice b 17 21))
      let segCountLen := UInt32.ofNat (uint (slice b 21 25))
      if segCount = 0 then .error .filterSegmentCountZero
      else if !geometryOk segLen segLenMask segCountLen segCount fpCount then
        .error .filterGeometry
      else
        .ok {
          seed := .ofNat (uint (slice b 1 9))
          segmentLength := segLen
          segmentLengthMask := segLenMask
          segmentCount := segCount
          segmentCountLength := segCountLen
          fingerprints := (List.range fpCount).map fun i =>
            .ofNat (uint (slice b (filterHeaderSize + 2 * i) (filterHeaderSize + 2 * i + 2))) }

/-! ## The index section -/

/-- Order by last key byte, then by full key. -/
def leEntries (a b : IndexEntry) : Bool :=
  decide (a.key.lastByte < b.key.lastByte) ||
    (a.key.lastByte == b.key.lastByte && decide (a.key.bytes ≤ b.key.bytes))

def sortEntries (entries : List IndexEntry) : List IndexEntry := entries.mergeSort leEntries

def IndexEntry.bucket (e : IndexEntry) : Nat := e.key.lastByte.toNat

def counts (es : List IndexEntry) (b : Nat) : Nat := es.countP fun e => decide (e.bucket = b)

/-- The running total of `counts` up to and including bucket `b`. -/
def cumCounts (es : List IndexEntry) : Nat → Nat
  | 0 => counts es 0
  | b + 1 => cumCounts es b + counts es (b + 1)

def indexRow (e : IndexEntry) : Bytes := e.key.bytes ++ putUint 8 e.off ++ putUint 4 e.slen

def buildIndexSection (entries : List IndexEntry) : Bytes :=
  let es := sortEntries entries
  (List.range 256).flatMap (fun b => putUint 4 (cumCounts es b)) ++ es.flatMap indexRow

/-- The fanout table at the start of an index section. -/
def readFanout (b : Bytes) : List Nat := (List.range 256).map fun i => uint (slice b (i * 4) (i * 4 + 4))

def parseIndexSection (b : Bytes) (keyCount : Nat) : Except FooterError (List Nat × Bytes) :=
  if keyCount > maxUint32 then .error (.keyCountExceedsLimit keyCount)
  else if b.length ≠ fanoutSize + keyCount * indexEntrySize then
    .error (.indexLength b.length (fanoutSize + keyCount * indexEntrySize))
  else
    let fanout := readFanout b
    if ¬fanout.Pairwise (· ≤ ·) then .error .fanoutNotMonotonic
    else if fanout.getD 255 0 ≠ keyCount then .error (.fanoutTotal (fanout.getD 255 0) keyCount)
    else .ok (fanout, b.drop fanoutSize)

/-- The serialized entry at position `pos` and everything after it. -/
def rowAt (entries : Bytes) (pos : Nat) : Bytes := entries.drop (pos * indexEntrySize)

def searchIndexPos (fanout : List Nat) (entries : Bytes) (k : Key) : Option Nat :=
  let b := k.lastByte.toNat
  let lo := if b > 0 then fanout.getD (b - 1) 0 else 0
  let n := fanout.getD b 0 - lo
  let i := Search.search n fun i => decide (k.bytes ≤ (rowAt entries (lo + i)).take 32)
  if i ≥ n then none
  else if (rowAt entries (lo + i)).take 32 ≠ k.bytes then none
  else some (lo + i)

def searchIndex (fanout : List Nat) (entries : Bytes) (k : Key) : Option (Nat × Nat) :=
  match searchIndexPos fanout entries k with
  | none => none
  | some pos =>
    let e := rowAt entries pos
    some (uint (slice e 32 40), uint (slice e 40 44))

/-! ## The footer -/

/-- The trailer up to its CRC field. -/
def trailerHead (bodyLen idxLen filtLen keyCount : Nat) : Bytes :=
  putUint 8 (bodyLen + 1) ++ putUint 8 idxLen ++ putUint 8 (bodyLen + 1 + idxLen) ++
    putUint 8 filtLen ++ putUint 8 keyCount ++ putUint 8 bodyLen

/-- The footer around an index section and a filter section. The CRC covers everything before its
own field. -/
def assembleFooter (bodyLen : Nat) (idx filt : Bytes) (keyCount : Nat) : Bytes :=
  let covered := [tagSeal] ++ idx ++ filt ++ trailerHead bodyLen idx.length filt.length keyCount
  covered ++ putUint 4 (checksum castagnoli covered).toNat ++ putUint 4 0 ++ magicTrailer

def buildFooter (F : FuseLib) (bodyLen : Nat) (entries : List IndexEntry) :
    Except FooterError Bytes :=
  if entries.length = 0 then .error .emptySegment
  else
    match buildFilterSection F entries with
    | .error e => .error e
    | .ok filt => .ok (assembleFooter bodyLen (buildIndexSection entries) filt entries.length)

/-- The parsed footer of a sealed segment. -/
structure FooterView where
  fanout : List Nat
  entries : Bytes
  filter : BinaryFuse
  keyCount : Nat
  bodyLen : Nat
  indexOff : Nat
  indexLen : Nat
  deriving DecidableEq

def parseFooter (mm : Bytes) : Except FooterError FooterView :=
  if mm.length < minSealedSize then .error (.tooShort mm.length)
  else if mm.take magicHeader.length ≠ magicHeader then .error .badHeaderMagic
  else
    let tr := mm.drop (mm.length - trailerSize)
    if slice tr 56 64 ≠ magicTrailer then .error .badTrailerMagic
    else if uint (slice tr 52 56) ≠ 0 then .error .nonzeroReserved
    else
      let indexOff := uint (slice tr 0 8)
      let indexLen := uint (slice tr 8 16)
      let filterOff := uint (slice tr 16 24)
      let filterLen := uint (slice tr 24 32)
      let keyCount := uint (slice tr 32 40)
      let bodyLen := uint (slice tr 40 48)
      let fileLen := mm.length
      if bodyLen < magicHeader.length ∨ bodyLen ≥ fileLen ∨ keyCount > maxUint32 ∨
          indexOff ≠ bodyLen + 1 ∨ indexLen ≠ fanoutSize + keyCount * indexEntrySize ∨
          filterOff ≠ indexOff + indexLen ∨ filterOff > fileLen - trailerSize ∨
          filterLen ≠ fileLen - trailerSize - filterOff then
        .error .inconsistentOffsets
      else if (checksum castagnoli (slice mm bodyLen (fileLen - 16))).toNat ≠
          uint (slice tr 48 52) then
        .error .crcMismatch
      else if mm.getD bodyLen 0 ≠ tagSeal then .error .missingSealMarker
      else
        match parseIndexSection (slice mm indexOff (indexOff + indexLen)) keyCount with
        | .error e => .error e
        | .ok (fanout, entries) =>
          match parseFilterSection (slice mm filterOff (filterOff + filterLen)) with
          | .error e => .error e
          | .ok filter => .ok { fanout, entries, filter, keyCount, bodyLen, indexOff, indexLen }

def FooterView.lookup (fv : FooterView) (k : Key) : Option (Nat × Nat) :=
  searchIndex fv.fanout fv.entries k

def FooterView.lookupPos (fv : FooterView) (k : Key) : Option Nat :=
  searchIndexPos fv.fanout fv.entries k

/-- The entry serialized at position `i` of the index. -/
def FooterView.entryAt (fv : FooterView) (i : Nat) : Option IndexEntry :=
  let row := rowAt fv.entries i
  if h : (row.take 32).length = 32 then
    some { key := ⟨row.take 32, h⟩, off := uint (slice row 32 40), slen := uint (slice row 40 44) }
  else none

/-- All entries, in index order. -/
def FooterView.allEntries (fv : FooterView) : List IndexEntry :=
  (List.range fv.keyCount).filterMap fv.entryAt

end AmberStore.Packstore
