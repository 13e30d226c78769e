import AmberStore.Lib.Bytes
import Mathlib.Data.List.AList

/-!
# Extended attributes

Maps of byte strings to byte strings, in the core deterministic encoding of CBOR.
-/

namespace AmberStore.Cborx

/-- The head of an item with its argument in the shortest form. -/
def appendHead (major : UInt8) (n : UInt64) : Bytes :=
  let h := major <<< 5
  if n < 24 then [h ||| n.toUInt8]
  else if n < (1 : UInt64) <<< 8 then [h ||| 24, n.toUInt8]
  else if n < (1 : UInt64) <<< 16 then [h ||| 25, (n >>> 8).toUInt8, n.toUInt8]
  else if n < (1 : UInt64) <<< 32 then
    [h ||| 26, (n >>> 24).toUInt8, (n >>> 16).toUInt8, (n >>> 8).toUInt8, n.toUInt8]
  else
    [h ||| 27, (n >>> 56).toUInt8, (n >>> 48).toUInt8, (n >>> 40).toUInt8, (n >>> 32).toUInt8,
      (n >>> 24).toUInt8, (n >>> 16).toUInt8, (n >>> 8).toUInt8, n.toUInt8]

def appendBStr (s : Bytes) : Bytes := appendHead 2 (.ofNat s.length) ++ s

abbrev Xattrs := AList fun _ : Bytes => Bytes

/-- The names in the order of their encodings. -/
def sortedNames (m : Xattrs) : List Bytes :=
  m.keys.mergeSort fun a b => !decide (appendBStr b < appendBStr a)

def encodeXattrs (m : Xattrs) : Bytes :=
  appendHead 5 (.ofNat m.keys.length) ++
    (sortedNames m).flatMap fun n => appendBStr n ++ appendBStr ((m.lookup n).getD [])

/-! ## Decoding -/

inductive DecodeError where
  | unexpectedEOF
  /-- cborx: unsupported additional info %d -/
  | additionalInfo (ai : UInt8)
  /-- cborx: expected CBOR map (major 5), got major %d -/
  | expectedMap (major : UInt8)
  /-- cborx: expected byte string (major 2), got major %d -/
  | expectedByteString (major : UInt8)
  /-- cborx: xattr map claims %d pairs in %d bytes -/
  | claims (pairs : UInt64) (bytes : Nat)
  /-- cborx: xattr key %d: %w -/
  | key (i : Nat) (err : DecodeError)
  /-- cborx: xattr value for %q: %w -/
  | value (name : Bytes) (err : DecodeError)
  /-- cborx: %d trailing bytes after xattr map -/
  | trailing (bytes : Nat)
  deriving DecidableEq, Repr

/-- An argument of `w` bytes behind the initial byte. -/
def readArg (major : UInt8) (w : Nat) (b : Bytes) : Except DecodeError (UInt8 × UInt64 × Bytes) :=
  if b.length < w then .error .unexpectedEOF else .ok (major, .ofNat (Bytes.uint (b.take w)), b.drop w)

/-- The major type, the argument and what follows the head. -/
def readHead : Bytes → Except DecodeError (UInt8 × UInt64 × Bytes)
  | [] => .error .unexpectedEOF
  | x :: b =>
    let major := x >>> 5
    let ai := x &&& 0x1f
    if ai < 24 then .ok (major, ai.toUInt64, b)
    else if ai = 24 then readArg major 1 b
    else if ai = 25 then readArg major 2 b
    else if ai = 26 then readArg major 4 b
    else if ai = 27 then readArg major 8 b
    else .error (.additionalInfo ai)

def readBStr (b : Bytes) : Except DecodeError (Bytes × Bytes) := do
  let (major, n, b) ← readHead b
  if major ≠ 2 then throw (.expectedByteString major)
  if b.length < n.toNat then throw .unexpectedEOF
  return (b.take n.toNat, b.drop n.toNat)

/-- The loop of `decodeXattrs`: `n` pairs from the `i`-th on. A name that was seen before is overwritten. -/
def readPairs : (n i : Nat) → Bytes → Xattrs → Except DecodeError (Xattrs × Bytes)
  | 0, _, b, m => .ok (m, b)
  | n + 1, i, b, m => do
    let (name, b) ← (readBStr b).mapError (.key i)
    let (val, b) ← (readBStr b).mapError (.value name)
    readPairs n (i + 1) b (m.insert name val)

def decodeXattrs (b : Bytes) : Except DecodeError Xattrs := do
  let (major, n, b) ← readHead b
  if major ≠ 5 then throw (.expectedMap major)
  if b.length / 2 < n.toNat then throw (.claims n b.length)
  let (m, b) ← readPairs n.toNat 0 b ∅
  if b.length ≠ 0 then throw (.trailing b.length)
  return m

end AmberStore.Cborx
