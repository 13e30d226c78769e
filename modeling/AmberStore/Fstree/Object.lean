import AmberStore.Lib.Except
import AmberStore.Amberpack.Record
import Mathlib.Logic.Equiv.List

/-!
# Objects of the file system tree

Files are blobs below levels of file nodes; directories are leaves of entries below levels of
directory nodes. This file has their encodings, up to the CBOR library, and the children of an
object.
-/

namespace AmberStore.Fstree
open Amberpack List

/-- A directory entry. Fields that a kind of entry does not have are empty. -/
structure Entry where
  name : Bytes
  mode : UInt64
  uid : UInt64
  gid : UInt64
  mtime : Int64
  contentKey : Bytes
  linkTarget : Bytes
  rdev : List UInt64
  xattrsIn : Bytes
  xattrsKey : Bytes
  deriving DecidableEq

structure DirPair where
  sepName : Bytes
  childKey : Bytes
  deriving DecidableEq

/-- What the CBOR library provides for the types of this package. -/
structure Cbor where
  encodeKeys : List Bytes → Bytes
  decodeKeys : Bytes → Option (List Bytes)
  encodeEntries : List Entry → Bytes
  decodeEntries : Bytes → Option (List Entry)
  encodePairs : List DirPair → Bytes
  decodePairs : Bytes → Option (List DirPair)
  encodeEntry : Entry → Bytes
  encodePair : DirPair → Bytes

/-- What was encoded can be decoded. -/
structure Cbor.Lawful (C : Cbor) : Prop where
  keys : ∀ l, C.decodeKeys (C.encodeKeys l) = some l
  entries : ∀ l, C.decodeEntries (C.encodeEntries l) = some l
  pairs : ∀ l, C.decodePairs (C.encodePairs l) = some l

inductive FsError where
  | get (k : Key)
  | missingObject (k : Key)
  | decodeFileNode (k : Key)
  | fileNodeChild (i : Nat) (e : KeyError)
  | decodeDirNode (k : Key)
  | dirNodeChild (k : Key) (e : KeyError)
  | decodeDirLeaf (k : Key)
  | contentKey (name : Bytes) (e : KeyError)
  | xattrsKey (name : Bytes) (e : KeyError)
  | unknownType (t : ObjType)
  | notDirectory (k : Key)
  | notContent (k : Key)
  | limitNotPositive (limit : Int)
  | notFound (name : Bytes)
  | notAfter (k : Key) (name last : Bytes)
  | noChildren
  | unsupportedType (name : Bytes)
  | nodeChild (e : KeyError)
  | key (e : KeyError)
  deriving DecidableEq

variable (H : Blake3) (C : Cbor)

/-! ## Encoding -/

/-- An object under the key of its bytes. -/
def encode (t : ObjType) (length : UInt64) (data : Bytes) : Except FsError Object :=
  match Key.new H t length data with
  | .ok key => .ok ⟨key, data⟩
  | .error e => .error (.key e)

def encodeBlob (data : Bytes) : Except FsError Object := encode H .blob (.ofNat data.length) data

def encodeFileNode (children : List Key) : Except FsError Object :=
  encode H .fileNode (children.map Key.length).sum (C.encodeKeys (children.map Key.bytes))

/-- The length field of a key that an entry may have. -/
def keyLength (wrap : KeyError → FsError) (b : Bytes) : Except FsError UInt64 :=
  if b.length = 32 then
    match Key.parse b with
    | .ok k => .ok k.length
    | .error e => .error (wrap e)
  else .ok 0

def Entry.subLength (e : Entry) : Except FsError UInt64 := do
  let content ← keyLength (.contentKey e.name) e.contentKey
  let xattrs ← keyLength (.xattrsKey e.name) e.xattrsKey
  return content + xattrs

def encodeDirLeaf (entries : List Entry) : Except FsError Object := do
  let b := C.encodeEntries entries
  let sub ← entries.mapM Entry.subLength
  encode H .dirLeaf (.ofNat b.length + sub.sum) b

def DirPair.subLength (p : DirPair) : Except FsError UInt64 :=
  match Key.parse p.childKey with
  | .ok k => .ok k.length
  | .error e => .error (.nodeChild e)

def encodeDirNode (pairs : List DirPair) : Except FsError Object := do
  let b := C.encodePairs pairs
  let sub ← pairs.mapM DirPair.subLength
  encode H .dirNode (.ofNat b.length + sub.sum) b

/-! ## Children -/

/-- Parse every key of a list; a failure is reported with the position of the key. -/
def parseKeys (wrap : Nat → KeyError → FsError) : Nat → List Bytes → Except FsError (List Key)
  | _, [] => .ok []
  | i, b :: bs =>
    match Key.parse b with
    | .error e => .error (wrap i e)
    | .ok k => (parseKeys wrap (i + 1) bs).map (k :: ·)

/-- The keys an entry names, content first. -/
def Entry.childKeys (e : Entry) : Except FsError (List Key) := do
  let content ← parseKeys (fun _ => .contentKey e.name) 0
    (if e.contentKey = [] then [] else [e.contentKey])
  let xattrs ← parseKeys (fun _ => .xattrsKey e.name) 0 (if e.xattrsKey = [] then [] else [e.xattrsKey])
  return content ++ xattrs

def childKeys (k : Key) (data : Bytes) : Except FsError (List Key) :=
  match k.type with
  | .blob | .xattrSet => .ok []
  | .fileNode =>
    match C.decodeKeys data with
    | none => .error (.decodeFileNode k)
    | some raw => parseKeys .fileNodeChild 0 raw
  | .dirNode =>
    match C.decodePairs data with
    | none => .error (.decodeDirNode k)
    | some pairs => parseKeys (fun _ => .dirNodeChild k) 0 (pairs.map DirPair.childKey)
  | .dirLeaf =>
    match C.decodeEntries data with
    | none => .error (.decodeDirLeaf k)
    | some entries => (entries.mapM Entry.childKeys).map List.flatten
  | t => .error (.unknownType t)

/-! ## Objects that were encoded -/

section Encoded
variable {H C}

theorem encode_ok (h : encode H t n data = .ok o) :
    o.data = data ∧ o.key.type = t ∧ o.key.Canonical := by
  unfold encode at h
  split at h
  · next hk =>
    cases h
    exact ⟨rfl, Key.newFromHash_type hk, Key.newFromHash_canonical hk⟩
  · cases h

variable (H) in
theorem exists_encode (ht : t.isValid = true) (n : UInt64) (data : Bytes) :
    ∃ o, encode H t n data = .ok o := by
  simp [encode, Key.new, Key.newFromHash, ht]

theorem encodeBlob_ok (h : encodeBlob H data = .ok o) :
    o.data = data ∧ o.key.type = .blob ∧ o.key.Canonical := encode_ok h

theorem encodeFileNode_ok (h : encodeFileNode H C children = .ok o) :
    o.data = C.encodeKeys (children.map Key.bytes) ∧ o.key.type = .fileNode ∧ o.key.Canonical :=
  encode_ok h

theorem encodeDirLeaf_ok (h : encodeDirLeaf H C entries = .ok o) :
    o.data = C.encodeEntries entries ∧ o.key.type = .dirLeaf ∧ o.key.Canonical := by
  obtain ⟨sub, -, ho⟩ := Except.bind_eq_ok.mp h
  exact encode_ok ho

theorem encodeDirNode_ok (h : encodeDirNode H C pairs = .ok o) :
    o.data = C.encodePairs pairs ∧ o.key.type = .dirNode ∧ o.key.Canonical := by
  obtain ⟨sub, -, ho⟩ := Except.bind_eq_ok.mp h
  exact encode_ok ho

theorem exists_mapM {f : α → Except ε β} {l : List α} (h : ∀ x ∈ l, ∃ y, f x = .ok y) :
    ∃ ys, l.mapM f = .ok ys := by
  induction l with
  | nil => exact ⟨[], rfl⟩
  | cons a l ih =>
    obtain ⟨b, hb⟩ := h a mem_cons_self
    obtain ⟨bs, hbs⟩ := ih fun x hx => h x (mem_cons_of_mem _ hx)
    exact ⟨b :: bs, by rw [mapM_cons, hb, hbs]; rfl⟩

theorem exists_encodeDirNode (h : ∀ p ∈ pairs, ∃ k : Key, k.Canonical ∧ p.childKey = k.bytes) :
    ∃ o, encodeDirNode H C pairs = .ok o := by
  obtain ⟨sub, hs⟩ := exists_mapM (f := DirPair.subLength) (l := pairs) fun p hp => by
    obtain ⟨k, hk, hb⟩ := h p hp
    exact ⟨k.length, by rw [DirPair.subLength, hb, hk.parse]⟩
  obtain ⟨o, ho⟩ := exists_encode H (t := .dirNode) rfl
    (.ofNat (C.encodePairs pairs).length + sub.sum) (C.encodePairs pairs)
  exact ⟨o, by rw [encodeDirNode, hs]; exact ho⟩

/-- The keys of an entry that have the size of a key are canonical. -/
def Entry.KeysOk (e : Entry) : Prop :=
  (e.contentKey.length = 32 → ∃ k, Key.parse e.contentKey = .ok k) ∧
    (e.xattrsKey.length = 32 → ∃ k, Key.parse e.xattrsKey = .ok k)

theorem exists_keyLength (h : b.length = 32 → ∃ k, Key.parse b = .ok k) :
    ∃ n, keyLength wrap b = .ok n := by
  unfold keyLength
  split
  · next hb =>
    obtain ⟨k, hk⟩ := h hb
    exact ⟨k.length, by rw [hk]⟩
  · exact ⟨0, rfl⟩

theorem exists_encodeDirLeaf (h : ∀ e ∈ entries, e.KeysOk) :
    ∃ o, encodeDirLeaf H C entries = .ok o := by
  obtain ⟨sub, hs⟩ := exists_mapM (f := Entry.subLength) (l := entries) fun e he => by
    obtain ⟨hc, hx⟩ := h e he
    obtain ⟨n, hn⟩ := exists_keyLength hc
    obtain ⟨m, hm⟩ := exists_keyLength hx
    exact ⟨n + m, by rw [Entry.subLength, hn, hm]; rfl⟩
  obtain ⟨o, ho⟩ := exists_encode H (t := .dirLeaf) rfl
    (.ofNat (C.encodeEntries entries).length + sub.sum) (C.encodeEntries entries)
  exact ⟨o, by rw [encodeDirLeaf, hs]; exact ho⟩

theorem parseKeys_bytes {ks : List Key} (h : ∀ k ∈ ks, k.Canonical) :
    parseKeys wrap i (ks.map Key.bytes) = .ok ks := by
  induction ks generalizing i with
  | nil => rfl
  | cons k ks ih =>
    rw [map_cons, parseKeys, (h k mem_cons_self).parse,
      ih fun x hx => h x (mem_cons_of_mem _ hx)]
    rfl

end Encoded

/-! ## A codec -/

section Counting

instance encodableUInt8 : Encodable UInt8 := .ofLeftInverse UInt8.toNat UInt8.ofNat fun _ => UInt8.ofNat_toNat
instance encodableUInt64 : Encodable UInt64 := .ofLeftInverse UInt64.toNat UInt64.ofNat fun _ => UInt64.ofNat_toNat
instance encodableInt64 : Encodable Int64 := .ofLeftInverse Int64.toUInt64 UInt64.toInt64 Int64.toInt64_toUInt64

instance : Encodable DirPair :=
  .ofLeftInverse (fun p => (p.sepName, p.childKey)) (fun p => ⟨p.1, p.2⟩) fun _ => rfl

instance : Encodable Entry :=
  .ofLeftInverse
    (fun e => (e.name, e.mode, e.uid, e.gid, e.mtime, e.contentKey, e.linkTarget, e.rdev, e.xattrsIn,
      e.xattrsKey))
    (fun (name, mode, uid, gid, mtime, contentKey, linkTarget, rdev, xattrsIn, xattrsKey) =>
      ⟨name, mode, uid, gid, mtime, contentKey, linkTarget, rdev, xattrsIn, xattrsKey⟩)
    fun _ => rfl

/-- Write a value as that many zeros as its number. -/
def count [Encodable α] (x : α) : Bytes := List.replicate (Encodable.encode x) 0

def uncount [Encodable α] (b : Bytes) : Option α := Encodable.decode b.length

theorem uncount_count [Encodable α] (x : α) : uncount (count x) = some x := by
  simp [uncount, count]

/-- A codec that satisfies what is assumed of the library. -/
def Cbor.counting : Cbor where
  encodeKeys := count
  decodeKeys := uncount
  encodeEntries := count
  decodeEntries := uncount
  encodePairs := count
  decodePairs := uncount
  encodeEntry := count
  encodePair := count

theorem Cbor.counting_lawful : Cbor.counting.Lawful := ⟨uncount_count, uncount_count, uncount_count⟩

end Counting

end AmberStore.Fstree
