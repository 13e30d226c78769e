import AmberStore.Packstore.Store

/-!
# The read path

`Get`, `GetRecord`, `StoredSize`, `Has` and `locateLocked` probe the active segment's index first and
then the sealed segments from newest to oldest. They differ in what they take from a hit.
-/

namespace AmberStore.Packstore
open Bytes Amberpack

/-! ## One sealed segment -/

namespace SealedSegment
variable (F : FuseLib) (g : SealedSegment) (k : Key)

/-- The fuse filter first, then the exact index. -/
def find : Option (Nat × Nat) :=
  if F.contains g.fv.filter (filterKey k) then g.fv.lookup k else none

def has : Bool := (g.find F k).isSome

/-- The record an index entry points to does not lie in the body. -/
def outOfBounds (off slen : Nat) : Bool :=
  decide (off < magicHeader.length ∨ off > g.fv.bodyLen ∨ recHeaderSize + slen > g.fv.bodyLen - off)

def get (Z : Zstd) : Except Err (Option Bytes) :=
  match g.find F k with
  | none => .ok none
  | some (off, slen) =>
    if g.outOfBounds off slen then .error .outOfBounds
    else
      let h := slice g.mm off (off + recHeaderSize)
      let stored := slice g.mm (off + recHeaderSize) (off + recHeaderSize + slen)
      match decodePayload Z (h.getD 33 0) (uint (slice h 34 38)) stored with
      | .error e => .error (.record e)
      | .ok data => .ok (some data)

def getRecord : Except Err (Option Bytes) :=
  match g.find F k with
  | none => .ok none
  | some (off, slen) =>
    if g.outOfBounds off slen then .error .outOfBounds
    else .ok (some (slice g.mm off (off + recHeaderSize + slen)))

def storedSize : Option Nat := (g.find F k).map Prod.snd

def locate : Option Nat := (g.find F k).map Prod.fst

end SealedSegment

/-! ## The whole store -/

/-- The first hit of a list of segments; a corrupt segment fails the read. -/
def probeSealed (hit : SealedSegment → Except Err (Option α)) :
    List SealedSegment → Except Err (Option α)
  | [] => .ok none
  | g :: gs =>
    match hit g with
    | .error e => .error e
    | .ok (some a) => .ok (some a)
    | .ok none => probeSealed hit gs

/-- The location of a key in the active segment, if there is one. -/
def Store.activeLoc (s : Store) (k : Key) : Option (ActiveSegment × ActiveLoc) :=
  match s.active with
  | none => none
  | some a => (a.index.lookup k).map fun loc => (a, loc)

/-- The probe order all reads share. -/
def Store.probe (s : Store) (k : Key) (onActive : ActiveSegment → ActiveLoc → Except Err α)
    (onSealed : SealedSegment → Except Err (Option α)) : Except Err (Option α) :=
  if s.closed then .error .closed
  else
    match s.activeLoc k with
    | some (a, loc) => (onActive a loc).map some
    | none => probeSealed onSealed s.sealed.reverse

section Reads
variable (Z : Zstd) (F : FuseLib) (fs : FS Name) (s : Store)

/-- A positioned read from the active file; a short read is an error. -/
def readActive (a : ActiveSegment) (off n : Nat) : Except Err Bytes :=
  match readAt (fs.files a.ino).data off n with
  | none => .error .io
  | some b => .ok b

def get (k : Key) : Except Err Bytes :=
  let onActive := fun a (loc : ActiveLoc) =>
    match readActive fs a (loc.off + recHeaderSize) loc.slen with
    | .error e => .error e
    | .ok stored =>
      match decodePayload Z loc.flags loc.ulen stored with
      | .error e => .error (.record e)
      | .ok data => .ok data
  match s.probe k onActive fun g => g.get F k Z with
  | .error e => .error e
  | .ok none => .error .notFound
  | .ok (some data) => .ok data

def getRecord (k : Key) : Except Err Bytes :=
  let onActive := fun a (loc : ActiveLoc) => readActive fs a loc.off (recHeaderSize + loc.slen)
  match s.probe k onActive fun g => g.getRecord F k with
  | .error e => .error e
  | .ok none => .error .notFound
  | .ok (some rec) => .ok rec

def storedSize (k : Key) : Except Err (Option Nat) :=
  s.probe k (fun _ loc => .ok loc.slen) fun g => .ok (g.storedSize F k)

/-- The segment id and record offset where a key lives. -/
def locate (k : Key) : Except Err (Option (Nat × Nat)) :=
  s.probe k (fun a loc => .ok (a.id, loc.off)) fun g => .ok ((g.locate F k).map fun off => (g.id, off))

def has (k : Key) : Except Err Bool :=
  match s.probe k (fun _ _ => .ok ()) fun g => .ok (if g.has F k then some () else none) with
  | .error e => .error e
  | .ok r => .ok r.isSome

/-! ### Missing -/

def minMissingChunk : Nat := 64

/-- The absent keys of one chunk. -/
def missingChunk : List Key → Except Err (List Key)
  | [] => .ok []
  | k :: ks =>
    match has F s k with
    | .error e => .error e
    | .ok b =>
      match missingChunk ks with
      | .error e => .error e
      | .ok ms => .ok (if b then ms else k :: ms)

/-- The `i`th of the contiguous chunks the keys are cut into; both bounds clamp. -/
def chunk (keys : List Key) (chunkLen i : Nat) : List Key :=
  let lo := min (i * chunkLen) keys.length
  (keys.drop lo).take (min ((i + 1) * chunkLen) keys.length - lo)

/-- The absent keys, in order; `procs` is the number of processors. -/
def missing (procs : Nat) (keys : List Key) : Except Err (List Key) :=
  let workers := min procs ((keys.length + minMissingChunk - 1) / minMissingChunk)
  if workers = 0 then .ok []
  else
    let chunkLen := (keys.length + workers - 1) / workers
    match (List.range workers).mapM fun i => missingChunk F s (chunk keys chunkLen i) with
    | .error e => .error e
    | .ok results => .ok results.flatten

end Reads

end AmberStore.Packstore
