import AmberStore.Packstore.Footer
import AmberStore.Lib.Action
import AmberStore.Lib.FileSystem
import Mathlib.Data.List.AList

/-!
# The packstore: state and file operations

A store keeps sealed segments, mapped whole, and at most one active segment that takes appends.
The store directory holds segment files only. Every file operation can fail: `ioFaults` and
`syncFaults` say for each coming operation whether it does.
-/

namespace AmberStore.Packstore
open Bytes Amberpack

/-- A segment file name: `<id>.seg` or `<id>.seg.active`. -/
inductive Name where
  | sealed (id : Nat)
  | active (id : Nat)
  deriving DecidableEq

def Name.id : Name → Nat
  | .sealed id | .active id => id

inductive Err where
  | notFound
  | closed
  | io
  | exists
  | footer (e : FooterError)
  | record (e : RecordError)
  | outOfBounds
  | activeSegments (n : Nat)
  | writePathFailed (e : Err)
  | verifyKey (e : KeyError)
  | verifyHash
  | verifyLength (field : UInt64) (n : Nat)
  | recordKey
  | corrupt (id off : Nat) (e : Err)
  | source
  deriving DecidableEq

structure Config where
  segmentSize : Int
  sync : Bool
  deriving DecidableEq

/-- Location of one record in the active segment. -/
structure ActiveLoc where
  off : Nat
  flags : UInt8
  ulen : Nat
  slen : Nat
  deriving DecidableEq

structure ActiveSegment where
  id : Nat
  ino : Nat
  size : Nat
  index : AList fun _ : Key => ActiveLoc

structure SealedSegment where
  id : Nat
  mm : Bytes
  fv : FooterView

structure Store where
  cfg : Config
  sealed : List SealedSegment
  active : Option ActiveSegment
  nextID : Nat
  closed : Bool
  failed : Option Err
  /-- The grey set, while a capture is on. -/
  grey : Option (List Key)

/-- A store, the file system under it, and which of the coming file operations fail. -/
structure World where
  fs : FS Name
  s : Store
  ioFaults : List (Option Nat)
  syncFaults : List (Option Nat)

abbrev M := Act World Err

def getStore : M Store := do return (← Act.read).s

def setStore (f : Store → Store) : M Unit := Act.modify fun w => { w with s := f w.s }

/-! ## File operations -/

/-- An operation that an entry of `ioFaults` makes fail, having had the effect `fail`. -/
def ioOp (ok : FS Name → FS Name) (fail : Nat → FS Name → FS Name) : M Unit := do
  let w ← Act.read
  match w.ioFaults.head?.join with
  | none => Act.step fun w => { w with fs := ok w.fs, ioFaults := w.ioFaults.tail }
  | some n => do
    Act.step fun w => { w with fs := fail n w.fs, ioFaults := w.ioFaults.tail }
    Act.throw .io

/-- An fsync, which an entry of `syncFaults` makes fail. -/
def syncOp (ok : FS Name → FS Name) (fail : Nat → FS Name → FS Name) : M Unit := do
  let w ← Act.read
  match w.syncFaults.head?.join with
  | none => Act.step fun w => { w with fs := ok w.fs, syncFaults := w.syncFaults.tail }
  | some n => do
    Act.step fun w => { w with fs := fail n w.fs, syncFaults := w.syncFaults.tail }
    Act.throw .io

/-- Create a file that must not exist yet. -/
def create (n : Name) : M Nat := do
  let w ← Act.read
  match FS.lookup w.fs.cur n with
  | some _ => Act.throw .exists
  | none => do
    ioOp (fun fs => fs.create n) fun _ fs => fs
    return w.fs.next

/-- A positioned write. A failed one may have written some of the bytes. -/
def writeAt (ino off : Nat) (p : Bytes) : M Unit :=
  ioOp (fun fs => fs.setFile ino ((fs.files ino).writeAt off p))
    fun n fs => fs.setFile ino ((fs.files ino).writeAt off (p.take n))

def truncate (ino n : Nat) : M Unit :=
  ioOp (fun fs => fs.setFile ino ((fs.files ino).truncate n)) fun _ fs => fs

def fsync (ino : Nat) : M Unit :=
  syncOp (fun fs => fs.setFile ino (fs.files ino).fsync)
    fun n fs => fs.setFile ino ((fs.files ino).fsyncFail n)

def rename (a b : Name) : M Unit := do
  match FS.lookup (← Act.read).fs.cur a with
  | none => Act.throw .io
  | some _ => ioOp (fun fs => fs.rename a b) fun _ fs => fs

def remove (n : Name) : M Unit := do
  match FS.lookup (← Act.read).fs.cur n with
  | none => Act.throw .io
  | some _ => ioOp (fun fs => fs.remove n) fun _ fs => fs

def syncDir : M Unit := syncOp FS.syncDir fun _ fs => fs

/-- Close a file or unmap a segment: no effect on what is stored. -/
def closeFile : M Unit := ioOp id fun _ fs => fs

/-- Open an existing file for writing. -/
def openFile : M Unit := ioOp id fun _ fs => fs

/-- The bytes of the file under a name. -/
def readFile (n : Name) : M Bytes := do
  let w ← Act.read
  match FS.lookup w.fs.cur n with
  | none => Act.throw .io
  | some ino => do
    ioOp id fun _ fs => fs
    return (w.fs.files ino).data

/-- Map a sealed segment and validate its footer. -/
def openSealed (id : Nat) : M SealedSegment := do
  let mm ← readFile (.sealed id)
  if mm.length < minSealedSize then Act.throw (.footer (.tooShort mm.length))
  else
    match parseFooter mm with
    | .error e => Act.throw (.footer e)
    | .ok fv => return { id, mm, fv }

end AmberStore.Packstore
