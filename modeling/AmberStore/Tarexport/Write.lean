import AmberStore.Fstree.Content
import AmberStore.Ingest.Driver
import AmberStore.Tarextract.Extract

/-!
# Writing an archive

The tree below a directory object becomes the members of an archive, each directory before its contents. The
root itself is no member. What was written before a failure stays written.
-/

namespace AmberStore.Tarexport
open Amberpack Fstree Cborx Path
open Tarextract (Header xattrPrefix)
open Ingest (fileType)

/-- A member that was written: its header with the size that was announced, and what came after it. -/
structure Emitted where
  header : Header
  size : Int
  body : Bytes

/-- What the archive writer takes, given the members so far. Data that is refused may be written in part. -/
structure TarWriter where
  header : List Emitted → Header → Int → Bool
  data : List Emitted → Bytes → Option Nat
  close : List Emitted → Bool

inductive ExportError where
  /-- tarexport: root %s is not a directory object (type %v) -/
  | notDirectory (root : Key)
  | fs (e : FsError)
  /-- tarexport: refusing unsafe entry name %q -/
  | unsafeName (comp : Bytes)
  /-- tarexport: xattrs key for %s: %w -/
  | xattrsKey (name : Bytes) (e : KeyError)
  /-- tarexport: reading xattrs %s for %s: %w -/
  | xattrsGet (k : Key) (name : Bytes)
  | xattrs (e : DecodeError)
  | contentKey (e : KeyError)
  /-- tarexport: %s: device entry missing [major, minor] -/
  | noDevice (name : Bytes)
  /-- tarexport: %s: unsupported file type %#o -/
  | unsupportedType (name : Bytes) (t : UInt64)
  | writer
  deriving DecidableEq

/-- Why an export ends early. The levels of a tree that is a tree do not run out. -/
inductive Halt where
  | levels
  | error (e : ExportError)
  deriving DecidableEq

abbrev M := Act (List Emitted) Halt

def fail (e : ExportError) : M α := Act.throw (.error e)

def liftExcept : Except ExportError α → M α
  | .error e => fail e
  | .ok a => pure a

section Write
variable (C : Cbor) (get : Key → Except FsError Bytes) (tw : TarWriter)

def writeHeader (h : Header) (size : Int) : M Unit := do
  let ms ← Act.read
  (if tw.header ms h size then Act.modify (· ++ [⟨h, size, []⟩]) else fail .writer)

/-- Append to the body of the last member. -/
def appendBody (b : Bytes) (ms : List Emitted) : List Emitted :=
  match ms.getLast? with
  | some m => ms.dropLast ++ [{ m with body := m.body ++ b }]
  | none => ms

def writeData (b : Bytes) : M Unit := do
  let ms ← Act.read
  match tw.data ms b with
  | none => Act.modify (appendBody b)
  | some n => do
    Act.modify (appendBody (b.take n))
    fail .writer

/-- The content below a key goes to the last member, up to where reading fails. -/
def writeContent (fuel : Nat) (k : Key) : M Unit :=
  match Fstree.writeContent C get fuel k [] with
  | none => Act.throw .levels
  | some (b, none) => writeData tw b
  | some (b, some e) => do
    writeData tw b
    fail (.fs e)

/-- The records of a header for a map of attributes. -/
def records (m : Xattrs) : List (Bytes × Bytes) := m.entries.map fun kv => (xattrPrefix ++ kv.1, kv.2)

/-- The attributes of an entry, from the entry itself or from an object of their own. -/
def setXattrs (name : Bytes) (ent : Entry) : Except ExportError (List (Bytes × Bytes)) :=
  if 0 < ent.xattrsIn.length then (decodeXattrs ent.xattrsIn).mapError .xattrs |>.map records
  else if ent.xattrsKey.length = 32 then
    match Key.parse ent.xattrsKey with
    | .error e => .error (.xattrsKey name e)
    | .ok xk =>
      match get xk with
      | .error _ => .error (.xattrsGet xk name)
      | .ok data => (decodeXattrs data).mapError .xattrs |>.map records
  else .ok []

/-- The header of an entry, before what depends on its type. -/
def newHeader (name : Bytes) (ent : Entry) (recs : List (Bytes × Bytes)) : Header where
  name := name
  typeflag := .other 0
  mode := (ent.mode &&& 0o7777).toNat
  uid := ent.uid.toInt64.toInt
  gid := ent.gid.toInt64.toInt
  modTime := ent.mtime.toInt
  linkname := []
  devmajor := 0
  devminor := 0
  paxRecords := recs

def parseContentKey (ent : Entry) : Except ExportError Key := (Key.parse ent.contentKey).mapError .contentKey

/-- Write what an entry stands for, given how to write a directory. -/
def entry (fuel : Nat) (dir : Key → Bytes → M Unit) (pre : Bytes) (ent : Entry) : M Unit := do
  let comp := ent.name
  if comp = [] ∨ comp = dot ∨ comp = dotdot ∨ slash ∈ comp then fail (.unsafeName comp)
  else do
    let name := join pre comp
    let recs ← liftExcept (setXattrs get name ent)
    let hdr := newHeader name ent recs
    match fileType ent.mode with
    | .directory => do
      writeHeader tw { hdr with name := name ++ [slash], typeflag := .dir } 0
      let ck ← liftExcept (parseContentKey ent)
      dir ck name
    | .regular => do
      let ck ← liftExcept (parseContentKey ent)
      writeHeader tw { hdr with typeflag := .reg } ck.length.toInt64.toInt
      writeContent C get tw fuel ck
    | .symlink => writeHeader tw { hdr with typeflag := .symlink, linkname := ent.linkTarget } 0
    | .fifo => writeHeader tw { hdr with typeflag := .fifo } 0
    | .charDevice =>
      match ent.rdev with
      | [major, minor] =>
        writeHeader tw { hdr with
          typeflag := .char, devmajor := major.toInt64.toInt, devminor := minor.toInt64.toInt } 0
      | _ => fail (.noDevice name)
    | .blockDevice =>
      match ent.rdev with
      | [major, minor] =>
        writeHeader tw { hdr with
          typeflag := .block, devmajor := major.toInt64.toInt, devminor := minor.toInt64.toInt } 0
      | _ => fail (.noDevice name)
    | .socket => pure ()
    | .unsupported => fail (.unsupportedType name (ent.mode &&& 0o170000))

def collect (fuel : Nat) (k : Key) : M (List Entry) :=
  match collectEntries C get fuel k with
  | none => Act.throw .levels
  | some (.error e) => fail (.fs e)
  | some (.ok entries) => pure entries

/-- Write the entries of a directory below the path of the directory, for at most so many levels. -/
def dir : Nat → Key → Bytes → M Unit
  | 0, _, _ => Act.throw .levels
  | fuel + 1, dirKey, pre => do
    let entries ← collect C get fuel dirKey
    Act.each (entry C get tw fuel (dir fuel) pre) entries

/-- The archive of the tree below a key. -/
def write (fuel : Nat) (root : Key) : M Unit :=
  if root.type ≠ .dirLeaf ∧ root.type ≠ .dirNode then fail (.notDirectory root)
  else do
    dir C get tw fuel root []
    let ms ← Act.read
    (if tw.close ms then pure () else fail .writer)

end Write

end AmberStore.Tarexport
