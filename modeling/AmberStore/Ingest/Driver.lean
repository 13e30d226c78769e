import AmberStore.Cborx
import AmberStore.Fstree.Directory

/-!
# Ingest

The walk that turns a tree of files into objects: file contents into blobs below an index, extended
attributes into the entry or, when they are large, into an object of their own, and the entries of
each directory into leaves below an index.
-/

namespace AmberStore.Ingest
open Amberpack Fstree Cborx

/-- What the system reports about a file. -/
structure Metadata where
  mode : UInt64
  uid : UInt64
  gid : UInt64
  mtime : Int64
  device : UInt64 × UInt64
  linkTarget : Bytes
  xattrs : Xattrs

/-- A file with all that can be read from it. The content is that of a regular file, the children
are those of a directory. -/
inductive Node where
  | mk (name : Bytes) (info : Metadata) (content : Bytes) (children : List Node)

def Node.name : Node → Bytes
  | .mk name _ _ _ => name

def Node.info : Node → Metadata
  | .mk _ info _ _ => info

inductive FileType where
  | regular
  | directory
  | symlink
  | charDevice
  | blockDevice
  | fifo
  | socket
  | unsupported
  deriving DecidableEq

/-- The file type bits of a mode. -/
def fileType (mode : UInt64) : FileType :=
  let t := mode &&& 0o170000
  if t = 0o100000 then .regular
  else if t = 0o040000 then .directory
  else if t = 0o120000 then .symlink
  else if t = 0o020000 then .charDevice
  else if t = 0o060000 then .blockDevice
  else if t = 0o010000 then .fifo
  else if t = 0o140000 then .socket
  else .unsupported

structure Driver where
  ic : ItemChunker
  splitBytes : Bytes → List Bytes
  splitBytes_flatten : ∀ b, (splitBytes b).flatten = b
  xattrInlineMax : Int

/-- What a matcher of ignored names does. -/
structure Matcher (M : Type) where
  ignored : M → Bytes → Bool → Bool
  descend : M → Bytes → Except FsError M

variable (H : Blake3) (C : Cbor) (d : Driver) {M : Type} (matcher : Matcher M)

def encodeXattrSet (m : Xattrs) : Except FsError Object :=
  let b := encodeXattrs m
  encode H .xattrSet (.ofNat b.length) b

/-- Add chunks to a file index, each below its own blob. -/
def addChunks : List Level → List Bytes → Except FsError (List Level × List Object)
  | levels, [] => .ok (levels, [])
  | levels, chunk :: chunks => do
    let obj ← encodeBlob H chunk
    let (levels, objs) ← addItem H C d.ic false levels ⟨obj.key, []⟩
    let (levels, objs') ← addChunks levels chunks
    return (levels, obj :: (objs ++ objs'))

/-- An empty file has one empty blob. -/
def buildFile (content : Bytes) : Except FsError (Key × List Object) := do
  let chunks := d.splitBytes content
  let (levels, objs) ← addChunks H C d [] (if chunks = [] then [[]] else chunks)
  let (root, objs') ← finishIndex H C d.ic false levels
  return (root, objs ++ objs')

/-- Put the extended attributes into the entry, or into an object that the entry names. -/
def addXattrs (xattrs : Xattrs) (e : Entry) : Except FsError (Entry × List Object) :=
  if xattrs.keys.length = 0 then .ok (e, [])
  else
    let enc := encodeXattrs xattrs
    if (enc.length : Int) ≤ d.xattrInlineMax then .ok ({ e with xattrsIn := enc }, [])
    else do
      let obj ← encodeXattrSet H xattrs
      return ({ e with xattrsKey := obj.key.bytes }, [obj])

/-- Close a directory whose entries were added. -/
def finishDir : DirBuilder × List Object → Except FsError (Key × List Object)
  | (db, objs) => do
    let (root, objs') ← db.finish H C d.ic
    return (root, objs ++ objs')

/-- The entry without a payload. -/
def bareEntry (name : Bytes) (info : Metadata) : Entry :=
  ⟨name, info.mode, info.uid, info.gid, info.mtime, [], [], [], [], []⟩

/-- The entry with its payload. The root of a directory is only used for one. -/
def addPayload (info : Metadata) (content : Bytes) (dir : Except FsError (Key × List Object))
    (e : Entry) : Except FsError (Entry × List Object) :=
  match fileType info.mode with
  | .regular => do
    let (ck, objs) ← buildFile H C d content
    return ({ e with contentKey := ck.bytes }, objs)
  | .directory => do
    let (ck, objs) ← dir
    return ({ e with contentKey := ck.bytes }, objs)
  | .symlink => .ok ({ e with linkTarget := info.linkTarget }, [])
  | .charDevice | .blockDevice => .ok ({ e with rdev := [info.device.1, info.device.2] }, [])
  | .fifo | .socket => .ok (e, [])
  | .unsupported => .error (.unsupportedType e.name)

mutual

/-- The entry of a file. Symbolic links have no extended attributes of their own. -/
def buildEntry (ign : M) : Node → Except FsError (Entry × List Object)
  | .mk name info content children => do
    let dir := do
      let sub ← matcher.descend ign name
      let built ← addNodes sub .new children
      finishDir H C d built
    let (e, objs) ← addPayload H C d info content dir (bareEntry name info)
    let (e, objs') ← addXattrs H d (if fileType info.mode = .symlink then ∅ else info.xattrs) e
    return (e, objs ++ objs')

/-- Add the entries of a directory, in the order of their names. -/
def addNodes (ign : M) (db : DirBuilder) : List Node → Except FsError (DirBuilder × List Object)
  | [] => .ok (db, [])
  | n :: ns =>
    if matcher.ignored ign n.name (decide (fileType n.info.mode = .directory)) then
      addNodes ign db ns
    else do
      let (e, objs) ← buildEntry ign n
      let (db, objs') ← db.addEntry H C d.ic e
      let (db, objs'') ← addNodes ign db ns
      return (db, objs ++ objs' ++ objs'')

end

/-- The root of a directory and the objects emitted on the way. -/
def buildDir (ign : M) (children : List Node) : Except FsError (Key × List Object) := do
  let built ← addNodes H C d matcher ign .new children
  finishDir H C d built

end AmberStore.Ingest
