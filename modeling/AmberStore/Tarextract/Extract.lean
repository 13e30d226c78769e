import AmberStore.Lib.Action
import AmberStore.Lib.FileTree

/-!
# Extracting an archive

The members of an archive become files below a directory. The system may refuse any call. What each
call changes is written down with the path by which it was reached.
-/

namespace AmberStore.Tarextract
open FileTree Path

inductive Typeflag where
  | dir
  | reg
  | symlink
  | fifo
  | char
  | block
  | other (flag : UInt8)
  deriving DecidableEq

/-- The fields of a header that are read. The records are in the order of the iteration. -/
structure Header where
  name : Bytes
  typeflag : Typeflag
  mode : Int
  uid : Int
  gid : Int
  /-- in nanoseconds -/
  modTime : Int
  linkname : Bytes
  devmajor : Int
  devminor : Int
  paxRecords : List (Bytes × Bytes)

/-- A member with what can be read of its body, and whether reading it then fails. -/
structure Member where
  header : Header
  body : Bytes
  cut : Bool

inductive Op where
  | stat
  | lstat
  | mkdir
  | openFile
  | write
  | symlink
  | mkfifo
  | mknod
  | lchown
  | chmod
  | lsetxattr
  | utimes
  deriving DecidableEq

structure Call where
  op : Op
  path : Bytes
  deriving DecidableEq

/-- Why the system refuses a call that could be made. -/
inductive Refusal where
  | perm
  | acces
  | notsup
  | other (code : Nat)
  deriving DecidableEq

inductive SysError where
  | errno (e : Errno)
  | refused (r : Refusal)
  deriving DecidableEq

inductive ExtractError where
  | archive
  | body (path : Bytes)
  | unsafeName (name : Bytes)
  | nonDirectory (path : Bytes)
  | unsupportedType (path : Bytes) (flag : Typeflag)
  | call (c : Call) (e : SysError)
  deriving DecidableEq

def ExtractError.isNotExist : ExtractError → Bool
  | .call _ (.errno .noent) => true
  | _ => false

def ExtractError.isPrivilegeError : ExtractError → Bool
  | .call _ (.refused .perm) | .call _ (.refused .acces) | .call _ (.refused .notsup) => true
  | _ => false

/-- What the process runs on: whether it is root, which calls are refused, the attributes of a new file
in a directory, and the clock. -/
structure Sys where
  isRoot : Bool
  deny : FS → Call → Option Refusal
  fresh : FS → Ino → Nat → Attrs
  now : FS → Timespec

/-- A file that was changed, and the path that led to it. -/
structure Touch where
  via : List Bytes
  ino : Ino

structure World where
  fs : FS
  touched : List Touch

abbrev M := Act World ExtractError

/-! ## System calls -/

section Calls
variable (sys : Sys)

def allow (c : Call) : M Unit := do
  let w ← Act.read
  match sys.deny w.fs c with
  | some r => Act.throw (.call c (.refused r))
  | none => pure ()

/-- The kind of the file at a path. -/
def statWith (c : Call) (follow : Bool) : M Kind := do
  allow sys c
  let w ← Act.read
  match w.fs.resolve c.path follow with
  | .error e => Act.throw (.call c (.errno e))
  | .ok i =>
    match w.fs.kind i with
    | some k => pure k
    | none => Act.throw (.call c (.errno .noent))

def stat (path : Bytes) : M Kind := statWith sys ⟨.stat, path⟩ true

def lstat (path : Bytes) : M Kind := statWith sys ⟨.lstat, path⟩ false

/-- Make a new file, whose kind may depend on the directory it is in. -/
def makeEntry (c : Call) (mode : Nat) (kind : Ino → Kind) : M Ino := do
  allow sys c
  let w ← Act.read
  match w.fs.locate c.path with
  | .error e => Act.throw (.call c (.errno e))
  | .ok (i, name) =>
    Act.modify fun w =>
      { fs := w.fs.add i name ⟨kind i, sys.fresh w.fs i mode⟩ (sys.now w.fs)
        touched := w.touched ++
          [⟨(FS.newParts c.path).dropLast, i⟩, ⟨FS.newParts c.path, w.fs.next⟩] }
    pure w.fs.next

def mkdir (path : Bytes) (perm : Nat) : M Ino :=
  makeEntry sys ⟨.mkdir, path⟩ perm fun i => .dir i fun _ => none

/-- Open a file that must not exist. -/
def openFile (path : Bytes) (perm : Nat) : M Ino := makeEntry sys ⟨.openFile, path⟩ perm fun _ => .file []

def symlink (target path : Bytes) : M Ino :=
  if target = [] then Act.throw (.call ⟨.symlink, path⟩ (.errno .noent))
  else makeEntry sys ⟨.symlink, path⟩ 0o777 fun _ => .symlink target

def mkfifo (path : Bytes) (mode : Nat) : M Ino := makeEntry sys ⟨.mkfifo, path⟩ mode fun _ => .fifo

/-- The device number of a pair. The fields do not overlap. -/
def mkdev (major minor : Nat) : Nat :=
  major % 0x1000 * 0x100 + major / 0x1000 * 0x100000000000 + minor % 0x100 + minor / 0x100 * 0x100000

/-- What the kernel takes of a device number: twelve bits for the major and twenty for the minor. -/
def deviceOf (dev : Nat) : Nat × Nat :=
  (dev / 0x100 % 0x1000, dev % 0x100 + dev / 0x100000 % 0x1000 * 0x100)

def deviceKind (block : Bool) (dev : Nat) : Kind :=
  match block with
  | true => .block (deviceOf dev).1 (deviceOf dev).2
  | false => .char (deviceOf dev).1 (deviceOf dev).2

def mknod (path : Bytes) (mode : Nat) (block : Bool) (dev : Nat) : M Ino :=
  makeEntry sys ⟨.mknod, path⟩ mode fun _ => deviceKind block dev

/-- Append to a file that was opened at a path. -/
def write (path : Bytes) (i : Ino) (data : Bytes) : M Unit := do
  allow sys ⟨.write, path⟩
  Act.modify fun w =>
    match w.fs.node i with
    | some ⟨.file old, attrs⟩ =>
      { fs := w.fs.setNode i ⟨.file (old ++ data), { attrs with mtime := sys.now w.fs }⟩
        touched := w.touched ++ [⟨FS.newParts path, i⟩] }
    | _ => w

def setAttrs (c : Call) (follow : Bool) (f : Node → Attrs) : M Unit := do
  allow sys c
  let w ← Act.read
  match w.fs.resolve c.path follow with
  | .error e => Act.throw (.call c (.errno e))
  | .ok i =>
    Act.modify fun w =>
      { fs := w.fs.modifyAttrs i f, touched := w.touched ++ [⟨parts c.path, i⟩] }

/-- An owner as the kernel takes it. The largest number leaves the owner as it is. -/
def ownerOf (old : Nat) (id : Int) : Nat :=
  let n := (id % 2 ^ 32).toNat
  if n = 2 ^ 32 - 1 then old else n

/-- The mode after a change of the owner: the bits that lend the rights of the owner or the group are
cleared, except for a directory. -/
def modeOwned (n : Node) : Nat :=
  match n.kind with
  | .dir .. => n.attrs.mode
  | _ =>
    let mode := if n.attrs.mode.testBit 11 then n.attrs.mode - 0o4000 else n.attrs.mode
    if mode.testBit 10 ∧ mode.testBit 3 then mode - 0o2000 else mode

def lchown (path : Bytes) (uid gid : Int) : M Unit :=
  setAttrs sys ⟨.lchown, path⟩ false fun n =>
    { n.attrs with mode := modeOwned n, uid := ownerOf n.attrs.uid uid, gid := ownerOf n.attrs.gid gid }

def chmod (path : Bytes) (mode : Nat) : M Unit :=
  setAttrs sys ⟨.chmod, path⟩ true fun n => { n.attrs with mode }

def lsetxattr (path name value : Bytes) : M Unit :=
  setAttrs sys ⟨.lsetxattr, path⟩ false fun n =>
    { n.attrs with xattrs := Function.update n.attrs.xattrs name (some value) }

def nsecToTimespec (ns : Int) : Timespec := ⟨ns / 1000000000, ns % 1000000000⟩

def utimesNanoAt (path : Bytes) (ts : Timespec) (nofollow : Bool) : M Unit :=
  setAttrs sys ⟨.utimes, path⟩ (!nofollow) fun n => { n.attrs with mtime := ts }

/-! ## Directories -/

/-- Make a directory, or find that there is one. -/
def mkdirOrFind (path : Bytes) (perm : Nat) : M Unit := do
  match ← (mkdir sys path perm).attempt with
  | .ok _ => pure ()
  | .error e =>
    match ← (lstat sys path).attempt with
    | .ok (.dir ..) => pure ()
    | _ => Act.throw e

def mkdirAllWith (parents : Bytes → M Unit) (perm : Nat) (path : Bytes) : M Unit := do
  match ← (stat sys path).attempt with
  | .ok (.dir ..) => pure ()
  | .ok _ => Act.throw (.call ⟨.mkdir, path⟩ (.errno .notdir))
  | .error _ =>
    (if parentOf path ≠ [] then parents (parentOf path) else pure ())
    mkdirOrFind sys path perm

/-- The bound on the depth is not reached where it is the length of the path, since a parent is
shorter. -/
def mkdirAllFrom (perm : Nat) : Nat → Bytes → M Unit
  | 0 => mkdirAllWith sys (fun _ => pure ()) perm
  | n + 1 => mkdirAllWith sys (mkdirAllFrom perm n) perm

def mkdirAll (path : Bytes) (perm : Nat) : M Unit := mkdirAllFrom sys perm path.length path

end Calls

/-! ## Names -/

/-- Join a name under the destination, unless it would escape. -/
def safeJoin (dest name : Bytes) : Except ExtractError Bytes :=
  if dotdot ∈ parts name then .error (.unsafeName name)
  else
    let target := join dest (clean (slash :: name))
    if target ≠ dest ∧ ¬dest ++ [slash] <+: target then .error (.unsafeName name)
    else .ok target

/-- The path and its directories, as long as they are below the destination. -/
def componentsBelow (dest path : Bytes) : List Bytes :=
  (List.iterate dir path (path.length + 1)).takeWhile fun p => dest ++ [slash] <+: p

section Extract
variable (sys : Sys)

/-- A component that exists must be a directory. -/
def rejectNonDirectory (p : Bytes) : M Unit := do
  match ← (lstat sys p).attempt with
  | .error e => if e.isNotExist then pure () else Act.throw e
  | .ok (.dir ..) => pure ()
  | .ok _ => Act.throw (.nonDirectory p)

def rejectSymlinkComponents (dest path : Bytes) : M Unit :=
  Act.each (rejectNonDirectory sys) (componentsBelow dest path)

/-! ## Members -/

/-- The permission bits of a mode. -/
def perm (mode : Int) : Nat := (mode % 0o10000).toNat

def writeRegular (target : Bytes) (m : Member) : M Unit := do
  let i ← openFile sys target 0o600
  write sys target i m.body
  (if m.cut then Act.throw (.body target) else pure ())

/-- The bytes of `SCHILY.xattr.`. -/
def xattrPrefix : Bytes := [83, 67, 72, 73, 76, 89, 46, 120, 97, 116, 116, 114, 46]

def setXattr (target : Bytes) (record : Bytes × Bytes) : M Unit :=
  if xattrPrefix <+: record.1 then do
    match ← (lsetxattr sys target (record.1.drop xattrPrefix.length) record.2).attempt with
    | .ok () => pure ()
    | .error e => if e.isPrivilegeError then pure () else Act.throw e
  else pure ()

def setXattrs (target : Bytes) : List (Bytes × Bytes) → M Unit := Act.each (setXattr sys target)

def setMtime (target : Bytes) (ns : Int) (isSymlink : Bool) : M Unit :=
  utimesNanoAt sys target (nsecToTimespec ns) isSymlink

/-- The owner comes before the mode, whose bits it may clear, and the time comes last. -/
def applyMeta (target : Bytes) (h : Header) (isSymlink : Bool) : M Unit := do
  (if sys.isRoot then lchown sys target h.uid h.gid else pure ())
  (if isSymlink then pure ()
  else do
    chmod sys target (perm h.mode)
    setXattrs sys target h.paxRecords)
  setMtime sys target h.modTime isSymlink

def uint32 (n : Int) : Nat := (n % 2 ^ 32).toNat

/-- A device node, or nothing when it may not be made. -/
def makeDevice (target : Bytes) (h : Header) (block : Bool) : M Unit := do
  let dev := mkdev (uint32 h.devmajor) (uint32 h.devminor)
  match ← (mknod sys target (perm h.mode) block dev).attempt with
  | .ok _ => applyMeta sys target h false
  | .error e => if e.isPrivilegeError then pure () else Act.throw e

/-- What is made of a member. -/
def makeMember (target : Bytes) (m : Member) : M Unit := do
  match m.header.typeflag with
  | .dir => mkdirAll sys target 0o700
  | .reg =>
    writeRegular sys target m
    applyMeta sys target m.header false
  | .symlink =>
    let _ ← symlink sys m.header.linkname target
    applyMeta sys target m.header true
  | .fifo =>
    let _ ← mkfifo sys target (perm m.header.mode)
    applyMeta sys target m.header false
  | .char => makeDevice sys target m.header false
  | .block => makeDevice sys target m.header true
  | .other flag => Act.throw (.unsupportedType target (.other flag))

def liftExcept : Except ExtractError α → M α
  | .error e => Act.throw e
  | .ok a => pure a

def extractMember (dest : Bytes) (m : Member) : M Unit := do
  let target ← liftExcept (safeJoin dest m.header.name)
  rejectSymlinkComponents sys dest target
  makeMember sys target m

/-- The directories among the members, once all of them were made. -/
def directories (ms : List Member) : List Header :=
  (ms.map Member.header).filter (·.typeflag = .dir)

def applyDirMeta (dest : Bytes) (h : Header) : M Unit := do
  let target ← liftExcept (safeJoin dest h.name)
  applyMeta sys target h false

end Extract

end AmberStore.Tarextract
