import AmberStore.Packstore.Write

/-!
# Opening a store

`Open` maps the sealed segments of the directory and recovers the active one: its file is scanned
from the front, and either a crashed seal is completed or the file is cut to its valid prefix.
-/

namespace AmberStore.Packstore
open Bytes Amberpack

/-- The outcome of scanning an active segment file. -/
structure ScanResult where
  size : Nat
  index : AList fun _ : Key => ActiveLoc
  sealed : Bool

/-- Accept records from `off` on, up to the first invalid byte or a footer. -/
def scanFrom (b : Bytes) (off : Nat) (index : AList fun _ : Key => ActiveLoc) : ScanResult :=
  if _h : off < b.length then
    if b.getD off 0 = tagSeal then
      match parseFooter b with
      | .ok _ => { size := b.length, index, sealed := true }
      | .error _ => { size := off, index, sealed := false }
    else
      match parseRecord (b.drop off) with
      | .error _ => { size := off, index, sealed := false }
      | .ok r =>
        scanFrom b (off + (recHeaderSize + r.slen))
          (index.insert r.key { off, flags := r.flags, ulen := r.ulen, slen := r.slen })
  else { size := off, index, sealed := false }
termination_by b.length - off
decreasing_by
  have : 0 < recHeaderSize := by decide
  omega

/-- A file without the header was never acknowledged: it is reset to empty. -/
def scanActive (b : Bytes) : ScanResult :=
  if b.length < magicHeader.length ∨ b.take magicHeader.length ≠ magicHeader then
    { size := 0, index := ∅, sealed := false }
  else scanFrom b magicHeader.length ∅

def leId (a b : SealedSegment) : Bool := decide (a.id ≤ b.id)

/-- Publish a sealed segment, keeping the list in id order. -/
def addSealed (seg : SealedSegment) : M Unit :=
  setStore fun s => { s with sealed := (s.sealed ++ [seg]).mergeSort leId }

def Store.bump (s : Store) (id : Nat) : Store :=
  { s with nextID := if s.nextID ≤ id then id + 1 else s.nextID }

def bumpNextID (id : Nat) : M Unit := setStore fun s => s.bump id

/-- Complete a crashed seal, or cut the file to its valid prefix and resume it. -/
def recoverActive (id ino : Nat) : M Unit := do
  let res := scanActive (← readFile (.active id))
  bumpNextID id
  if res.sealed then
    rename (.active id) (.sealed id)
    syncDir
    addSealed (← openSealed id)
  else
    openFile
    if res.size < magicHeader.length then
      truncate ino 0
      writeAt ino 0 magicHeader
      setStore fun s => { s with
        active := some { id, ino, size := magicHeader.length, index := res.index } }
    else
      truncate ino res.size
      setStore fun s => { s with active := some { id, ino, size := res.size, index := res.index } }

/-- Directory order: names sort by their id in hexadecimal, and `.seg` before `.seg.active`. -/
def leName : Name → Name → Bool
  | .sealed a, .sealed b => decide (a ≤ b)
  | .sealed a, .active b => decide (a ≤ b)
  | .active a, .sealed b => decide (a < b)
  | .active a, .active b => decide (a ≤ b)

def readDir (d : Directory Name) : List (Name × Nat) := d.mergeSort fun a b => leName a.1 b.1

def sealedIDs (entries : List (Name × Nat)) : List Nat :=
  entries.filterMap fun e => match e.1 with | .sealed id => some id | .active _ => none

def activePaths (entries : List (Name × Nat)) : List (Nat × Nat) :=
  entries.filterMap fun e => match e.1 with | .sealed _ => none | .active id => some (id, e.2)

/-- Open one sealed segment of the directory. -/
def loadSealed (id : Nat) : M Unit := do
  let seg ← openSealed id
  setStore fun s => { s with sealed := s.sealed ++ [seg] }
  bumpNextID id

def load : M Unit := do
  let entries := readDir (← Act.read).fs.cur
  Act.each loadSealed (sealedIDs entries)
  setStore fun s => { s with sealed := s.sealed.mergeSort leId }
  match activePaths entries with
  | [] => return ()
  | [(id, ino)] => recoverActive id ino
  | as => Act.throw (.activeSegments as.length)

/-- A store about to load its directory. -/
def Store.new (cfg : Config) : Store where
  cfg
  sealed := []
  active := none
  nextID := 1
  closed := false
  failed := none
  grey := none

/-- Open the store of a directory that no other store has open. -/
def openStore (cfg : Config) : M Unit := do
  setStore fun _ => .new cfg
  load

end AmberStore.Packstore
