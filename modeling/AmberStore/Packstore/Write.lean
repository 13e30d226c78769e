import AmberStore.Packstore.Read

/-!
# The write path

Appends go to the active segment, which is created on demand and sealed when it reaches the rotation
threshold. All of it runs under `appendMu`. A failed fsync and a failed seal poison the store.
-/

namespace AmberStore.Packstore
open Bytes Amberpack

/-! ## Grey capture -/

def Store.observe (s : Store) (k : Key) : Store := { s with grey := s.grey.map (k :: ·) }

def observe (k : Key) : M Unit := setStore fun s => s.observe k

def observeKeys (ks : List Key) : M Unit :=
  setStore fun s => { s with grey := s.grey.map (ks ++ ·) }

/-- End the capture and hand over the set. -/
def takeGrey : M (List Key) := do
  let s ← getStore
  setStore fun s => { s with grey := none }
  return s.grey.getD []

/-! ## Segments -/

/-- The next-numbered active segment, published once its header and name are durable. -/
def createActive : M ActiveSegment := do
  let id := (← getStore).nextID
  setStore fun s => { s with nextID := id + 1 }
  let ino ← create (.active id)
  let r ← Act.attempt do
    writeAt ino 0 magicHeader
    fsync ino
    syncDir
  match r with
  | .error e => do
    let _ ← Act.attempt (remove (.active id))
    Act.throw e
  | .ok () => do
    let a : ActiveSegment := { id, ino, size := magicHeader.length, index := ∅ }
    setStore fun s => { s with active := some a }
    return a

/-- Run an action if the condition holds. -/
def runIf (c : Prop) [Decidable c] (m : M Unit) : M Unit := if c then m else pure ()

def setFailed (e : Err) : M Unit :=
  setStore fun s => { s with failed := some (s.failed.getD (.writePathFailed e)) }

/-- Poison the write path if the action fails. -/
def orPoison (m : M Unit) : M Unit := do
  match ← Act.attempt m with
  | .ok () => return ()
  | .error e => do
    setFailed e
    Act.throw e

/-- The write path refuses a closed store and a poisoned one. -/
def checkWritable : M Unit := do
  let s ← getStore
  if s.closed then Act.throw .closed
  else
    match s.failed with
    | some e => Act.throw e
    | none => return ()

def ActiveSegment.indexEntries (a : ActiveSegment) : List IndexEntry :=
  a.index.entries.map fun e => { key := e.1, off := e.2.off, slen := e.2.slen }

/-- Write the footer, make it durable, rename the file and swap in the mapped segment. -/
def sealActiveLocked (F : FuseLib) : M Unit := do
  match (← getStore).active with
  | none => return ()
  | some a =>
    if a.index.entries.length = 0 then return ()
    else
      match buildFooter F a.size a.indexEntries with
      | .error e => Act.throw (.footer e)
      | .ok footer => do
        truncate a.ino a.size
        writeAt a.ino a.size footer
        fsync a.ino
        rename (.active a.id) (.sealed a.id)
        syncDir
        let seg ← openSealed a.id
        setStore fun s => { s with sealed := s.sealed ++ [seg], active := none }
        closeFile

/-! ## Appending -/

/-- The active segment, created if there is none. -/
def activeSegment : M ActiveSegment := do
  match (← getStore).active with
  | some a => return a
  | none => createActive

/-- The location of a record appended at `off`, read off its header. -/
def locOf (off : Nat) (rec : Bytes) : ActiveLoc where
  off
  flags := rec.getD 33 0
  ulen := uint (slice rec 34 38)
  slen := uint (slice rec 38 42)

/-- The active segment after one more record. -/
def ActiveSegment.push (a : ActiveSegment) (k : Key) (rec : Bytes) : ActiveSegment :=
  { a with index := a.index.insert k (locOf a.size rec), size := a.size + rec.length }

/-- The active segment to append to, unless another caller got the key into it first. -/
def claim (k : Key) : M (Option ActiveSegment) := do
  checkWritable
  let a ← activeSegment
  return if (a.index.lookup k).isSome then none else some a

/-- Write a record at the end of the active segment and publish it. -/
def writeRecord (a : ActiveSegment) (k : Key) (rec : Bytes) : M ActiveSegment := do
  writeAt a.ino a.size rec
  setStore fun s => { s with active := some (a.push k rec) }
  return a.push k rec

def fsyncRecord (a : ActiveSegment) (syncNow : Bool) : M Unit := do
  runIf (syncNow && (← getStore).cfg.sync) (orPoison (fsync a.ino))

/-- Seal the active segment once it reaches the threshold. -/
def rotate (F : FuseLib) (a : ActiveSegment) : M Unit := do
  runIf ((← getStore).cfg.segmentSize ≤ a.size) (orPoison (sealActiveLocked F))

def appendTo (F : FuseLib) (a : ActiveSegment) (k : Key) (rec : Bytes) (syncNow : Bool) :
    M Unit := do
  let a ← writeRecord a k rec
  fsyncRecord a syncNow
  rotate F a

def appendLocked (F : FuseLib) (k : Key) (rec : Bytes) (syncNow : Bool) : M Unit := do
  match ← claim k with
  | none => return ()
  | some a => appendTo F a k rec syncNow

/-- Fsync the active segment, if syncing is on and there is one. -/
def syncActive : M Unit := do
  checkWritable
  let s ← getStore
  if !s.cfg.sync then return ()
  else
    match s.active with
    | none => return ()
    | some a => orPoison (fsync a.ino)

/-! ## Put and WriteBatch -/

/-- Lift a read of the store. -/
def reading (f : FS Name → Store → Except Err α) : M α := do
  let w ← Act.read
  match f w.fs w.s with
  | .error e => Act.throw e
  | .ok a => return a

def encode (Z : Zstd) (o : Object) : M Bytes :=
  match encodeRecord Z o.key o.data with
  | .error e => Act.throw (.record e)
  | .ok rec => return rec

/-- Write one object that may be there already: whether a record was appended for it. -/
def writeObject (Z : Zstd) (F : FuseLib) (o : Object) (syncNow : Bool) : M Bool := do
  observe o.key
  if ← reading fun _ s => has F s o.key then return false
  else
    let rec ← encode Z o
    appendLocked F o.key rec syncNow
    return true

def put (Z : Zstd) (F : FuseLib) (k : Key) (data : Bytes) : M Unit := do
  match (← getStore).failed with
  | some e => Act.throw e
  | none => do
    let _ ← writeObject Z F ⟨k, data⟩ true

/-- Fail a batch. If part of it was appended, that part is fsynced first, on a best effort. -/
def failBatch (appended : Bool) (e : Err) : M Unit := do
  runIf appended (do let _ ← Act.attempt syncActive)
  Act.throw e

/-- The loop of `WriteBatch`. -/
def writeBatchLoop (Z : Zstd) (F : FuseLib) (seen : List Key) (appended : Bool) :
    List (Except Err Object) → M Unit
  | [] => syncActive
  | .error e :: _ => failBatch appended e
  | .ok o :: seq =>
    if o.key ∈ seen then writeBatchLoop Z F seen appended seq
    else do
      match ← Act.attempt (writeObject Z F o false) with
      | .error e => failBatch appended e
      | .ok b => writeBatchLoop Z F (o.key :: seen) (appended || b) seq

def writeBatch (Z : Zstd) (F : FuseLib) (seq : List (Except Err Object)) : M Unit :=
  writeBatchLoop Z F [] false seq

/-! ## Wipe and Close -/

/-- Run every action, remembering the first failure. -/
def allThenFail (ms : List (M Unit)) : M Unit := go none ms
where
  go (first : Option Err) : List (M Unit) → M Unit
    | [] =>
      match first with
      | none => return ()
      | some e => Act.throw e
    | m :: ms => do
      match ← Act.attempt m with
      | .ok () => go first ms
      | .error e => go (first <|> some e) ms

/-- Delete every object, leaving an empty, open store. -/
def wipe : M Unit := do
  let s ← getStore
  if s.closed then Act.throw .closed
  else
    setStore fun s => { s with active := none, sealed := [], failed := none }
    allThenFail <|
      (match s.active with
        | none => []
        | some a => [closeFile, remove (.active a.id)]) ++
      s.sealed.flatMap (fun g => [closeFile, remove (.sealed g.id)]) ++
      if s.cfg.sync then [syncDir] else []

/-- Fsync and close the active segment without sealing it, and unmap the sealed ones. -/
def close : M Unit := do
  let s ← getStore
  if s.closed then return ()
  else
    setStore fun s => { s with closed := true, active := none, sealed := [] }
    allThenFail <|
      (match s.active with
        | none => []
        | some a => [fsync a.ino, closeFile]) ++
      s.sealed.map (fun _ => closeFile) ++ [closeFile]

end AmberStore.Packstore
