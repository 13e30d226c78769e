import AmberStore.Packstore.Verify

/-!
# Compact

`Compact` seals the active segment, selects the sealed segments that hold enough dead records,
copies their live records to the active segment, and deletes them. One goroutine looks for records to
copy, a pool of others verifies them, and the caller appends what they deliver: the order of their
steps is a parameter.
-/

namespace AmberStore.Packstore
open Bytes Amberpack

/-! ## Selection -/

structure SegmentLiveness where
  id : Nat
  sealed : Bool
  liveKeys : Nat
  deadKeys : Nat
  liveBytes : Nat
  deadBytes : Nat

def SegmentLiveness.add (info : SegmentLiveness) (isLive : Bool) (slen : Nat) : SegmentLiveness :=
  let n := recHeaderSize + slen
  if isLive then { info with liveKeys := info.liveKeys + 1, liveBytes := info.liveBytes + n }
  else { info with deadKeys := info.deadKeys + 1, deadBytes := info.deadBytes + n }

def SealedSegment.liveness (g : SealedSegment) (live : Key → Bool) : SegmentLiveness :=
  g.fv.allEntries.foldl (fun info e => info.add (live e.key) e.slen) ⟨g.id, true, 0, 0, 0, 0⟩

structure CompactOpts where
  /-- Whether so many dead bytes, of so many in all, reach `MinDeadRatio`. -/
  reaches : Nat → Nat → Bool
  /-- Whether the file of a segment was last modified before `Horizon`, if there is one. -/
  before : Option (Nat → Bool)

def stat (n : Name) : M Unit := do
  match FS.lookup (← Act.read).fs.cur n with
  | none => Act.throw .io
  | some _ => ioOp id fun _ fs => fs

def CompactOpts.eligible (opts : CompactOpts) (g : SealedSegment) : M Bool :=
  match opts.before with
  | none => return true
  | some before => do
    stat (.sealed g.id)
    return before g.id

/-- The segment holds dead records, and enough of them. -/
def CompactOpts.selects (opts : CompactOpts) (live : Key → Bool) (g : SealedSegment) : Bool :=
  let info := g.liveness live
  decide (0 < info.deadKeys) && opts.reaches info.deadBytes (info.liveBytes + info.deadBytes)

/-- The victims, up to the first segment whose file cannot be inspected. -/
def selectVictims (live : Key → Bool) (opts : CompactOpts) :
    List SealedSegment → M (List SealedSegment × Option Err)
  | [] => return ([], none)
  | g :: segs => do
    match ← Act.attempt (opts.eligible g) with
    | .error e => return ([], some e)
    | .ok eligible => do
      let (victims, err) ← selectVictims live opts segs
      return (if eligible && opts.selects live g then g :: victims else victims, err)

/-! ## Copying -/

structure CopyRec where
  g : SealedSegment
  e : IndexEntry
  bytes : Bytes

/-- The key is in the active segment or in a sealed one that is not a victim. -/
def Store.survivorHas (F : FuseLib) (s : Store) (victims : List Nat) (k : Key) : Bool :=
  (s.activeLoc k).isSome || s.sealed.any fun g => decide (g.id ∉ victims) && g.has F k

/-- Where the goroutines of the copy pipeline stand: the index entries yet to be looked at, the
records that wait in the two channels, and the first failures. -/
structure Pipe where
  todo : List (SealedSegment × IndexEntry)
  cands : List CopyRec
  verified : List CopyRec
  err : Option Err
  appendErr : Option Err
  copied : List Nat

def Pipe.start (victims : List SealedSegment) : Pipe where
  todo := victims.flatMap fun g => g.fv.allEntries.map fun e => (g, e)
  cands := []
  verified := []
  err := none
  appendErr := none
  copied := []

/-- The context is cancelled as soon as anything fails. -/
def Pipe.cancelled (p : Pipe) : Bool := p.err.isSome || p.appendErr.isSome

/-- The goroutine that looks for records to copy takes up the next index entry. -/
def Pipe.produce (F : FuseLib) (live : Key → Bool) (victims : List Nat) (s : Store) (p : Pipe) :
    Pipe :=
  match p.todo with
  | [] => p
  | (g, e) :: todo =>
    if !live e.key || s.survivorHas F victims e.key then { p with todo }
    else if g.outOfBounds e.off e.slen then
      { p with todo := [], err := p.err <|> some (.corrupt g.id e.off .outOfBounds) }
    else
      { p with
        todo, cands := p.cands ++ [⟨g, e, slice g.mm e.off (e.off + recHeaderSize + e.slen)⟩] }

/-- A verifier takes up a candidate and delivers it. -/
def Pipe.verify (Z : Zstd) (H : Blake3) (i : Nat) (p : Pipe) : Pipe :=
  match p.cands[i]? with
  | none => p
  | some c =>
    match checkRecord Z H c.e.key c.bytes with
    | .error e =>
      { p with cands := p.cands.eraseIdx i, err := p.err <|> some (.corrupt c.g.id c.e.off e) }
    | .ok () => { p with cands := p.cands.eraseIdx i, verified := p.verified ++ [c] }

/-- The caller takes up a verified record. After a failure it only drains the channel. -/
def Pipe.append (F : FuseLib) (p : Pipe) : M Pipe :=
  match p.verified with
  | [] => return p
  | c :: verified =>
    if p.appendErr.isSome then return { p with verified }
    else do
      match ← Act.attempt (appendLocked F c.e.key c.bytes false) with
      | .error e => return { p with verified, appendErr := some e }
      | .ok () => return { p with verified, copied := p.copied ++ [c.bytes.length] }

/-- One step of one goroutine. Once the context is cancelled the producer may stop, and a verifier
may drop a candidate. -/
inductive Turn where
  | produce
  | stop
  | verify (i : Nat)
  | drop (i : Nat)
  | append

def Pipe.turn (Z : Zstd) (F : FuseLib) (H : Blake3) (live : Key → Bool) (victims : List Nat)
    (p : Pipe) : Turn → M Pipe
  | .produce => do return p.produce F live victims (← getStore)
  | .stop => return if p.cancelled then { p with todo := [] } else p
  | .verify i => return p.verify Z H i
  | .drop i => return if p.cancelled then { p with cands := p.cands.eraseIdx i } else p
  | .append => p.append F

def Pipe.run (Z : Zstd) (F : FuseLib) (H : Blake3) (live : Key → Bool) (victims : List Nat) :
    List Turn → Pipe → M Pipe
  | [], p => return p
  | t :: ts, p => do
    let p ← p.turn Z F H live victims t
    Pipe.run Z F H live victims ts p

/-- Turns that empty the pipeline. -/
def Pipe.rest (p : Pipe) : List Turn :=
  let n := p.todo.length + p.cands.length + p.verified.length
  List.replicate n .produce ++ List.replicate n (.verify 0) ++ List.replicate n .append

/-- Copy the live records that no survivor holds. The goroutines take the given turns, and then go on
until there is nothing left to do. -/
def copyLive (Z : Zstd) (F : FuseLib) (H : Blake3) (live : Key → Bool) (sched : List Turn)
    (victims : List SealedSegment) : M Pipe := do
  let ids := victims.map SealedSegment.id
  let p ← Pipe.run Z F H live ids sched (.start victims)
  Pipe.run Z F H live ids p.rest p

/-! ## The whole pass -/

structure CompactStats where
  scanned : Nat
  compacted : Nat
  victims : List Nat
  recordsCopied : Nat
  bytesCopied : Nat
  bytesFreed : Nat

/-- Fsync the copies, if syncing is on. -/
def syncCopies : M Unit := do
  let s ← getStore
  match s.active with
  | none => return ()
  | some a => runIf s.cfg.sync (orPoison (fsync a.ino))

/-- Take the victims out of the store, and delete their files. -/
def removeVictims (victims : List SealedSegment) : M Unit := do
  let ids := victims.map SealedSegment.id
  setStore fun s => { s with sealed := s.sealed.filter fun g => g.id ∉ ids }
  let s ← getStore
  allThenFail <|
    victims.flatMap (fun g => [closeFile, remove (.sealed g.id)]) ++ if s.cfg.sync then [syncDir] else []

/-- Copy what is live in the victims and delete them. -/
def rewriteVictims (Z : Zstd) (F : FuseLib) (H : Blake3) (live : Key → Bool) (sched : List Turn)
    (victims : List SealedSegment) (stats : CompactStats) : M (CompactStats × Option Err) := do
  let p ← copyLive Z F H live sched victims
  let stats := { stats with recordsCopied := p.copied.length, bytesCopied := p.copied.sum }
  match p.appendErr <|> p.err with
  | some e => return (stats, some e)
  | none => do
    match ← Act.attempt syncCopies with
    | .error e => return (stats, some e)
    | .ok () => do
      let stats := { stats with
        compacted := victims.length, bytesFreed := (victims.map fun g => g.mm.length).sum }
      match ← Act.attempt (removeVictims victims) with
      | .error e => return (stats, some e)
      | .ok () => return (stats, none)

/-- What a pass keeps: the marked keys and the grey ones. -/
def liveOrGrey (live : Key → Bool) (grey : List Key) (k : Key) : Bool := decide (k ∈ grey) || live k

def compact (Z : Zstd) (F : FuseLib) (H : Blake3) (live : Key → Bool) (opts : CompactOpts)
    (sched : List Turn) : M (CompactStats × Option Err) := do
  let live := liveOrGrey live (← takeGrey)
  let stats : CompactStats := ⟨0, 0, [], 0, 0, 0⟩
  match ← Act.attempt (do checkWritable; orPoison (sealActiveLocked F)) with
  | .error e => return (stats, some e)
  | .ok () => do
    let segs := (← getStore).sealed
    let (victims, err) ← selectVictims live opts segs
    let stats := { stats with scanned := segs.length, victims := victims.map SealedSegment.id }
    match err with
    | some e => return (stats, some e)
    | none =>
      if victims.isEmpty then return (stats, none)
      else rewriteVictims Z F H live sched victims stats

end AmberStore.Packstore
