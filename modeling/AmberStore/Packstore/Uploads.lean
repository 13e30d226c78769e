import AmberStore.Packstore.Callers
import AmberStore.Packstore.Compact

/-!
# A store fed by uploads

A store whose objects all come from `WriteParallel` with `Verify`, whatever the streams hold, while it is
compacted, wiped, closed and reopened. `Compact` keeps `appendMu` for the whole pass, but reads and the checks
of the writers go on between the turns of its pipeline.
-/

namespace AmberStore.Packstore
open Bytes Amberpack Function

/-! ## Compact in steps -/

/-- What a pass comes to once it has sealed the active segment and chosen its victims. -/
inductive Prepared where
  | done (stats : CompactStats) (err : Option Err)
  | copy (live : Key → Bool) (victims : List SealedSegment) (stats : CompactStats)

/-- The pass up to the pipeline. -/
def prepareCompact (F : FuseLib) (live : Key → Bool) (opts : CompactOpts) : M Prepared := do
  let live := liveOrGrey live (← takeGrey)
  let stats : CompactStats := ⟨0, 0, [], 0, 0, 0⟩
  match ← Act.attempt (do checkWritable; orPoison (sealActiveLocked F)) with
  | .error e => return .done stats (some e)
  | .ok () => do
    let segs := (← getStore).sealed
    let (victims, err) ← selectVictims live opts segs
    let stats := { stats with scanned := segs.length, victims := victims.map SealedSegment.id }
    match err with
    | some e => return .done stats (some e)
    | none => return if victims.isEmpty then .done stats none else .copy live victims stats

/-- The pass after the pipeline. -/
def finishCompact (p : Pipe) (victims : List SealedSegment) (stats : CompactStats) :
    M (CompactStats × Option Err) := do
  let stats := { stats with recordsCopied := p.copied.length, bytesCopied := p.copied.sum }
  match p.appendErr <|> p.err with
  | some e => return (stats, some e)
  | none => do
    match ← Act.attempt syncCopies with
    | .error e => return (stats, some e)
    | .ok () => do
      let stats := { stats with
        compacted := victims.length, bytesFreed := (victims.map fun g => g.mm.length).sum }
      match ← Act.attempt (removeVictims victims) with
      | .error e => return (stats, some e)
      | .ok () => return (stats, none)

/-- `Compact` is its preparation, the turns of the pipeline, and the rest. -/
theorem compact_eq (Z : Zstd) (F : FuseLib) (H : Blake3) (live : Key → Bool) (opts : CompactOpts)
    (sched : List Turn) : compact Z F H live opts sched = (do
      match ← prepareCompact F live opts with
      | .done stats err => return (stats, err)
      | .copy live victims stats => do
        let p ← copyLive Z F H live sched victims
        finishCompact p victims stats) := by
  unfold compact prepareCompact
  simp only [Act.bind_assoc]
  congr 1
  funext grey
  congr 1
  funext r
  cases r with
  | error e => rfl
  | ok u =>
    simp only [Act.bind_assoc]
    congr 1
    funext s
    congr 1
    funext p
    obtain ⟨victims, err⟩ := p
    cases err with
    | some e => rfl
    | none =>
      cases victims with
      | nil => rfl
      | cons g victims => rfl

/-! ## The system -/

/-- A `Compact` that is copying. -/
structure Compaction where
  live : Key → Bool
  victims : List SealedSegment
  stats : CompactStats
  pipe : Pipe

def Prepared.job : Prepared → Option Compaction
  | .done _ _ => none
  | .copy live victims stats => some ⟨live, victims, stats, .start victims⟩

/-- All goroutines of the pipeline have returned. -/
def Pipe.Dry (p : Pipe) : Prop := p.todo = [] ∧ p.cands = [] ∧ p.verified = []

/-- A directory, the store that has it open if it is `up`, the writers, and a running `Compact`. -/
structure Node where
  w : World
  up : Bool
  procs : Nat → Proc
  runs : Nat → Run
  job : Option Compaction

namespace Node

/-- `appendMu` can be taken. -/
def Free (n : Node) : Prop := (∀ i, (n.procs i).holds = false) ∧ n.job = none

def Unused (n : Node) (r : Nat) : Prop := ∀ i, (∀ g, n.procs i ≠ .writer r g) ∧ ∀ pc, n.procs i ≠ .parallel r pc

/-- File offsets are 64-bit integers. -/
def Sized (n : Node) : Prop := ∀ a, n.w.s.active = some a → a.size < 2 ^ 63

inductive Step (Z : Zstd) (F : FuseLib) (H : Blake3) (n : Node) : Node → Prop
  -- WriteParallel with Verify
  | upload {ws : List Nat} : n.up = true → n.procs i = .idle → n.Unused r → 0 < cores →
    run = Run.new cores seq writers batchSize true → ws.length = run.writers → ws.Nodup → i ∉ ws →
    (∀ j ∈ ws, n.procs j = .idle) →
    Step Z F H n { n with
      procs := fun j => if j ∈ ws then .writer r ⟨0, .recv⟩ else update n.procs i (.parallel r .wait) j
      runs := update n.runs r run }
  | distribute : (n.runs r).Distribute run → Step Z F H n { n with runs := update n.runs r run }
  | write : n.procs i = .writer r g → m ∈ g.run Z F (verifyObject H) (n.runs r) → (g.takes = true → n.Free) →
    m n.w = ⟨tr, .ok (run, g'), w'⟩ →
    Step Z F H n { n with
      w := w', procs := update n.procs i (.writer r g'), runs := update n.runs r run }
  | join : n.procs i = .parallel r .wait → (n.runs r).closed = true →
    (∀ j g, n.procs j = .writer r g → g.pc = .ret) →
    Step Z F H n { n with procs := update n.procs i (.parallel r .sync) }
  | sync : n.procs i = .parallel r .sync → n.Free → syncRun (n.runs r) n.w = ⟨tr, .ok pc, w'⟩ →
    Step Z F H n { n with w := w', procs := update n.procs i (.parallel r pc) }
  -- Compact
  | prepare : n.up = true → n.Free → prepareCompact F live opts n.w = ⟨tr, .ok r, w'⟩ →
    Step Z F H n { n with w := w', job := r.job }
  | turn : n.job = some c → c.pipe.turn Z F H c.live (c.victims.map SealedSegment.id) t n.w = ⟨tr, .ok p, w'⟩ →
    Step Z F H n { n with w := w', job := some { c with pipe := p } }
  | finish : n.job = some c → c.pipe.Dry → finishCompact c.pipe c.victims c.stats n.w = ⟨tr, r, w'⟩ →
    Step Z F H n { n with w := w', job := none }
  | wipe : n.up = true → n.Free → Packstore.wipe n.w = ⟨tr, r, w'⟩ → Step Z F H n { n with w := w' }
  | close : n.up = true → n.Free → Packstore.close n.w = ⟨tr, r, w'⟩ → Step Z F H n { n with w := w' }
  /-- the goroutines of a closed store can only return its error -/
  | openDir : n.up = false ∨ n.w.s.closed = true ∧ n.Free → openStore cfg n.w = ⟨tr, r, w'⟩ →
    Step Z F H n ⟨w', r.isOk, fun _ => .idle, n.runs, none⟩

/-- An empty directory that no store has open yet. -/
structure Fresh (n : Node) : Prop where
  dir : n.w.fs.cur = []
  down : n.up = false
  idle : ∀ i, n.procs i = .idle
  job : n.job = none

end Node
end AmberStore.Packstore
