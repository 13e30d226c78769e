import AmberStore.Lib.System
import AmberStore.Packstore.Recover

/-!
# Concurrent callers

`Put`, `WriteBatch` and `WriteParallel` as goroutines over one store. A step of a goroutine ends
where another one can see its effect: the checks under `mu`, the publication of a record, and the
ends of the fsync and of the seal that follow it under `appendMu`.
-/

namespace AmberStore.Packstore
open Bytes Amberpack Function

/-! ## Writing one object -/

/-- What a goroutine is about to do for an object it has observed. In the last two states it holds
`appendMu`. -/
inductive Work where
  | has
  | append (rec : Bytes)
  | fsync (a : ActiveSegment)
  | rotate (a : ActiveSegment)

/-- How the work on an object ends if nothing fails: the key was there, another caller got it into
the active segment first, or a record was appended. -/
inductive WorkEnd where
  | dedup
  | lost
  | stored
  deriving DecidableEq

inductive WorkNext where
  | goto (p : Work)
  | done (r : WorkEnd)

/-- The goroutine holds `appendMu`. -/
def Work.holds : Work → Bool
  | .fsync _ | .rotate _ => true
  | .has | .append _ => false

/-- The next step takes `appendMu`. -/
def Work.takes : Work → Bool
  | .append _ => true
  | .has | .fsync _ | .rotate _ => false

/-- A check that does not touch the store. -/
def lift (r : Except Err α) : M α :=
  match r with
  | .error e => Act.throw e
  | .ok a => return a

def Work.run (Z : Zstd) (F : FuseLib) (verify : Object → Except Err Unit) (o : Object)
    (syncNow : Bool) : Work → M WorkNext
  | .has => do
    if ← reading fun _ s => Packstore.has F s o.key then return .done .dedup
    else
      lift (verify o)
      let rec ← encode Z o
      return .goto (.append rec)
  | .append rec => do
    match ← claim o.key with
    | none => return .done .lost
    | some a => do
      let a ← writeRecord a o.key rec
      return .goto (.fsync a)
  | .fsync a => do
    fsyncRecord a syncNow
    return .goto (.rotate a)
  | .rotate a => do
    Packstore.rotate F a
    return .done .stored

/-! ## Put -/

inductive PutPc where
  | check
  | observe
  | work (p : Work)
  | ret (r : Except Err WorkEnd)

def PutPc.takes : PutPc → Bool
  | .work p => p.takes
  | _ => false

def PutPc.holds : PutPc → Bool
  | .work p => p.holds
  | _ => false

def noVerify (_ : Object) : Except Err Unit := .ok ()

def PutPc.run (Z : Zstd) (F : FuseLib) (o : Object) : PutPc → Option (M PutPc)
  | .check => some do
    match (← getStore).failed with
    | some e => return .ret (.error e)
    | none => return .observe
  | .observe => some do
    Packstore.observe o.key
    return .work .has
  | .work p => some do
    match ← Act.attempt (p.run Z F noVerify o true) with
    | .error e => return .ret (.error e)
    | .ok (.goto p) => return .work p
    | .ok (.done r) => return .ret (.ok r)
  | .ret _ => none

/-! ## WriteBatch -/

inductive BatchPc where
  | next
  | observe (o : Object)
  | work (o : Object) (p : Work)
  | fail (e : Err)
  | sync
  | ret (r : Except Err Unit)

/-- A running `WriteBatch`: what its iterator is yet to yield, what it has yielded, and its locals. -/
structure Batch where
  todo : List (Except Err Object)
  given : List Object
  seen : List Key
  appended : Bool
  pc : BatchPc

def Batch.takes (b : Batch) : Bool :=
  match b.pc with
  | .work _ p => p.takes
  | .fail _ | .sync => true
  | _ => false

def Batch.holds (b : Batch) : Bool :=
  match b.pc with
  | .work _ p => p.holds
  | _ => false

/-- Ask the iterator for the next object. -/
def Batch.advance (b : Batch) : Batch :=
  match b.todo with
  | [] => { b with pc := .sync }
  | .error e :: _ => { b with pc := .fail e }
  | .ok o :: todo =>
    if o.key ∈ b.seen then { b with todo, given := o :: b.given }
    else { b with todo, given := o :: b.given, seen := o.key :: b.seen, pc := .observe o }

def Batch.run (Z : Zstd) (F : FuseLib) (b : Batch) : Option (M Batch) :=
  match b.pc with
  | .next => some (pure b.advance)
  | .observe o => some do
    Packstore.observe o.key
    return { b with pc := .work o .has }
  | .work o p => some do
    match ← Act.attempt (p.run Z F noVerify o false) with
    | .error e => return { b with pc := .fail e }
    | .ok (.goto p) => return { b with pc := .work o p }
    | .ok (.done .dedup) => return { b with pc := .next }
    | .ok (.done _) => return { b with appended := true, pc := .next }
  | .fail e => some do
    runIf b.appended (do let _ ← Act.attempt syncActive)
    return { b with pc := .ret (.error e) }
  | .sync => some do
    let r ← Act.attempt syncActive
    return { b with pc := .ret r }
  | .ret _ => none

/-! ## WriteParallel -/

/-- What the goroutines of one `WriteParallel` share: the iterator, the channel, the set of keys
seen, the context and the error group. `closed` means that the distributor has returned. -/
structure Run where
  todo : List (Except Err Object)
  given : List Object
  chan : List Object
  closed : Bool
  seen : List Key
  cancelled : Bool
  err : Option Err
  writers : Nat
  batchSize : Nat
  verify : Bool

/-- A goroutine of the group cancels the context and returns an error. -/
def Run.fail (r : Run) (e : Err) : Run :=
  { r with cancelled := true, err := r.err <|> some e }

/-- One step of the distributor. -/
inductive Run.Distribute : Run → Run → Prop
  | send : r.closed = false → r.todo = .ok o :: rest → r.chan.length < 2 * r.writers →
    Distribute r { r with todo := rest, given := o :: r.given, chan := r.chan ++ [o] }
  | cancelled : r.closed = false → r.todo = .ok o :: rest → r.cancelled = true →
    Distribute r { r with todo := rest, given := o :: r.given, closed := true }
  | fail : r.closed = false → r.todo = .error e :: rest →
    Distribute r { r.fail e with todo := rest, closed := true }
  | finish : r.closed = false → r.todo = [] → Distribute r { r with closed := true }

inductive WriterPc where
  | recv
  | observe (o : Object)
  | seen (o : Object)
  | work (o : Object) (p : Work) (recLen : Nat)
  | flush
  | ret

structure Writer where
  pending : Nat
  pc : WriterPc

def Writer.takes (g : Writer) : Bool :=
  match g.pc with
  | .work _ p _ => p.takes
  | .flush => true
  | _ => false

def Writer.holds (g : Writer) : Bool :=
  match g.pc with
  | .work _ p _ => p.holds
  | _ => false

/-- The length of the record that is about to be appended. -/
def Work.recLen (n : Nat) : Work → Nat
  | .append rec => rec.length
  | _ => n

/-- A record was appended: fsync once enough bytes are pending. -/
def Writer.appended (g : Writer) (batchSize recLen : Nat) : Writer :=
  if batchSize ≤ g.pending + recLen then { pending := 0, pc := .flush }
  else { pending := g.pending + recLen, pc := .recv }

/-- The steps a writer can take. A `select` with several ready cases takes any of them. -/
def Writer.run (Z : Zstd) (F : FuseLib) (verify : Object → Except Err Unit) (r : Run)
    (g : Writer) : List (M (Run × Writer)) :=
  match g.pc with
  | .recv =>
    (if r.cancelled then [pure (r, { g with pc := .ret })] else []) ++
    match r.chan with
    | o :: chan => [pure ({ r with chan }, { g with pc := .observe o })]
    | [] => if r.closed then [pure (r, { g with pc := .ret })] else []
  | .observe o => [do
    Packstore.observe o.key
    return (r, { g with pc := .seen o })]
  | .seen o =>
    if o.key ∈ r.seen then [pure (r, { g with pc := .recv })]
    else [pure ({ r with seen := o.key :: r.seen }, { g with pc := .work o .has 0 })]
  | .work o p n => [do
    match ← Act.attempt (p.run Z F (if r.verify then verify else noVerify) o false) with
    | .error e => return (r.fail e, { g with pc := .ret })
    | .ok (.goto p) => return (r, { g with pc := .work o p (p.recLen n) })
    | .ok (.done .dedup) => return (r, { g with pc := .recv })
    | .ok (.done _) => return (r, g.appended r.batchSize n)]
  | .flush => [do
    match ← Act.attempt syncActive with
    | .error e => return (r.fail e, { g with pc := .ret })
    | .ok () => return (r, { g with pc := .recv })]
  | .ret => []

/-- The caller itself: it waits for the group, and then fsyncs. -/
inductive ParallelPc where
  | wait
  | sync
  | ret (r : Except Err Unit)

def syncRun (r : Run) : M ParallelPc := do
  let serr ← Act.attempt syncActive
  return .ret (match r.err with | some e => .error e | none => serr)

def defaultBatchSize : Nat := 16 <<< 20

/-- The state a run starts in; `procs` is the number of processors. -/
def Run.new (procs : Nat) (seq : List (Except Err Object)) (writers batchSize : Int)
    (verify : Bool) : Run where
  todo := seq
  given := []
  chan := []
  closed := false
  seen := []
  cancelled := false
  err := none
  writers := if writers ≤ 0 then procs else writers.toNat
  batchSize := if batchSize ≤ 0 then defaultBatchSize else batchSize.toNat
  verify

/-! ## The system -/

inductive Proc where
  | idle
  | put (o : Object) (pc : PutPc)
  | batch (b : Batch)
  | writer (run : Nat) (g : Writer)
  | parallel (run : Nat) (pc : ParallelPc)

def Proc.holds : Proc → Bool
  | .put _ pc => pc.holds
  | .batch b => b.holds
  | .writer _ g => g.holds
  | .idle | .parallel _ _ => false

/-- A store, its callers, and the objects acknowledged so far. -/
structure Sys where
  w : World
  procs : Nat → Proc
  runs : Nat → Run
  acked : List Object

namespace Sys

/-- No goroutine holds `appendMu`. -/
def Free (s : Sys) : Prop := ∀ i, (s.procs i).holds = false

def setProc (s : Sys) (i : Nat) (p : Proc) : Sys := { s with procs := update s.procs i p }

def setRun (s : Sys) (r : Nat) (run : Run) : Sys := { s with runs := update s.runs r run }

/-- The number of no goroutine's run. -/
def Unused (s : Sys) (r : Nat) : Prop :=
  ∀ i, (∀ g, s.procs i ≠ .writer r g) ∧ ∀ pc, s.procs i ≠ .parallel r pc

end Sys

/-- What a `Put` acknowledges: an object it appended. -/
def PutPc.acks (o : Object) : PutPc → List Object
  | .ret (.ok .stored) => [o]
  | _ => []

/-- What a batch acknowledges: everything its iterator yielded. -/
def Batch.acks (b : Batch) : List Object :=
  match b.pc with
  | .ret (.ok ()) => b.given
  | _ => []

def ParallelPc.acks (r : Run) : ParallelPc → List Object
  | .ret (.ok ()) => r.given
  | _ => []

/-- One step of the system, with the states a crash can interrupt it in. New calls pass the objects
that `ok` accepts. -/
inductive Move (Z : Zstd) (F : FuseLib) (verify : Object → Except Err Unit)
    (ok : Object → Prop) : Sys → List World → Sys → Prop
  | startPut : s.procs i = .idle → ok o → Move Z F verify ok s [] (s.setProc i (.put o .check))
  | startBatch : s.procs i = .idle → (∀ o, .ok o ∈ seq → ok o) →
    Move Z F verify ok s [] (s.setProc i (.batch ⟨seq, [], [], false, .next⟩))
  | startParallel {ws : List Nat} : s.procs i = .idle → s.Unused r → 0 < procs → (∀ o, .ok o ∈ seq → ok o) →
    run = Run.new procs seq writers batchSize vfy →
    ws.length = run.writers → ws.Nodup → i ∉ ws → (∀ j ∈ ws, s.procs j = .idle) →
    Move Z F verify ok s [] { (s.setProc i (.parallel r .wait)).setRun r run with
      procs := fun j => if j ∈ ws then .writer r ⟨0, .recv⟩
        else update s.procs i (.parallel r .wait) j }
  | put : s.procs i = .put o pc → pc.run Z F o = some m → (pc.takes → s.Free) →
    m s.w = ⟨tr, .ok pc', w'⟩ →
    Move Z F verify ok s tr { s.setProc i (.put o pc') with w := w', acked := pc'.acks o ++ s.acked }
  | batch : s.procs i = .batch b → b.run Z F = some m → (b.takes → s.Free) →
    m s.w = ⟨tr, .ok b', w'⟩ →
    Move Z F verify ok s tr { s.setProc i (.batch b') with w := w', acked := b'.acks ++ s.acked }
  | distribute : (s.runs r).Distribute run → Move Z F verify ok s [] (s.setRun r run)
  | writer : s.procs i = .writer r g → m ∈ g.run Z F verify (s.runs r) → (g.takes → s.Free) →
    m s.w = ⟨tr, .ok (run, g'), w'⟩ →
    Move Z F verify ok s tr { (s.setProc i (.writer r g')).setRun r run with w := w' }
  | join : s.procs i = .parallel r .wait → (s.runs r).closed →
    (∀ j g, s.procs j = .writer r g → g.pc = .ret) →
    Move Z F verify ok s [] (s.setProc i (.parallel r .sync))
  | sync : s.procs i = .parallel r .sync → s.Free → syncRun (s.runs r) s.w = ⟨tr, .ok pc', w'⟩ →
    Move Z F verify ok s tr { s.setProc i (.parallel r pc') with
      w := w', acked := pc'.acks (s.runs r) ++ s.acked }

end AmberStore.Packstore
