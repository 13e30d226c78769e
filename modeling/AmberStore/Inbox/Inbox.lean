import AmberStore.Amberpack.Pack
import AmberStore.Lib.System
import AmberStore.Packstore.Verify

/-!
# The inbox

Packs that were received wait as files in a directory, named by the hash of their body, until a
worker has written them into the store. Each call of `Commit` and each worker takes its steps
between those of the others. A crash keeps of the directory what was synced, and of every change
since then any part.

Bodies with the same hash are taken to be the same, so a body stands for the name of its file.
-/

namespace AmberStore.Inbox
open Amberpack Function

/-- The header of an entry: the reference it is for and its root. -/
structure Meta where
  ref : Bytes
  root : Bytes
  deriving DecidableEq

/-- An entry of the work queue. -/
structure WorkItem where
  body : Bytes
  root : Key
  deriving DecidableEq

/-- A file that was staged, with the root that `Commit` is called with. -/
structure Staged where
  header : Meta
  body : Bytes
  root : Key

/-- What a call of `Commit` does next. -/
inductive CommitPc where
  | stat
  | rename
  | sync
  | enqueue
  deriving DecidableEq

structure Call where
  staged : Staged
  pc : CommitPc

/-- What a worker does next: take an item, open its file, write the objects, remove the file, move
it to `failed`, or count the item as processed. -/
inductive Worker where
  | idle
  | taken (it : WorkItem)
  | opened (it : WorkItem)
  | written (it : WorkItem)
  | failing (it : WorkItem)
  | ending (it : WorkItem)

/-- The item of a worker. -/
def Worker.item? : Worker → Option WorkItem
  | .idle => none
  | .taken it | .opened it | .written it | .failing it | .ending it => some it

structure State where
  /-- the entries of the directory -/
  dir : Bytes → Option Meta
  /-- what a crash may leave of each entry -/
  remains : Bytes → List (Option Meta)
  /-- the entries that were moved to `failed` -/
  failed : List Bytes
  work : List WorkItem
  /-- the number of items that are not processed, by root -/
  groups : Key → Nat
  workers : List Worker
  calls : List Call
  /-- the keys that are durably in the store -/
  stored : List Key
  /-- bodies for which `Commit` has returned nil, with the root of the call -/
  acked : List (Bytes × Key)
  /-- bodies that were written or moved to `failed` at least once -/
  processed : List Bytes

namespace State

/-- Change an entry of the directory. -/
def setEntry (s : State) (b : Bytes) (e : Option Meta) : State :=
  { s with
    dir := update s.dir b e
    remains := update s.remains b (e :: s.remains b) }

/-- What is in the directory is durable. -/
def syncDir (s : State) : State := { s with remains := fun b => [s.dir b] }

def enqueue (s : State) (it : WorkItem) : State :=
  { s with
    groups := update s.groups it.root (s.groups it.root + 1)
    work := s.work ++ [it] }

def ack (s : State) (c : Staged) : State := { s with acked := s.acked ++ [(c.body, c.root)] }

/-- Count an item as processed. -/
def finish (s : State) (it : WorkItem) : State :=
  let n := s.groups it.root
  if n > 0 then { s with groups := update s.groups it.root (if n = 1 then 0 else n - 1) } else s

def markProcessed (s : State) (b : Bytes) : State := { s with processed := s.processed ++ [b] }

/-- Move an entry to `failed`. If it is gone, nothing happens. -/
def quarantine (s : State) (b : Bytes) : State :=
  if (s.dir b).isSome then
    { (s.setEntry b none).markProcessed b with failed := s.failed ++ [b] }
  else s

end State

section Inbox
variable (Z : Zstd) (H : Blake3) (headerOk : Meta → Bool)

/-- The body is a pack whose objects all pass verification. -/
def Valid (b : Bytes) : Prop :=
  (readAll Z b).2 = none ∧ ∀ o ∈ (readAll Z b).1,
    Packstore.verifyObject H o = .ok () ∧ o.data.length ≤ maxPayload

inductive WriteError where
  | data
  | store

/-- A run of `WriteParallel` over the objects of a body. What is in the store, and what came up before
in the stream, is not verified. When it fails, some of the objects are stored. -/
inductive Writes (stored : List Key) (b : Bytes) : Except WriteError Unit → List Key → Prop
  | ok : (readAll Z b).2 = none →
    (∀ o ∈ (readAll Z b).1, o.key ∈ stored ∨ ∃ o' ∈ (readAll Z b).1, o'.key = o.key ∧
      Packstore.verifyObject H o' = .ok () ∧ o'.data.length ≤ maxPayload) →
    Writes stored b (.ok ()) (stored ++ (readAll Z b).1.map Object.key)
  | dataError : ¬Valid Z H b → stored ⊆ stored' → Writes stored b (.error .data) stored'
  | storeError : stored ⊆ stored' → Writes stored b (.error .store) stored'

/-- The system calls that may fail. -/
inductive Fault where
  | stat
  | rename
  | sync
  | openEntry
  | readHeader
  | store
  | remove
  | quarantine
  deriving DecidableEq

/-- What is seen of a step: that `Commit` found an entry, that `WaitFor` returned, or that something
failed. -/
inductive Event where
  | quiet
  | found (b : Bytes) (root : Key)
  | waited (root : Key)
  | fault (f : Fault)
  | crash

/-- A step of a call of `Commit`. It returns nil in the two steps that acknowledge the body. -/
inductive CommitStep (s : State) : Call → Event → Option Call → State → Prop
  | statError : CommitStep s ⟨c, .stat⟩ (.fault .stat) none s
  | found : (s.dir c.body).isSome → CommitStep s ⟨c, .stat⟩ (.found c.body c.root) none (s.ack c)
  | missing : s.dir c.body = none → CommitStep s ⟨c, .stat⟩ .quiet (some ⟨c, .rename⟩) s
  | renameError : CommitStep s ⟨c, .rename⟩ (.fault .rename) none s
  | rename : CommitStep s ⟨c, .rename⟩ .quiet (some ⟨c, .sync⟩) (s.setEntry c.body (some c.header))
  | syncError : CommitStep s ⟨c, .sync⟩ (.fault .sync) none s
  | sync : CommitStep s ⟨c, .sync⟩ .quiet (some ⟨c, .enqueue⟩) s.syncDir
  | enqueue : CommitStep s ⟨c, .enqueue⟩ .quiet none ((s.enqueue ⟨c.body, c.root⟩).ack c)

/-- The system calls of one `Commit` that fail. -/
structure CommitFaults where
  stat : Bool
  rename : Bool
  sync : Bool

/-- A call of `Commit` with no other step in between: the state it leaves, and whether the entry was
added. -/
def commit (f : CommitFaults) (s : State) (c : Staged) : State × Except Fault Bool :=
  if f.stat then (s, .error .stat)
  else if (s.dir c.body).isSome then (s.ack c, .ok false)
  else if f.rename then (s, .error .rename)
  else
    let s := s.setEntry c.body (some c.header)
    if f.sync then (s, .error .sync)
    else ((s.syncDir.enqueue ⟨c.body, c.root⟩).ack c, .ok true)

/-- A step of a worker. -/
inductive WorkerStep (s : State) : Worker → Event → Worker → State → Prop
  | take : s.work = it :: rest → WorkerStep s .idle .quiet (.taken it) { s with work := rest }
  | opened : s.dir it.body = some m → headerOk m → WorkerStep s (.taken it) .quiet (.opened it) s
  | badHeader : s.dir it.body = some m → headerOk m = false →
    WorkerStep s (.taken it) .quiet (.failing it) s
  | gone : s.dir it.body = none → WorkerStep s (.taken it) .quiet (.ending it) s
  | openError : WorkerStep s (.taken it) (.fault .openEntry) (.ending it) s
  | readError : WorkerStep s (.taken it) (.fault .readHeader) (.failing it) s
  | wrote : Writes Z H s.stored it.body (.ok ()) stored →
    WorkerStep s (.opened it) .quiet (.written it) { s.markProcessed it.body with stored := stored }
  | writeData : Writes Z H s.stored it.body (.error .data) stored →
    WorkerStep s (.opened it) .quiet (.failing it) { s with stored := stored }
  | writeStore : Writes Z H s.stored it.body (.error .store) stored →
    WorkerStep s (.opened it) (.fault .store) (.failing it) { s with stored := stored }
  | remove : WorkerStep s (.written it) .quiet (.ending it) (s.setEntry it.body none)
  | removeError : WorkerStep s (.written it) (.fault .remove) (.ending it) s
  | quarantine : WorkerStep s (.failing it) .quiet (.ending it) (s.quarantine it.body)
  | quarantineError : WorkerStep s (.failing it) (.fault .quarantine) (.ending it) s
  | finish : WorkerStep s (.ending it) .quiet .idle (s.finish it)

/-- The root in the header of an entry. -/
def readRoot (m : Meta) : Option Key :=
  if headerOk m then (Key.parse m.root).toOption else none

/-- Enqueue an entry of a previous run, or move it to `failed` if it is unreadable. -/
def recoverEntry (s : State) (b : Bytes) : State :=
  match s.dir b with
  | none => s
  | some m =>
    match readRoot headerOk m with
    | some root => s.enqueue ⟨b, root⟩
    | none => s.quarantine b

/-- Open an inbox on a directory with these entries. -/
def openInbox (s : State) (workers : Nat) (dir : Bytes → Option Meta) (names : List Bytes) : State :=
  names.foldl (recoverEntry headerOk)
    { s with
      dir := dir, remains := fun b => [dir b], work := [], groups := fun _ => 0,
      workers := List.replicate workers .idle, calls := [] }

/-- The names of the entries. -/
def Lists (dir : Bytes → Option Meta) (names : List Bytes) : Prop :=
  names.Nodup ∧ ∀ b, b ∈ names ↔ (dir b).isSome

/-- A step of the inbox. -/
inductive Step (s : State) : Event → State → Prop
  | call (c : Staged) : c.header.root = c.root.bytes →
    Step s .quiet { s with calls := s.calls ++ [⟨c, .stat⟩] }
  | commit : s.calls = before ++ c :: after → CommitStep s c e c' t →
    Step s e { t with calls := before ++ (c'.toList ++ after) }
  | worker : s.workers = before ++ w :: after → WorkerStep Z H headerOk s w e w' t →
    Step s e { t with workers := before ++ w' :: after }
  | waitFor : s.groups root = 0 → Step s (.waited root) s
  | crash (workers : Nat) : (∀ b, dir b ∈ s.remains b) → Lists dir names →
    Step s .crash (openInbox headerOk s workers dir names)

/-- An inbox that was opened for the first time in this run. -/
inductive Opened : State → Prop
  | mk (workers : Nat) (stored : List Key) : Lists dir names →
    Opened (openInbox headerOk ⟨dir, fun b => [dir b], [], [], fun _ => 0, [], [], stored, [], []⟩ workers
      dir names)

end Inbox

end AmberStore.Inbox
