import AmberStore.Lib.Reclaim

/-!
# Unmapping segments

The callers of a store as far as the mappings of its sealed segments are concerned: reads under `mu.RLock`,
walks that are counted by `beginScrub`, appends that seal, and `Compact`, `Remove`, `Wipe` and `Close`. A step
ends at each operation on `appendMu`, `mu` or the scrub counter, and at each unmapping.
-/

namespace AmberStore.Packstore.Mappings

/-- A sealed segment that was mapped; two mappings are never the same. -/
structure Mapping where
  ptr : Nat
  id : Nat
  deriving DecidableEq

/-- The calls that begin with `appendMu`. -/
inductive Job where
  | append
  | compact
  | remove (id : Nat)
  | wipe
  | close

/-- The calls that take `mu.Lock` next, and look whether the store is closed. -/
def Job.removes : Job → Bool
  | .append | .compact => false
  | .remove _ | .wipe | .close => true

/-- Where the holder of `appendMu` is in `appendLocked`: it takes `mu` to publish a record or an active segment,
and to swap in a sealed one. -/
inductive Main where
  | free
  | publishing
  | sealing
  deriving DecidableEq

/-- Where the goroutines of `copyLive` are that look for live records and verify them. -/
inductive Pipe where
  | running
  /-- in `survivorHas` -/
  | probing (segs : List Mapping)
  | returned

/-- What a goroutine is doing. -/
inductive Pc where
  | idle
  /-- a read, with `mu.RLock` -/
  | reading (segs : List Mapping)
  /-- a read or a walk of a closed store, or of no such segment, with `mu.RLock` -/
  | leaving
  /-- a walk before it is counted, with `mu.RLock` -/
  | found (segs : List Mapping)
  /-- a walk that is counted, with `mu.RLock` -/
  | pinned (segs : List Mapping)
  | walking (segs : List Mapping)
  /-- from here on with `appendMu` -/
  | locked (job : Job)
  /-- has read `closed`, with `mu.RLock` -/
  | checking (compact closed : Bool)
  | writing (compact : Bool) (main : Main)
  /-- `selectVictims`, with `mu.RLock` -/
  | listing (segs : List Mapping)
  | selecting (segs : List Mapping)
  | copying (victims : List Mapping) (main : Main) (pipe : Pipe)
  /-- has taken segments off the probe list, with `mu.Lock`; `keep` if it goes on with `appendMu` -/
  | detached (segs : List Mapping) (keep : Bool)
  /-- `Remove` after it has let go of `mu` -/
  | unlocking (segs : List Mapping)
  /-- in `waitScrubs` -/
  | waiting (segs : List Mapping) (keep : Bool)
  | unmapping (segs : List Mapping) (keep : Bool)
  /-- `Close`, with `mu.Lock` -/
  | closing
  | closeWaiting
  | closeUnmapping (segs : List Mapping)
  /-- finds the store closed or no such segment, with `mu.Lock` -/
  | refused
  | returning

structure Sys where
  sealed : List Mapping
  closed : Bool
  scrubN : Nat
  /-- the next mapping -/
  next : Nat
  unmapped : List Mapping
  procs : Nat → Pc

/-- The mappings a running call has obtained and may read. -/
def Pc.obtained : Pc → List Mapping
  | .reading segs | .found segs | .pinned segs | .walking segs | .listing segs | .selecting segs => segs
  | .copying victims _ (.probing segs) => victims ++ segs
  | .copying victims _ _ => victims
  | _ => []

def Pc.holdsAppendMu : Pc → Bool
  | .idle | .reading _ | .leaving | .found _ | .pinned _ | .walking _ => false
  | .waiting _ keep | .unmapping _ keep => keep
  | _ => true

/-- With `mu.RLock`. -/
def Pc.sharesMu : Pc → Bool
  | .reading _ | .leaving | .found _ | .pinned _ | .checking _ _ | .listing _ | .copying _ _ (.probing _) => true
  | _ => false

/-- With `mu.Lock`. -/
def Pc.holdsMu : Pc → Bool
  | .writing _ main | .copying _ main _ => main != .free
  | .detached _ _ | .closing | .refused => true
  | _ => false

namespace Sys

/-- `appendMu` can be taken. -/
def AppendFree (s : Sys) : Prop := ∀ j, (s.procs j).holdsAppendMu = false

/-- `mu` can be taken for reading. -/
def ReadFree (s : Sys) : Prop := ∀ j, (s.procs j).holdsMu = false

/-- `mu` can be taken for writing. -/
def Free (s : Sys) : Prop := ∀ j, (s.procs j).sharesMu = false ∧ (s.procs j).holdsMu = false

def set (s : Sys) (i : Nat) (pc : Pc) : Sys := { s with procs := Function.update s.procs i pc }

/-- The swap at the end of a seal. -/
def push (s : Sys) (id : Nat) : Sys := { s with sealed := s.sealed ++ [⟨s.next, id⟩], next := s.next + 1 }

end Sys

/-- `removeVictims` keeps the segments with the id of no victim. -/
def survivors (sealed victims : List Mapping) : List Mapping :=
  sealed.filter fun g => g.id ∉ victims.map Mapping.id

/-- The segments a walk is on: a snapshot of the list, or the first one with an id. -/
def Found (sealed segs : List Mapping) : Prop :=
  segs = sealed ∨ ∃ id g, sealed.find? (fun g => g.id == id) = some g ∧ segs = [g]

inductive Step (s : Sys) : Sys → Prop
  -- Get, Has, GetRecord, StoredSize
  | read : s.procs i = .idle → s.ReadFree → s.closed = false → Step s (s.set i (.reading s.sealed))
  | readDone : s.procs i = .reading segs → Step s (s.set i .idle)
  | shut : s.procs i = .idle → s.ReadFree → s.closed = true → Step s (s.set i .leaving)
  | leave : s.procs i = .leaving → Step s (s.set i .idle)
  -- Verify, ScanIndex, Record
  | find : s.procs i = .idle → s.ReadFree → s.closed = false → Found s.sealed segs → Step s (s.set i (.found segs))
  | unknown : s.procs i = .idle → s.ReadFree → s.closed = false → s.sealed.find? (fun g => g.id == n) = none →
    Step s (s.set i .leaving)
  | beginScrub : s.procs i = .found segs → Step s { s.set i (.pinned segs) with scrubN := s.scrubN + 1 }
  | walk : s.procs i = .pinned segs → Step s (s.set i (.walking segs))
  | endScrub : s.procs i = .walking segs → Step s { s.set i .idle with scrubN := s.scrubN - 1 }
  -- the write path
  | lock : s.procs i = .idle → s.AppendFree → Step s (s.set i (.locked job))
  | checkAppend : s.procs i = .locked .append → s.ReadFree → Step s (s.set i (.checking false s.closed))
  | checkCompact : s.procs i = .locked .compact → s.ReadFree → Step s (s.set i (.checking true s.closed))
  | checkedClosed : s.procs i = .checking compact true → Step s (s.set i .returning)
  | checked : s.procs i = .checking compact false → Step s (s.set i (.writing compact .free))
  | publish : s.procs i = .writing compact .free → s.Free → Step s (s.set i (.writing compact .publishing))
  | swap : s.procs i = .writing compact .free → s.Free → Step s ((s.push n).set i (.writing compact .sealing))
  | unlock : s.procs i = .writing compact main → main ≠ .free → Step s (s.set i (.writing compact .free))
  | written : s.procs i = .writing compact .free → Step s (s.set i .idle)
  -- Compact
  | list : s.procs i = .writing true .free → s.ReadFree → Step s (s.set i (.listing s.sealed))
  | listed : s.procs i = .listing segs → Step s (s.set i (.selecting segs))
  | noVictims : s.procs i = .selecting segs → Step s (s.set i .idle)
  | copy : s.procs i = .selecting segs → victims.Sublist segs → Step s (s.set i (.copying victims .free .running))
  | probe : s.procs i = .copying victims main .running → s.ReadFree →
    Step s (s.set i (.copying victims main (.probing s.sealed)))
  | probed : s.procs i = .copying victims main (.probing segs) → Step s (s.set i (.copying victims main .running))
  | piped : s.procs i = .copying victims main .running → Step s (s.set i (.copying victims main .returned))
  | copyPublish : s.procs i = .copying victims .free pipe → s.Free →
    Step s (s.set i (.copying victims .publishing pipe))
  | copySwap : s.procs i = .copying victims .free pipe → s.Free →
    Step s ((s.push n).set i (.copying victims .sealing pipe))
  | copyUnlock : s.procs i = .copying victims main pipe → main ≠ .free →
    Step s (s.set i (.copying victims .free pipe))
  | copyFailed : s.procs i = .copying victims .free .returned → Step s (s.set i .idle)
  | removeVictims : s.procs i = .copying victims .free .returned → s.Free →
    Step s { s.set i (.detached victims true) with sealed := survivors s.sealed victims }
  -- Remove, Wipe
  | refuse : s.procs i = .locked job → job.removes → s.Free → s.closed = true → Step s (s.set i .refused)
  | removeUnknown : s.procs i = .locked (.remove n) → s.Free → s.sealed.find? (fun g => g.id == n) = none →
    Step s (s.set i .refused)
  | refused : s.procs i = .refused → Step s (s.set i .returning)
  | returned : s.procs i = .returning → Step s (s.set i .idle)
  | remove : s.procs i = .locked (.remove n) → s.Free → s.closed = false →
    s.sealed.find? (fun g => g.id == n) = some g →
    Step s { s.set i (.detached [g] false) with sealed := s.sealed.eraseP fun g => g.id == n }
  | wipe : s.procs i = .locked .wipe → s.Free → s.closed = false →
    Step s { s.set i (.detached s.sealed true) with sealed := [] }
  | wait : s.procs i = .detached segs true → Step s (s.set i (.waiting segs true))
  | removeUnlock : s.procs i = .detached segs false → Step s (s.set i (.unlocking segs))
  | removeWait : s.procs i = .unlocking segs → Step s (s.set i (.waiting segs false))
  | drained : s.procs i = .waiting segs keep → s.scrubN = 0 → Step s (s.set i (.unmapping segs keep))
  | unmap : s.procs i = .unmapping (g :: segs) keep →
    Step s { s.set i (.unmapping segs keep) with unmapped := g :: s.unmapped }
  | unmapped : s.procs i = .unmapping [] keep → Step s (s.set i .idle)
  -- Close
  | close : s.procs i = .locked .close → s.Free → s.closed = false → Step s { s.set i .closing with closed := true }
  | closeWait : s.procs i = .closing → Step s (s.set i .closeWaiting)
  | closeDrained : s.procs i = .closeWaiting → s.scrubN = 0 → Step s (s.set i (.closeUnmapping s.sealed))
  | closeUnmap : s.procs i = .closeUnmapping (g :: segs) →
    Step s { s.set i (.closeUnmapping segs) with unmapped := g :: s.unmapped }
  | closed : s.procs i = .closeUnmapping [] → Step s { s.set i .idle with sealed := [] }

/-- A store after `Open`. -/
structure Opened (s : Sys) : Prop where
  nodup : s.sealed.Nodup
  next : ∀ g ∈ s.sealed, g.ptr < s.next
  opened : s.closed = false
  scrubs : s.scrubN = 0
  mapped : s.unmapped = []
  idle : ∀ i, s.procs i = .idle

end AmberStore.Packstore.Mappings
