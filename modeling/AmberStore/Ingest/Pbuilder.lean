import AmberStore.Ingest.Emission
import AmberStore.Lib.System
import Mathlib.Algebra.Order.Group.Multiset
import Mathlib.Tactic.Abel

/-!
# The parallel builder

A directory is built from the entries of its children, each built on a goroutine of its own while the
pool has room and inline when it has none. Once all are there the directory is assembled in the
order of the names. The state of a build is the tree of the jobs that were started; a step is one of
any job, and the slots of the pool are counted.
-/

namespace AmberStore.Ingest
open Amberpack Fstree Cborx Except

/-- A job builds the entry of a file, or a directory. -/
inductive JobKind where
  | entry
  | dir

/-- How a job of a directory runs: on the goroutine of the directory, on a goroutine that has a slot
of the pool, or on one that has given its slot back. -/
inductive Mode where
  | inline
  | worker
  | returned
  deriving DecidableEq

/-- The state of a job. Where it emits objects, those left are in the list. -/
inductive Job (M : Type) : JobKind → Type
  | todo (ign : M) (n : Node) : Job M .entry
  | emitting (left : List Object) (r : Except FsError Entry) : Job M .entry
  | subdir (name : Bytes) (info : Metadata) (dir : Job M .dir) : Job M .entry
  | building (ign : M) (started : List (Mode × Job M .entry)) (rest : List Node) : Job M .dir
  | assembling (db : DirBuilder) (left : List Object) (results : List (Except FsError Entry)) :
    Job M .dir
  | closing (left : List Object) (r : Except FsError Key) : Job M .dir

section Machine
variable (H : Blake3) (C : Cbor) (d : Driver) {M : Type} (matcher : Matcher M)

/-- The children that are not ignored. -/
def kept (ign : M) (children : List Node) : List Node :=
  children.filter fun n => !matcher.ignored ign n.name (decide (fileType n.info.mode = .directory))

/-- The entry of a directory that was built. -/
def dirEntry (name : Bytes) (info : Metadata) (root : Key) : Except FsError (Entry × List Object) :=
  addXattrs H d info.xattrs { bareEntry name info with contentKey := root.bytes }

/-- A job that has all its objects and emits them. -/
def Job.ofResult : Except FsError (Entry × List Object) → Job M .entry
  | .ok (e, objs) => .emitting objs (.ok e)
  | .error err => .emitting [] (.error err)

/-- The loop of a directory goes on when the job it runs inline has ended. -/
def Free (started : List (Mode × Job M .entry)) : Prop :=
  ∀ j, started.getLast? = some (.inline, j) → ∃ r, j = .emitting [] r

/-- The results of jobs that have all ended, with their slots given back. -/
inductive Ended : List (Mode × Job M .entry) → List (Except FsError Entry) → Prop
  | nil : Ended [] []
  | cons : m ≠ .worker → Ended js rs → Ended ((m, .emitting [] r) :: js) (r :: rs)

/-- A step of a job: the slots taken before and after, and the object it emits, if any. -/
inductive Step (cap : Nat) : {κ : JobKind} → Nat → Job M κ → Option Object → Nat → Job M κ → Prop
  | file {n : Node} : fileType n.info.mode ≠ .directory →
    Step cap k (.todo ign n) none k (.ofResult (buildEntry H C d matcher ign n))
  | descend : fileType info.mode = .directory → matcher.descend ign name = .ok sub →
    Step cap k (.todo ign (.mk name info content children)) none k
      (.subdir name info (.building sub [] (kept matcher sub children)))
  | descendError : fileType info.mode = .directory → matcher.descend ign name = .error e →
    Step cap k (.todo ign (.mk name info content children)) none k (.emitting [] (.error e))
  | emit : Step cap k (.emitting (o :: left) r) (some o) k (.emitting left r)
  | subdir : Step cap k dir o k' dir' → Step cap k (.subdir name info dir) o k' (.subdir name info dir')
  | subdirDone : Step cap k (.subdir name info (.closing [] r)) none k
      (.ofResult (r.bind (dirEntry H d name info)))
  -- a slot is taken when there is room, and the work is done inline when there is none
  | spawn : Free started → k < cap → Step cap k (.building ign started (n :: rest)) none (k + 1)
      (.building ign (started ++ [(.worker, .todo ign n)]) rest)
  | inline : Free started → ¬k < cap → Step cap k (.building ign started (n :: rest)) none k
      (.building ign (started ++ [(.inline, .todo ign n)]) rest)
  | inner : Step cap k j o k' j' → Step cap k (.building ign (before ++ (m, j) :: after) rest) o k'
      (.building ign (before ++ (m, j') :: after) rest)
  | release : Step cap (k + 1) (.building ign (before ++ (.worker, .emitting [] r) :: after) rest) none
      k (.building ign (before ++ (.returned, .emitting [] r) :: after) rest)
  | wait : Ended started results → Step cap k (.building ign started []) none k
      (.assembling .new [] results)
  | assembleEmit : Step cap k (.assembling db (o :: left) results) (some o) k
      (.assembling db left results)
  | assembleError : Step cap k (.assembling db [] (.error e :: results)) none k (.closing [] (.error e))
  | addEntry {db : DirBuilder} : db.addEntry H C d.ic e = .ok (db', objs) →
    Step cap k (.assembling db [] (.ok e :: results)) none k (.assembling db' objs results)
  | addEntryError {db : DirBuilder} : db.addEntry H C d.ic e = .error err →
    Step cap k (.assembling db [] (.ok e :: results)) none k (.closing [] (.error err))
  | finish {db : DirBuilder} : db.finish H C d.ic = .ok (root, objs) →
    Step cap k (.assembling db [] []) none k (.closing objs (.ok root))
  | finishError {db : DirBuilder} : db.finish H C d.ic = .error err →
    Step cap k (.assembling db [] []) none k (.closing [] (.error err))
  | closeEmit : Step cap k (.closing (o :: left) r) (some o) k (.closing left r)

/-- A build: the slots taken, the job of the root, and the objects emitted so far. -/
structure Build (M : Type) where
  sem : Nat
  job : Job M .dir
  emitted : List Object

def Build.start (ign : M) (children : List Node) : Build M :=
  ⟨0, .building ign [] (kept matcher ign children), []⟩

/-- One step of a build with so many slots. -/
inductive Build.Next (cap : Nat) (b : Build M) : Build M → Prop
  | mk : Step H C d matcher cap b.sem b.job o k j → Next cap b ⟨k, j, b.emitted ++ o.toList⟩

end Machine

/-! ## Assembling a directory -/

section Assemble
variable (H : Blake3) (C : Cbor) (d : Driver) {M : Type} (matcher : Matcher M)

/-- Put objects before those of a computation. -/
def prepend (objs : List Object) (x : Except FsError (α × List Object)) :
    Except FsError (α × List Object) :=
  x.map fun p => (p.1, objs ++ p.2)

/-- Add the entries in order, up to the first that failed, and close the directory. -/
def assemble (db : DirBuilder) : List (Except FsError Entry) → Except FsError (Key × List Object)
  | [] => db.finish H C d.ic
  | .error e :: _ => .error e
  | .ok e :: rs => do
    let (db, objs) ← db.addEntry H C d.ic e
    prepend objs (assemble db rs)

/-- The results of the children that are not ignored. -/
def results (ign : M) (children : List Node) : List (Except FsError Entry) :=
  (kept matcher ign children).map fun n => (buildEntry H C d matcher ign n).map Prod.fst

variable {H C d matcher}

@[simp] theorem prepend_nil (x : Except FsError (α × List Object)) : prepend [] x = x := by
  cases x <;> rfl

@[simp] theorem prepend_ok : prepend objs (.ok (a, objs')) = .ok (a, objs ++ objs') := rfl

@[simp] theorem prepend_result (objs : List Object) (x : Except FsError (α × List Object)) :
    (prepend objs x).map Prod.fst = x.map Prod.fst := by
  cases x <;> rfl

theorem prepend_eq_ok {x : Except FsError (α × List Object)} (h : prepend objs x = .ok (a, all)) :
    ∃ objs', x = .ok (a, objs') ∧ all = objs ++ objs' := by
  cases x with
  | error e => cases h
  | ok p =>
    cases h
    exact ⟨p.2, rfl, rfl⟩

theorem prepend_prepend (objs objs' : List Object) (x : Except FsError (α × List Object)) :
    prepend objs (prepend objs' x) = prepend (objs ++ objs') x := by
  cases x with
  | error e => rfl
  | ok p => rw [prepend_ok, prepend_ok, prepend_ok, List.append_assoc]

/-- What comes out is what a computation still has to do: the same result, and the objects it has not
emitted yet. -/
structure Agrees (want : Except FsError (α × List Object)) (out : Multiset Object)
    (rest : Except FsError (α × List Object)) : Prop where
  result : want.map Prod.fst = rest.map Prod.fst
  objects : ∀ a objs, want = .ok (a, objs) → ∃ objs', rest = .ok (a, objs') ∧ out + objs' = objs

theorem Agrees.refl (want : Except FsError (α × List Object)) : Agrees want 0 want :=
  ⟨rfl, fun _ objs h => ⟨objs, h, zero_add _⟩⟩

theorem Agrees.emit (h : Agrees want out (prepend (o :: left) rest)) :
    Agrees want (out + ↑(some o).toList) (prepend left rest) := by
  cases rest with
  | error e =>
    refine ⟨h.result, fun a objs hw => ?_⟩
    obtain ⟨objs', hnone, -⟩ := h.objects a objs hw
    cases hnone
  | ok p =>
    refine ⟨h.result, fun a objs hw => ?_⟩
    obtain ⟨objs', heq, hsum⟩ := h.objects a objs hw
    cases heq
    refine ⟨_, rfl, ?_⟩
    rw [← hsum, add_assoc]
    rfl

theorem finishDir_eq (db : DirBuilder) (objs : List Object) :
    finishDir H C d (db, objs) = prepend objs (db.finish H C d.ic) := by
  cases hf : db.finish H C d.ic with
  | error e => rw [finishDir, hf]; rfl
  | ok p => rw [finishDir, hf]; rfl

theorem addNodes_keep (hkeep : ¬matcher.ignored ign n.name (decide (fileType n.info.mode = .directory)) =
      true) (db : DirBuilder) :
    (addNodes H C d matcher ign db (n :: ns) >>= finishDir H C d) = (do
      let (e, objs) ← buildEntry H C d matcher ign n
      let (db, objs') ← db.addEntry H C d.ic e
      prepend (objs ++ objs') (addNodes H C d matcher ign db ns >>= finishDir H C d)) := by
  rw [addNodes, if_neg hkeep]
  cases buildEntry H C d matcher ign n with
  | error e => rfl
  | ok p =>
    obtain ⟨e, objs⟩ := p
    simp only [bind, Except.bind]
    cases db.addEntry H C d.ic e with
    | error e => rfl
    | ok q =>
      obtain ⟨db', objs'⟩ := q
      dsimp only
      cases addNodes H C d matcher ign db' ns with
      | error e => rfl
      | ok q =>
        obtain ⟨db'', objs''⟩ := q
        simp only [pure, Except.pure, finishDir_eq, prepend_prepend]

/-- The sequential walk and the assembly: the same result, and the objects of the walk are those of
the entries and those of the assembly. -/
theorem addNodes_assemble (ign : M) (ns : List Node) (db : DirBuilder) :
    (addNodes H C d matcher ign db ns >>= finishDir H C d).map Prod.fst =
        (assemble H C d db (results H C d matcher ign ns)).map Prod.fst ∧
      ∀ root objs, (addNodes H C d matcher ign db ns >>= finishDir H C d) = .ok (root, objs) →
        ∃ outs objs', List.Forall₂ (fun n out => ∃ e, buildEntry H C d matcher ign n = .ok (e, out))
            (kept matcher ign ns) outs ∧
          assemble H C d db (results H C d matcher ign ns) = .ok (root, objs') ∧
          (outs.flatten : Multiset Object) + objs' = objs := by
  induction ns generalizing db with
  | nil =>
    have hnil : (addNodes H C d matcher ign db [] >>= finishDir H C d) = db.finish H C d.ic := by
      rw [addNodes]
      exact (finishDir_eq db []).trans (prepend_nil _)
    rw [hnil]
    exact ⟨rfl, fun root objs h => ⟨[], objs, .nil, h, zero_add _⟩⟩
  | cons n ns ih =>
    by_cases hkeep : matcher.ignored ign n.name (decide (fileType n.info.mode = .directory)) = true
    · have hkept : kept matcher ign (n :: ns) = kept matcher ign ns := by simp [kept, hkeep]
      have hsame : addNodes H C d matcher ign db (n :: ns) = addNodes H C d matcher ign db ns := by
        rw [addNodes, if_pos hkeep]
      rw [results, hkept, hsame]
      exact ih db
    · have hkept : kept matcher ign (n :: ns) = n :: kept matcher ign ns := by simp [kept, hkeep]
      have hcons : results H C d matcher ign (n :: ns) =
          (buildEntry H C d matcher ign n).map Prod.fst :: results H C d matcher ign ns := by
        rw [results, hkept]
        rfl
      rw [hkept, hcons]
      cases hentry : buildEntry H C d matcher ign n with
      | error e =>
        rw [addNodes_keep hkeep, hentry]
        exact ⟨rfl, nofun⟩
      | ok p =>
        obtain ⟨e, out⟩ := p
        cases hadd : db.addEntry H C d.ic e with
        | error err =>
          have hwalk : (addNodes H C d matcher ign db (n :: ns) >>= finishDir H C d) = .error err := by
            rw [addNodes_keep hkeep]
            exact (bind_ok hentry).trans (bind_error hadd)
          have hasm : assemble H C d db (.ok e :: results H C d matcher ign ns) = .error err :=
            bind_error hadd
          rw [hwalk]
          exact ⟨congrArg _ hasm.symm, nofun⟩
        | ok q =>
          obtain ⟨db', objs₁⟩ := q
          have hwalk : (addNodes H C d matcher ign db (n :: ns) >>= finishDir H C d) =
              prepend (out ++ objs₁) (addNodes H C d matcher ign db' ns >>= finishDir H C d) := by
            rw [addNodes_keep hkeep]
            exact (bind_ok hentry).trans (bind_ok hadd)
          have hasm : assemble H C d db (.ok e :: results H C d matcher ign ns) =
              prepend objs₁ (assemble H C d db' (results H C d matcher ign ns)) :=
            bind_ok hadd
          obtain ⟨hresult, hobjects⟩ := ih db'
          rw [hwalk]
          refine ⟨?_, fun root objs h => ?_⟩
          · rw [prepend_result, hresult]
            exact (congrArg _ hasm).trans (prepend_result ..) |>.symm
          · obtain ⟨objs₂, hrest, rfl⟩ := prepend_eq_ok h
            obtain ⟨outs, objs', houts, hdb', hsum⟩ := hobjects root objs₂ hrest
            refine ⟨out :: outs, objs₁ ++ objs', .cons ⟨e, hentry⟩ houts, hasm.trans ?_, ?_⟩
            · rw [hdb', prepend_ok]
            · rw [List.flatten_cons, ← Multiset.coe_add, ← Multiset.coe_add, ← Multiset.coe_add,
                ← Multiset.coe_add, ← hsum]
              abel

end Assemble

end AmberStore.Ingest
