import AmberStore.Lib.System
import AmberStore.Packstore.Compact
import AmberStore.Packstore.AppendSpec

/-!
# Sessions

Runs of a store through `Open`, its operations and `Close`, which a kill of the process can stop at
any point. What holds at every point of a run follows from what the steps of the write path keep:
`Steady` lists these steps, and the operations made of them keep what they keep.
-/

namespace AmberStore.Packstore
open Bytes Amberpack Act List

/-! ## Operations made of the steps of the write path -/

/-- The write path accepts records. -/
def Store.Writable (s : Store) : Prop := s.closed = false ∧ s.failed = none

/-- What the write path looks at is the same. -/
def Store.SameWrites (s s' : Store) : Prop :=
  s'.active = s.active ∧ s'.closed = s.closed ∧ s'.failed = s.failed

/-- `I` holds at every point and `J` between the steps of the write path. -/
structure Steady (F : FuseLib) (I J : World → Prop) : Prop where
  point : J w → I w
  store {s : Store} : J w → w.s.SameWrites s → J { w with s := s }
  idle : J w → J { w with ioFaults := w.ioFaults.tail }
  create : J w → w.s.Writable → w.s.active = none → createActive.Wp I
    (Post (fun a w' => J w' ∧ w'.s.Writable ∧ w'.s.active = some a) fun _ => J) w
  write {k : Key} {rec : Bytes} : J w → w.s.Writable → w.s.active = some a →
    (writeRecord a k rec).Wp I
      (Post (fun a' w' => J w' ∧ w'.s.Writable ∧ w'.s.active = some a') fun _ => J) w
  fsync : J w → w.s.active = some a →
    (orPoison (fsync a.ino)).Wp I (Post (fun _ w' => J w' ∧ w'.s = w.s) fun _ => J) w
  sealActive : J w → w.s.Writable → (orPoison (sealActiveLocked F)).Wp I (fun _ => J) w
  syncDir : Keeps I J syncDir
  removeSealed (id : Nat) : Keeps I J (remove (.sealed id))

/-! ### Small steps -/

section Keeps
variable {I J : World → Prop}

theorem keeps_getStore : Keeps I J getStore := keeps_read.bind fun _ => keeps_pure _

theorem keeps_reading (f : FS Name → Store → Except Err α) : Keeps I J (reading f) := by
  refine keeps_read.bind fun w => ?_
  cases f w.fs w.s with
  | error e => exact keeps_throw e
  | ok a => exact keeps_pure a

theorem keeps_encode (Z : Zstd) (o : Object) : Keeps I J (encode Z o) := by
  unfold encode
  cases encodeRecord Z o.key o.data with
  | error e => exact keeps_throw _
  | ok rec => exact keeps_pure rec

theorem keeps_runIf {c : Prop} [Decidable c] {m : M Unit} (h : Keeps I J m) :
    Keeps I J (runIf c m) := keeps_ite h (keeps_pure ())

theorem keeps_allThenFail_go {ms : List (M Unit)} (h : ∀ m ∈ ms, Keeps I J m)
    (first : Option Err) : Keeps I J (allThenFail.go first ms) := by
  induction ms generalizing first with
  | nil =>
    cases first with
    | none => exact keeps_pure ()
    | some e => exact keeps_throw e
  | cons m ms ih =>
    refine (h m mem_cons_self).attempt.bind fun r => ?_
    cases r with
    | error e => exact ih (fun m' hm' => h m' (mem_cons_of_mem _ hm')) _
    | ok a => exact ih (fun m' hm' => h m' (mem_cons_of_mem _ hm')) _

theorem keeps_allThenFail {ms : List (M Unit)} (h : ∀ m ∈ ms, Keeps I J m) :
    Keeps I J (allThenFail ms) := keeps_allThenFail_go h none

theorem keeps_deletes (active : Option ActiveSegment) (segs : List SealedSegment) (sync : Bool)
    (hclose : Keeps I J closeFile) (hsealed : ∀ id, Keeps I J (remove (.sealed id)))
    (hsync : Keeps I J syncDir) : (∀ a, active = some a → Keeps I J (remove (.active a.id))) →
    ∀ m ∈ (match active with
        | none => []
        | some a => [closeFile, remove (.active a.id)]) ++
      segs.flatMap (fun g => [closeFile, remove (.sealed g.id)]) ++ if sync then [syncDir] else [],
    Keeps I J m := by
  intro hactive m hm
  rcases mem_append.mp hm with hm | hm
  · rcases mem_append.mp hm with hm | hm
    · cases active with
      | none => cases hm
      | some a =>
        rcases mem_pair.mp hm with rfl | rfl
        · exact hclose
        · exact hactive a rfl
    · obtain ⟨g, _, hm⟩ := mem_flatMap.mp hm
      rcases mem_pair.mp hm with rfl | rfl
      · exact hclose
      · exact hsealed g.id
  · split at hm
    · obtain rfl := mem_singleton.mp hm
      exact hsync
    · cases hm

theorem keeps_close_of {w : World} {J' : World → Prop} (hsync : ∀ ino, Keeps I J' (fsync ino))
    (hclose : Keeps I J' closeFile) (hw : J w)
    (hshut : J' { w with s := { w.s with closed := true, active := none, sealed := [] } })
    (hJ : ∀ w, J' w → J w) : close.Wp I (fun _ => J) w := by
  unfold close
  simp only [wp_bind, wp_getStore, post_ok]
  refine wp_ite (fun _ => .pure hw) fun _ => ?_
  simp only [wp_bind, wp_setStore, post_ok]
  refine (keeps_allThenFail (fun m hm => ?_) _ hshut).post_mono fun _ => hJ
  rcases mem_append.mp hm with hm | hm
  · rcases mem_append.mp hm with hm | hm
    · cases ha : w.s.active with
      | none => rw [ha] at hm; cases hm
      | some a =>
        rw [ha] at hm
        rcases mem_pair.mp hm with rfl | rfl
        · exact hsync a.ino
        · exact hclose
    · obtain ⟨g, _, rfl⟩ := mem_map.mp hm
      exact hclose
  · obtain rfl := mem_singleton.mp hm
    exact hclose

end Keeps

/-! ### The write path -/

namespace Steady
variable {F : FuseLib} {I J : World → Prop}

section
variable (hs : Steady F I J)
include hs

theorem setStore {f : Store → Store} (h : ∀ s : Store, s.SameWrites (f s)) :
    Keeps I J (setStore f) :=
  fun _ hw => wp_setStore.mpr (hs.store hw (h _))

theorem idleOp : Keeps I J (ioOp id fun _ fs => fs) := by
  intro w hw
  have h := hs.idle hw
  unfold ioOp
  simp only [wp_bind, wp_read, post_ok]
  cases w.ioFaults.head?.join with
  | none => exact wp_step.mpr ⟨hs.point h, h⟩
  | some n =>
    simp only [wp_bind, wp_step, post_ok, wp_throw]
    exact ⟨hs.point h, h⟩

theorem closeFile : Keeps I J closeFile := hs.idleOp

theorem stat (n : Name) : Keeps I J (stat n) := by
  refine keeps_read.bind fun w => ?_
  cases FS.lookup w.fs.cur n with
  | none => exact keeps_throw _
  | some i => exact hs.idleOp

/-! ### Appends -/

omit hs in
theorem checkWritable (hw : J w) :
    checkWritable.Wp I (Post (fun _ w' => J w' ∧ w'.s.Writable ∧ w' = w) fun _ => J) w := by
  unfold Packstore.checkWritable
  simp only [wp_bind, wp_getStore, post_ok]
  cases hc : w.s.closed with
  | true => exact .throw hw
  | false =>
    cases hf : w.s.failed with
    | none => exact .pure ⟨hw, ⟨hc, hf⟩, rfl⟩
    | some e => exact .throw hw

theorem activeSegment (hw : J w) (hwr : w.s.Writable) : activeSegment.Wp I
    (Post (fun a w' => J w' ∧ w'.s.Writable ∧ w'.s.active = some a) fun _ => J) w := by
  unfold Packstore.activeSegment
  simp only [wp_bind, wp_getStore, post_ok]
  cases ha : w.s.active with
  | none => exact hs.create hw hwr ha
  | some a => exact .pure ⟨hw, hwr, ha⟩

theorem claim (hw : J w) (k : Key) : (claim k).Wp I (Post (fun r w' => J w' ∧
    ∀ a, r = some a → w'.s.Writable ∧ w'.s.active = some a) fun _ => J) w := by
  refine (checkWritable hw).bind (fun _ t ht => ?_) fun _ _ ht => ht
  refine (hs.activeSegment ht.1 ht.2.1).bind (fun a u hu => .pure ⟨hu.1, ?_⟩) fun _ _ hu => hu
  intro b hb
  split at hb
  · cases hb
  · cases hb
    exact hu.2

theorem fsyncRecord (hw : J w) (ha : w.s.active = some a) (syncNow : Bool) :
    (fsyncRecord a syncNow).Wp I (Post (fun _ w' => J w' ∧ w'.s = w.s) fun _ => J) w := by
  unfold Packstore.fsyncRecord
  simp only [wp_bind, wp_getStore, post_ok]
  exact wp_runIf (fun _ => hs.fsync hw ha) fun _ => ⟨hw, rfl⟩

theorem rotate (hw : J w) (hwr : w.s.Writable) (a : ActiveSegment) :
    (rotate F a).Wp I (fun _ => J) w := by
  unfold Packstore.rotate
  simp only [wp_bind, wp_getStore, post_ok]
  exact wp_runIf (fun _ => hs.sealActive hw hwr) fun _ => hw

theorem appendTo (hw : J w) (hwr : w.s.Writable) (ha : w.s.active = some a) (k : Key) (rec : Bytes)
    (syncNow : Bool) : (appendTo F a k rec syncNow).Wp I (fun _ => J) w := by
  refine (hs.write hw hwr ha).bind (fun a' t ht => ?_) fun _ _ ht => ht
  refine (hs.fsyncRecord ht.1 ht.2.2 syncNow).bind (fun _ u hu => ?_) fun _ _ hu => hu
  exact hs.rotate hu.1 (hu.2 ▸ ht.2.1) a'

theorem appendLocked (k : Key) (rec : Bytes) (syncNow : Bool) :
    Keeps I J (appendLocked F k rec syncNow) := by
  intro w hw
  refine (hs.claim hw k).bind (fun r t ht => ?_) fun _ _ ht => ht
  cases r with
  | none => exact .pure ht.1
  | some a =>
    obtain ⟨hwr, ha⟩ := ht.2 a rfl
    exact hs.appendTo ht.1 hwr ha k rec syncNow

theorem fsync_active (hw : J w) (ha : w.s.active = some a) :
    (orPoison (Packstore.fsync a.ino)).Wp I (fun _ => J) w := by
  refine (hs.fsync hw ha).post_mono fun r t ht => ?_
  cases r with
  | error e => exact ht
  | ok _ => exact ht.1

theorem syncActive : Keeps I J syncActive := by
  intro w hw
  refine (checkWritable hw).bind (fun _ t ht => ?_) fun _ _ ht => ht
  simp only [wp_bind, wp_getStore, post_ok]
  refine wp_ite (fun _ => .pure ht.1) fun _ => ?_
  cases ha : t.s.active with
  | none => exact .pure ht.1
  | some a => exact hs.fsync_active ht.1 ha

/-! ### Put and WriteBatch -/

theorem writeObject (Z : Zstd) (o : Object) (syncNow : Bool) :
    Keeps I J (writeObject Z F o syncNow) := by
  refine Keeps.bind (hs.setStore ?_) fun _ => ?_
  · exact fun _ => ⟨rfl, rfl, rfl⟩
  refine (keeps_reading _).bind fun b => keeps_ite (keeps_pure _) ?_
  exact (keeps_encode Z o).bind fun rec => (hs.appendLocked _ _ _).bind fun _ => keeps_pure _

theorem put (Z : Zstd) (k : Key) (data : Bytes) : Keeps I J (put Z F k data) := by
  refine keeps_getStore.bind fun s => ?_
  cases s.failed with
  | some e => exact keeps_throw e
  | none => exact (hs.writeObject Z _ true).bind fun _ => keeps_pure _

theorem failBatch (appended : Bool) (e : Err) : Keeps I J (failBatch appended e) :=
  (keeps_runIf (hs.syncActive.attempt.bind fun _ => keeps_pure _)).bind fun _ => keeps_throw e

theorem writeBatchLoop (Z : Zstd) (seen : List Key) (appended : Bool)
    (seq : List (Except Err Object)) : Keeps I J (writeBatchLoop Z F seen appended seq) := by
  induction seq generalizing seen appended with
  | nil => exact hs.syncActive
  | cons x seq ih =>
    cases x with
    | error e => exact hs.failBatch appended e
    | ok o =>
      refine keeps_ite (ih _ _) ((hs.writeObject Z o false).attempt.bind fun r => ?_)
      cases r with
      | error e => exact hs.failBatch appended e
      | ok b => exact ih _ _

theorem writeBatch (Z : Zstd) (seq : List (Except Err Object)) : Keeps I J (writeBatch Z F seq) :=
  hs.writeBatchLoop Z [] false seq

/-! ### Compact -/

theorem selectVictims (live : Key → Bool) (opts : CompactOpts) (segs : List SealedSegment) :
    Keeps I J (selectVictims live opts segs) := by
  induction segs with
  | nil => exact keeps_pure _
  | cons g segs ih =>
    have helig : Keeps I J (opts.eligible g) := by
      unfold CompactOpts.eligible
      cases opts.before with
      | none => exact keeps_pure _
      | some before => exact (hs.stat _).bind fun _ => keeps_pure _
    refine helig.attempt.bind fun r => ?_
    cases r with
    | error e => exact keeps_pure _
    | ok b => exact ih.bind fun _ => keeps_pure _

theorem pipeAppend (p : Pipe) : Keeps I J (p.append F) := by
  unfold Pipe.append
  cases p.verified with
  | nil => exact keeps_pure _
  | cons c verified =>
    refine keeps_ite (keeps_pure _) ((hs.appendLocked _ _ _).attempt.bind fun r => ?_)
    cases r with
    | error e => exact keeps_pure _
    | ok _ => exact keeps_pure _

theorem pipeRun (Z : Zstd) (H : Blake3) (live : Key → Bool) (victims : List Nat) (ts : List Turn)
    (p : Pipe) : Keeps I J (Pipe.run Z F H live victims ts p) := by
  induction ts generalizing p with
  | nil => exact keeps_pure _
  | cons t ts ih =>
    have hturn : Keeps I J (p.turn Z F H live victims t) := by
      cases t with
      | produce => exact keeps_getStore.bind fun _ => keeps_pure _
      | stop => exact keeps_pure _
      | verify i => exact keeps_pure _
      | drop i => exact keeps_pure _
      | append => exact hs.pipeAppend p
    exact hturn.bind ih

theorem syncCopies : Keeps I J syncCopies := by
  intro w hw
  unfold Packstore.syncCopies
  simp only [wp_bind, wp_getStore, post_ok]
  cases ha : w.s.active with
  | none => exact .pure hw
  | some a => exact wp_runIf (fun _ => hs.fsync_active hw ha) fun _ => hw

theorem removeVictims (victims : List SealedSegment) : Keeps I J (removeVictims victims) := by
  refine Keeps.bind (hs.setStore ?_) fun _ =>
    keeps_getStore.bind fun s => keeps_allThenFail ?_
  · exact fun _ => ⟨rfl, rfl, rfl⟩
  exact keeps_deletes none victims s.cfg.sync hs.closeFile hs.removeSealed hs.syncDir nofun

theorem rewriteVictims (Z : Zstd) (H : Blake3) (live : Key → Bool) (sched : List Turn)
    (victims : List SealedSegment) (stats : CompactStats) :
    Keeps I J (rewriteVictims Z F H live sched victims stats) := by
  refine Keeps.bind ((hs.pipeRun Z H live _ _ _).bind fun p => hs.pipeRun Z H live _ _ _) fun p => ?_
  cases p.appendErr <|> p.err with
  | some e => exact keeps_pure _
  | none =>
    refine hs.syncCopies.attempt.bind fun r => ?_
    cases r with
    | error e => exact keeps_pure _
    | ok _ =>
      refine (hs.removeVictims victims).attempt.bind fun r => ?_
      cases r with
      | error e => exact keeps_pure _
      | ok _ => exact keeps_pure _

theorem sealNow : Keeps I J (do Packstore.checkWritable; orPoison (sealActiveLocked F)) := by
  intro w hw
  refine (checkWritable hw).bind (fun _ t ht => ?_) fun _ _ ht => ht
  exact hs.sealActive ht.1 ht.2.1

theorem compact (Z : Zstd) (H : Blake3) (live : Key → Bool) (opts : CompactOpts)
    (sched : List Turn) : Keeps I J (compact Z F H live opts sched) := by
  have htake : Keeps I J takeGrey := by
    refine keeps_getStore.bind fun s => Keeps.bind (hs.setStore ?_) fun _ => keeps_pure _
    exact fun _ => ⟨rfl, rfl, rfl⟩
  refine htake.bind fun grey => hs.sealNow.attempt.bind fun r => ?_
  cases r with
  | error e => exact keeps_pure _
  | ok _ =>
    refine keeps_getStore.bind fun s => (hs.selectVictims _ _ _).bind fun p => ?_
    obtain ⟨victims, err⟩ := p
    cases err with
    | some e => exact keeps_pure _
    | none => exact keeps_ite (keeps_pure _) (hs.rewriteVictims Z H _ _ _ _)

end
end Steady

/-! ## Runs -/

inductive Call where
  | put (k : Key) (data : Bytes)
  | writeBatch (seq : List (Except Err Object))
  | compact (live : Key → Bool) (opts : CompactOpts) (sched : List Turn)
  | wipe
  | close
  | openDir (cfg : Config)

def Call.run (Z : Zstd) (F : FuseLib) (H : Blake3) : Call → M Unit
  | .put k data => Packstore.put Z F k data
  | .writeBatch seq => Packstore.writeBatch Z F seq
  | .compact live opts sched => do let _ ← Packstore.compact Z F H live opts sched
  | .wipe => Packstore.wipe
  | .close => Packstore.close
  | .openDir cfg => openStore cfg

/-- A directory and the process that has it open, if it is `up`. -/
structure Session where
  w : World
  up : Bool

/-- A directory is opened only when no store has it open, and other operations need a store, open or
closed. -/
def Session.accepts (σ : Session) : Call → Bool
  | .openDir _ => !σ.up || σ.w.s.closed
  | _ => σ.up

/-- Only a failed `Open` leaves no store. -/
def Call.leavesUp : Call → Except Err Unit → Bool
  | .openDir _, .error _ => false
  | _, _ => true

/-- An operation runs to its end, or a kill stops it before, between or after its file operations. -/
inductive SessionStep (Z : Zstd) (F : FuseLib) (H : Blake3) : Session → Call → Session → Prop
  | run {σ : Session} {op : Call} : σ.accepts op → SessionStep Z F H σ op
      ⟨(op.run Z F H σ.w).final, op.leavesUp (op.run Z F H σ.w).result⟩
  | kill {σ : Session} {op : Call} {w : World} : σ.accepts op →
      w ∈ σ.w :: (op.run Z F H σ.w).trace → SessionStep Z F H σ op ⟨w, false⟩

/-- The sessions that operations with `P` lead to. -/
abbrev Sessions (Z : Zstd) (F : FuseLib) (H : Blake3) (init : World → Prop) (P : World → Call → Prop) :
    Session → Prop :=
  Reach (fun σ => init σ.w ∧ σ.up = false) fun σ σ' => ∃ op, P σ.w op ∧ SessionStep Z F H σ op σ'

def Session.call (Z : Zstd) (F : FuseLib) (H : Blake3) (σ : Session) (c : Call) : Session :=
  ⟨(c.run Z F H σ.w).final, c.leavesUp (c.run Z F H σ.w).result⟩

/-- The calls can be made one after the other, each with `P`. -/
def Session.Accepts (Z : Zstd) (F : FuseLib) (H : Blake3) (P : World → Call → Prop) :
    Session → List Call → Prop
  | _, [] => True
  | σ, c :: cs => σ.accepts c = true ∧ P σ.w c ∧ (σ.call Z F H c).Accepts Z F H P cs

theorem Sessions.calls {init : World → Prop} {P : World → Call → Prop} {cs : List Call}
    (h : Sessions Z F H init P σ) (hcs : σ.Accepts Z F H P cs) :
    Sessions Z F H init P (cs.foldl (Session.call Z F H) σ) := by
  induction cs generalizing σ with
  | nil => exact h
  | cons c cs ih =>
    obtain ⟨hacc, hP, hcs⟩ := hcs
    exact ih (.next h ⟨c, hP, .run hacc⟩) hcs

/-- What holds at every point of a run, and of every store that is up. -/
theorem Steady.sessions {I J : World → Prop} {init : World → Prop} {P : World → Call → Prop}
    (hs : Steady F I J) (hinit : ∀ w, init w → I w)
    (hwipe : ∀ w, J w → P w .wipe → wipe.Wp I (fun _ => J) w) (hclose : Keeps I J close)
    (hopen : ∀ w cfg, I w → P w (.openDir cfg) →
      (openStore cfg).Wp I (Post (fun _ => J) fun _ => I) w)
    (h : Sessions Z F H init P σ) : I σ.w ∧ (σ.up = true → J σ.w) := by
  refine Reach.invariant (I := fun σ => I σ.w ∧ (σ.up = true → J σ.w)) h ?_ ?_
  · intro σ ⟨h0, hdown⟩
    refine ⟨hinit _ h0, fun hup => ?_⟩
    rw [hdown] at hup
    cases hup
  · intro σ σ' ⟨hI, hJ⟩ ⟨op, hP, hstep⟩
    -- what an operation guarantees for its points and its end
    have hop : σ.accepts op = true → (op.run Z F H).Wp I (fun r w =>
        I w ∧ (op.leavesUp r = true → J w)) σ.w := by
      intro hacc
      cases op with
      | put k data => exact (hs.put Z k data _ (hJ hacc)).post_mono fun _ _ h => ⟨hs.point h, fun _ => h⟩
      | writeBatch seq =>
        exact (hs.writeBatch Z seq _ (hJ hacc)).post_mono fun _ _ h => ⟨hs.point h, fun _ => h⟩
      | compact live opts sched =>
        have hc : Keeps I J (Call.run Z F H (.compact live opts sched)) :=
          (hs.compact Z H live opts sched).bind fun _ => keeps_pure _
        exact (hc _ (hJ hacc)).post_mono fun _ _ h => ⟨hs.point h, fun _ => h⟩
      | wipe => exact (hwipe _ (hJ hacc) hP).post_mono fun _ _ h => ⟨hs.point h, fun _ => h⟩
      | close => exact (hclose _ (hJ hacc)).post_mono fun _ _ h => ⟨hs.point h, fun _ => h⟩
      | openDir cfg =>
        refine (hopen _ cfg hI hP).post_mono fun r t ht => ?_
        cases r with
        | error e => exact ⟨ht, nofun⟩
        | ok _ => exact ⟨hs.point ht, fun _ => ht⟩
    cases hstep with
    | run hacc => exact (hop hacc).2
    | kill hacc hw =>
      refine ⟨?_, nofun⟩
      rcases mem_cons.mp hw with rfl | hw
      · exact hI
      · exact (hop hacc).1 _ hw

/-- A hash for runs that check none. -/
def noHash : Blake3 := fun _ => ⟨List.replicate 32 0, length_zeros⟩

end AmberStore.Packstore
