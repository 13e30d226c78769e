import AmberStore.Lib.WriteOnce
import AmberStore.Packstore.RecoverSpec

/-!
# The packstore refines a write-once map

`Refines w m` relates a running store to the map of the payloads it keeps. `Put`, `WriteBatch` and
`Close` followed by `Open` keep the relation, and every read of a related store agrees with the map.
-/

namespace AmberStore.Packstore
open Bytes Amberpack Act WriteOnce List

variable {Z : Zstd} {F : FuseLib} {w : World} {G : Written}

abbrev PayloadMap := Key → Option Bytes

/-- What a store's reads return, by a map. -/
structure Agrees (Z : Zstd) (F : FuseLib) (fs : FS Name) (s : Store) (m : PayloadMap) : Prop where
  get : ∀ k, get Z F fs s k =
    match m k with
    | none => .error .notFound
    | some data => .ok data
  has : ∀ k, has F s k = .ok (m k).isSome
  getRecord : ∀ k, getRecord F fs s k =
    match m k with
    | none => .error .notFound
    | some data => (encodeRecord Z k data).mapError .record
  storedSize : ∀ k, storedSize F s k = .ok ((m k).map fun data =>
    (objectRecord Z ⟨k, data⟩).length - recHeaderSize)
  missing : ∀ procs, 0 < procs → ∀ ks,
    missing F s procs ks = .ok (ks.filter fun k => (m k).isNone)

/-- A running store that holds the objects of a map. -/
structure Refines (Z : Zstd) (F : FuseLib) (w : World) (m : PayloadMap) (G : Written) : Prop where
  good : Good Z F True (fun _ => True) (fun _ => False) w G
  ready : w.s.failed = none
  objects : ∀ o, OnDisk w.fs G o ↔ m o.key = some o.data

theorem Good.setGrey (h : Good Z F clean P A w G) (g : Option (List Key)) :
    Good Z F clean P A { w with s := { w.s with grey := g } } G := by
  refine ⟨h.io, h.sync, h.durable, fun hf => ?_⟩
  have hm := h.mounted hf
  exact {
    closed := hm.closed
    ids := hm.ids
    sealed := hm.sealed
    listed := hm.listed
    active := hm.active
    idle := hm.idle
    kept := hm.kept
    next := hm.next }

namespace Refines
variable {m : PayloadMap}

section
variable (h : Refines Z F w m G)
include h

theorem mounted : Mounted Z F w.fs w.s G := h.good.mounted h.ready

theorem rep : Rep Z F w.fs w.s (layoutOf w.fs w.s G) :=
  h.mounted.rep h.good.durable.cur

theorem setGrey (g : Option (List Key)) :
    Refines Z F { w with s := { w.s with grey := g } } m G :=
  ⟨h.good.setGrey g, h.ready, h.objects⟩

theorem mem_objects :
    o ∈ (layoutOf w.fs w.s G).objects ↔ m o.key = some o.data :=
  (h.mounted.mem_objects h.good.durable.cur).trans (h.objects o)

theorem lookup (k : Key) :
    (layoutOf w.fs w.s G).lookup k = (m k).map (Object.mk k) := by
  cases hk : m k with
  | none =>
    refine Layout.lookup_eq_none.mpr fun o ho hok => ?_
    rw [h.mem_objects, hok, hk] at ho
    cases ho
  | some data =>
    have hsome := Layout.lookup_isSome.mpr ⟨⟨k, data⟩, h.mem_objects.mpr hk, rfl⟩
    obtain ⟨o, ho⟩ := Option.isSome_iff_exists.mp hsome
    obtain ⟨hmem, rfl⟩ := Layout.lookup_mem ho
    rw [h.mem_objects, hk] at hmem
    cases hmem
    exact ho

theorem fits (hk : m k = some data) :
    k.Canonical ∧ data.length ≤ maxPayload := by
  obtain ⟨e, -, ho⟩ := (h.objects ⟨k, data⟩).mpr hk
  exact (G e.2).fits _ ho

theorem agrees : Agrees Z F w.fs w.s m where
  get := by
    intro k
    rw [h.rep.get_eq h.mounted.closed, h.lookup]
    cases m k <;> rfl
  has := by
    intro k
    rw [h.rep.has_eq h.mounted.closed, h.lookup, Option.isSome_map]
  getRecord := by
    intro k
    rw [h.rep.getRecord_eq h.mounted.closed, h.lookup]
    cases hk : m k with
    | none => rfl
    | some data =>
      simp only [Option.map_some, encodeRecord_eq (h.fits hk).2]
      rfl
  storedSize := by
    intro k
    rw [h.rep.storedSize_eq h.mounted.closed, h.lookup, Option.map_map]
    congr 2
    funext data
    rw [length_objectRecord, Nat.add_sub_cancel_left]
    rfl
  missing := by
    intro procs hprocs ks
    rw [h.rep.missing_eq h.mounted.closed hprocs]
    simp only [h.lookup, Option.isNone_map]

end

end Refines

/-! ## Writes -/

/-- Writing the object seals no segment of 2³² records or more. -/
def WritesSmall (Z : Zstd) (F : FuseLib) (w : World) (o : Object) : Prop :=
  has F w.s o.key = .ok false → SealsSmall w.s (objectRecord Z o)

section Writes
variable {m : PayloadMap} {o : Object}

theorem Refines.not_inActive (h : Refines Z F w m G) (habs : m k = none) : ¬w.s.inActive k = true := by
  intro hin
  obtain ⟨⟨a, loc⟩, hloc⟩ := Option.isSome_iff_exists.mp hin
  have hhas := h.agrees.has k
  rw [habs, Packstore.has, Store.probe, h.mounted.closed, if_neg (by decide), hloc] at hhas
  cases hhas

/-- A record on disk that is new adds its object to the map. -/
theorem Refines.objects_add (h : Refines Z F w m G) (habs : m o.key = none) (x : Object) :
    OnDisk w.fs G x ∨ x = o ↔ add m o.key o.data x.key = some x.data := by
  rw [h.objects, add_eq_some habs]
  refine or_congr_right ⟨?_, ?_⟩
  · rintro rfl
    exact ⟨rfl, rfl⟩
  · obtain ⟨k, d⟩ := x
    rintro ⟨hk, hd⟩
    cases hk
    cases hd
    rfl

theorem appendLocked_refines (h : Refines Z F w m G)
    (ho : o.key.Canonical ∧ o.data.length ≤ maxPayload) (habs : m o.key = none)
    (hsmall : SealsSmall w.s (objectRecord Z o)) (syncNow : Bool)
    : (appendLocked F o.key (objectRecord Z o) syncNow).Gives (Post
      (fun _ w' => ∃ G', Refines Z F w' (add m o.key o.data) G') (fun _ _ => False)) w := by
  refine (appendLocked_spec h.good ho trivial hsmall syncNow).mono (fun _ _ => trivial) ?_
  rintro (e | ⟨⟩) t ht
  · rcases ht with ht | ht
    · exact ht.1 trivial h.ready
    · exact ht.1 trivial
  obtain ⟨-, hf, -, hcase⟩ := ht
  rw [if_neg (h.not_inActive habs)] at hcase
  obtain ⟨G', hg, hdisk⟩ := hcase
  exact ⟨G', hg.mono fun _ hx => hx.elim, hf, fun x => (hdisk x).trans (h.objects_add habs x)⟩

theorem wp_reading {f : FS Name → Store → Except Err α} {I : World → Prop}
    {Q : Except Err α → World → Prop} (h : f w.fs w.s = .ok a) (hQ : Q (.ok a) w) :
    (reading f).Wp I Q w := by
  simp only [reading, wp_bind, wp_read, post_ok, h]
  exact .pure hQ

theorem writeObject_refines (h : Refines Z F w m G)
    (ho : o.key.Canonical ∧ o.data.length ≤ maxPayload) (hsmall : WritesSmall Z F w o)
    (syncNow : Bool) : (writeObject Z F o syncNow).Gives (Post
      (fun _ w' => ∃ G', Refines Z F w' (add m o.key o.data) G') (fun _ _ => False)) w := by
  unfold writeObject
  simp only [wp_bind, observe, wp_setStore, post_ok]
  have hobs : Refines Z F { w with s := w.s.observe o.key } m G := h.setGrey _
  refine wp_reading (hobs.agrees.has o.key) (wp_ite (fun hin => ?_) fun hout => ?_)
  · exact .pure ⟨G, by rw [add_of_isSome hin]; exact hobs⟩
  · have habs : m o.key = none := by simpa using hout
    simp only [encode, encodeRecord_eq ho.2, wp_bind, wp_pure, post_ok]
    refine (appendLocked_refines hobs ho habs (hsmall ?_) syncNow).post_mono ?_
    · rw [h.agrees.has, habs]
      rfl
    · rintro (e | ⟨⟩) t ht
      · exact ht
      · exact ht

theorem put_refines (h : Refines Z F w m G) (ho : o.key.Canonical ∧ o.data.length ≤ maxPayload)
    (hsmall : WritesSmall Z F w o) :
    (put Z F o.key o.data).Gives (Post
      (fun _ w' => ∃ G', Refines Z F w' (add m o.key o.data) G') (fun _ _ => False)) w := by
  unfold put
  simp only [wp_bind, wp_getStore, post_ok, h.ready]
  refine (writeObject_refines h ho hsmall true).post_mono ?_
  rintro (e | b) t ht
  · exact ht
  · exact .pure ht

theorem syncActive_refines (h : Refines Z F w m G) :
    syncActive.Gives (Post (fun _ w' => Refines Z F w' m G) (fun _ _ => False)) w := by
  refine (syncActive_spec h.good).mono (fun _ _ => trivial) ?_
  rintro (e | ⟨⟩) t ht
  · exact ht.1 trivial h.ready
  · obtain ⟨hf, hs, hg, hdisk⟩ := ht
    exact ⟨hg.mono fun _ hx => hx.elim, by rw [hs]; exact hf,
      fun o => (hdisk o).trans (h.objects o)⟩

/-! ### WriteBatch -/

/-- No write of the batch seals a segment of 2³² records or more. -/
def BatchSmall (Z : Zstd) (F : FuseLib) : World → List Key → List (Except Err Object) → Prop
  | _, _, [] => True
  | _, _, .error _ :: _ => True
  | w, seen, .ok o :: seq =>
    if o.key ∈ seen then BatchSmall Z F w seen seq
    else WritesSmall Z F w o ∧ BatchSmall Z F (writeObject Z F o false w).final (o.key :: seen) seq

/-- The map after a batch: the objects that come before a failure of the source. -/
def addBatch : PayloadMap → List (Except Err Object) → PayloadMap
  | m, [] => m
  | m, .error _ :: _ => m
  | m, .ok o :: seq => addBatch (add m o.key o.data) seq

/-- A batch fails only if its source does. -/
def batchResult : List (Except Err Object) → Except Err Unit
  | [] => .ok ()
  | .error e :: _ => .error e
  | .ok _ :: seq => batchResult seq

theorem failBatch_refines (h : Refines Z F w m G) (appended : Bool) (e : Err) :
    (failBatch appended e).Gives (fun r w' => r = .error e ∧ Refines Z F w' m G) w := by
  unfold failBatch
  refine wp_bind.mpr (wp_runIf (fun _ => ?_) fun _ => post_ok.mpr (.throw ⟨rfl, h⟩))
  exact (syncActive_refines h).surely fun _ t ht => .pure (post_ok.mpr (.throw ⟨rfl, ht⟩))

theorem writeBatchLoop_refines {seq : List (Except Err Object)} (h : Refines Z F w m G)
    (hfits : ∀ o, .ok o ∈ seq → o.key.Canonical ∧ o.data.length ≤ maxPayload)
    (hseen : ∀ k ∈ seen, (m k).isSome) (hsmall : BatchSmall Z F w seen seq) :
    (writeBatchLoop Z F seen appended seq).Gives (fun r w' =>
      r = batchResult seq ∧ ∃ G', Refines Z F w' (addBatch m seq) G') w := by
  induction seq generalizing w m G seen appended with
  | nil =>
    refine (syncActive_refines h).post_mono ?_
    rintro (e | ⟨⟩) t ht
    · exact ht.elim
    · exact ⟨rfl, G, ht⟩
  | cons x seq ih =>
    cases x with
    | error e => exact (failBatch_refines h appended e).post_mono fun r t ht => ⟨ht.1, G, ht.2⟩
    | ok o =>
      have hrest : ∀ x, .ok x ∈ seq → x.key.Canonical ∧ x.data.length ≤ maxPayload :=
        fun x hx => hfits x (mem_cons_of_mem _ hx)
      unfold writeBatchLoop
      rw [BatchSmall] at hsmall
      by_cases hin : o.key ∈ seen
      · rw [if_pos hin] at hsmall ⊢
        rw [addBatch, add_of_isSome (hseen _ hin)]
        exact ih h hrest hseen hsmall
      · rw [if_neg hin] at hsmall ⊢
        have hwrite := writeObject_refines h (hfits o mem_cons_self) hsmall.1 false
        refine hwrite.outcome.tries ?_
        rintro (e | b) t ⟨ht, -, hfinal⟩
        · exact ht.elim
        obtain ⟨G', ht⟩ := ht
        refine ih ht hrest ?_ (hfinal ▸ hsmall.2)
        intro k hk
        rcases mem_cons.mp hk with rfl | hk
        · exact add_isSome ..
        · obtain ⟨v, hv⟩ := Option.isSome_iff_exists.mp (hseen k hk)
          rw [add_mono hv]
          rfl

end Writes

/-! ## Close and Open -/

section Reopen
variable {m : PayloadMap} {I : World → Prop}

/-- Running every action keeps what each of them keeps, when none fails. -/
theorem allThenFail_spec {ms : List (M Unit)} {P : World → Prop} (hw : P w)
    (hms : ∀ a ∈ ms, ∀ t, P t → a.Wp I (Post (fun _ => P) fun _ _ => False) t) :
    (allThenFail ms).Wp I (Post (fun _ => P) fun _ _ => False) w := by
  unfold allThenFail
  induction ms generalizing w with
  | nil => exact .pure hw
  | cons a ms ih =>
    refine (hms a mem_cons_self w hw).tries ?_
    rintro (e | ⟨⟩) t ht
    · exact ht.elim
    · exact ih ht fun b hb => hms b (mem_cons_of_mem _ hb)

/-- The active file of a running store ends with its last record. -/
theorem Mounted.active_file {fs : FS Name} {s : Store} (h : Mounted Z F fs s G)
    (hd : DirOk Z F fs G fs.cur) {id i : Nat} (hi : (Name.active id, i) ∈ fs.cur) :
    (fs.files i).data = bodyOf Z (G i).objs ∧ (fs.files i).torn = false := by
  cases ha : s.active with
  | none => exact absurd hi (h.idle ha id i)
  | some a =>
    have hok := h.active a ha
    cases hd.name_inj hi hok.mem (hd.one _ _ _ _ hi hok.mem)
    exact ⟨hok.data, hok.torn⟩

theorem Mounted.openable {fs : FS Name} {s : Store} (h : Mounted Z F fs s G)
    (hd : DirOk Z F fs G fs.cur) : Openable Z F fs G where
  kept := h.kept
  torn := fun _ _ hi => (h.active_file hd hi).2
  cut := by
    rintro id i hi ⟨n, hn, hlt, hcut⟩
    rw [(h.active_file hd hi).1] at hcut
    have := congrArg List.length hcut
    rw [length_append, length_take] at this
    omega
  synced := by
    intro id i hi hlt
    rw [(h.active_file hd hi).1] at hlt
    exact absurd hlt (Nat.lt_irrefl _)

theorem Mounted.whole {fs : FS Name} {s : Store} (h : Mounted Z F fs s G)
    (hd : DirOk Z F fs G fs.cur) {e : Name × Nat} (he : e ∈ fs.cur) :
    (bodyOf Z (G e.2).objs).length ≤ (fs.files e.2).data.length := by
  obtain ⟨n, i⟩ := e
  cases n with
  | sealed id =>
    rw [(hd.sealed id i he).data, sealedFile, length_append]
    exact Nat.le_add_right ..
  | active id => rw [(h.active_file hd he).1]

theorem fsync_refines {s : Store} {a : ActiveSegment} (ha : s.active = some a)
    (h : Refines Z F { w with s } m G) : (fsync a.ino).Gives
      (Post (fun _ t => Refines Z F { t with s } m G) fun _ _ => False) w := by
  have hok := h.mounted.active a ha
  have hfile := h.good.durable.cur.active _ _ hok.mem
  have htorn : (w.fs.files a.ino).torn = false := hok.torn
  have hsync : (w.fs.files a.ino).fsync.data = (w.fs.files a.ino).data ∧
      (w.fs.files a.ino).fsync.torn = false := by
    simp [File.fsync, htorn]
  refine wp_syncOp (fun sf hsf => ⟨trivial, ?_⟩) fun hne => absurd (h.good.sync trivial) hne
  refine ⟨⟨h.good.io, fun _ => hsf (h.good.sync trivial), ?_, fun _ => ?_⟩, h.ready, h.objects⟩
  · exact h.good.durable.setFile_same (h.mounted.not_sealed h.good.durable ha) hfile.fsync
      hfile.synced_fsync
  · exact h.mounted.setFile_active ha hsync.1 hsync.2

theorem close_refines (h : Refines Z F w m G) : close.Gives
    (Post (fun _ t => Refines Z F { t with s := w.s } m G) fun _ _ => False) w := by
  unfold close
  simp only [wp_bind, wp_getStore, post_ok, h.mounted.closed, Bool.false_eq_true, if_false,
    wp_setStore]
  refine allThenFail_spec h ?_
  have hclose : ∀ t : World, Refines Z F { t with s := w.s } m G →
      closeFile.Gives (Post (fun _ t => Refines Z F { t with s := w.s } m G) fun _ _ => False) t :=
    fun t ht => wp_closeFile ht.good.io trivial ht
  intro act hact t ht
  rcases mem_append.mp hact with hact | hact
  · rcases mem_append.mp hact with hact | hact
    · cases ha : w.s.active with
      | none => simp [ha] at hact
      | some a =>
        rw [ha] at hact
        rcases mem_cons.mp hact with rfl | hact
        · exact fsync_refines ha ht
        · rw [mem_singleton.mp hact]
          exact hclose t ht
    · obtain ⟨g, -, rfl⟩ := mem_map.mp hact
      exact hclose t ht
  · rw [mem_singleton.mp hact]
    exact hclose t ht

/-- A store that holds the objects of a map and is opened again holds them. -/
theorem openStore_refines (cfg : Config) {s : Store} (h : Refines Z F { w with s } m G)
    : (openStore cfg).Gives
      (Post (fun _ t => ∃ G', Refines Z F t m G') fun _ _ => False) w := by
  have hd := h.good.durable
  have hopen := openStore_spec True (w := w) cfg h.good.io h.good.sync hd
    (h.mounted.openable hd.cur)
  refine hopen.mono (fun _ _ => trivial) ?_
  rintro (e | ⟨⟩) t ht
  · exact ht.1 trivial
  obtain ⟨G', hg, hf, -, hback, hkeep⟩ := ht
  refine ⟨G', hg, hf, fun o => ⟨fun ho => (h.objects o).mp (hback o ho), fun ho => ?_⟩⟩
  obtain ⟨e, he, hoe⟩ := (h.objects o).mpr ho
  exact hkeep e he _ [] (append_nil _).symm (h.mounted.whole hd.cur he) o hoe

end Reopen

/-! ## Runs -/

/-- One step of a client. -/
inductive Op where
  | put (o : Object)
  | writeBatch (seq : List (Except Err Object))
  | reopen (cfg : Config)

namespace Op

def run (Z : Zstd) (F : FuseLib) : Op → M Unit
  | put o => Packstore.put Z F o.key o.data
  | writeBatch seq => Packstore.writeBatch Z F seq
  | reopen cfg => do
    close
    openStore cfg

/-- Keys are canonical and payloads are not too large. -/
def Fits : Op → Prop
  | put o => o.key.Canonical ∧ o.data.length ≤ maxPayload
  | writeBatch seq => ∀ o, .ok o ∈ seq → o.key.Canonical ∧ o.data.length ≤ maxPayload
  | reopen _ => True

/-- The step seals no segment of 2³² records or more. -/
def Small (Z : Zstd) (F : FuseLib) (w : World) : Op → Prop
  | put o => WritesSmall Z F w o
  | writeBatch seq => BatchSmall Z F w [] seq
  | reopen _ => True

/-- What the step does to the map of the first payloads. -/
def apply (m : PayloadMap) : Op → PayloadMap
  | put o => add m o.key o.data
  | writeBatch seq => addBatch m seq
  | reopen _ => m

def result : Op → Except Err Unit
  | put _ => .ok ()
  | writeBatch seq => batchResult seq
  | reopen _ => .ok ()

theorem run_refines {m : PayloadMap} {op : Op} (h : Refines Z F w m G) (hf : op.Fits)
    (hs : op.Small Z F w) : (op.run Z F w).result = op.result ∧
      ∃ G', Refines Z F (op.run Z F w).final (op.apply m) G' := by
  suffices hwp : (op.run Z F).Gives
      (fun r w' => r = op.result ∧ ∃ G', Refines Z F w' (op.apply m) G') w from hwp.2
  cases op with
  | put o =>
    refine (put_refines h hf hs).post_mono ?_
    rintro (e | ⟨⟩) t ht
    · exact ht.elim
    · exact ⟨rfl, ht⟩
  | writeBatch seq =>
    exact writeBatchLoop_refines h hf (fun _ hk => absurd hk not_mem_nil) hs
  | reopen cfg =>
    refine (close_refines h).seq ?_
    rintro (e | ⟨⟩) t ht
    · exact ht.elim
    refine post_ok.mpr ((openStore_refines cfg ht).post_mono ?_)
    rintro (e | ⟨⟩) u hu
    · exact hu.elim
    · exact ⟨rfl, hu⟩

end Op

/-- Run a list of steps: what each of them returns, and the last state. -/
def runOps (Z : Zstd) (F : FuseLib) : List Op → World → List (Except Err Unit) × World
  | [], w => ([], w)
  | op :: ops, w =>
    let r := op.run Z F w
    let rest := runOps Z F ops r.final
    (r.result :: rest.1, rest.2)

/-- No step of the run seals a segment of 2³² records or more. -/
def RunSmall (Z : Zstd) (F : FuseLib) : World → List Op → Prop
  | _, [] => True
  | w, op :: ops => op.Small Z F w ∧ RunSmall Z F (op.run Z F w).final ops

/-- The map of the first payload given for each key. -/
def mapOf (ops : List Op) : PayloadMap := ops.foldl Op.apply fun _ => none

/-- An empty directory, before the first `Open`. -/
def emptyDir : FS Name := { files := fun _ => .empty, next := 0, cur := [], past := [] }

def emptyWorld (cfg : Config) : World where
  fs := emptyDir
  s := .new cfg
  ioFaults := []
  syncFaults := []

/-- A store just opened on an empty directory. -/
def freshWorld (cfg : Config) : World := (openStore cfg (emptyWorld cfg)).final

theorem emptyDir_durable (P A : Object → Prop) (hA : ∀ o, ¬A o) :
    Durable Z F P A emptyDir fun _ => .empty := by
  refine ⟨nofun, fun d hd => ?_⟩
  obtain rfl := mem_singleton.mp hd
  exact ⟨⟨.nil, .nil, nofun, nofun, nofun, nofun⟩, fun o ho => (hA o ho).elim⟩

theorem emptyWorld_refines (cfg : Config) :
    Refines Z F (emptyWorld cfg) (fun _ => none) fun _ => .empty := by
  refine ⟨⟨rfl, fun _ => rfl, emptyDir_durable _ _ fun _ h => h, fun _ => ?_⟩, rfl, ?_⟩
  · exact ⟨⟨rfl, .nil, nofun, nofun⟩, nofun, nofun, nofun, nofun⟩
  · intro o
    refine ⟨?_, nofun⟩
    rintro ⟨e, he, -⟩
    cases he

theorem openStore_empty (cfg : Config) : (openStore cfg).Gives
    (fun r w' => r = .ok () ∧ w' = emptyWorld cfg) (emptyWorld cfg) := by
  have hdir : readDir (emptyWorld cfg).fs.cur = [] := mergeSort_nil
  have hsort : (Store.new cfg).sealed.mergeSort leId = [] := mergeSort_nil
  simp only [openStore, load, wp_bind, wp_setStore, post_ok, wp_read, hdir, sealedIDs, activePaths,
    filterMap_nil, Act.each, wp_pure, hsort]
  exact ⟨trivial, rfl⟩

theorem freshWorld_eq (cfg : Config) : freshWorld cfg = emptyWorld cfg := (openStore_empty cfg).2.2

theorem runOps_refines {m : PayloadMap} {ops : List Op} (h : Refines Z F w m G)
    (hf : ∀ op ∈ ops, op.Fits) (hs : RunSmall Z F w ops) :
    (runOps Z F ops w).1 = ops.map Op.result ∧
      ∃ G', Refines Z F (runOps Z F ops w).2 (ops.foldl Op.apply m) G' := by
  induction ops generalizing w m G with
  | nil => exact ⟨rfl, G, h⟩
  | cons op ops ih =>
    obtain ⟨hres, G', hop⟩ := Op.run_refines h (hf op mem_cons_self) hs.1
    obtain ⟨hrest, hfinal⟩ := ih hop (fun x hx => hf x (mem_cons_of_mem _ hx)) hs.2
    exact ⟨by rw [runOps, map_cons, hres, hrest], hfinal⟩

/-- A run in which no step seals a segment of 2³² records or more: every step succeeds, and the
reads agree with the map of the first payloads. -/
theorem runOps_agrees (Z : Zstd) (F : FuseLib) (cfg : Config) (ops : List Op)
    (hf : ∀ op ∈ ops, op.Fits) (hs : RunSmall Z F (freshWorld cfg) ops) :
    (runOps Z F ops (freshWorld cfg)).1 = ops.map Op.result ∧
      Agrees Z F (runOps Z F ops (freshWorld cfg)).2.fs (runOps Z F ops (freshWorld cfg)).2.s
        (mapOf ops) := by
  have hfresh := emptyWorld_refines (Z := Z) (F := F) cfg
  rw [← freshWorld_eq] at hfresh
  obtain ⟨hres, G', hrun⟩ := runOps_refines hfresh hf hs
  exact ⟨hres, hrun.agrees⟩

/-- A first object. -/
def helloObject : Object := ⟨⟨List.replicate 32 0, length_zeros⟩, [104, 105]⟩

theorem helloObject_fits : helloObject.key.Canonical ∧ helloObject.data.length ≤ maxPayload := by
  decide

/-- One object put, and found again once the store is closed and opened. -/
theorem runOps_agrees_hello : ∃ ops : List Op, ops = [.put helloObject, .reopen ⟨0, true⟩] ∧
    (runOps .stored .full ops (freshWorld ⟨0, true⟩)).1 = [.ok (), .ok ()] ∧
    get .stored .full (runOps .stored .full ops (freshWorld ⟨0, true⟩)).2.fs
      (runOps .stored .full ops (freshWorld ⟨0, true⟩)).2.s helloObject.key = .ok [104, 105] := by
  have hf : ∀ op ∈ [Op.put helloObject, .reopen ⟨0, true⟩], op.Fits := by
    intro op hop
    rcases mem_cons.mp hop with rfl | hop
    · exact helloObject_fits
    · rw [mem_singleton.mp hop]
      exact trivial
  have hs : RunSmall .stored .full (freshWorld ⟨0, true⟩)
      [.put helloObject, .reopen ⟨0, true⟩] := by
    refine ⟨fun _ a ha => ?_, trivial, trivial⟩
    rw [freshWorld_eq] at ha
    cases ha
  obtain ⟨hres, hagrees⟩ := runOps_agrees .stored .full ⟨0, true⟩ _ hf hs
  refine ⟨_, rfl, hres, ?_⟩
  rw [hagrees.get]
  rfl

end AmberStore.Packstore
