import AmberStore.Ingest.Content

/-!
# The item chunker of a number of bits

The bounds of a chunker are 64-bit integers, computed from a number of bits without a check. Here the
builders take any rule for the end of a run, and may run forever. With up to 60 bits the bounds are
in order, and the builders do what those of a valid chunker do; with more bits every item ends its
run, and no builder returns.
-/

namespace AmberStore.Ingest
open Amberpack Fstree Cborx List

/-! ## The chunker -/

/-- The bounds and the mask of a chunker, whether or not the bounds are in order. -/
structure RawItemChunker where
  minRun : Int64
  maxRun : Int64
  mask : UInt64

def newItemChunker (bits : Nat) : RawItemChunker :=
  -- a shift by 64 bits or more leaves nothing
  let avg : Int64 := .ofNat (2 ^ bits)
  ⟨max (avg / 4) 2, avg * 4, if 0 < bits then .ofNat (2 ^ bits) - 1 else 0⟩

/-- The first eight bytes of a digest, the least significant one first. -/
def littleEndian (b : Bytes) : UInt64 := .ofNat (Bytes.uint (b.take 8).reverse)

def RawItemChunker.lowBitsZero (H : Blake3) (c : RawItemChunker) (enc : Bytes) : Bool :=
  littleEndian (H enc).1 &&& c.mask = 0

def RawItemChunker.isBoundary (H : Blake3) (c : RawItemChunker) (enc : Bytes) (runLen : Nat) : Bool :=
  if c.maxRun.toInt ≤ runLen then true
  else if runLen < c.minRun.toInt then false
  else c.lowBitsZero H enc

theorem newItemChunker_bounds : ∀ bits ≤ 60,
    (newItemChunker bits).maxRun.toInt = 2 ^ (bits + 2) ∧ 2 ≤ (newItemChunker bits).minRun.toInt ∧
      (newItemChunker bits).minRun.toInt = max (2 ^ bits / 4) 2 ∧
      (newItemChunker bits).minRun.toInt ≤ (newItemChunker bits).maxRun.toInt := by
  decide +kernel

theorem newItemChunker_overflow (h : 61 ≤ bits) : (newItemChunker bits).maxRun.toInt ≤ 0 := by
  rcases Nat.lt_or_ge bits 64 with hlt | hge
  · have hcases : ∀ b, b < 3 → (newItemChunker (61 + b)).maxRun.toInt ≤ 0 := by decide
    obtain ⟨b, rfl⟩ := Nat.exists_eq_add_of_le h
    exact hcases b (by omega)
  · obtain ⟨b, rfl⟩ := Nat.exists_eq_add_of_le hge
    have hzero : Int64.ofNat (2 ^ (64 + b)) = 0 := by
      rw [Nat.pow_add, Int64.ofNat_mul]
      exact Int64.zero_mul
    simp only [newItemChunker, hzero]
    decide

/-- The valid chunker of up to 60 bits. -/
def itemChunker (H : Blake3) (bits : Nat) (h : bits ≤ 60) : ItemChunker where
  minRun := (newItemChunker bits).minRun.toInt.toNat
  maxRun := (newItemChunker bits).maxRun.toInt.toNat
  lowBitsZero := (newItemChunker bits).lowBitsZero H
  two_le_min := by
    have := newItemChunker_bounds bits h
    omega
  min_le_max := by
    have := newItemChunker_bounds bits h
    omega

theorem itemChunker_maxRun (h : bits ≤ 60) : (itemChunker H bits h).maxRun = 2 ^ (bits + 2) := by
  have hpow : (2 : Int) ^ (bits + 2) = (2 ^ (bits + 2) : Nat) := by norm_cast
  have hmax : (itemChunker H bits h).maxRun = (newItemChunker bits).maxRun.toInt.toNat := rfl
  rw [hmax, (newItemChunker_bounds bits h).1, hpow, Int.toNat_natCast]

theorem itemChunker_isBoundary (h : bits ≤ 60) (enc : Bytes) (n : Nat) :
    (itemChunker H bits h).isBoundary enc n = (newItemChunker bits).isBoundary H enc n := by
  have hb := newItemChunker_bounds bits h
  unfold ItemChunker.isBoundary RawItemChunker.isBoundary
  have hmax : n ≥ (itemChunker H bits h).maxRun ↔ (newItemChunker bits).maxRun.toInt ≤ n := by
    simp only [itemChunker]
    omega
  have hmin : n < (itemChunker H bits h).minRun ↔ (n : Int) < (newItemChunker bits).minRun.toInt := by
    simp only [itemChunker]
    omega
  simp only [hmax, hmin]
  rfl

theorem isBoundary_overflow (h : 61 ≤ bits) (enc : Bytes) (n : Nat) :
    (newItemChunker bits).isBoundary H enc n = true := by
  have hmax := newItemChunker_overflow h
  rw [RawItemChunker.isBoundary, if_pos (by omega)]

/-! ## Builders for any rule -/

/-- When a run ends: at the item with the given encoding, as the run has so many items. -/
abbrev Boundary := Bytes → Nat → Bool

/-- What a computation emits, and its outcome. There is none if the bound on its depth was too
small. -/
abbrev Run (α : Type) := Option (List Object × Except FsError α)

namespace Run

def ofExcept (x : Except FsError α) : Run α := some ([], x)

def emit (o : Object) : Run Unit := some ([o], .ok ())

/-- Go on after what succeeds. What was emitted stays emitted. -/
def andThen (r : Run α) (f : α → Run β) : Run β :=
  match r with
  | none => none
  | some (objs, .error e) => some (objs, .error e)
  | some (objs, .ok a) => (f a).map fun (objs', x) => (objs ++ objs', x)

end Run

section Builders
variable (H : Blake3) (C : Cbor) (b : Boundary)

section Index
variable (isDir : Bool)

/-- Add an item to the lowest level, which is made if there is none. -/
def addAny : Nat → List Level → Item → Run (List Level)
  | 0, _, _ => none
  | fuel + 1, levels, it =>
    let run := levels.headD [] ++ [it]
    if b (itemEnc C isDir it) run.length then
      (Run.ofExcept (buildNode H C isDir run)).andThen fun (obj, sep) =>
        (Run.emit obj).andThen fun () =>
          (addAny fuel levels.tail ⟨obj.key, sep⟩).andThen fun up => .ofExcept (.ok ([] :: up))
    else .ofExcept (.ok (run :: levels.tail))

/-- Close the open runs from the bottom, and return the root. -/
def finishAny : Nat → List Level → Run Key
  | 0, _ => none
  | _ + 1, [] => .ofExcept (.error .noChildren)
  | fuel + 1, [] :: up => finishAny fuel up
  | _ + 1, [it] :: [] => .ofExcept (.ok it.key)
  | fuel + 1, [it] :: L :: up => (addAny H C b isDir fuel (L :: up) it).andThen (finishAny fuel)
  | fuel + 1, (it :: it' :: L) :: up =>
    (Run.ofExcept (buildNode H C isDir (it :: it' :: L))).andThen fun (obj, sep) =>
      (Run.emit obj).andThen fun () =>
        (addAny H C b isDir fuel up ⟨obj.key, sep⟩).andThen (finishAny fuel)

end Index

def addChunksAny (fuel : Nat) : List Level → List Bytes → Run (List Level)
  | levels, [] => .ofExcept (.ok levels)
  | levels, chunk :: chunks =>
    (Run.ofExcept (encodeBlob H chunk)).andThen fun obj =>
      (Run.emit obj).andThen fun () =>
        (addAny H C b false fuel levels ⟨obj.key, []⟩).andThen fun levels =>
          addChunksAny fuel levels chunks

/-- The root of a file index over chunks. -/
def buildChunksAny (fuel : Nat) (chunks : List Bytes) : Run Key :=
  (addChunksAny H C b fuel [] chunks).andThen (finishAny H C b false fuel)

def closeLeafAny (fuel : Nat) (db : DirBuilder) : Run DirBuilder :=
  (Run.ofExcept (encodeDirLeaf H C db.leaf)).andThen fun obj =>
    (Run.emit obj).andThen fun () =>
      (addAny H C b true fuel db.levels ⟨obj.key, lastName db.leaf⟩).andThen fun levels =>
        .ofExcept (.ok ⟨levels, []⟩)

def addEntryAny (fuel : Nat) (db : DirBuilder) (e : Entry) : Run DirBuilder :=
  let db : DirBuilder := ⟨db.levels, db.leaf ++ [e]⟩
  if b (C.encodeEntry e) db.leaf.length then closeLeafAny H C b fuel db else .ofExcept (.ok db)

def addEntriesAny (fuel : Nat) : DirBuilder → List Entry → Run DirBuilder
  | db, [] => .ofExcept (.ok db)
  | db, e :: es => (addEntryAny H C b fuel db e).andThen fun db => addEntriesAny fuel db es

def finishDirAny (fuel : Nat) (db : DirBuilder) : Run Key :=
  (if 0 < db.leaf.length ∨ db.levels = [] then closeLeafAny H C b fuel db
    else .ofExcept (.ok db)).andThen fun db => finishAny H C b true fuel db.levels

/-- The root of a directory. -/
def buildDirectoryAny (fuel : Nat) (entries : List Entry) : Run Key :=
  (addEntriesAny H C b fuel .new entries).andThen (finishDirAny H C b fuel)

end Builders

/-! ## Valid chunkers -/

/-- An index node has at least two children. -/
structure TwoChildren (C : Cbor) (o : Object) : Prop where
  file : o.key.type = .fileNode → ∃ ks, o.data = C.encodeKeys ks ∧ 2 ≤ ks.length
  dir : o.key.type = .dirNode → ∃ ps, o.data = C.encodePairs ps ∧ 2 ≤ ps.length

/-- With enough depth, the computation emits the objects and has the outcome of the other one, which
gives no objects when it fails. All index nodes have two children. -/
def Settles (C : Cbor) (f : Nat → Run α) (x : Except FsError (α × List Object)) : Prop :=
  ∃ objs r, Loop.Yields f (objs, r) ∧ x = r.map (fun a => (a, objs)) ∧ ∀ o ∈ objs, TwoChildren C o

namespace Settles
variable {C : Cbor}

theorem ofExcept (x : Except FsError α) : Settles C (fun _ => .ofExcept x) (x.map fun a => (a, [])) :=
  ⟨[], x, ⟨0, fun _ _ => rfl⟩, rfl, nofun⟩

theorem andThen {f : Nat → Run α} {g : Nat → α → Run β} {y : α → Except FsError (β × List Object)}
    (hf : Settles C f x)
    (hg : ∀ a objs, x = .ok (a, objs) → Settles C (fun n => g n a) (y a)) :
    Settles C (fun n => (f n).andThen (g n)) (do
      let (a, objs) ← x
      let (b, objs') ← y a
      return (b, objs ++ objs')) := by
  obtain ⟨objs, r, ⟨n, hn⟩, rfl, htwo⟩ := hf
  cases r with
  | error e => exact ⟨objs, .error e, ⟨n, fun m hm => by simp only [hn m hm]; rfl⟩, rfl, htwo⟩
  | ok a =>
    obtain ⟨objs', r', ⟨n', hn'⟩, hy, htwo'⟩ := hg a objs rfl
    refine ⟨objs ++ objs', r', ⟨max n n', fun m hm => ?_⟩, ?_, fun o ho => ?_⟩
    · have hone := hn m (by omega)
      have htwo := hn' m (by omega)
      simp only at hone htwo ⊢
      rw [hone, Run.andThen, htwo]
      rfl
    · simp only [Except.map, bind, Except.bind, hy]
      cases r' <;> rfl
    · exact (mem_append.mp ho).elim (htwo o) (htwo' o)

theorem congr (h : Settles C f x) (hx : x = y) : Settles C f y := hx ▸ h

theorem succ {f : Nat → Run α} (h : Settles C (fun n => f (n + 1)) x) : Settles C f x := by
  obtain ⟨objs, r, ⟨n, hn⟩, hx, htwo⟩ := h
  refine ⟨objs, r, ⟨n + 1, fun m hm => ?_⟩, hx, htwo⟩
  obtain ⟨m, rfl⟩ := Nat.exists_eq_add_of_le' (Nat.le_trans (Nat.succ_le_succ n.zero_le) hm)
  exact hn m (by omega)

end Settles

section Valid
variable {H : Blake3} {C : Cbor} {ic : ItemChunker} {isDir : Bool}

theorem TwoChildren.node (h : buildNode H C isDir L = .ok (o, sep)) (hlen : 2 ≤ L.length) :
    TwoChildren C o := by
  cases isDir with
  | true =>
    obtain ⟨hdata, htype, -⟩ := buildNode_dir h
    refine ⟨fun ht => ?_, fun _ => ⟨_, hdata, by rwa [length_map]⟩⟩
    rw [htype] at ht
    cases ht
  | false =>
    obtain ⟨hdata, htype, -⟩ := buildNode_file h
    refine ⟨fun _ => ⟨_, hdata, by rwa [length_map, length_map]⟩, fun ht => ?_⟩
    rw [htype] at ht
    cases ht

theorem TwoChildren.other (hf : o.key.type ≠ .fileNode) (hd : o.key.type ≠ .dirNode) :
    TwoChildren C o := ⟨fun h => absurd h hf, fun h => absurd h hd⟩

theorem Settles.object {x : Except FsError β} {obj : β → Object} {g : Nat → β → Run α}
    {y : β → Except FsError (α × List Object)} (htwo : ∀ p, x = .ok p → TwoChildren C (obj p))
    (h : ∀ p, x = .ok p → Settles C (fun n => g n p) (y p)) :
    Settles C (fun n => (Run.ofExcept x).andThen fun p => (Run.emit (obj p)).andThen fun () => g n p) (do
      let p ← x
      let (a, objs) ← y p
      return (a, obj p :: objs)) := by
  cases x with
  | error e => exact ⟨[], .error e, ⟨0, fun _ _ => rfl⟩, rfl, nofun⟩
  | ok p =>
    obtain ⟨objs, r, ⟨n, hn⟩, hy, hobjs⟩ := h p rfl
    refine ⟨obj p :: objs, r, ⟨n, fun m hm => ?_⟩, ?_, fun o ho => ?_⟩
    · have hrest := hn m hm
      simp only [Run.ofExcept, Run.andThen, Run.emit] at hrest ⊢
      rw [hrest]
      rfl
    · simp only [bind, Except.bind, hy]
      cases r <;> rfl
    · rcases mem_cons.mp ho with rfl | ho
      · exact htwo p rfl
      · exact hobjs o ho

theorem addAny_settles (levels : List Level) (it : Item) :
    Settles C (fun n => addAny H C ic.isBoundary isDir n levels it) (addItem H C ic isDir levels it) := by
  induction levels generalizing it with
  | nil =>
    have hopen : ic.isBoundary (itemEnc C isDir it) 1 = false := by
      rw [Bool.eq_false_iff]
      intro hb
      have := ItemChunker.two_le hb
      omega
    refine Settles.succ ?_
    simp only [addAny, headD_nil, nil_append, length_singleton, hopen,
      Bool.false_eq_true, if_false, tail_nil]
    exact Settles.ofExcept _
  | cons L up ih =>
    refine Settles.succ ?_
    simp only [addAny, headD_cons, tail_cons]
    by_cases hb : ic.isBoundary (itemEnc C isDir it) (L ++ [it]).length = true
    · simp only [hb, if_true]
      have htwo : ∀ p, buildNode H C isDir (L ++ [it]) = .ok p → TwoChildren C p.1 :=
        fun p hp => TwoChildren.node hp (ItemChunker.two_le hb)
      have hnode := Settles.object htwo fun p _ =>
        (ih ⟨p.1.key, p.2⟩).andThen fun up' _ _ => Settles.ofExcept (.ok ([] :: up'))
      refine hnode.congr ?_
      rw [addItem, if_pos hb]
      cases buildNode H C isDir (L ++ [it]) with
      | error e => rfl
      | ok p =>
        cases hup : addItem H C ic isDir up ⟨p.1.key, p.2⟩ with
        | error e => simp only [bind, Except.bind, hup]
        | ok q => simp [bind, Except.bind, hup, Except.map, pure, Except.pure]
    · rw [Bool.not_eq_true] at hb
      simp only [addItem, hb, Bool.false_eq_true, if_false]
      exact Settles.ofExcept _

theorem Settles.finish {add : Nat → Run (List Level)} {x : Except FsError (List Level × List Object)}
    (hadd : Settles C add x)
    (h : ∀ levels objs, x = .ok (levels, objs) →
      Settles C (fun n => finishAny H C ic.isBoundary isDir n levels) (finishIndex H C ic isDir levels)) :
    Settles C (fun n => (add n).andThen (finishAny H C ic.isBoundary isDir n)) (do
      let (levels, objs) ← x
      let (root, objs') ← finishIndex H C ic isDir levels
      return (root, objs ++ objs')) := hadd.andThen h

theorem finish_run (h : ∀ p levels objs, buildNode H C isDir (it :: it' :: L) = .ok p →
      addItem H C ic isDir up ⟨p.1.key, p.2⟩ = .ok (levels, objs) →
      Settles C (fun n => finishAny H C ic.isBoundary isDir n levels) (finishIndex H C ic isDir levels)) :
    Settles C (fun n => finishAny H C ic.isBoundary isDir n ((it :: it' :: L) :: up))
      (finishIndex H C ic isDir ((it :: it' :: L) :: up)) := by
  have htwo : ∀ p, buildNode H C isDir (it :: it' :: L) = .ok p → TwoChildren C p.1 :=
    fun p hp => TwoChildren.node hp (by simp)
  refine ((Settles.object htwo fun p hp =>
    (addAny_settles up ⟨p.1.key, p.2⟩).finish (h p · · hp)).congr ?_).succ
  rw [finishIndex_run]
  cases buildNode H C isDir (it :: it' :: L) with
  | error e => rfl
  | ok p =>
    simp only [bind, Except.bind]
    cases addItem H C ic isDir up ⟨p.1.key, p.2⟩ with
    | error e => rfl
    | ok q =>
      simp only
      cases finishIndex H C ic isDir q.1 <;> rfl

theorem finishAny_settles (levels : List Level) :
    Settles C (fun n => finishAny H C ic.isBoundary isDir n levels) (finishIndex H C ic isDir levels) := by
  induction levels using finishIndex.induct H C ic isDir with
  | case1 =>
    refine Settles.succ ?_
    rw [finishIndex]
    exact Settles.ofExcept (.error .noChildren)
  | case2 up ih =>
    refine Settles.succ ?_
    rw [finishIndex]
    exact ih
  | case3 it =>
    refine Settles.succ ?_
    rw [finishIndex]
    exact Settles.ofExcept (.ok it.key)
  | case4 it L up e ha =>
    rw [finishIndex_single]
    refine ((addAny_settles (L :: up) it).finish fun levels objs hl => ?_).succ
    cases ha.symm.trans hl
  | case5 it L up levels objs ha ih =>
    rw [finishIndex_single]
    refine ((addAny_settles (L :: up) it).finish fun levels objs hl => ?_).succ
    cases ha.symm.trans hl
    exact ih
  | case6 it it' L up e hn =>
    refine finish_run fun p levels objs hp _ => ?_
    cases hn.symm.trans hp
  | case7 it it' L up obj sep hn e ha =>
    refine finish_run fun p levels objs hp hl => ?_
    cases hn.symm.trans hp
    cases ha.symm.trans hl
  | case8 it it' L up obj sep hn levels objs ha ih =>
    refine finish_run fun p levels objs hp hl => ?_
    cases hn.symm.trans hp
    cases ha.symm.trans hl
    exact ih

theorem addChunksAny_settles {d : Driver} (levels : List Level) (chunks : List Bytes) :
    Settles C (fun n => addChunksAny H C d.ic.isBoundary n levels chunks)
      (addChunks H C d levels chunks) := by
  induction chunks generalizing levels with
  | nil => exact Settles.ofExcept (.ok levels)
  | cons chunk chunks ih =>
    have htwo : ∀ obj, encodeBlob H chunk = .ok obj → TwoChildren C obj := fun obj hobj => by
      have htype := (encodeBlob_ok hobj).2.1
      exact .other (by simp [htype]) (by simp [htype])
    refine (Settles.object htwo fun obj _ =>
      (addAny_settles levels ⟨obj.key, []⟩).andThen fun levels' _ _ => ih levels').congr ?_
    rw [addChunks]
    cases encodeBlob H chunk with
    | error e => rfl
    | ok obj =>
      simp only [bind, Except.bind]
      cases addItem H C d.ic false levels ⟨obj.key, []⟩ with
      | error e => rfl
      | ok q =>
        simp only
        cases addChunks H C d q.1 chunks <;> rfl

theorem buildChunksAny_settles {d : Driver} (chunks : List Bytes) :
    Settles C (fun n => buildChunksAny H C d.ic.isBoundary n chunks) (buildChunks H C d chunks) :=
  (addChunksAny_settles [] chunks).finish fun levels _ _ => finishAny_settles levels

theorem closeLeafAny_settles (db : DirBuilder) :
    Settles C (fun n => closeLeafAny H C ic.isBoundary n db) (db.closeLeaf H C ic) := by
  have htwo : ∀ obj, encodeDirLeaf H C db.leaf = .ok obj → TwoChildren C obj := fun obj hobj => by
    have htype := (encodeDirLeaf_ok hobj).2.1
    exact .other (by simp [htype]) (by simp [htype])
  refine (Settles.object htwo fun obj _ =>
    (addAny_settles db.levels ⟨obj.key, lastName db.leaf⟩).andThen fun levels _ _ =>
      Settles.ofExcept (.ok (⟨levels, []⟩ : DirBuilder))).congr ?_
  rw [DirBuilder.closeLeaf]
  cases encodeDirLeaf H C db.leaf with
  | error e => rfl
  | ok obj =>
    simp only [bind, Except.bind]
    cases addItem H C ic true db.levels ⟨obj.key, lastName db.leaf⟩ with
    | error e => rfl
    | ok q => simp [Except.map, pure, Except.pure]

theorem addEntryAny_settles (db : DirBuilder) (e : Entry) :
    Settles C (fun n => addEntryAny H C ic.isBoundary n db e) (db.addEntry H C ic e) := by
  unfold addEntryAny DirBuilder.addEntry
  by_cases hb : ic.isBoundary (C.encodeEntry e) (db.leaf ++ [e]).length = true
  · simp only [hb, if_true]
    exact closeLeafAny_settles _
  · simp only [hb]
    exact Settles.ofExcept _

theorem addEntriesAny_settles (db : DirBuilder) (es : List Entry) :
    Settles C (fun n => addEntriesAny H C ic.isBoundary n db es) (db.addEntries H C ic es) := by
  induction es generalizing db with
  | nil => exact Settles.ofExcept (.ok db)
  | cons e es ih => exact (addEntryAny_settles db e).andThen fun db' _ _ => ih db'

theorem finishDirAny_settles (db : DirBuilder) :
    Settles C (fun n => finishDirAny H C ic.isBoundary n db) (db.finish H C ic) := by
  have hclose : Settles C (fun n => if 0 < db.leaf.length ∨ db.levels = [] then
      closeLeafAny H C ic.isBoundary n db else .ofExcept (.ok db)) (db.closeTrailing H C ic) := by
    unfold DirBuilder.closeTrailing
    by_cases hc : 0 < db.leaf.length ∨ db.levels = []
    · simp only [hc, if_true]
      exact closeLeafAny_settles db
    · simp only [hc, if_false]
      exact Settles.ofExcept _
  exact hclose.andThen fun db' _ _ => finishAny_settles db'.levels

/-- With a valid chunker, the builder of a directory returns what it was modelled to return. -/
theorem buildDirectoryAny_settles (entries : List Entry) :
    Settles C (fun n => buildDirectoryAny H C ic.isBoundary n entries)
      (buildDirectory H C ic entries) :=
  (addEntriesAny_settles .new entries).andThen fun db _ _ => finishDirAny_settles db

end Valid

/-! ## The end of every build -/

/-- The computation ends, and all index nodes it emits have two children. -/
def Ends (C : Cbor) (f : Nat → Run α) : Prop :=
  ∃ objs r, Loop.Yields f (objs, r) ∧ ∀ o ∈ objs, TwoChildren C o

theorem Settles.ends (h : Settles C f x) : Ends C f := by
  obtain ⟨objs, r, hf, -, htwo⟩ := h
  exact ⟨objs, r, hf, htwo⟩

section Diverges
variable {H : Blake3} {C : Cbor} {b : Boundary} (hb : ∀ enc n, b enc n = true)
include hb

/-- A node over one item is again an item that ends its run. -/
theorem addAny_diverges (hc : it.key.Canonical) (fuel : Nat) :
    addAny H C b isDir fuel [] it = none := by
  induction fuel generalizing it with
  | zero => rfl
  | succ fuel ih =>
    obtain ⟨obj, sep, hn, hobj⟩ : ∃ obj sep, buildNode H C isDir [it] = .ok (obj, sep) ∧
        obj.key.Canonical := exists_buildNode fun x hx => mem_singleton.mp hx ▸ hc
    have hitem : (Item.mk obj.key sep).key.Canonical := hobj
    simp only [addAny, headD_nil, nil_append, tail_nil, hb, if_true, hn, Run.ofExcept,
      Run.andThen, Run.emit, ih hitem, Option.map_none]

theorem buildDirectoryAny_diverges (fuel : Nat) : buildDirectoryAny H C b fuel [] = none := by
  obtain ⟨obj, hobj⟩ : ∃ obj, encodeDirLeaf H C [] = .ok obj := exists_encodeDirLeaf nofun
  have hitem : (Item.mk obj.key (lastName [])).key.Canonical := (encodeDirLeaf_ok hobj).2.2
  have hclose : closeLeafAny H C b fuel .new = none := by
    simp only [closeLeafAny, DirBuilder.new, hobj, Run.ofExcept, Run.andThen, Run.emit,
      addAny_diverges hb hitem, Option.map_none]
  simp only [buildDirectoryAny, addEntriesAny, Run.ofExcept, Run.andThen, finishDirAny]
  rw [if_pos (.inr rfl), hclose]
  rfl

end Diverges

/-- Every build ends, with two children for every index node, just when there are at most 60 bits. -/
theorem item_bits_end (H : Blake3) (C : Cbor) (bits : Nat) :
    ((∀ entries, Ends C fun fuel =>
        buildDirectoryAny H C ((newItemChunker bits).isBoundary H) fuel entries) ∧
      ∀ chunks, Ends C fun fuel =>
        buildChunksAny H C ((newItemChunker bits).isBoundary H) fuel chunks) ↔ bits ≤ 60 := by
  constructor
  · intro hends
    by_contra hlt
    obtain ⟨objs, r, ⟨n, hn⟩, -⟩ := hends.1 []
    have hnone : buildDirectoryAny H C ((newItemChunker bits).isBoundary H) n [] = none :=
      buildDirectoryAny_diverges (fun _ _ => isBoundary_overflow (by omega) _ _) n
    cases hnone.symm.trans (hn n (Nat.le_refl _))
  · intro h
    have hrule : (newItemChunker bits).isBoundary H = (itemChunker H bits h).isBoundary :=
      funext fun enc => funext fun n => (itemChunker_isBoundary h enc n).symm
    rw [hrule]
    exact ⟨fun entries => (buildDirectoryAny_settles entries).ends, fun chunks =>
      (buildChunksAny_settles (d := { sampleDriver with ic := itemChunker H bits h }) chunks).ends⟩

/-- With 61 bits the builder of an empty directory never returns. -/
theorem item_bits_61_diverges : ¬∃ r, Loop.Yields (fun fuel =>
    buildDirectoryAny (fun _ => ⟨List.replicate 32 0, rfl⟩) .counting
      ((newItemChunker 61).isBoundary fun _ => ⟨List.replicate 32 0, rfl⟩) fuel []) r := by
  intro ⟨r, n, hn⟩
  have hnone := buildDirectoryAny_diverges (H := fun _ => ⟨List.replicate 32 0, rfl⟩) (C := .counting)
    (b := (newItemChunker 61).isBoundary fun _ => ⟨List.replicate 32 0, rfl⟩)
    (fun _ _ => isBoundary_overflow (by decide) _ _) n
  cases hnone.symm.trans (hn n (Nat.le_refl _))

end AmberStore.Ingest
