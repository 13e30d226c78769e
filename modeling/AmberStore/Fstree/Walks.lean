import AmberStore.Fstree.Object
import AmberStore.Lib.ConstMap
import AmberStore.Lib.Walk

/-!
# Walks of a tree

Five walks over the objects below a root: the two that list a tree, the one that collects what is
absent, the mark of the garbage collector, and its search for one key.
-/

namespace AmberStore.Fstree
open Walk List

/-- A finite store of objects. -/
abbrev Objects := AList fun _ : Key => Bytes

variable (C : Cbor) (objects : Objects)

def Objects.get (k : Key) : Except FsError Bytes :=
  match objects.lookup k with
  | none => .error (.get k)
  | some data => .ok data

def Objects.has (k : Key) : Bool := (objects.lookup k).isSome

/-- The children of a node that is not a leaf; leaves are not fetched. -/
def expand (k : Key) : Except FsError (List Key) :=
  if k.type.isLeaf then .ok [] else do childKeys C k (← objects.get k)

/-- As `expand`, but a leaf has to be there. -/
def expandChecked (k : Key) : Except FsError (List Key) :=
  if k.type.isLeaf then
    if objects.has k then .ok [] else .error (.missingObject k)
  else do childKeys C k (← objects.get k)

/-- The children of a node that is there. -/
def probe (k : Key) : Except FsError (Option (List Key)) :=
  if !objects.has k then .ok none
  else if k.type.isLeaf then .ok (some [])
  else (do childKeys C k (← objects.get k) : Except FsError (List Key)).map some

/-- Which objects of a snapshot are marked. -/
abbrev LiveMarks := AList fun _ : Key => Bool

def newMarkSet : LiveMarks := ⟨objects.entries.map fun e => ⟨e.1, false⟩, by
  rw [List.NodupKeys, List.keys, map_map]
  exact objects.nodupKeys⟩

/-- Mark an object; one that is not in the snapshot is missing. -/
def LiveMarks.mark (m : LiveMarks) (k : Key) : Except FsError (Bool × LiveMarks) :=
  match m.lookup k with
  | none => .error (.missingObject k)
  | some marked => .ok (!marked, m.insert k true)

def LiveMarks.contains (m : LiveMarks) (k : Key) : Bool := (m.lookup k).getD false

/-! The walks run with a bound on their passes. -/

def reachableKeys (fuel : Nat) (root : Key) : Option (Except FsError (List Key)) :=
  Loop.run (Bfs.pass (expand C objects)) fuel ⟨[root], [root]⟩

def checkComplete (fuel : Nat) (root : Key) : Option (Except FsError (List Key)) :=
  Loop.run (Bfs.pass (expandChecked C objects)) fuel ⟨[root], [root]⟩

def localMissing (fuel : Nat) (root : Key) : Option (Except FsError (List Key)) :=
  Loop.run (Probe.pass (probe C objects)) fuel ⟨[], [], [root]⟩

/-- Mark what the root reaches. -/
def markFrom (fuel : Nat) (live : LiveMarks) (root : Key) : Option (Except FsError LiveMarks) :=
  (Loop.run (Dfs.pass (fun _ => false) LiveMarks.mark (expand C objects)) fuel ⟨live, [root]⟩).map
    fun r => r.map Prod.snd

/-- A key that a search has visited is not expanded again. -/
def visit (visited : List Key) (cur : Key) : Except FsError (Bool × List Key) :=
  .ok (decide (cur ∉ visited), cur :: visited)

/-- Whether a walk from the root meets the key. -/
def reaches (fuel : Nat) (root k : Key) : Option (Except FsError Bool) :=
  (Loop.run (Dfs.pass (fun cur => decide (cur = k)) visit (expand C objects)) fuel
    ⟨[], [root]⟩).map fun r => r.map Prod.fst

/-! ## What the walks have in common -/

/-- An object of the store names a child. -/
def Child (k c : Key) : Prop :=
  ∃ data cs, objects.lookup k = some data ∧ childKeys C k data = .ok cs ∧ c ∈ cs

abbrev Reachable : Key → Key → Prop := Relation.ReflTransGen (Child C objects)

/-- Everything reachable is there, and every node on the way parses. -/
def Complete (root : Key) : Prop :=
  ∀ k, Reachable C objects root k → ∃ data cs, objects.lookup k = some data ∧
    childKeys C k data = .ok cs

variable {C objects}

theorem childKeys_leaf (h : k.type.isLeaf = true) : childKeys C k data = .ok [] := by
  unfold childKeys
  cases ht : k.type <;> simp_all [ObjType.isLeaf]

theorem expand_eq (hk : k.type.isLeaf = false) (hd : objects.lookup k = some data) :
    expand C objects k = childKeys C k data := by
  rw [expand, if_neg (by simp [hk]), Objects.get, hd]
  rfl

/-- A node that can be expanded is a leaf or is there and parses. -/
theorem expand_ok (h : expand C objects k = .ok cs) :
    (k.type.isLeaf = true ∧ cs = []) ∨
      ∃ data, objects.lookup k = some data ∧ childKeys C k data = .ok cs := by
  unfold expand at h
  split at h
  · next hl =>
    cases h
    exact .inl ⟨hl, rfl⟩
  · cases hd : objects.lookup k with
    | none => rw [Objects.get, hd] at h; cases h
    | some data =>
      rw [Objects.get, hd] at h
      exact .inr ⟨data, rfl, h⟩

theorem edge_expand : Edge (expand C objects) = Child C objects := by
  funext k c
  refine propext ⟨?_, ?_⟩
  · rintro ⟨cs, he, hc⟩
    rcases expand_ok he with ⟨-, rfl⟩ | ⟨data, hd, hcs⟩
    · cases hc
    · exact ⟨data, cs, hd, hcs, hc⟩
  · rintro ⟨data, cs, hd, hcs, hc⟩
    refine ⟨cs, ?_, hc⟩
    cases hl : k.type.isLeaf with
    | true =>
      rw [childKeys_leaf hl] at hcs
      cases hcs
      cases hc
    | false => rw [expand_eq hl hd, hcs]

/-- The walk that checks leaves expands what is complete like the one that does not. -/
theorem expandChecked_eq (hd : objects.lookup k = some data) :
    expandChecked C objects k = expand C objects k := by
  unfold expandChecked expand
  rw [Objects.has, hd]
  simp

theorem expandChecked_ok (h : expandChecked C objects k = .ok cs) :
    ∃ data, objects.lookup k = some data ∧ childKeys C k data = .ok cs := by
  unfold expandChecked at h
  split at h
  · next hl =>
    split at h
    · next hhas =>
      cases h
      obtain ⟨data, hd⟩ := Option.isSome_iff_exists.mp hhas
      exact ⟨data, hd, childKeys_leaf hl⟩
    · cases h
  · cases hd : objects.lookup k with
    | none => rw [Objects.get, hd] at h; cases h
    | some data =>
      rw [Objects.get, hd] at h
      exact ⟨data, rfl, h⟩

theorem probe_eq (hd : objects.lookup k = some data) :
    probe C objects k = (expand C objects k).map some := by
  unfold probe expand
  rw [Objects.has, hd]
  simp only [Option.isSome_some, Bool.not_true, Bool.false_eq_true, if_false]
  split <;> rfl

theorem edge_expandPresent (h : Edge (expandPresent (probe C objects)) k c) : Child C objects k c := by
  obtain ⟨cs, he, hc⟩ := h
  cases hd : objects.lookup k with
  | none =>
    have hp : probe C objects k = .ok none := by
      rw [probe, Objects.has, hd]
      rfl
    rw [expandPresent, hp] at he
    cases he
    cases hc
  | some data =>
    rw [expandPresent, probe_eq hd] at he
    rw [← edge_expand]
    refine ⟨cs, ?_, hc⟩
    cases hx : expand C objects k with
    | error e => rw [hx] at he; cases he
    | ok cs' =>
      rw [hx] at he
      cases he
      rfl

/-- All keys that objects of the store name. -/
def childSet (C : Cbor) (objects : Objects) : Finset Key :=
  (objects.entries.flatMap fun e => (childKeys C e.1 e.2).toOption.getD []).toFinset

theorem Child.mem_childSet (h : Child C objects k c) : c ∈ childSet C objects := by
  obtain ⟨data, cs, hd, hcs, hc⟩ := h
  rw [childSet, mem_toFinset, mem_flatMap]
  refine ⟨⟨k, data⟩, AList.mem_lookup_iff.mp hd, ?_⟩
  rw [hcs]
  exact hc

/-! ## Marks -/

/-- The snapshot that the marks are for. -/
def LiveMarks.Over (objects : Objects) (m : LiveMarks) : Prop :=
  ∀ k, (m.lookup k).isSome = (objects.lookup k).isSome

theorem newMarkSet_lookup (objects : Objects) (k : Key) :
    (newMarkSet objects).lookup k = (objects.lookup k).map fun _ => false :=
  AList.lookup_const objects false k

theorem newMarkSet_over (objects : Objects) : (newMarkSet objects).Over objects := by
  intro k
  rw [newMarkSet_lookup, Option.isSome_map]

theorem newMarkSet_contains (objects : Objects) (k : Key) :
    (newMarkSet objects).contains k = false := by
  rw [LiveMarks.contains, newMarkSet_lookup]
  cases objects.lookup k <;> rfl

theorem LiveMarks.marking (objects : Objects) :
    Marking (LiveMarks.Over objects) (fun m k => m.contains k = true) LiveMarks.mark := by
  intro m k b m' hJ h
  unfold LiveMarks.mark at h
  cases hl : m.lookup k with
  | none => rw [hl] at h; cases h
  | some marked =>
    rw [hl] at h
    cases h
    refine ⟨fun x => ?_, ?_, fun x => ?_⟩
    · by_cases hx : x = k
      · subst hx
        rw [AList.lookup_insert, ← hJ x, hl]
        rfl
      · rw [AList.lookup_insert_ne hx]
        exact hJ x
    · simp only [LiveMarks.contains, hl]
      cases marked <;> simp
    · by_cases hx : x = k
      · subst hx
        simp [LiveMarks.contains, AList.lookup_insert]
      · simp [LiveMarks.contains, AList.lookup_insert_ne hx, hx]

theorem visit_marking : Marking (fun _ => True) (fun visited k => k ∈ visited) visit := by
  intro visited k b visited' _ h
  cases h
  refine ⟨trivial, by simp, fun x => ?_⟩
  simp only [mem_cons, or_comm]

/-! ## The walks agree -/

theorem Complete.expand (h : Complete C objects root) (hk : Reachable C objects root k) :
    ∃ cs, Fstree.expand C objects k = .ok cs := by
  obtain ⟨data, cs, hd, hcs⟩ := h k hk
  cases hl : k.type.isLeaf with
  | true => exact ⟨[], by rw [Fstree.expand, if_pos hl]⟩
  | false => exact ⟨cs, by rw [expand_eq hl hd, hcs]⟩

theorem Complete.expandChecked (h : Complete C objects root) (hk : Reachable C objects root k) :
    Fstree.expandChecked C objects k = Fstree.expand C objects k := by
  obtain ⟨data, cs, hd, -⟩ := h k hk
  exact expandChecked_eq hd

/-- The two listings return the same list of a complete tree. -/
theorem Complete.lists (h : Complete C objects root) :
    ∃ l, BfsReturns (Fstree.expand C objects) root (.ok l) ∧
      BfsReturns (Fstree.expandChecked C objects) root (.ok l) := by
  obtain ⟨r, hr⟩ := exists_bfsReturns (Fstree.expand C objects)
    (insert root (childSet C objects)) (Finset.mem_insert_self ..) (by
      rw [edge_expand]
      exact fun k c _ hc => Finset.mem_insert_of_mem hc.mem_childSet)
  cases r with
  | error e =>
    obtain ⟨k, hk, he⟩ := hr.error
    rw [Reaches, edge_expand] at hk
    obtain ⟨cs, hcs⟩ := h.expand hk
    cases he.symm.trans hcs
  | ok l =>
    refine ⟨l, hr, hr.congr fun k hk => ?_⟩
    rw [Reaches, edge_expand] at hk
    exact (h.expandChecked hk).symm

theorem complete_of_checked (h : BfsReturns (expandChecked C objects) root (.ok l)) :
    Complete C objects root := by
  obtain ⟨-, -, hmem, hexp⟩ := h.ok
  have hall : ∀ k, Reachable C objects root k → k ∈ l := by
    intro k hk
    rw [hmem]
    induction hk with
    | refl => exact .refl
    | tail _ hc ih =>
      obtain ⟨data, cs, hd, hcs, hc⟩ := hc
      obtain ⟨cs', he⟩ := hexp _ ((hmem _).mpr ih)
      obtain ⟨data', hd', hcs'⟩ := expandChecked_ok he
      cases hd.symm.trans hd'
      cases hcs.symm.trans hcs'
      exact ih.tail ⟨cs, he, hc⟩
  intro k hk
  obtain ⟨cs, he⟩ := hexp k (hall k hk)
  obtain ⟨data, hd, hcs⟩ := expandChecked_ok he
  exact ⟨data, cs, hd, hcs⟩

theorem Complete.localMissing (h : Complete C objects root) :
    ProbeReturns (probe C objects) root (.ok []) := by
  have hreach : ∀ k, Reaches (expandPresent (probe C objects)) root k → Reachable C objects root k :=
    fun k hk => Relation.ReflTransGen.mono (fun _ _ => edge_expandPresent) _ _ hk
  have hprobe : ∀ k, Reaches (expandPresent (probe C objects)) root k →
      ∃ cs, probe C objects k = .ok (some cs) := by
    intro k hk
    obtain ⟨data, -, hd, -⟩ := h k (hreach k hk)
    obtain ⟨cs, hcs⟩ := h.expand (hreach k hk)
    exact ⟨cs, by rw [probe_eq hd, hcs]; rfl⟩
  obtain ⟨r, hr⟩ := exists_probeReturns (probe C objects)
    (insert root (childSet C objects)) (Finset.mem_insert_self ..)
    fun k c _ hc => Finset.mem_insert_of_mem (edge_expandPresent hc).mem_childSet
  cases r with
  | error e =>
    obtain ⟨k, hk, he⟩ := hr.error
    obtain ⟨cs, hcs⟩ := hprobe k hk
    cases he.symm.trans hcs
  | ok ms =>
    obtain ⟨-, hmem, -⟩ := hr.ok
    have hnil : ms = [] := by
      rw [eq_nil_iff_forall_not_mem]
      intro k hk
      obtain ⟨hreached, hnone⟩ := (hmem k).mp hk
      obtain ⟨cs, hcs⟩ := hprobe k hreached
      cases hnone.symm.trans hcs
    exact hnil ▸ hr

theorem childSet_closed (root k c : Key) (_ : k ∈ insert root (childSet C objects))
    (hc : Edge (expand C objects) k c) : c ∈ insert root (childSet C objects) := by
  rw [edge_expand] at hc
  exact Finset.mem_insert_of_mem hc.mem_childSet

theorem exists_mark (C : Cbor) (objects : Objects) (root : Key) :
    ∃ r, DfsReturns (fun _ => false) LiveMarks.mark (expand C objects) (newMarkSet objects) root r :=
  exists_dfsReturns (insert root (childSet C objects)) (Finset.mem_insert_self ..)
    (childSet_closed root) (LiveMarks.marking objects) (newMarkSet_over objects)
    fun k hk => by rw [newMarkSet_contains] at hk; cases hk

theorem not_visited (k : Key) (h : k ∈ ([] : List Key)) :
    ∃ cs, expand C objects k = .ok cs ∧ ∀ c ∈ cs, c ∈ ([] : List Key) :=
  absurd h not_mem_nil

theorem exists_reaches (C : Cbor) (objects : Objects) (root target : Key) :
    ∃ r, DfsReturns (fun cur => decide (cur = target)) visit (expand C objects) [] root r :=
  exists_dfsReturns (insert root (childSet C objects)) (Finset.mem_insert_self ..)
    (childSet_closed root) visit_marking trivial not_visited

theorem Complete.mark (h : Complete C objects root) :
    ∃ m, DfsReturns (fun _ => false) LiveMarks.mark (Fstree.expand C objects) (newMarkSet objects)
        root (.ok (false, m)) ∧ ∀ k, m.contains k = true ↔ Reachable C objects root k := by
  have hfresh : ∀ k, (newMarkSet objects).contains k = true → False := fun k hk => by
    rw [newMarkSet_contains] at hk
    cases hk
  obtain ⟨r, hr⟩ := exists_mark C objects root
  match r, hr with
  | .error e, hr =>
    obtain ⟨k, hk, hm | he⟩ := hr.error (LiveMarks.marking objects) (newMarkSet_over objects)
      fun k hk => (hfresh k hk).elim
    · rw [Reaches, edge_expand] at hk
      obtain ⟨m, hover, hm⟩ := hm
      obtain ⟨data, -, hd, -⟩ := h k hk
      have hsome := hover k
      rw [hd] at hsome
      obtain ⟨b, hb⟩ := Option.isSome_iff_exists.mp hsome
      rw [LiveMarks.mark, hb] at hm
      cases hm
    · rw [Reaches, edge_expand] at hk
      obtain ⟨cs, hcs⟩ := h.expand hk
      cases he.symm.trans hcs
  | .ok (true, m), hr =>
    obtain ⟨k, -, hstop⟩ := hr.stopped (LiveMarks.marking objects) (newMarkSet_over objects)
      fun k hk => (hfresh k hk).elim
    cases hstop
  | .ok (false, m), hr =>
    obtain ⟨hset, -, -⟩ := hr.all (LiveMarks.marking objects) (newMarkSet_over objects)
      fun k hk => (hfresh k hk).elim
    refine ⟨m, hr, fun k => (hset k).trans ?_⟩
    rw [Reaches, edge_expand]
    exact ⟨fun hk => hk.resolve_left (hfresh k), .inr⟩

/-- A search of a complete tree finds what the root reaches. -/
theorem Complete.reaches (h : Complete C objects root) (target : Key) :
    ∃ b visited, DfsReturns (fun cur => decide (cur = target)) visit (Fstree.expand C objects) []
        root (.ok (b, visited)) ∧ (b = true ↔ Reachable C objects root target) := by
  obtain ⟨r, hr⟩ := exists_reaches C objects root target
  match r, hr with
  | .error e, hr =>
    obtain ⟨k, hk, hm | he⟩ := hr.error visit_marking trivial not_visited
    · obtain ⟨m, -, hm⟩ := hm
      cases hm
    · rw [Reaches, edge_expand] at hk
      obtain ⟨cs, hcs⟩ := h.expand hk
      cases he.symm.trans hcs
  | .ok (true, visited), hr =>
    obtain ⟨k, hk, hstop⟩ := hr.stopped visit_marking trivial not_visited
    rw [Reaches, edge_expand, of_decide_eq_true hstop] at hk
    exact ⟨true, visited, hr, fun _ => hk, fun _ => rfl⟩
  | .ok (false, visited), hr =>
    obtain ⟨-, -, hstop⟩ := hr.all visit_marking trivial not_visited
    refine ⟨false, visited, hr, nofun, fun hk => ?_⟩
    rw [Reachable, ← edge_expand] at hk
    rcases hstop target hk with hin | hno
    · cases hin
    · exact absurd rfl (of_decide_eq_false hno)

/-- The five walks end on every finite store. The listing that succeeds lists what the root reaches;
the check succeeds on the complete trees, and on these all walks agree. -/
theorem walks_agree (C : Cbor) (objects : Objects) (root : Key) :
    (∀ l, Loop.Yields (reachableKeys C objects · root) (.ok l) →
      l.head? = some root ∧ l.Nodup ∧ ∀ k, k ∈ l ↔ Reachable C objects root k) ∧
    ((∃ l, Loop.Yields (checkComplete C objects · root) (.ok l)) ↔ Complete C objects root) ∧
    (∀ l, Loop.Yields (checkComplete C objects · root) (.ok l) →
      Loop.Yields (reachableKeys C objects · root) (.ok l) ∧
      Loop.Yields (localMissing C objects · root) (.ok []) ∧
      (∃ m, Loop.Yields (markFrom C objects · (newMarkSet objects) root) (.ok m) ∧
        ∀ k, m.contains k = true ↔ k ∈ l) ∧
      ∀ k, Loop.Yields (reaches C objects · root k) (.ok (decide (k ∈ l)))) ∧
    (∃ r, Loop.Yields (reachableKeys C objects · root) r) ∧
    (∃ r, Loop.Yields (checkComplete C objects · root) r) ∧
    (∃ r, Loop.Yields (localMissing C objects · root) r) ∧
    (∃ r, Loop.Yields (markFrom C objects · (newMarkSet objects) root) r) ∧
    ∀ k, ∃ r, Loop.Yields (reaches C objects · root k) r := by
  have hroot := Finset.mem_insert_self root (childSet C objects)
  refine ⟨?_, ⟨?_, ?_⟩, ?_, ?_, ?_, ?_, ?_, ?_⟩
  · intro l hl
    obtain ⟨hhead, hnd, hmem, -⟩ := BfsReturns.ok (Loop.yields_run.mp hl)
    refine ⟨hhead, hnd, fun k => ?_⟩
    rw [hmem, Reaches, edge_expand]
  · rintro ⟨l, hl⟩
    exact complete_of_checked (Loop.yields_run.mp hl)
  · intro h
    obtain ⟨l, -, hl⟩ := h.lists
    exact ⟨l, Loop.yields_run.mpr hl⟩
  · intro l hl
    have h := complete_of_checked (Loop.yields_run.mp hl)
    obtain ⟨l', hl', hchecked⟩ := h.lists
    cases Loop.Returns.unique (Loop.yields_run.mp hl) hchecked
    have hmem : ∀ k, k ∈ l ↔ Reachable C objects root k := by
      intro k
      rw [hl'.ok.2.2.1, Reaches, edge_expand]
    refine ⟨Loop.yields_run.mpr hl', Loop.yields_run.mpr h.localMissing, ?_, ?_⟩
    · obtain ⟨m, hm, hset⟩ := h.mark
      refine ⟨m, (Loop.yields_run.mpr hm).map _, fun k => ?_⟩
      rw [hset, hmem]
    · intro k
      obtain ⟨b, visited, hb, hiff⟩ := h.reaches k
      have hdec : b = decide (k ∈ l) := by
        rw [Bool.eq_iff_iff, hiff, decide_eq_true_iff, hmem]
      exact hdec ▸ (Loop.yields_run.mpr hb).map _
  · obtain ⟨r, hr⟩ := exists_bfsReturns (expand C objects) _ hroot (childSet_closed root)
    exact ⟨r, Loop.yields_run.mpr hr⟩
  · obtain ⟨r, hr⟩ := exists_bfsReturns (expandChecked C objects) _ hroot (by
      rintro k c - ⟨cs, he, hc⟩
      obtain ⟨data, hd, hcs⟩ := expandChecked_ok he
      exact Finset.mem_insert_of_mem (Child.mem_childSet ⟨data, cs, hd, hcs, hc⟩))
    exact ⟨r, Loop.yields_run.mpr hr⟩
  · obtain ⟨r, hr⟩ := exists_probeReturns (probe C objects) _ hroot
      fun k c _ hc => Finset.mem_insert_of_mem (edge_expandPresent hc).mem_childSet
    exact ⟨r, Loop.yields_run.mpr hr⟩
  · obtain ⟨r, hr⟩ := exists_mark C objects root
    exact ⟨_, (Loop.yields_run.mpr hr).map _⟩
  · intro k
    obtain ⟨r, hr⟩ := exists_reaches C objects root k
    exact ⟨_, (Loop.yields_run.mpr hr).map _⟩

end AmberStore.Fstree
