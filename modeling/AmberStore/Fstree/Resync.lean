import AmberStore.Fstree.DirectorySpec
import AmberStore.Lib.Runs

/-!
# Directories that share a suffix

Two directories that differ in their first entries and agree from some point on share the leaves and
nodes after it. A build is followed event by event; each level cuts the items that come to it into
runs, from what it has seen itself and nothing else.
-/

namespace AmberStore.Fstree
open Amberpack List Except

/-- What happens in a build: a leaf is emitted, an item comes to a level, or a level emits a node. -/
inductive Event where
  | leaf (o : Object)
  | arrive (level : Nat) (it : Item)
  | node (level : Nat) (o : Object)

def Event.emitted? : Event → Option Object
  | .leaf o => some o
  | .arrive .. => none
  | .node _ o => some o

def Event.leaf? : Event → Option Object
  | .leaf o => some o
  | _ => none

def Event.arrival? (l : Nat) : Event → Option Item
  | .arrive l' it => if l' = l then some it else none
  | _ => none

def Event.node? (l : Nat) : Event → Option Object
  | .node l' o => if l' = l then some o else none
  | _ => none

/-- All objects of a build, in order. -/
def emitted (evs : List Event) : List Object := evs.filterMap Event.emitted?

def leaves (evs : List Event) : List Object := evs.filterMap Event.leaf?

/-- The items that come to a level. -/
def arrivals (l : Nat) (evs : List Event) : List Item := evs.filterMap (Event.arrival? l)

/-- The nodes that a level emits. -/
def nodesAt (l : Nat) (evs : List Event) : List Object := evs.filterMap (Event.node? l)

section Append
variable (evs evs' : List Event) (l : Nat)

@[simp] theorem emitted_append : emitted (evs ++ evs') = emitted evs ++ emitted evs' :=
  filterMap_append

@[simp] theorem leaves_append : leaves (evs ++ evs') = leaves evs ++ leaves evs' :=
  filterMap_append

@[simp] theorem arrivals_append : arrivals l (evs ++ evs') = arrivals l evs ++ arrivals l evs' :=
  filterMap_append

@[simp] theorem nodesAt_append : nodesAt l (evs ++ evs') = nodesAt l evs ++ nodesAt l evs' :=
  filterMap_append

end Append

/-! ## The events of a build -/

section Events
variable (H : Blake3) (C : Cbor) (ic : ItemChunker)

/-- The events of adding an item to the lowest of the levels, which has the given number. -/
inductive Adds : Nat → List Level → Item → List Level → List Event → Prop
  | new : Adds l [] it [[it]] [.arrive l it]
  | stay : ic.isBoundary (itemEnc C true it) (L ++ [it]).length = false →
    Adds l (L :: up) it ((L ++ [it]) :: up) [.arrive l it]
  | close : ic.isBoundary (itemEnc C true it) (L ++ [it]).length = true →
    buildNode H C true (L ++ [it]) = .ok (obj, sep) → Adds (l + 1) up ⟨obj.key, sep⟩ up' evs →
    Adds l (L :: up) it ([] :: up') (.arrive l it :: .node l obj :: evs)

/-- The events of closing the levels from the bottom. -/
inductive Closes : Nat → List Level → Key → List Event → Prop
  | empty : Closes (l + 1) up root evs → Closes l ([] :: up) root evs
  | top : Closes l [[it]] it.key []
  | single : Adds H C ic (l + 1) (L :: up) it levels evs₁ → Closes (l + 1) levels root evs₂ →
    Closes l ([it] :: L :: up) root (evs₁ ++ evs₂)
  | run : buildNode H C true (it :: it' :: L) = .ok (obj, sep) →
    Adds H C ic (l + 1) up ⟨obj.key, sep⟩ levels evs₁ → Closes (l + 1) levels root evs₂ →
    Closes l ((it :: it' :: L) :: up) root (.node l obj :: (evs₁ ++ evs₂))

/-- The events of closing the open leaf. -/
inductive ClosesLeaf : DirBuilder → DirBuilder → List Event → Prop
  | mk : encodeDirLeaf H C leaf = .ok obj →
    Adds H C ic 0 levels ⟨obj.key, lastName leaf⟩ levels' evs →
    ClosesLeaf ⟨levels, leaf⟩ ⟨levels', []⟩ (.leaf obj :: evs)

/-- The events of adding entries. -/
inductive AddsEntries : DirBuilder → List Entry → DirBuilder → List Event → Prop
  | nil : AddsEntries db [] db []
  | stay : ic.isBoundary (C.encodeEntry e) (leaf ++ [e]).length = false →
    AddsEntries ⟨levels, leaf ++ [e]⟩ es db' evs → AddsEntries ⟨levels, leaf⟩ (e :: es) db' evs
  | close : ic.isBoundary (C.encodeEntry e) (leaf ++ [e]).length = true →
    ClosesLeaf H C ic ⟨levels, leaf ++ [e]⟩ db₁ evs₁ → AddsEntries db₁ es db' evs₂ →
    AddsEntries ⟨levels, leaf⟩ (e :: es) db' (evs₁ ++ evs₂)

/-- The events of closing the trailing leaf. -/
inductive ClosesTrailing : DirBuilder → DirBuilder → List Event → Prop
  | close {db : DirBuilder} : 0 < db.leaf.length ∨ db.levels = [] → ClosesLeaf H C ic db db' evs →
    ClosesTrailing db db' evs
  | closed {db : DirBuilder} : db.leaf = [] → db.levels ≠ [] → ClosesTrailing db db []

/-- The events of building a directory. -/
inductive Builds (entries : List Entry) (root : Key) : List Event → Prop
  | mk {db db' : DirBuilder} : AddsEntries H C ic .new entries db evs₁ → ClosesTrailing H C ic db db' evs₂ →
    Closes H C ic 0 db'.levels root evs₃ → Builds entries root (evs₁ ++ evs₂ ++ evs₃)

variable {H C ic}

theorem addItem_adds (h : addItem H C ic true levels it = .ok (levels', objs)) (l : Nat) :
    ∃ evs, Adds H C ic l levels it levels' evs ∧ emitted evs = objs := by
  induction levels generalizing l it levels' objs with
  | nil =>
    cases h
    exact ⟨_, .new, rfl⟩
  | cons L up ih =>
    rcases addItem_cons h with ⟨hb, rfl, rfl⟩ | ⟨hb, obj, sep, up', objs', hn, ha, rfl, rfl⟩
    · exact ⟨_, .stay hb, rfl⟩
    · obtain ⟨evs, hup, rfl⟩ := ih ha (l + 1)
      exact ⟨_, .close hb hn hup, rfl⟩

theorem closes_of_finishes (h : Finishes H C ic true levels root objs) (l : Nat) :
    ∃ evs, Closes H C ic l levels root evs ∧ emitted evs = objs := by
  induction h generalizing l with
  | empty _ ih =>
    obtain ⟨evs, hc, he⟩ := ih (l + 1)
    exact ⟨evs, .empty hc, he⟩
  | top => exact ⟨[], .top, rfl⟩
  | single ha _ ih =>
    obtain ⟨evs₁, hadd, rfl⟩ := addItem_adds ha (l + 1)
    obtain ⟨evs₂, hc, rfl⟩ := ih (l + 1)
    exact ⟨_, .single hadd hc, emitted_append ..⟩
  | @run _ _ _ obj _ _ _ _ _ _ hn ha _ ih =>
    obtain ⟨evs₁, hadd, rfl⟩ := addItem_adds ha (l + 1)
    obtain ⟨evs₂, hc, rfl⟩ := ih (l + 1)
    exact ⟨_, .run hn hadd hc, congrArg (obj :: ·) (emitted_append ..)⟩

theorem closeLeaf_events {db : DirBuilder} (h : db.closeLeaf H C ic = .ok (db', objs)) :
    ∃ evs, ClosesLeaf H C ic db db' evs ∧ emitted evs = objs := by
  obtain ⟨obj, levels, objs', ho, ha, rfl, rfl⟩ := DirBuilder.closeLeaf_ok h
  obtain ⟨evs, hadd, rfl⟩ := addItem_adds ha 0
  exact ⟨_, .mk ho hadd, rfl⟩

theorem addEntries_events {db : DirBuilder} (h : db.addEntries H C ic es = .ok (db', objs)) :
    ∃ evs, AddsEntries H C ic db es db' evs ∧ emitted evs = objs := by
  induction es generalizing db objs with
  | nil =>
    cases h
    exact ⟨[], .nil, rfl⟩
  | cons e es ih =>
    obtain ⟨db₁, objs₁, objs₂, he, hes, rfl⟩ := DirBuilder.addEntries_cons h
    obtain ⟨evs₂, hadds, rfl⟩ := ih hes
    rw [DirBuilder.addEntry] at he
    dsimp only at he
    split at he
    · next hb =>
      obtain ⟨evs₁, hclose, rfl⟩ := closeLeaf_events he
      exact ⟨_, .close hb hclose hadds, emitted_append ..⟩
    · next hb =>
      cases he
      exact ⟨evs₂, .stay (Bool.eq_false_iff.mpr hb) hadds, rfl⟩

theorem closeTrailing_events {db : DirBuilder} (h : db.closeTrailing H C ic = .ok (db', objs)) :
    ∃ evs, ClosesTrailing H C ic db db' evs ∧ emitted evs = objs := by
  rw [DirBuilder.closeTrailing] at h
  split at h
  · next hopen =>
    obtain ⟨evs, hclose, he⟩ := closeLeaf_events h
    exact ⟨evs, .close hopen hclose, he⟩
  · next hopen =>
    cases h
    rw [not_or] at hopen
    have hleaf : db'.leaf = [] := length_eq_zero_iff.mp (Nat.eq_zero_of_not_pos hopen.1)
    exact ⟨[], .closed hleaf hopen.2, rfl⟩

theorem buildDirectory_events (h : buildDirectory H C ic entries = .ok (root, objs)) :
    ∃ evs, Builds H C ic entries root evs ∧ emitted evs = objs := by
  obtain ⟨db, objs₁, objs₂, hadd, hfinish, rfl⟩ := buildDirectory_ok h
  obtain ⟨db', objs₃, objs₄, hclose, hindex, rfl⟩ := DirBuilder.finish_ok hfinish
  obtain ⟨evs₁, h₁, rfl⟩ := addEntries_events hadd
  obtain ⟨evs₂, h₂, rfl⟩ := closeTrailing_events hclose
  obtain ⟨evs₃, h₃, rfl⟩ := closes_of_finishes (finishIndex_ok hindex) 0
  exact ⟨_, .mk h₁ h₂ h₃, by simp⟩

/-! ## The levels -/

end Events

section Levels
variable (H : Blake3) (C : Cbor) (ic : ItemChunker)

def nodeOf (L : Level) : Except FsError Object := (buildNode H C true L).map Prod.fst

/-- A level on its own: the open run and the nodes after some more items. -/
def levelFeed : Level → List Item → Except FsError (Level × List Object) :=
  Runs.feed (fun it n => ic.isBoundary (itemEnc C true it) n) (nodeOf H C)

/-- A level on its own to the end, where a run of one item passes on as it is. -/
def levelNodes : Level → List Item → Except FsError (List Object) :=
  Runs.feedAll (fun it n => ic.isBoundary (itemEnc C true it) n) (nodeOf H C) 2

/-- The open run of a level. -/
def openRun (levels : List Level) (j : Nat) : Level := levels.getD j []

variable {H C ic}

theorem nodeOf_ok (h : buildNode H C true L = .ok (obj, sep)) : nodeOf H C L = .ok obj := by
  rw [nodeOf, h]
  rfl

theorem levelFeed_stay (h : ic.isBoundary (itemEnc C true it) (L ++ [it]).length = false) :
    levelFeed H C ic L [it] = .ok (L ++ [it], []) := by
  have hb : ¬ic.isBoundary (itemEnc C true it) (L ++ [it]).length = true := Bool.eq_false_iff.mp h
  exact if_neg hb

theorem levelFeed_close (h : ic.isBoundary (itemEnc C true it) (L ++ [it]).length = true)
    (hn : buildNode H C true (L ++ [it]) = .ok (obj, sep)) :
    levelFeed H C ic L [it] = .ok ([], [obj]) := by
  rw [levelFeed, Runs.feed, if_pos h, nodeOf_ok hn]
  rfl

theorem levelFeed_first : levelFeed H C ic [] [it] = .ok ([it], []) := by
  refine levelFeed_stay (L := []) (Bool.eq_false_iff.mpr fun hb => ?_)
  have := ItemChunker.two_le hb
  simp at this

theorem Adds.untouched (h : Adds H C ic l levels it levels' evs) (hj : j < l) :
    arrivals j evs = [] ∧ nodesAt j evs = [] := by
  induction h with
  | new => simp [arrivals, nodesAt, Event.arrival?, Event.node?]; omega
  | stay => simp [arrivals, nodesAt, Event.arrival?, Event.node?]; omega
  | close hb hn _ ih =>
    have := ih (by omega)
    simp only [arrivals, nodesAt, filterMap_cons, Event.arrival?, Event.node?] at this ⊢
    rw [if_neg (by omega), if_neg (by omega)]
    exact this

theorem Closes.untouched (h : Closes H C ic l levels root evs) (hj : j < l) :
    arrivals j evs = [] ∧ nodesAt j evs = [] := by
  induction h with
  | empty _ ih => exact ih (by omega)
  | top => exact ⟨rfl, rfl⟩
  | single ha _ ih =>
    have h₁ := ha.untouched (j := j) (by omega)
    have h₂ := ih (by omega)
    simp [h₁, h₂]
  | run hn ha _ ih =>
    have h₁ := ha.untouched (j := j) (by omega)
    have h₂ := ih (by omega)
    simp only [arrivals, nodesAt, filterMap_cons, Event.arrival?, Event.node?] at h₁ h₂ ⊢
    rw [if_neg (by omega)]
    simp [h₁, h₂]

/-! ## What a level has seen decides what it emits -/

theorem levelFeed_append (h : levelFeed H C ic L its = .ok (L', objs))
    (h' : levelFeed H C ic L' its' = .ok (L'', objs')) :
    levelFeed H C ic L (its ++ its') = .ok (L'', objs ++ objs') :=
  Runs.feed_append h h'

theorem arrivals_arrive : arrivals l (.arrive l it :: evs) = it :: arrivals l evs := by
  simp [arrivals, Event.arrival?]

theorem nodesAt_node : nodesAt l (.node l o :: evs) = o :: nodesAt l evs := by
  simp [nodesAt, Event.node?]

@[simp] theorem arrivals_node : arrivals l (.node l' o :: evs) = arrivals l evs := rfl

@[simp] theorem nodesAt_arrive : nodesAt l (.arrive l' it :: evs) = nodesAt l evs := rfl

theorem arrivals_arrive_ne (h : l' ≠ l) : arrivals l (.arrive l' it :: evs) = arrivals l evs := by
  simp [arrivals, Event.arrival?, h]

theorem nodesAt_node_ne (h : l' ≠ l) : nodesAt l (.node l' o :: evs) = nodesAt l evs := by
  simp [nodesAt, Event.node?, h]

/-- Adding an item: every level does on its own what the build does with it. -/
theorem Adds.feed (h : Adds H C ic l levels it levels' evs) (j : Nat) :
    levelFeed H C ic (openRun levels j) (arrivals (l + j) evs) =
      .ok (openRun levels' j, nodesAt (l + j) evs) := by
  induction h generalizing j with
  | @new l it =>
    cases j with
    | zero =>
      rw [Nat.add_zero, arrivals_arrive]
      exact levelFeed_first
    | succ j =>
      rw [arrivals_arrive_ne (by omega)]
      rfl
  | @stay it L l up hb =>
    cases j with
    | zero =>
      rw [Nat.add_zero, arrivals_arrive]
      exact levelFeed_stay hb
    | succ j =>
      rw [arrivals_arrive_ne (by omega)]
      rfl
  | @close it L obj sep l up up' evs hb hn hup ih =>
    cases j with
    | zero =>
      have hbelow := hup.untouched (Nat.lt_succ_self l)
      rw [Nat.add_zero, arrivals_arrive, nodesAt_arrive, nodesAt_node, arrivals_node, hbelow.1,
        hbelow.2]
      exact levelFeed_close hb hn
    | succ j =>
      rw [arrivals_arrive_ne (by omega), nodesAt_arrive, nodesAt_node_ne (by omega), arrivals_node]
      have := ih j
      rw [Nat.add_right_comm] at this
      exact this

theorem ClosesLeaf.feed (h : ClosesLeaf H C ic db db' evs) (j : Nat) :
    levelFeed H C ic (openRun db.levels j) (arrivals j evs) =
      .ok (openRun db'.levels j, nodesAt j evs) := by
  cases h with
  | mk _ hadd =>
    have := hadd.feed j
    rw [Nat.zero_add] at this
    exact this

theorem AddsEntries.feed (h : AddsEntries H C ic db es db' evs) (j : Nat) :
    levelFeed H C ic (openRun db.levels j) (arrivals j evs) =
      .ok (openRun db'.levels j, nodesAt j evs) := by
  induction h with
  | nil => rfl
  | stay _ _ ih => exact ih
  | close _ hclose _ ih =>
    rw [arrivals_append, nodesAt_append]
    exact levelFeed_append (hclose.feed j) ih

theorem ClosesTrailing.feed (h : ClosesTrailing H C ic db db' evs) (j : Nat) :
    levelFeed H C ic (openRun db.levels j) (arrivals j evs) =
      .ok (openRun db'.levels j, nodesAt j evs) := by
  cases h with
  | close _ hclose => exact hclose.feed j
  | closed => rfl

/-- Closing the levels: an item that is alone in its run passes on, a longer run becomes a node. -/
theorem Closes.nodes (h : Closes H C ic l levels root evs) (j : Nat) :
    levelNodes H C ic (openRun levels j) (arrivals (l + j) evs) = .ok (nodesAt (l + j) evs) := by
  induction h generalizing j with
  | @empty l up root evs hc ih =>
    cases j with
    | zero =>
      have hbelow := hc.untouched (Nat.lt_succ_self l)
      rw [Nat.add_zero, hbelow.1, hbelow.2]
      rfl
    | succ j =>
      have := ih j
      rw [Nat.add_right_comm] at this
      exact this
  | top =>
    cases j with
    | zero => rfl
    | succ j => rfl
  | @single l L up it levels evs₁ root evs₂ ha hc ih =>
    rw [arrivals_append, nodesAt_append]
    cases j with
    | zero =>
      have h₁ := ha.untouched (Nat.lt_succ_self l)
      have h₂ := hc.untouched (Nat.lt_succ_self l)
      rw [Nat.add_zero, h₁.1, h₁.2, h₂.1, h₂.2]
      rfl
    | succ j =>
      have h₁ := ha.feed j
      have h₂ := ih j
      rw [Nat.add_right_comm] at h₁ h₂
      exact Runs.feedAll_append h₁ h₂
  | @run it it' L obj sep l up levels evs₁ root evs₂ hn ha hc ih =>
    rw [arrivals_node]
    cases j with
    | zero =>
      have h₁ := ha.untouched (Nat.lt_succ_self l)
      have h₂ := hc.untouched (Nat.lt_succ_self l)
      rw [Nat.add_zero, nodesAt_node, arrivals_append, nodesAt_append, h₁.1, h₁.2, h₂.1, h₂.2]
      refine bind_eq_ok.mpr ⟨(it :: it' :: L, []), rfl, ?_⟩
      refine bind_eq_ok.mpr ⟨[obj], ?_, rfl⟩
      rw [Runs.trailing, if_pos (by simp), nodeOf_ok hn]
      rfl
    | succ j =>
      rw [nodesAt_node_ne (by omega), arrivals_append, nodesAt_append]
      have h₁ := ha.feed j
      have h₂ := ih j
      rw [Nat.add_right_comm] at h₁ h₂
      exact Runs.feedAll_append h₁ h₂

/-- The nodes of a level are those it makes on its own of the items that come to it. -/
theorem Builds.nodes (h : Builds H C ic entries root evs) (j : Nat) :
    levelNodes H C ic [] (arrivals j evs) = .ok (nodesAt j evs) := by
  cases h with
  | mk hadd htrail hclose =>
    have hopen := levelFeed_append (hadd.feed j) (htrail.feed j)
    have hend := hclose.nodes j
    rw [Nat.zero_add] at hend
    rw [arrivals_append, arrivals_append, nodesAt_append, nodesAt_append]
    exact Runs.feedAll_append hopen hend

/-! ## The leaves -/

variable (H C ic)

/-- The leaves on their own: the open leaf and the leaves after some more entries. -/
def leafFeed : List Entry → List Entry → Except FsError (List Entry × List Object) :=
  Runs.feed (fun e n => ic.isBoundary (C.encodeEntry e) n) (encodeDirLeaf H C)

def leafAll : List Entry → List Entry → Except FsError (List Object) :=
  Runs.feedAll (fun e n => ic.isBoundary (C.encodeEntry e) n) (encodeDirLeaf H C) 1

variable {H C ic}

theorem Adds.leaves_eq (h : Adds H C ic l levels it levels' evs) :
    leaves evs = [] ∧ levels' ≠ [] := by
  induction h with
  | new => exact ⟨rfl, cons_ne_nil _ _⟩
  | stay => exact ⟨rfl, cons_ne_nil _ _⟩
  | close _ _ _ ih => exact ⟨ih.1, cons_ne_nil _ _⟩

theorem Closes.leaves_eq (h : Closes H C ic l levels root evs) : leaves evs = [] := by
  induction h with
  | empty _ ih => exact ih
  | top => rfl
  | single ha _ ih => rw [leaves_append, ha.leaves_eq.1, ih, append_nil]
  | run hn ha _ ih =>
    refine (leaves_append ..).trans ?_
    rw [ha.leaves_eq.1, ih, append_nil]

theorem AddsEntries.leaves_eq (h : AddsEntries H C ic db es db' evs) :
    leafFeed H C ic db.leaf es = .ok (db'.leaf, leaves evs) := by
  induction h with
  | nil => rfl
  | @stay e leaf levels es db' evs hb _ ih =>
    have hopen : ¬ic.isBoundary (C.encodeEntry e) (leaf ++ [e]).length = true :=
      Bool.eq_false_iff.mp hb
    exact (if_neg hopen).trans ih
  | close hb hclose _ ih =>
    cases hclose with
    | mk ho ha =>
      refine (if_pos hb).trans ?_
      refine bind_eq_ok.mpr ⟨_, ho, bind_eq_ok.mpr ⟨_, ih, ?_⟩⟩
      rw [leaves_append]
      have hnone := ha.leaves_eq.1
      simp only [leaves, filterMap_cons, Event.leaf?] at hnone ⊢
      rw [hnone]
      rfl

theorem AddsEntries.levels_ne (h : AddsEntries H C ic db es db' evs)
    (hopen : db.levels ≠ [] ∨ leaves evs ≠ []) : db'.levels ≠ [] := by
  induction h with
  | nil => exact hopen.resolve_right fun hne => hne rfl
  | stay _ _ ih => exact ih hopen
  | close _ hclose _ ih =>
    cases hclose with
    | mk _ ha => exact ih (.inl ha.leaves_eq.2)

/-- Once a leaf is closed, the leaves are those that the entries make on their own. -/
theorem Builds.leaves_eq (h : Builds H C ic (p ++ s) root evs)
    (hp : leafFeed H C ic [] p = .ok ([], ls)) (hne : ls ≠ []) :
    leafAll H C ic [] (p ++ s) = .ok (leaves evs) := by
  cases h with
  | @mk evs₁ evs₂ evs₃ db db' hadd htrail hclose =>
    have hfeed := hadd.leaves_eq
    obtain ⟨run, ys, ys', hys, -, hsplit⟩ := Runs.feed_append_ok hfeed
    cases hp.symm.trans hys
    have hlevels : db.levels ≠ [] := by
      refine hadd.levels_ne (.inr ?_)
      rw [hsplit]
      exact append_ne_nil_of_left_ne_nil hne ys'
    refine bind_eq_ok.mpr ⟨_, hfeed, ?_⟩
    rw [leaves_append, leaves_append, hclose.leaves_eq, append_nil]
    refine bind_eq_ok.mpr ⟨leaves evs₂, ?_, rfl⟩
    cases htrail with
    | close hor hleaf =>
      cases hleaf with
      | mk ho ha =>
        refine (if_pos (hor.resolve_right hlevels)).trans ?_
        rw [ho]
        have hnone := ha.leaves_eq.1
        simp only [leaves, filterMap_cons, Event.leaf?] at hnone ⊢
        rw [hnone]
        rfl
    | closed hleaf =>
      rw [hleaf]
      rfl

/-- The leaves among objects. -/
def dirLeaves (objs : List Object) : List Object := objs.filter fun o => o.key.type = .dirLeaf

theorem dirLeaves_append : dirLeaves (objs ++ objs') = dirLeaves objs ++ dirLeaves objs' :=
  filter_append ..

theorem dirLeaves_node (h : buildNode H C true L = .ok (obj, sep)) :
    dirLeaves (obj :: objs) = dirLeaves objs := by
  obtain ⟨o, ho, h⟩ := bind_eq_ok.mp h
  cases h
  have htype := (encodeDirNode_ok ho).2.1
  simp [dirLeaves, htype]

theorem Adds.dirLeaves_emitted (h : Adds H C ic l levels it levels' evs) :
    dirLeaves (emitted evs) = [] := by
  induction h with
  | new => rfl
  | stay => rfl
  | close _ hn _ ih => exact (dirLeaves_node hn).trans ih

theorem Closes.dirLeaves_emitted (h : Closes H C ic l levels root evs) :
    dirLeaves (emitted evs) = [] := by
  induction h with
  | empty _ ih => exact ih
  | top => rfl
  | single ha _ ih => rw [emitted_append, dirLeaves_append, ha.dirLeaves_emitted, ih, append_nil]
  | run hn ha _ ih =>
    refine (dirLeaves_node hn).trans ?_
    rw [← emitted, emitted_append, dirLeaves_append, ha.dirLeaves_emitted, ih, append_nil]

theorem ClosesLeaf.dirLeaves_emitted (h : ClosesLeaf H C ic db db' evs) :
    dirLeaves (emitted evs) = leaves evs := by
  cases h with
  | @mk leaf obj levels levels' evs ho ha =>
    have htype := (encodeDirLeaf_ok ho).2.1
    have hemit := ha.dirLeaves_emitted
    have hnone := ha.leaves_eq.1
    simp only [dirLeaves, emitted, leaves, filterMap_cons, Event.emitted?, Event.leaf?,
      filter_cons, htype, decide_true, if_true] at hemit hnone ⊢
    rw [hemit, hnone]

theorem AddsEntries.dirLeaves_emitted (h : AddsEntries H C ic db es db' evs) :
    dirLeaves (emitted evs) = leaves evs := by
  induction h with
  | nil => rfl
  | stay _ _ ih => exact ih
  | close _ hclose _ ih =>
    rw [emitted_append, dirLeaves_append, leaves_append, hclose.dirLeaves_emitted, ih]

theorem Builds.dirLeaves_emitted (h : Builds H C ic entries root evs) :
    dirLeaves (emitted evs) = leaves evs := by
  cases h with
  | @mk evs₁ evs₂ evs₃ db db' hadd htrail hclose =>
    have h₂ : dirLeaves (emitted evs₂) = leaves evs₂ := by
      cases htrail with
      | close _ hleaf => exact hleaf.dirLeaves_emitted
      | closed => rfl
    simp only [emitted_append, dirLeaves_append, leaves_append, hadd.dirLeaves_emitted, h₂,
      hclose.dirLeaves_emitted, hclose.leaves_eq]

theorem leafFeed_closed (hne : p ≠ []) (h : DirBuilder.new.addEntries H C ic p = .ok (db, before))
    (hclosed : db.leaf = []) :
    leafFeed H C ic [] p = .ok ([], dirLeaves before) ∧ dirLeaves before ≠ [] := by
  obtain ⟨evs, hadds, rfl⟩ := addEntries_events h
  have hfeed := hadds.leaves_eq
  rw [hclosed] at hfeed
  rw [hadds.dirLeaves_emitted]
  refine ⟨hfeed, fun hnone => hne ?_⟩
  rw [hnone] at hfeed
  exact (Runs.feed_no_outputs hfeed).symm

/-! ## Sharing -/

/-- Two builds whose entries agree after a leaf that both close emit the same leaves for them. Every
level that has closed a node in both, and then gets the same items in both, emits the same nodes for
these; if no others come the same later nodes altogether, with those of the end. -/
theorem suffix_shared (H : Blake3) (C : Cbor) (ic : ItemChunker) (p₁ p₂ s : List Entry)
    (hbuild₁ : buildDirectory H C ic (p₁ ++ s) = .ok (root₁, objs₁))
    (hbuild₂ : buildDirectory H C ic (p₂ ++ s) = .ok (root₂, objs₂)) :
    (∀ db₁ before₁ db₂ before₂, p₁ ≠ [] → p₂ ≠ [] →
      DirBuilder.new.addEntries H C ic p₁ = .ok (db₁, before₁) → db₁.leaf = [] →
      DirBuilder.new.addEntries H C ic p₂ = .ok (db₂, before₂) → db₂.leaf = [] →
      ∃ later, dirLeaves objs₁ = dirLeaves before₁ ++ later ∧
        dirLeaves objs₂ = dirLeaves before₂ ++ later) ∧
    ∃ evs₁ evs₂, Builds H C ic (p₁ ++ s) root₁ evs₁ ∧ emitted evs₁ = objs₁ ∧
      Builds H C ic (p₂ ++ s) root₂ evs₂ ∧ emitted evs₂ = objs₂ ∧
      ∀ level its₁ its₂ its more₁ more₂ nodes₁ nodes₂,
        arrivals level evs₁ = its₁ ++ (its ++ more₁) →
        arrivals level evs₂ = its₂ ++ (its ++ more₂) →
        levelFeed H C ic [] its₁ = .ok ([], nodes₁) → levelFeed H C ic [] its₂ = .ok ([], nodes₂) →
        ∃ nodes later₁ later₂, nodesAt level evs₁ = nodes₁ ++ (nodes ++ later₁) ∧
          nodesAt level evs₂ = nodes₂ ++ (nodes ++ later₂) ∧
          (∃ run, levelFeed H C ic [] its = .ok (run, nodes)) ∧ (more₁ = more₂ → later₁ = later₂) := by
  obtain ⟨evs₁, h₁, rfl⟩ := buildDirectory_events hbuild₁
  obtain ⟨evs₂, h₂, rfl⟩ := buildDirectory_events hbuild₂
  constructor
  · intro db₁ before₁ db₂ before₂ hne₁ hne₂ hp₁ hleaf₁ hp₂ hleaf₂
    obtain ⟨hfeed₁, hsome₁⟩ := leafFeed_closed hne₁ hp₁ hleaf₁
    obtain ⟨hfeed₂, hsome₂⟩ := leafFeed_closed hne₂ hp₂ hleaf₂
    have hall₁ := h₁.leaves_eq hfeed₁ hsome₁
    have hall₂ := h₂.leaves_eq hfeed₂ hsome₂
    rw [← append_nil s] at hall₁ hall₂
    obtain ⟨run, ys, later₁, later₂, -, hl₁, hl₂, hlater⟩ :=
      Runs.feedAll_shared hfeed₁ hfeed₂ hall₁ hall₂
    refine ⟨ys ++ later₁, h₁.dirLeaves_emitted.trans hl₁, h₂.dirLeaves_emitted.trans ?_⟩
    rw [hlater rfl]
    exact hl₂
  · refine ⟨evs₁, evs₂, h₁, rfl, h₂, rfl, ?_⟩
    intro level its₁ its₂ its more₁ more₂ nodes₁ nodes₂ harr₁ harr₂ hits₁ hits₂
    have hall₁ := h₁.nodes level
    have hall₂ := h₂.nodes level
    rw [harr₁] at hall₁
    rw [harr₂] at hall₂
    obtain ⟨run, nodes, later₁, later₂, hits, hn₁, hn₂, hlater⟩ :=
      Runs.feedAll_shared hits₁ hits₂ hall₁ hall₂
    exact ⟨nodes, later₁, later₂, hn₁, hn₂, ⟨run, hits⟩, hlater⟩

theorem addEntries_pair (hmax : ic.maxRun = 2)
    (h : DirBuilder.new.addEntries H C ic [e, e'] = .ok (db, objs)) : db.leaf = [] := by
  obtain ⟨db₁, objs₁, objs₂, hfirst, hrest, -⟩ := DirBuilder.addEntries_cons h
  cases (DirBuilder.new_addEntry e).symm.trans hfirst
  obtain ⟨db₂, objs₃, objs₄, hsecond, hnil, -⟩ := DirBuilder.addEntries_cons hrest
  cases hnil
  have hb : ic.isBoundary (C.encodeEntry e') ([e] ++ [e']).length = true :=
    if_pos (by rw [hmax]; exact Nat.le_refl 2)
  obtain ⟨obj, levels, objs', -, -, rfl, -⟩ := DirBuilder.closeLeaf_ok ((if_pos hb).symm.trans hsecond)
  rfl

/-- Runs of two. -/
def pairRuns : ItemChunker := ⟨2, 2, fun _ => true, Nat.le_refl 2, Nat.le_refl 2⟩

/-- Two directories of three entries that share the last one. -/
theorem suffix_shared_pairs :
    ∃ root₁ objs₁ root₂ objs₂ db₁ before₁ db₂ before₂ later,
      buildDirectory (fun _ => ⟨List.replicate 32 0, rfl⟩) .counting pairRuns
        ([emptyFile [97], emptyFile [98]] ++ [emptyFile [101]]) = .ok (root₁, objs₁) ∧
      buildDirectory (fun _ => ⟨List.replicate 32 0, rfl⟩) .counting pairRuns
        ([emptyFile [99], emptyFile [100]] ++ [emptyFile [101]]) = .ok (root₂, objs₂) ∧
      DirBuilder.new.addEntries (fun _ => ⟨List.replicate 32 0, rfl⟩) .counting pairRuns
        [emptyFile [97], emptyFile [98]] = .ok (db₁, before₁) ∧ db₁.leaf = [] ∧
      DirBuilder.new.addEntries (fun _ => ⟨List.replicate 32 0, rfl⟩) .counting pairRuns
        [emptyFile [99], emptyFile [100]] = .ok (db₂, before₂) ∧ db₂.leaf = [] ∧
      dirLeaves objs₁ = dirLeaves before₁ ++ later ∧ dirLeaves objs₂ = dirLeaves before₂ ++ later := by
  have hok : ∀ name, (emptyFile name).KeysOk := fun name => by simp [Entry.KeysOk, emptyFile]
  obtain ⟨root₁, objs₁, hbuild₁⟩ : ∃ root objs, buildDirectory
      (fun _ => ⟨List.replicate 32 0, rfl⟩) .counting pairRuns
      ([emptyFile [97], emptyFile [98]] ++ [emptyFile [101]]) = .ok (root, objs) :=
    exists_buildDirectory (by simp [hok])
  obtain ⟨root₂, objs₂, hbuild₂⟩ : ∃ root objs, buildDirectory
      (fun _ => ⟨List.replicate 32 0, rfl⟩) .counting pairRuns
      ([emptyFile [99], emptyFile [100]] ++ [emptyFile [101]]) = .ok (root, objs) :=
    exists_buildDirectory (by simp [hok])
  have hpair : ∀ a b, ∃ db before, DirBuilder.new.addEntries (fun _ => ⟨List.replicate 32 0, rfl⟩)
      .counting pairRuns [emptyFile a, emptyFile b] = .ok (db, before) ∧ db.Ready := fun a b =>
    DirBuilder.Ready.new.addEntries (by simp [hok])
  obtain ⟨db₁, before₁, hp₁, -⟩ := hpair [97] [98]
  obtain ⟨db₂, before₂, hp₂, -⟩ := hpair [99] [100]
  have hleaf₁ := addEntries_pair rfl hp₁
  have hleaf₂ := addEntries_pair rfl hp₂
  obtain ⟨hleaves, -⟩ := suffix_shared _ _ _ _ _ _ hbuild₁ hbuild₂
  obtain ⟨later, h₁, h₂⟩ := hleaves db₁ before₁ db₂ before₂ (cons_ne_nil _ _)
    (cons_ne_nil _ _) hp₁ hleaf₁ hp₂ hleaf₂
  exact ⟨root₁, objs₁, root₂, objs₂, db₁, before₁, db₂, before₂, later, hbuild₁, hbuild₂, hp₁, hleaf₁,
    hp₂, hleaf₂, h₁, h₂⟩

end Levels

end AmberStore.Fstree
