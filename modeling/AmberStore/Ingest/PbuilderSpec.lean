import AmberStore.Ingest.Content
import AmberStore.Ingest.Pbuilder

/-!
# The parallel builder does what the walk does

Each job of a build is related to the sequential result it works towards, the objects it has emitted,
the slots it holds and a bound on its steps. Every step keeps this, whatever the others do.
-/

namespace AmberStore.Ingest
open Amberpack Fstree Cborx Except

/-! ## What has been emitted -/

def keysIn (out : Multiset Object) (k : Key) : Prop := ∃ o ∈ out, o.key = k

theorem keysIn.mono (h : keysIn out k) (hle : out ≤ out') : keysIn out' k := by
  obtain ⟨o, ho, hk⟩ := h
  exact ⟨o, Multiset.mem_of_le hle ho, hk⟩

/-- A statement about what is emitted after a base holds once the rest is emitted. -/
def Partly (P : (Key → Prop) → List Object → Prop) (out : Multiset Object) (left : List Object) :
    Prop :=
  ∃ (base : Multiset Object) (done : List Object), out = base + ↑done ∧ P (keysIn base) (done ++ left)

/-- The children of an object are there. -/
def Founded (C : Cbor) (out : Multiset Object) (o : Object) : Prop :=
  ∃ cs, childKeys C o.key o.data = .ok cs ∧ ∀ c ∈ cs, keysIn out c

/-- A statement about objects that has children first, and of which nothing is left once all of them
are part of the base. -/
structure Absorbs (C : Cbor) (P : (Key → Prop) → List Object → Prop) : Prop where
  first : P base objs → ChildrenFirst C base objs
  absorb : P base objs → (∀ k, base k ∨ (∃ o ∈ objs, o.key = k) → base' k) → P base' []

section Partly
variable {C : Cbor} {P : (Key → Prop) → List Object → Prop}

theorem Partly.start (h : P (keysIn out) left) : Partly P out left := by
  refine ⟨out, [], ?_, h⟩
  rw [Multiset.coe_nil, add_zero]

theorem Partly.emit (h : Partly P out (o :: left)) : Partly P (out + ↑(some o).toList) left := by
  obtain ⟨base, done, rfl, hP⟩ := h
  refine ⟨base, done ++ [o], ?_, ?_⟩
  · rw [add_assoc, Multiset.coe_add]
    rfl
  · rwa [List.append_assoc]

theorem Partly.founded (hP : Absorbs C P) (h : Partly P out (o :: left)) : Founded C out o := by
  obtain ⟨base, done, rfl, h⟩ := h
  obtain ⟨cs, hcs, hbase⟩ := hP.first h done o left rfl
  refine ⟨cs, hcs, fun c hc => ?_⟩
  rcases hbase c hc with ⟨x, hx, hk⟩ | ⟨x, hx, hk⟩
  · exact ⟨x, Multiset.mem_add.mpr (.inl hx), hk⟩
  · exact ⟨x, Multiset.mem_add.mpr (.inr (Multiset.mem_coe.mpr hx)), hk⟩

theorem Partly.done (hP : Absorbs C P) (h : Partly P out []) : P (keysIn out) [] := by
  obtain ⟨base, done, rfl, h⟩ := h
  refine hP.absorb h fun k hk => ?_
  rw [List.append_nil] at hk
  rcases hk with ⟨x, hx, hk⟩ | ⟨x, hx, hk⟩
  · exact ⟨x, Multiset.mem_add.mpr (.inl hx), hk⟩
  · exact ⟨x, Multiset.mem_add.mpr (.inr (Multiset.mem_coe.mpr hx)), hk⟩

end Partly

section Absorb
variable {C : Cbor} {base base' : Key → Prop}

theorem flatten_map_nil (l : List α) : (l.map fun _ => ([] : List β)).flatten = [] := by
  induction l with
  | nil => rfl
  | cons _ _ ih => exact ih

theorem Placed.here (h : ∀ k ∈ ks, base k) :
    List.Forall₂ (Placed C base) ks (ks.map fun _ => []) := by
  rw [List.forall₂_map_right_iff, List.forall₂_same]
  exact fun k hk => ⟨.nil, .inl (h k hk)⟩

def EntryPlaced (C : Cbor) (e : Entry) (base : Key → Prop) : List Object → Prop :=
  EntryEmits (Placed C base) e

def RootPlaced (C : Cbor) (root : Key) (base : Key → Prop) (objs : List Object) : Prop :=
  root.Canonical ∧ Placed C base root objs

def DbPlaced (C : Cbor) (db : DirBuilder) (base : Key → Prop) : List Object → Prop :=
  DirDenotes (EntryEmits (Placed C base)) (Emits (Placed C base)) db

theorem EntryPlaced.absorb (h : EntryPlaced C e base objs)
    (hbase : ∀ k, base k ∨ (∃ o ∈ objs, o.key = k) → base' k) : EntryPlaced C e base' [] := by
  obtain ⟨c, x, dss, hnames, hall, rfl⟩ := h
  have hmem : ∀ k ∈ c.toList ++ x.toList, base' k := fun k hk => hbase k ((Placed.all hall).2 k hk)
  exact ⟨c, x, _, hnames, Placed.here hmem, (flatten_map_nil _).symm⟩

theorem EntryPlaced.mono (h : EntryPlaced C e base []) (hbase : ∀ k, base k → base' k) :
    EntryPlaced C e base' [] :=
  h.absorb fun k hk => hk.elim (hbase k) fun ⟨_, ho, _⟩ => absurd ho List.not_mem_nil

theorem EntryPlaced.absorbs (C : Cbor) (e : Entry) : Absorbs C (EntryPlaced C e) := by
  refine ⟨fun h => ?_, EntryPlaced.absorb⟩
  obtain ⟨c, x, dss, -, hall, rfl⟩ := h
  exact (Placed.all hall).1

theorem RootPlaced.absorbs (C : Cbor) (root : Key) : Absorbs C (RootPlaced C root) :=
  ⟨fun h => h.2.first, fun h hbase => ⟨h.1, .nil, .inl (hbase root h.2.mem)⟩⟩

theorem denotes_first (h : Denotes (Emits (Placed C base)) levels objs) :
    ChildrenFirst C base objs := by
  induction h with
  | nil => exact .nil
  | cons hL _ ih => exact ih.append ((Placed.all (Emits.run hL).2).1.mono fun _ hb => .inl hb)

theorem denotes_absorb (h : Denotes (Emits (Placed C base)) levels objs)
    (hbase : ∀ k, base k ∨ (∃ o ∈ objs, o.key = k) → base' k) :
    Denotes (Emits (Placed C base')) levels [] := by
  induction h with
  | nil => exact .nil
  | @cons L ds up c hL _ ih =>
    have hup := ih fun k hk => hbase k (hk.imp_right fun ⟨o, ho, hok⟩ =>
      ⟨o, List.mem_append_left _ ho, hok⟩)
    have hrun : List.Forall₂ (Emits (Placed C base')) L (L.map fun _ => []) := by
      rw [List.forall₂_map_right_iff, List.forall₂_same]
      intro it hit
      obtain ⟨hcanon, hall⟩ := Emits.run hL
      refine ⟨hcanon it hit, .nil, .inl (hbase _ ?_)⟩
      exact ((Placed.all hall).2 _ (List.mem_map_of_mem hit)).imp_right fun ⟨o, ho, hok⟩ =>
        ⟨o, List.mem_append_right _ ho, hok⟩
    have hcons := Denotes.cons hrun hup
    rwa [flatten_map_nil] at hcons

theorem DbPlaced.absorb (h : DbPlaced C db base objs)
    (hbase : ∀ k, base k ∨ (∃ o ∈ objs, o.key = k) → base' k) : DbPlaced C db base' [] := by
  cases h with
  | @mk levels c leaf ds hlevels hleaf =>
    have hlevels' := denotes_absorb hlevels fun k hk => hbase k (hk.imp_right fun ⟨o, ho, hok⟩ =>
      ⟨o, List.mem_append_left _ ho, hok⟩)
    have hleaf' : List.Forall₂ (EntryEmits (Placed C base')) leaf (leaf.map fun _ => []) := by
      rw [List.forall₂_map_right_iff, List.forall₂_same]
      intro e he
      obtain ⟨ds', hds', hemits⟩ := hleaf.exists_right he
      refine EntryPlaced.absorb hemits fun k hk => hbase k (hk.imp_right fun ⟨o, ho, hok⟩ => ?_)
      exact ⟨o, List.mem_append_right _ (List.mem_flatten_of_mem hds' ho), hok⟩
    have hmk := DirDenotes.mk hlevels' hleaf'
    rwa [flatten_map_nil] at hmk

theorem DbPlaced.absorbs (C : Cbor) (db : DirBuilder) : Absorbs C (DbPlaced C db) := by
  refine ⟨fun h => ?_, DbPlaced.absorb⟩
  cases h with
  | mk hlevels hleaf =>
    obtain ⟨-, -, hfirst, -⟩ := EntryEmits.placed hleaf
    exact (denotes_first hlevels).append (hfirst.mono fun _ hb => .inl hb)

end Absorb

/-! ## How far a job is -/

abbrev JobKind.Result : JobKind → Type
  | .entry => Entry
  | .dir => Key

/-- What a job has emitted, the slots it holds, and a bound on its steps. -/
structure Ghost where
  out : Multiset Object
  held : Nat
  cost : Nat

/-- A started job of a directory, with the child it is for. -/
structure Slot (M : Type) where
  mode : Mode
  job : Job M .entry
  node : Node
  ghost : Ghost

/-- A worker holds a slot, and gives it back in one step. -/
def Mode.held : Mode → Nat
  | .worker => 1
  | _ => 0

section At
variable (H : Blake3) (C : Cbor) (d : Driver) {M : Type} (matcher : Matcher M)

/-- The number of objects. -/
def objCount : Except FsError (α × List Object) → Nat
  | .ok (_, objs) => objs.length
  | .error _ => 0

/-- The steps to assemble a directory. -/
def assembleCost (db : DirBuilder) : List (Except FsError Entry) → Nat
  | [] => 1 + objCount (db.finish H C d.ic)
  | .error _ :: _ => 1
  | .ok e :: rs =>
    match db.addEntry H C d.ic e with
    | .ok (db, objs) => 1 + objs.length + assembleCost db rs
    | .error _ => 1

mutual

/-- The steps to build an entry. -/
def entryCost (ign : M) : Node → Nat
  | .mk name info content children =>
    1 + objCount (buildEntry H C d matcher ign (.mk name info content children)) +
      match matcher.descend ign name with
      | .ok sub => 3 + nodesCost sub children + assembleCost H C d .new (results H C d matcher sub children)
      | .error _ => 0

/-- The steps to start the jobs of a directory and to run them. -/
def nodesCost (ign : M) : List Node → Nat
  | [] => 0
  | n :: ns =>
    if matcher.ignored ign n.name (decide (fileType n.info.mode = .directory)) then nodesCost ign ns
    else entryCost ign n + 2 + nodesCost ign ns

end

/-- The entry of a directory, from the result for the directory itself. -/
def withDir (name : Bytes) (info : Metadata) (dir : Except FsError (Key × List Object)) :
    Except FsError (Entry × List Object) := do
  let (root, objs) ← dir
  prepend objs (dirEntry H d name info root)

/-- A job that knows its result and still has objects to emit. -/
def Ending (P : α → (Key → Prop) → List Object → Prop) (r : Except FsError α) (out : Multiset Object)
    (left : List Object) : Prop :=
  match r with
  | .ok a => Partly (P a) out left
  | .error _ => left = []

def slotsOut (slots : List (Slot M)) : Multiset Object := (slots.map fun s => s.ghost.out).sum

def slotsHeld (slots : List (Slot M)) : Nat := (slots.map fun s => s.ghost.held + s.mode.held).sum

def slotsCost (slots : List (Slot M)) : Nat := (slots.map fun s => s.ghost.cost + s.mode.held).sum

/-- A job is on its way to the sequential result. -/
inductive At : {κ : JobKind} → Job M κ → Except FsError (κ.Result × List Object) → Ghost → Prop
  | todo : At (.todo ign n) (buildEntry H C d matcher ign n) ⟨0, 0, entryCost H C d matcher ign n⟩
  | emitting {want : Except FsError (Entry × List Object)} :
    Agrees want out (prepend left (r.map fun e => (e, []))) → Ending (EntryPlaced C) r out left →
    At (.emitting left r) want ⟨out, 0, left.length⟩
  | subdir {dir : Job M .dir} : At dir want g →
    At (.subdir name info dir) (withDir H d name info want) ⟨g.out, g.held, g.cost + 2⟩
  | building {slots : List (Slot M)} : kept matcher ign children = slots.map Slot.node ++ rest →
    (∀ s ∈ slots, At s.job (buildEntry H C d matcher ign s.node) s.ghost) →
    At (.building ign (slots.map fun s => (s.mode, s.job)) rest) (buildDir H C d matcher ign children)
      ⟨slotsOut slots, slotsHeld slots, slotsCost slots +
        (rest.map fun n => entryCost H C d matcher ign n + 2).sum + 1 +
        assembleCost H C d .new (results H C d matcher ign children)⟩
  | assembling {want : Except FsError (Key × List Object)} :
    Agrees want out (prepend left (assemble H C d db rs)) → Partly (DbPlaced C db) out left →
    (∀ e, .ok e ∈ rs → EntryPlaced C e (keysIn out) []) →
    At (.assembling db left rs) want ⟨out, 0, left.length + assembleCost H C d db rs⟩
  | closing {want : Except FsError (Key × List Object)} :
    Agrees want out (prepend left (r.map fun root => (root, []))) →
    Ending (RootPlaced C) r out left → At (.closing left r) want ⟨out, 0, left.length⟩

variable {H C d matcher}

/-! ## Sequential results -/

theorem nodesCost_eq (ign : M) (children : List Node) : nodesCost H C d matcher ign children =
    ((kept matcher ign children).map fun n => entryCost H C d matcher ign n + 2).sum := by
  induction children with
  | nil => simp [nodesCost, kept]
  | cons n ns ih =>
    rw [nodesCost]
    split
    · next hign =>
      have hkept : kept matcher ign (n :: ns) = kept matcher ign ns := by simp [kept, hign]
      rw [hkept, ih]
    · next hign =>
      have hkept : kept matcher ign (n :: ns) = n :: kept matcher ign ns := by simp [kept, hign]
      rw [hkept, ih]
      rfl

theorem buildEntry_dir (hdir : fileType info.mode = .directory) (ign : M) :
    buildEntry H C d matcher ign (.mk name info content children) = (do
      let sub ← matcher.descend ign name
      withDir H d name info (buildDir H C d matcher sub children)) := by
  have hlink : fileType info.mode ≠ .symlink := by
    rw [hdir]
    nofun
  rw [buildEntry, addPayload, if_neg hlink]
  simp only [hdir]
  cases matcher.descend ign name with
  | error e => rfl
  | ok sub =>
    simp only [bind, Except.bind, withDir, buildDir]
    cases addNodes H C d matcher sub .new children with
    | error e => rfl
    | ok built =>
      dsimp only
      cases finishDir H C d built with
      | error e => rfl
      | ok p =>
        simp only [pure, Except.pure, dirEntry]
        cases addXattrs H d info.xattrs _ <;> rfl

theorem objCount_dirEntry (name : Bytes) (info : Metadata) (root : Key) :
    objCount (dirEntry H d name info root) ≤ 1 := by
  unfold dirEntry addXattrs
  split
  · exact Nat.zero_le _
  · dsimp only
    split
    · exact Nat.zero_le _
    · cases encodeXattrSet H info.xattrs with
      | error e => exact Nat.zero_le _
      | ok obj => exact Nat.le_refl _

theorem dirEntry_placed (hC : C.Lawful) (hroot : RootPlaced C root base [])
    (h : dirEntry H d name info root = .ok (e, objs)) : EntryPlaced C e base objs := by
  have hnames : Names { bareEntry name info with contentKey := root.bytes } (some root) none :=
    ⟨rfl, rfl, fun k hk => Option.some.inj hk ▸ hroot.1, nofun⟩
  have hemit : Emission H C (fun _ => True) (Placed C base) (Placed C base) := Placed.emission H hC
  obtain ⟨x, dss, hx, hdss, rfl⟩ := hemit.addXattrs hnames h fun _ _ => trivial
  exact ⟨some root, x, [] :: dss, hx, .cons hroot.2 hdss, rfl⟩

/-! ## Steps -/

/-- A step that keeps a job on its way: what it emits is accounted for and has its children before
it, and the bound on the steps goes down. -/
def Advances (C : Cbor) (At' : Ghost → Prop) (g : Ghost) (k : Nat) (o : Option Object) (k' : Nat) : Prop :=
  ∃ g', At' g' ∧ g'.out = g.out + ↑o.toList ∧ k' + g.held = k + g'.held ∧ g'.cost < g.cost ∧
    ∀ x ∈ o, Founded C g.out x

theorem Advances.silent {At' : Ghost → Prop} (h : At' ⟨out, 0, cost'⟩) (hlt : cost' < cost) :
    Advances C At' ⟨out, 0, cost⟩ k none k :=
  ⟨_, h, (add_zero _).symm, rfl, hlt, nofun⟩

theorem At.ofResult {want x : Except FsError (Entry × List Object)} (h : Agrees want out x)
    (hx : ∀ e objs, x = .ok (e, objs) → EntryPlaced C e (keysIn out) objs) :
    At H C d matcher (.ofResult x) want ⟨out, 0, objCount x⟩ := by
  cases x with
  | error err => exact .emitting h rfl
  | ok p =>
    obtain ⟨e, objs⟩ := p
    refine .emitting ?_ (Partly.start (hx e objs rfl))
    simpa [Except.map] using h

theorem Ending.emit {P : α → (Key → Prop) → List Object → Prop} (h : Ending P r out (o :: left)) :
    Ending P r (out + ↑(some o).toList) left := by
  cases r with
  | error e => cases h
  | ok a => exact Partly.emit h

theorem Ending.founded {P : α → (Key → Prop) → List Object → Prop} (hP : ∀ a, Absorbs C (P a))
    (h : Ending P r out (o :: left)) : Founded C out o := by
  cases r with
  | error e => cases h
  | ok a => exact Partly.founded (hP a) h

theorem Agrees.subdirDone {r : Except FsError Key} (h : Agrees want out (r.map fun root => (root, []))) :
    Agrees (withDir H d name info want) out (r.bind (dirEntry H d name info)) := by
  cases r with
  | error e =>
    cases want with
    | error e' =>
      cases h.result
      exact ⟨rfl, nofun⟩
    | ok p => cases h.result
  | ok root =>
    cases want with
    | error e => cases h.result
    | ok p =>
      obtain ⟨root', objs⟩ := p
      cases h.result
      obtain ⟨objs', hnil, hsum⟩ := h.objects _ _ rfl
      cases hnil
      rw [Multiset.coe_nil, add_zero] at hsum
      subst hsum
      have hwith : withDir H d name info (.ok (root, objs)) = prepend objs (dirEntry H d name info root) :=
        rfl
      rw [hwith]
      refine ⟨prepend_result .., fun e all hall => ?_⟩
      obtain ⟨objs', hentry, rfl⟩ := prepend_eq_ok hall
      exact ⟨objs', hentry, Multiset.coe_add ..⟩

theorem Agrees.result_eq {r : Except FsError α}
    (h : Agrees want out (prepend left (r.map fun a => (a, [])))) : want.map Prod.fst = r := by
  have hr := h.result
  rw [prepend_result] at hr
  cases r <;> exact hr

theorem Agrees.out_eq {r : Except FsError α} (h : Agrees want out (prepend [] (r.map fun a => (a, []))))
    (hw : want = .ok (a, objs)) : out = objs := by
  obtain ⟨objs', hr, hsum⟩ := h.objects a objs hw
  rw [prepend_nil] at hr
  cases r with
  | error e => cases hr
  | ok b =>
    cases hr
    rwa [Multiset.coe_nil, add_zero] at hsum

theorem slots_split {f : Slot M → β} {slots : List (Slot M)} (h : slots.map f = before ++ y :: after) :
    ∃ s₁ s s₂, slots = s₁ ++ s :: s₂ ∧ s₁.map f = before ∧ f s = y ∧ s₂.map f = after := by
  obtain ⟨s₁, rest, rfl, h₁, hrest⟩ := List.map_eq_append_iff.mp h
  obtain ⟨s, s₂, rfl, hs, h₂⟩ := List.map_eq_cons_iff.mp hrest
  exact ⟨s₁, s, s₂, rfl, h₁, hs, h₂⟩

theorem Ended.slots {slots : List (Slot M)} (h : Ended started rs)
    (hs : started = slots.map fun s => (s.mode, s.job))
    (hat : ∀ s ∈ slots, At H C d matcher s.job (buildEntry H C d matcher ign s.node) s.ghost) :
    rs = slots.map (fun s => (buildEntry H C d matcher ign s.node).map Prod.fst) ∧
      slotsHeld slots = 0 ∧ (∀ e, .ok e ∈ rs → EntryPlaced C e (keysIn (slotsOut slots)) []) ∧
      ∀ outs, List.Forall₂ (fun n out => ∃ e, buildEntry H C d matcher ign n = .ok (e, out))
        (slots.map Slot.node) outs → slotsOut slots = outs.flatten := by
  induction h generalizing slots with
  | nil =>
    cases slots with
    | cons s slots => cases hs
    | nil =>
      refine ⟨rfl, rfl, nofun, fun outs houts => ?_⟩
      cases houts
      rfl
  | @cons m js rs r hm _ ih =>
    cases slots with
    | nil => cases hs
    | cons s slots =>
      obtain ⟨mode, job, n, g⟩ := s
      cases hs
      obtain ⟨hrs, hheld, hplaced, hout⟩ := ih rfl fun s hs => hat s (List.mem_cons_of_mem _ hs)
      have hjob := hat _ List.mem_cons_self
      cases hjob with
      | @emitting _ _ out _ hagrees hending =>
        have hmode : mode.held = 0 := by
          cases mode with
          | worker => exact absurd rfl hm
          | inline => rfl
          | returned => rfl
        refine ⟨?_, ?_, fun e he => ?_, fun outs houts => ?_⟩
        · rw [hrs, List.map_cons, hagrees.result_eq]
        · rw [slotsHeld, List.map_cons, List.sum_cons, hmode]
          exact (Nat.zero_add _).trans hheld
        · rw [slotsOut, List.map_cons, List.sum_cons]
          rcases List.mem_cons.mp he with rfl | he
          · have hdone := Partly.done (EntryPlaced.absorbs C e) hending
            exact hdone.mono fun k hk => hk.mono (Multiset.le_add_right ..)
          · exact (hplaced e he).mono fun k hk => hk.mono (Multiset.le_add_left ..)
        · cases houts with
          | @cons _ ob _ outs hn houts =>
            obtain ⟨e, he⟩ := hn
            rw [slotsOut, List.map_cons, List.sum_cons, List.flatten_cons, ← Multiset.coe_add,
              ← hagrees.out_eq he, ← hout outs houts]
            rfl

/-- All jobs have ended: the directory is assembled from the results of the walk. -/
theorem At.wait {slots : List (Slot M)} (hkept : kept matcher ign children = slots.map Slot.node)
    (hat : ∀ s ∈ slots, At H C d matcher s.job (buildEntry H C d matcher ign s.node) s.ghost)
    (hend : Ended (slots.map fun s => (s.mode, s.job)) rs) :
    slotsHeld slots = 0 ∧ At H C d matcher (.assembling .new [] rs) (buildDir H C d matcher ign children)
      ⟨slotsOut slots, 0, assembleCost H C d .new (results H C d matcher ign children)⟩ := by
  obtain ⟨hrs, hheld, hplaced, hout⟩ := hend.slots rfl hat
  have hresults : rs = results H C d matcher ign children := by
    rw [hrs, results, hkept, List.map_map]
    rfl
  obtain ⟨hresult, hobjects⟩ := @addNodes_assemble H C d M matcher ign children .new
  subst hresults
  have hagrees : Agrees (buildDir H C d matcher ign children) (slotsOut slots)
      (prepend [] (assemble H C d .new (results H C d matcher ign children))) := by
    rw [prepend_nil]
    refine ⟨hresult, fun root objs hbuild => ?_⟩
    obtain ⟨outs, objs', houts, hasm, hsum⟩ := hobjects root objs hbuild
    rw [hkept] at houts
    exact ⟨objs', hasm, by rw [hout outs houts, hsum]⟩
  have hcost : assembleCost H C d .new (results H C d matcher ign children) = [].length (α := Object) +
      assembleCost H C d .new (results H C d matcher ign children) := (Nat.zero_add _).symm
  rw [hcost]
  exact ⟨hheld, .assembling hagrees (Partly.start DirDenotes.new) hplaced⟩

theorem At.addEntry {want : Except FsError (Key × List Object)} (hC : C.Lawful)
    (hagrees : Agrees want out (prepend [] (assemble H C d db (.ok e :: rs))))
    (hdb : Partly (DbPlaced C db) out []) (hplaced : ∀ x, .ok x ∈ .ok e :: rs →
      EntryPlaced C x (keysIn out) []) (hadd : db.addEntry H C d.ic e = .ok (db', objs)) :
    At H C d matcher (.assembling db' objs rs) want
      ⟨out, 0, objs.length + assembleCost H C d db' rs⟩ := by
  have hasm : assemble H C d db (.ok e :: rs) = prepend objs (assemble H C d db' rs) :=
    bind_ok hadd
  rw [prepend_nil, hasm] at hagrees
  have hemit : Emission H C (fun _ => True) (Placed C (keysIn out)) (Placed C (keysIn out)) :=
    Placed.emission H hC
  have hnow : DbPlaced C db (keysIn out) [] := Partly.done (DbPlaced.absorbs C db) hdb
  obtain ⟨hdb', -⟩ := DirBuilder.addEntry_denotes hemit.leaf hemit.node hnow
    (hplaced e List.mem_cons_self) hadd fun _ _ => trivial
  refine .assembling hagrees (Partly.start ?_) fun x hx => hplaced x (List.mem_cons_of_mem _ hx)
  simpa [DbPlaced] using hdb'

theorem At.finish {want : Except FsError (Key × List Object)} (hC : C.Lawful)
    (hagrees : Agrees want out (prepend [] (assemble H C d db [])))
    (hdb : Partly (DbPlaced C db) out []) (hfin : db.finish H C d.ic = .ok (root, objs)) :
    At H C d matcher (.closing objs (.ok root)) want ⟨out, 0, objs.length⟩ := by
  rw [prepend_nil, assemble, hfin] at hagrees
  have hemit : Emission H C (fun _ => True) (Placed C (keysIn out)) (Placed C (keysIn out)) :=
    Placed.emission H hC
  have hnow : DbPlaced C db (keysIn out) [] := Partly.done (DbPlaced.absorbs C db) hdb
  have hclose : finishDir H C d (db, []) = .ok (root, objs) := by
    rw [finishDir_eq, prepend_nil, hfin]
  refine .closing ?_ (Partly.start (hemit.finishDir hnow hclose fun _ _ => trivial))
  simpa [Except.map] using hagrees

section Slots
variable (s₁ s₂ : List (Slot M)) (s : Slot M)

theorem slotsOut_split : slotsOut (s₁ ++ s :: s₂) = s.ghost.out + slotsOut (s₁ ++ s₂) := by
  simp only [slotsOut, List.map_append, List.map_cons, List.sum_append, List.sum_cons]
  abel

theorem slotsHeld_split :
    slotsHeld (s₁ ++ s :: s₂) = s.ghost.held + s.mode.held + slotsHeld (s₁ ++ s₂) := by
  simp only [slotsHeld, List.map_append, List.map_cons, List.sum_append, List.sum_cons]
  omega

theorem slotsCost_split :
    slotsCost (s₁ ++ s :: s₂) = s.ghost.cost + s.mode.held + slotsCost (s₁ ++ s₂) := by
  simp only [slotsCost, List.map_append, List.map_cons, List.sum_append, List.sum_cons]
  omega

end Slots

theorem At.started {slots : List (Slot M)} (m : Mode)
    (hkept : kept matcher ign children = slots.map Slot.node ++ n :: rest)
    (hslots : ∀ s ∈ slots, At H C d matcher s.job (buildEntry H C d matcher ign s.node) s.ghost) :
    At H C d matcher (.building ign ((slots.map fun s => (s.mode, s.job)) ++ [(m, .todo ign n)]) rest)
      (buildDir H C d matcher ign children)
      ⟨0 + slotsOut slots, 0 + m.held + slotsHeld slots,
        entryCost H C d matcher ign n + m.held + slotsCost slots +
        (rest.map fun n => entryCost H C d matcher ign n + 2).sum + 1 +
        assembleCost H C d .new (results H C d matcher ign children)⟩ := by
  let s : Slot M := ⟨m, .todo ign n, n, ⟨0, 0, entryCost H C d matcher ign n⟩⟩
  have hkept' : kept matcher ign children = (slots ++ [s]).map Slot.node ++ rest := by
    rw [hkept, List.map_append, List.append_assoc]
    rfl
  have hat := At.building (H := H) (C := C) (d := d) hkept' fun s hs => by
    rcases List.mem_append.mp hs with hs | hs
    · exact hslots s hs
    · cases List.mem_singleton.mp hs
      exact .todo
  rw [slotsOut_split, slotsHeld_split, slotsCost_split, List.append_nil, List.map_append] at hat
  exact hat

/-- One of the started jobs is replaced by another for the same child. -/
theorem At.replaced {s₁ s₂ : List (Slot M)} {s s' : Slot M}
    (hkept : kept matcher ign children = (s₁ ++ s :: s₂).map Slot.node ++ rest)
    (hslots : ∀ x ∈ s₁ ++ s :: s₂, At H C d matcher x.job (buildEntry H C d matcher ign x.node) x.ghost)
    (hnode : s'.node = s.node)
    (hat : At H C d matcher s'.job (buildEntry H C d matcher ign s'.node) s'.ghost) :
    At H C d matcher (.building ign ((s₁.map fun s => (s.mode, s.job)) ++
        (s'.mode, s'.job) :: s₂.map fun s => (s.mode, s.job)) rest) (buildDir H C d matcher ign children)
      ⟨s'.ghost.out + slotsOut (s₁ ++ s₂), s'.ghost.held + s'.mode.held + slotsHeld (s₁ ++ s₂),
        s'.ghost.cost + s'.mode.held + slotsCost (s₁ ++ s₂) +
        (rest.map fun n => entryCost H C d matcher ign n + 2).sum + 1 +
        assembleCost H C d .new (results H C d matcher ign children)⟩ := by
  have hkept' : kept matcher ign children = (s₁ ++ s' :: s₂).map Slot.node ++ rest := by
    rw [hkept, List.map_append, List.map_append, List.map_cons, List.map_cons, hnode]
  have hat' := At.building (H := H) (C := C) (d := d) hkept' fun x hx => by
    rcases List.mem_append.mp hx with hx | hx
    · exact hslots x (List.mem_append_left _ hx)
    · rcases List.mem_cons.mp hx with rfl | hx
      · exact hat
      · exact hslots x (List.mem_append_right _ (List.mem_cons_of_mem _ hx))
  rw [slotsOut_split, slotsHeld_split, slotsCost_split, List.map_append, List.map_cons] at hat'
  exact hat'

/-- The bound for a directory that has not begun. -/
def startGhost (H : Blake3) (C : Cbor) (d : Driver) (matcher : Matcher M) (ign : M)
    (children : List Node) : Ghost :=
  ⟨0, 0, ((kept matcher ign children).map fun n => entryCost H C d matcher ign n + 2).sum + 1 +
    assembleCost H C d .new (results H C d matcher ign children)⟩

theorem At.begin (ign : M) (children : List Node) :
    At H C d matcher (.building ign [] (kept matcher ign children)) (buildDir H C d matcher ign children)
      (startGhost H C d matcher ign children) := by
  have hat := @At.building H C d M matcher ign children _ [] rfl nofun
  have hcost : slotsCost ([] : List (Slot M)) = 0 := rfl
  rw [hcost, Nat.zero_add] at hat
  exact hat

theorem Step.advances {κ : JobKind} {j j' : Job M κ} {want : Except FsError (κ.Result × List Object)}
    (hC : C.Lawful) (h : Step H C d matcher cap k j o k' j') (hat : At H C d matcher j want g) :
    Advances C (At H C d matcher j' want) g k o k' := by
  induction h generalizing g with
  | @file k ign n hfile =>
    cases hat with
    | todo =>
      have hemit : Emission H C (fun _ => True) (Placed C (keysIn 0)) (Placed C (keysIn 0)) :=
        Placed.emission H hC
      refine .silent (At.ofResult (.refl _) fun e objs hb => ?_) ?_
      · exact hemit.buildEntry ign n e objs hb fun _ _ => trivial
      · obtain ⟨name, info, content, children⟩ := n
        rw [entryCost]
        omega
  | @descend ign name sub k info content children hdir hsub =>
    cases hat with
    | todo =>
      have hwant : buildEntry H C d matcher ign (.mk name info content children) =
          withDir H d name info (buildDir H C d matcher sub children) :=
        (buildEntry_dir hdir ign).trans (bind_ok hsub)
      rw [hwant]
      refine .silent (At.begin sub children).subdir ?_
      have hcost : entryCost H C d matcher ign (.mk name info content children) =
          1 + objCount (buildEntry H C d matcher ign (.mk name info content children)) +
            (3 + nodesCost H C d matcher sub children +
              assembleCost H C d .new (results H C d matcher sub children)) := by
        rw [entryCost, hsub]
      rw [hcost, nodesCost_eq]
      dsimp only [startGhost]
      omega
  | @descendError ign name e k info content children hdir he =>
    cases hat with
    | todo =>
      have hwant : buildEntry H C d matcher ign (.mk name info content children) = .error e :=
        (buildEntry_dir hdir ign).trans (bind_error he)
      rw [hwant]
      refine .silent (.emitting (Agrees.refl _) rfl) ?_
      rw [entryCost, List.length_nil]
      omega
  | emit =>
    cases hat with
    | emitting hagrees hending =>
      refine ⟨_, .emitting hagrees.emit hending.emit, rfl, rfl, Nat.lt_succ_self _, fun x hx => ?_⟩
      cases hx
      exact hending.founded (EntryPlaced.absorbs C)
  | subdir _ ih =>
    cases hat with
    | subdir hdir =>
      obtain ⟨g', hat', hout, hheld, hcost, hfounded⟩ := ih hdir
      exact ⟨_, .subdir hat', hout, hheld, Nat.add_lt_add_right hcost 2, hfounded⟩
  | @subdirDone k name info r =>
    cases hat with
    | subdir hdir =>
      cases hdir with
      | closing hagrees hending =>
        rw [prepend_nil] at hagrees
        refine .silent (At.ofResult hagrees.subdirDone fun e objs hb => ?_) ?_
        · cases r with
          | error err => cases hb
          | ok root => exact dirEntry_placed hC (Partly.done (RootPlaced.absorbs C root) hending) hb
        · cases r with
          | error err => exact Nat.succ_pos _
          | ok root => exact Nat.lt_succ_of_le (objCount_dirEntry name info root)
  | spawn _ _ =>
    cases hat with
    | building hkept hslots =>
      refine ⟨_, At.started .worker hkept hslots, (zero_add _).trans (add_zero _).symm, ?_, ?_, nofun⟩
      · simp only [Mode.held]
        omega
      · simp only [Mode.held, List.map_cons, List.sum_cons]
        omega
  | inline _ _ =>
    cases hat with
    | building hkept hslots =>
      refine ⟨_, At.started .inline hkept hslots, (zero_add _).trans (add_zero _).symm, ?_, ?_, nofun⟩
      · simp only [Mode.held]
        omega
      · simp only [Mode.held, List.map_cons, List.sum_cons]
        omega
  | @inner k j o k' j' ign before m after rest _ ih =>
    generalize hstarted : before ++ (m, j) :: after = started at hat
    cases hat with
    | @building _ children _ slots hkept hslots =>
      obtain ⟨s₁, s, s₂, rfl, rfl, hs, rfl⟩ := slots_split hstarted.symm
      obtain ⟨mode, job, n, g⟩ := s
      cases hs
      have hjob := hslots ⟨mode, job, n, g⟩ (List.mem_append_right _ List.mem_cons_self)
      obtain ⟨g', hat', hout, hheld, hcost, hfounded⟩ := ih hjob
      have hnew := @At.replaced _ _ _ _ _ _ _ _ _ _ _ ⟨mode, j', n, g'⟩ hkept hslots rfl hat'
      dsimp only at hheld hcost
      refine ⟨_, hnew, ?_, ?_, ?_, fun x hx => ?_⟩
      · dsimp only
        rw [slotsOut_split, hout]
        abel
      · dsimp only
        rw [slotsHeld_split]
        dsimp only
        omega
      · dsimp only
        rw [slotsCost_split]
        dsimp only
        omega
      · obtain ⟨cs, hcs, hmem⟩ := hfounded x hx
        refine ⟨cs, hcs, fun c hc => (hmem c hc).mono ?_⟩
        dsimp only
        rw [slotsOut_split]
        exact Multiset.le_add_right ..
  | @release k ign before after rest r =>
    generalize hstarted : before ++ (.worker, .emitting [] r) :: after = started at hat
    cases hat with
    | @building _ children _ slots hkept hslots =>
      obtain ⟨s₁, s, s₂, rfl, rfl, hs, rfl⟩ := slots_split hstarted.symm
      obtain ⟨mode, job, n, g⟩ := s
      cases hs
      have hjob := hslots ⟨.worker, .emitting [] r, n, g⟩
        (List.mem_append_right _ List.mem_cons_self)
      have hnew := @At.replaced _ _ _ _ _ _ _ _ _ _ _ ⟨.returned, .emitting [] r, n, g⟩ hkept hslots rfl
        hjob
      refine ⟨_, hnew, ?_, ?_, ?_, nofun⟩
      · dsimp only
        rw [slotsOut_split]
        exact (add_zero _).symm
      · dsimp only
        rw [slotsHeld_split]
        simp only [Mode.held]
        omega
      · dsimp only
        rw [slotsCost_split]
        simp only [Mode.held]
        omega
  | wait hend =>
    cases hat with
    | @building _ children _ slots hkept hslots =>
      rw [List.append_nil] at hkept
      obtain ⟨hheld, hat'⟩ := At.wait hkept hslots hend
      refine ⟨_, hat', (add_zero _).symm, ?_, ?_, nofun⟩
      · rw [hheld]
      · dsimp only
        omega
  | assembleEmit =>
    cases hat with
    | assembling hagrees hdb hplaced =>
      refine ⟨_, .assembling hagrees.emit hdb.emit fun e he => ?_, rfl, rfl, ?_, fun x hx => ?_⟩
      · exact (hplaced e he).mono fun k hk => hk.mono (Multiset.le_add_right ..)
      · dsimp only [List.length_cons]
        omega
      · cases hx
        exact Partly.founded (DbPlaced.absorbs C _) hdb
  | assembleError =>
    cases hat with
    | assembling hagrees hdb hplaced =>
      exact .silent (.closing hagrees rfl) (Nat.succ_pos _)
  | addEntry hadd =>
    cases hat with
    | assembling hagrees hdb hplaced =>
      refine .silent (At.addEntry hC hagrees hdb hplaced hadd) ?_
      rw [assembleCost, hadd, List.length_nil]
      dsimp only
      omega
  | addEntryError hadd =>
    cases hat with
    | assembling hagrees hdb hplaced =>
      refine .silent (.closing ?_ rfl) ?_
      · rw [prepend_nil, assemble, bind_error hadd] at hagrees
        exact hagrees
      · rw [assembleCost, hadd]
        exact Nat.succ_pos _
  | finish hfin =>
    cases hat with
    | assembling hagrees hdb hplaced =>
      refine .silent (At.finish hC hagrees hdb hfin) ?_
      rw [assembleCost, hfin, List.length_nil, objCount]
      omega
  | finishError hfin =>
    cases hat with
    | assembling hagrees hdb hplaced =>
      refine .silent (.closing ?_ rfl) ?_
      · rw [prepend_nil, assemble, hfin] at hagrees
        exact hagrees
      · rw [assembleCost, hfin]
        exact Nat.succ_pos _
  | closeEmit =>
    cases hat with
    | closing hagrees hending =>
      refine ⟨_, .closing hagrees.emit hending.emit, rfl, rfl, Nat.lt_succ_self _, fun x hx => ?_⟩
      cases hx
      exact hending.founded (RootPlaced.absorbs C)

/-! ## Progress -/

/-- A job that has returned. -/
inductive Final : {κ : JobKind} → Job M κ → Prop
  | entry : Final (.emitting [] r)
  | dir : Final (.closing [] r)

theorem Final.emitting {j : Job M .entry} (h : Final j) : ∃ r, j = .emitting [] r := by
  cases h
  exact ⟨_, rfl⟩

theorem Final.closing {j : Job M .dir} (h : Final j) : ∃ r, j = .closing [] r := by
  cases h
  exact ⟨_, rfl⟩

theorem exists_ended {slots : List (Slot M)} (h : ∀ s ∈ slots, Final s.job ∧ s.mode ≠ .worker) :
    ∃ rs, Ended (slots.map fun s => (s.mode, s.job)) rs := by
  induction slots with
  | nil => exact ⟨[], .nil⟩
  | cons s slots ih =>
    obtain ⟨rs, hrs⟩ := ih fun x hx => h x (List.mem_cons_of_mem _ hx)
    obtain ⟨hfinal, hmode⟩ := h s List.mem_cons_self
    obtain ⟨r, hr⟩ := hfinal.emitting
    refine ⟨r :: rs, ?_⟩
    rw [List.map_cons, hr]
    exact .cons hmode hrs

theorem free_of_final {slots : List (Slot M)} (h : ∀ s ∈ slots, Final s.job) :
    Free (slots.map fun s => (s.mode, s.job)) := by
  intro j hlast
  obtain ⟨s, hs, heq⟩ := List.mem_map.mp (List.mem_of_getLast? hlast)
  rw [← (Prod.mk.inj heq).2]
  exact (h s hs).emitting

/-- A directory whose jobs have all ended gives slots back, starts the next job, or is assembled. -/
theorem building_progress {slots : List (Slot M)} (hfinal : ∀ s ∈ slots, Final s.job)
    (hk : slotsHeld slots ≤ k) (cap : Nat) (ign : M) (rest : List Node) :
    ∃ o k' j', Step H C d matcher cap k
      (.building ign (slots.map fun s => (s.mode, s.job)) rest) o k' j' := by
  by_cases hworker : ∃ s ∈ slots, s.mode = .worker
  · obtain ⟨s, hs, hmode⟩ := hworker
    obtain ⟨r, hr⟩ := (hfinal s hs).emitting
    obtain ⟨s₁, s₂, rfl⟩ := List.append_of_mem hs
    rw [slotsHeld_split, hmode] at hk
    obtain ⟨k, rfl⟩ : ∃ k₁, k = k₁ + 1 := by
      refine Nat.exists_eq_succ_of_ne_zero fun hzero => ?_
      simp only [Mode.held] at hk
      omega
    rw [List.map_append, List.map_cons, hmode, hr]
    exact ⟨_, _, _, .release⟩
  · have hended : ∀ s ∈ slots, Final s.job ∧ s.mode ≠ .worker := fun s hs =>
      ⟨hfinal s hs, fun hmode => hworker ⟨s, hs, hmode⟩⟩
    cases rest with
    | nil =>
      obtain ⟨rs, hrs⟩ := exists_ended hended
      exact ⟨_, _, _, .wait hrs⟩
    | cons n rest =>
      by_cases hroom : k < cap
      · exact ⟨_, _, _, .spawn (free_of_final hfinal) hroom⟩
      · exact ⟨_, _, _, .inline (free_of_final hfinal) hroom⟩

theorem assembling_progress (k cap : Nat) (db : DirBuilder) (left : List Object)
    (rs : List (Except FsError Entry)) :
    ∃ o k' j', Step H C d matcher cap k (.assembling db left rs) o k' j' := by
  cases left with
  | cons o left => exact ⟨_, _, _, .assembleEmit⟩
  | nil =>
    cases rs with
    | nil =>
      cases hfin : db.finish H C d.ic with
      | error err => exact ⟨_, _, _, .finishError hfin⟩
      | ok p => exact ⟨_, _, _, .finish hfin⟩
    | cons r rs =>
      cases r with
      | error e => exact ⟨_, _, _, .assembleError⟩
      | ok e =>
        cases hadd : db.addEntry H C d.ic e with
        | error err => exact ⟨_, _, _, .addEntryError hadd⟩
        | ok p => exact ⟨_, _, _, .addEntry hadd⟩

/-- A job that has not returned can go on, whatever the pool has left. -/
theorem At.progress {κ : JobKind} {j : Job M κ} {want : Except FsError (κ.Result × List Object)}
    (hat : At H C d matcher j want g) (hk : g.held ≤ k) (cap : Nat) :
    Final j ∨ ∃ o k' j', Step H C d matcher cap k j o k' j' := by
  induction hat with
  | @todo ign n =>
    right
    obtain ⟨name, info, content, children⟩ := n
    by_cases hdir : fileType info.mode = .directory
    · cases hsub : matcher.descend ign name with
      | error e => exact ⟨_, _, _, .descendError hdir hsub⟩
      | ok sub => exact ⟨_, _, _, .descend hdir hsub⟩
    · exact ⟨_, _, _, .file hdir⟩
  | @emitting _ left _ _ _ _ =>
    cases left with
    | nil => exact .inl .entry
    | cons o left => exact .inr ⟨_, _, _, .emit⟩
  | subdir _ ih =>
    right
    rcases ih hk with hfinal | ⟨o, k', j', hstep⟩
    · obtain ⟨r, rfl⟩ := hfinal.closing
      exact ⟨_, _, _, .subdirDone⟩
    · exact ⟨_, _, _, .subdir hstep⟩
  | @building ign children rest slots _ _ ih =>
    right
    by_cases hfinal : ∀ s ∈ slots, Final s.job
    · exact building_progress hfinal hk cap ign rest
    · obtain ⟨s, hs, hopen⟩ : ∃ s ∈ slots, ¬Final s.job := by simpa using hfinal
      obtain ⟨s₁, s₂, rfl⟩ := List.append_of_mem hs
      rw [slotsHeld_split] at hk
      have hheld : s.ghost.held ≤ k := by
        dsimp only at hk
        omega
      obtain ⟨o, k', j', hstep⟩ := (ih s hs hheld).resolve_left hopen
      rw [List.map_append, List.map_cons]
      exact ⟨_, _, _, .inner hstep⟩
  | assembling => exact .inr (assembling_progress ..)
  | @closing _ left _ _ _ _ =>
    cases left with
    | nil => exact .inl .dir
    | cons o left => exact .inr ⟨_, _, _, .closeEmit⟩

/-! ## Whole builds -/

/-- The build is on its way to the result of the walk. -/
structure OnWay (H : Blake3) (C : Cbor) (d : Driver) (matcher : Matcher M) (ign : M)
    (children : List Node) (g : Ghost) (b : Build M) : Prop where
  job : At H C d matcher b.job (buildDir H C d matcher ign children) g
  out : g.out = b.emitted
  held : g.held = b.sem
  first : ChildrenFirst C (fun _ => False) b.emitted

theorem OnWay.start (ign : M) (children : List Node) : OnWay H C d matcher ign children
    (startGhost H C d matcher ign children) (Build.start matcher ign children) :=
  ⟨At.begin ign children, rfl, rfl, .nil⟩

theorem OnWay.next (hC : C.Lawful) {b b' : Build M} (h : OnWay H C d matcher ign children g b)
    (hnext : b.Next H C d matcher cap b') :
    ∃ g', OnWay H C d matcher ign children g' b' ∧ g'.cost < g.cost := by
  cases hnext with
  | @mk o k j hstep =>
    obtain ⟨g', hat, hout, hheld, hcost, hfounded⟩ := hstep.advances hC h.job
    refine ⟨g', ⟨hat, ?_, ?_, ?_⟩, hcost⟩
    · rw [hout, h.out, Multiset.coe_add]
    · have hsem := h.held
      dsimp only
      omega
    · cases o with
      | none => simpa using h.first
      | some o =>
        obtain ⟨cs, hcs, hmem⟩ := hfounded o rfl
        refine h.first.append (.single hcs fun c hc => .inr ?_)
        obtain ⟨x, hx, hk⟩ := hmem c hc
        rw [h.out] at hx
        exact ⟨x, Multiset.mem_coe.mp hx, hk⟩

theorem OnWay.bounded (hC : C.Lawful) {b : Build M} {run : List (Build M)}
    (h : OnWay H C d matcher ign children g b)
    (hrun : List.IsChain (Build.Next H C d matcher cap) (b :: run)) : run.length ≤ g.cost := by
  induction run generalizing b g with
  | nil => exact Nat.zero_le _
  | cons b' run ih =>
    rw [List.isChain_cons_cons] at hrun
    obtain ⟨g', hnext, hcost⟩ := h.next hC hrun.1
    exact Nat.le_trans (Nat.succ_le_succ (ih hnext hrun.2)) hcost

theorem OnWay.returned {b : Build M} (h : OnWay H C d matcher ign children g b)
    (hr : b.job = .closing [] r) : r = (buildDir H C d matcher ign children).map Prod.fst ∧
      ∀ root objs, buildDir H C d matcher ign children = .ok (root, objs) → b.emitted.Perm objs := by
  obtain ⟨sem, job, emitted⟩ := b
  obtain ⟨hjob, hout, -, -⟩ := h
  cases hr
  cases hjob with
  | closing hagrees _ =>
    refine ⟨hagrees.result_eq.symm, fun root objs hbuild => ?_⟩
    have hall := hagrees.out_eq hbuild
    dsimp only at hout
    rw [hout] at hall
    exact Multiset.coe_eq_coe.mp hall

/-- For every size of the pool and every interleaving: what is emitted has children first; a build
that has returned has the result of the sequential walk and has emitted the same objects; a build
that has not returned can go on, and no build goes on for ever. -/
theorem pbuilder_refines (hC : C.Lawful) (H : Blake3) (d : Driver) (matcher : Matcher M) (cap : Nat)
    (ign : M) (children : List Node) :
    (∀ b, Reach (· = Build.start matcher ign children) (Build.Next H C d matcher cap) b →
      ChildrenFirst C (fun _ => False) b.emitted ∧
      (∀ r, b.job = .closing [] r → r = (buildDir H C d matcher ign children).map Prod.fst ∧
        ∀ root objs, buildDir H C d matcher ign children = .ok (root, objs) → b.emitted.Perm objs) ∧
      ((∀ r, b.job ≠ .closing [] r) → ∃ b', b.Next H C d matcher cap b')) ∧
    ∃ n, ∀ run, List.IsChain (Build.Next H C d matcher cap) (Build.start matcher ign children :: run) →
      run.length ≤ n := by
  refine ⟨fun b hb => ?_, _, fun run hrun => (OnWay.start ign children).bounded hC hrun⟩
  obtain ⟨g, hg⟩ : ∃ g, OnWay H C d matcher ign children g b := by
    refine hb.invariant (I := fun b => ∃ g, OnWay H C d matcher ign children g b) ?_ ?_
    · intro b h0
      subst h0
      exact ⟨_, .start ign children⟩
    · intro b b' hb hnext
      obtain ⟨g, hg⟩ := hb
      obtain ⟨g', hg', -⟩ := hg.next hC hnext
      exact ⟨g', hg'⟩
  refine ⟨hg.first, fun r hr => hg.returned hr, fun hopen => ?_⟩
  rcases hg.job.progress (Nat.le_of_eq hg.held) cap with hfinal | ⟨o, k', j', hstep⟩
  · obtain ⟨r, hr⟩ := hfinal.closing
    exact absurd hr (hopen r)
  · exact ⟨_, .mk hstep⟩

/-- A directory with one file and a pool of two slots. -/
theorem pbuilder_refines_sample :
    (∃ b', (Build.start keepAll () [sampleFile]).Next (fun _ => ⟨List.replicate 32 0, rfl⟩) .counting
      sampleDriver keepAll 2 b') ∧
    ∃ n, ∀ run, List.IsChain (Build.Next (fun _ => ⟨List.replicate 32 0, rfl⟩) .counting sampleDriver
      keepAll 2) (Build.start keepAll () [sampleFile] :: run) → run.length ≤ n := by
  obtain ⟨hreach, hbound⟩ := pbuilder_refines Cbor.counting_lawful
    (fun _ => ⟨List.replicate 32 0, rfl⟩) sampleDriver keepAll 2 () [sampleFile]
  exact ⟨(hreach _ (.start rfl)).2.2 nofun, hbound⟩

end At

end AmberStore.Ingest
