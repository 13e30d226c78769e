import AmberStore.Fstree.Fetches
import AmberStore.Lib.TreeListing
import AmberStore.Tarexport.Write

/-!
# The names of an archive

Whatever the objects of a store say, the members that were written when an export ends or fails list a tree: the
names are relative paths of proper components, each comes once, and a directory comes before what is below it.
-/

namespace AmberStore.Tarexport
open Amberpack Fstree Path Act TreeListing
open Tarextract (Header)

/-- The components of a name, without the empty one after the slash of a directory. -/
def components (name : Bytes) : List Bytes :=
  if (parts name).getLast? = some [] then (parts name).dropLast else parts name

/-- The names are those of a tree, listed from the top. -/
structure WellFormed (ms : List Emitted) : Prop where
  relative : ∀ m ∈ ms, rooted m.header.name = false ∧ components m.header.name ≠ []
  proper : ∀ m ∈ ms, ∀ c ∈ components m.header.name, c ≠ [] ∧ c ≠ dot ∧ c ≠ dotdot
  distinct : (ms.map fun m => components m.header.name).Nodup
  ordered : ∀ before m after, ms = before ++ m :: after → ∀ dir rest, dir ≠ [] → rest ≠ [] →
    components m.header.name = dir ++ rest →
    ∃ x ∈ before, x.header.typeflag = .dir ∧ components x.header.name = dir

/-! ## Names -/

theorem components_of_parts (h : parts name = d ++ [c]) (hc : c ≠ []) : components name = d ++ [c] := by
  rw [components, h, List.getLast?_concat, if_neg (fun heq => hc (Option.some.inj heq))]

theorem components_slash (name : Bytes) : components (name ++ [slash]) = parts name := by
  have hparts : parts (name ++ [slash]) = parts name ++ [[]] := parts_append_slash name []
  rw [components, hparts, List.getLast?_concat, if_pos rfl, List.dropLast_concat]

theorem not_rooted (h : ∀ c ∈ components name, c ≠ []) : rooted name = false := by
  cases name with
  | nil => rfl
  | cons x name =>
    rw [rooted, List.head?_cons, decide_eq_false_iff_not]
    intro hx
    cases hx
    refine h [] ?_ rfl
    rw [components, parts_cons_slash]
    split
    · rw [List.dropLast_cons_of_ne_nil (parts_ne_nil name)]
      exact List.mem_cons_self
    · exact List.mem_cons_self

/-- The member that a header stands for, as a node of the tree. -/
def node (h : Header) : List Bytes × Bool := (components h.name, h.typeflag = .dir)

def nodes (ms : List Emitted) : List (List Bytes × Bool) := ms.map fun m => node m.header

theorem WellFormed.of_listing (h : Listing Proper (nodes ms)) : WellFormed ms := by
  have hpath : ∀ m ∈ ms, components m.header.name ≠ [] ∧ ∀ c ∈ components m.header.name, Proper c :=
    fun m hm => h.path (node m.header) (List.mem_map_of_mem hm)
  refine ⟨fun m hm => ?_, fun m hm c hc => ?_, ?_, fun before m after heq dir rest hdir hrest hname => ?_⟩
  · exact ⟨not_rooted fun c hc => ((hpath m hm).2 c hc).ne_nil, (hpath m hm).1⟩
  · obtain ⟨hnil, hdot, hup, -⟩ := (hpath m hm).2 c hc
    exact ⟨hnil, hdot, hup⟩
  · have hnodup := h.nodup
    rwa [nodes, List.map_map] at hnodup
  · have hmem := h.ordered (nodes before) (nodes after) (x := node m.header)
      (by rw [heq, nodes, List.map_append]; rfl) hname hdir hrest
    obtain ⟨x, hx, hnode⟩ := List.mem_map.mp hmem
    exact ⟨x, hx, of_decide_eq_true (congrArg Prod.snd hnode), congrArg Prod.fst hnode⟩

/-! ## Actions -/

/-- The action writes no header. -/
def Silent (m : M α) : Prop := ∀ N, m.Keeps (fun _ => True) fun ms => nodes ms = N

theorem silent_liftExcept (r : Except ExportError α) : Silent (liftExcept r) := by
  intro N
  cases r with
  | error e => exact keeps_throw _
  | ok a => exact keeps_pure a

theorem nodes_appendBody (b : Bytes) (ms : List Emitted) : nodes (appendBody b ms) = nodes ms := by
  unfold appendBody
  cases hlast : ms.getLast? with
  | none => rfl
  | some m =>
    have hms : ms = ms.dropLast ++ [m] := (List.dropLast_append_getLast? m hlast).symm
    rw [hms, List.dropLast_concat]
    simp [nodes]

theorem silent_appendBody (b : Bytes) : Silent (Act.modify (appendBody b)) := fun _ ms h =>
  wp_modify.mpr ((nodes_appendBody b ms).trans h)

section Write
variable {C : Cbor} {get : Key → Except FsError Bytes} {tw : TarWriter} {fuel : Nat} {ms : List Emitted}
  {d : List Bytes}

theorem silent_writeData (b : Bytes) : Silent (writeData tw b) := by
  intro N
  refine keeps_read.bind fun ms => ?_
  cases tw.data ms b with
  | none => exact silent_appendBody b N
  | some n => exact (silent_appendBody _ N).bind fun _ => keeps_throw _

theorem silent_writeContent (k : Key) : Silent (writeContent C get tw fuel k) := by
  intro N
  unfold writeContent
  split
  · exact keeps_throw _
  · exact silent_writeData _ N
  · exact (silent_writeData _ N).bind fun _ => keeps_throw _

theorem writeHeader_nodes (h : Header) (size : Int) : (writeHeader tw h size).Gives
    (Post (fun _ t => nodes t = nodes ms ++ [node h]) fun _ t => nodes t = nodes ms) ms := by
  refine wp_bind.mpr (wp_read.mpr (wp_ite (fun _ => wp_modify.mpr ?_) fun _ => .throw rfl))
  rw [post_ok, nodes, List.map_append]
  rfl

/-- A listing of a larger tree: what is new is below such children of a directory. -/
def Extends (d : List Bytes) (S : Bytes → Prop) (xs : List (List Bytes × Bool)) (t : List Emitted) : Prop :=
  Listing Proper (nodes t) ∧ Adds d S xs (nodes t)

theorem Extends.of_eq (hl : Listing Proper xs) (ht : nodes t = xs) : Extends d S xs t := by
  rw [Extends, ht]
  exact ⟨hl, .refl _⟩

theorem Silent.then {m : M α} {f : α → M Unit} (h : Silent m) (hl : Listing Proper xs) (hms : nodes ms = xs)
    (hf : ∀ a t, nodes t = xs → (f a).Gives (fun _ u => Extends d S xs u) t) :
    (m >>= f).Gives (fun _ u => Extends d S xs u) ms := by
  refine (h xs ms hms).seq fun r t ht => ?_
  cases r with
  | error e => exact .of_eq hl ht
  | ok a => exact hf a t ht

section Child
variable {xs : List (List Bytes × Bool)} {h : Header} (hl : Listing Proper xs) (ho : Open d (· = c) xs)
  (hd : ∀ x ∈ d, Proper x) (hc : Proper c) (hms : nodes ms = xs) (hname : components h.name = d ++ [c])
include hl ho hd hc hms hname

/-- The header of a child of an open directory, and what is written after it below the child. -/
theorem header_then {m : M Unit} (size : Int)
    (hm : ∀ t ys, ys = xs ++ [(d ++ [c], decide (h.typeflag = .dir))] → nodes t = ys → Listing Proper ys →
      m.Gives (fun _ u => Extends (d ++ [c]) (fun _ => True) ys u) t) :
    (do writeHeader tw h size; m : M Unit).Gives (fun _ u => Extends d (· = c) xs u) ms := by
  refine (writeHeader_nodes h size).bind (fun _ t ht => ?_) fun _ t ht => .of_eq hl (ht.trans hms)
  rw [hms, node, hname] at ht
  refine (hm t _ rfl ht (hl.child ho hd hc _)).post_mono fun _ u hu => ⟨hu.1, ?_⟩
  exact (Adds.single d c _).trans hu.2.lift

theorem header_only (size : Int) :
    (writeHeader tw h size).Gives (fun _ u => Extends d (· = c) xs u) ms := by
  refine (writeHeader_nodes h size).post_mono fun r t ht => ?_
  cases r with
  | error e => exact .of_eq hl (ht.trans hms)
  | ok _ =>
    rw [post_ok, hms, node, hname] at ht
    rw [Extends, ht]
    exact ⟨hl.child ho hd hc _, .single d c _⟩

end Child

/-- What is written for the directory of a path, if it is open, extends the listing below it. -/
def WritesBelow (dir : Key → Bytes → M Unit) : Prop := ∀ k d xs ms, (∀ c ∈ d, Proper c) → Listing Proper xs →
  Open d (fun _ => True) xs → nodes ms = xs →
    (dir k ([slash].intercalate d)).Gives (fun _ t => Extends d (fun _ => True) xs t) ms

theorem entry_extends {dir : Key → Bytes → M Unit} (hdir : WritesBelow dir) (ent : Entry) (hd : ∀ c ∈ d, Proper c)
    (hl : Listing Proper xs) (ho : Open d (· = ent.name) xs) (hms : nodes ms = xs) :
    (entry C get tw fuel dir ([slash].intercalate d) ent).Gives
      (fun _ t => Extends d (· = ent.name) xs t) ms := by
  unfold entry
  refine wp_ite (fun _ => .throw (.of_eq hl hms)) fun hsafe => ?_
  simp only [not_or] at hsafe
  have hc : Proper ent.name := ⟨hsafe.1, hsafe.2.1, hsafe.2.2.1, hsafe.2.2.2⟩
  have hproper : ∀ c ∈ d ++ [ent.name], Proper c := by
    intro c hmem
    rcases List.mem_append.mp hmem with hmem | hmem
    · exact hd c hmem
    · rw [List.mem_singleton.mp hmem]
      exact hc
  have hparts : parts ([slash].intercalate (d ++ [ent.name])) = d ++ [ent.name] :=
    parts_intercalate (fun c hmem => (hproper c hmem).no_slash) (by simp)
  have hname := components_of_parts hparts hc.ne_nil
  rw [join_intercalate hd hc]
  refine (silent_liftExcept _).then hl hms fun recs ms hms => ?_
  cases Ingest.fileType ent.mode with
  | directory =>
    refine header_then hl ho hd hc hms ((components_slash _).trans hparts) 0 fun t ys hys ht hl => ?_
    refine (silent_liftExcept _).then hl ht fun ck u hu => ?_
    refine hdir ck _ ys u hproper hl ?_ hu
    rw [hys]
    exact ho.child
  | regular =>
    refine (silent_liftExcept _).then hl hms fun ck ms hms => ?_
    refine header_then hl ho hd hc hms hname _ fun t ys _ ht hl => ?_
    exact (silent_writeContent ck ys t ht).post_mono fun _ u hu => .of_eq hl hu
  | symlink => exact header_only hl ho hd hc hms hname 0
  | fifo => exact header_only hl ho hd hc hms hname 0
  | charDevice | blockDevice =>
    dsimp only
    split
    · exact header_only hl ho hd hc hms hname 0
    · exact .throw (.of_eq hl hms)
  | socket => exact .pure (.of_eq hl hms)
  | unsupported => exact .throw (.of_eq hl hms)

theorem each_extends {dir : Key → Bytes → M Unit} (hdir : WritesBelow dir) (hd : ∀ c ∈ d, Proper c) (es : List Entry)
    (hnodup : (es.map Entry.name).Nodup) (hl : Listing Proper xs) (ho : Open d (· ∈ es.map Entry.name) xs)
    (hms : nodes ms = xs) : (Act.each (entry C get tw fuel dir ([slash].intercalate d)) es).Gives
      (fun _ t => Extends d (fun _ => True) xs t) ms := by
  induction es generalizing xs ms with
  | nil => exact .pure (.of_eq hl hms)
  | cons e es ih =>
    obtain ⟨he, hnodup⟩ := List.nodup_cons.mp hnodup
    have hfirst : (entry C get tw fuel dir ([slash].intercalate d) e).Wp _ _ ms :=
      entry_extends hdir e hd hl (ho.mono fun _ heq => heq ▸ List.mem_cons_self) hms
    refine (Wp.const.mpr hfirst).bind (fun _ t ht => ?_) fun _ t ht => ⟨ht.1, ht.2.mono fun _ _ => trivial⟩
    -- the names still to come are other ones
    have hopen : Open d (· ∈ es.map Entry.name) (nodes t) :=
      (ho.mono fun c hc => List.mem_cons_of_mem _ hc).adds ht.2 fun c hc heq => he (heq ▸ hc)
    refine (ih hnodup ht.1 hopen rfl).post_mono fun _ u hu => ⟨hu.1, ?_⟩
    exact (ht.2.mono fun _ _ => trivial).trans hu.2

theorem writesBelow_dir (C : Cbor) (get : Key → Except FsError Bytes) (tw : TarWriter) (fuel : Nat) :
    WritesBelow (dir C get tw fuel) := by
  induction fuel with
  | zero => exact fun k d xs ms _ hl _ hms => .throw (.of_eq hl hms)
  | succ fuel ih =>
    intro k d xs ms hd hl ho hms
    unfold dir collect
    cases hcollect : collectEntries C get fuel k with
    | none => exact .throw (.of_eq hl hms)
    | some r =>
      cases r with
      | error e => exact .throw (.of_eq hl hms)
      | ok es =>
        have hnodup : (es.map Entry.name).Nodup := by
          refine (collectEntries_ascending hcollect).imp fun hlt heq => ?_
          rw [heq] at hlt
          exact List.lt_irrefl _ hlt
        exact each_extends ih hd es hnodup hl (ho.mono fun _ _ => trivial) hms

/-- Whatever the store holds, and wherever the export ends, the members written are well formed. -/
theorem write_wellFormed (C : Cbor) (get : Key → Except FsError Bytes) (tw : TarWriter) (fuel : Nat) (root : Key) :
    WellFormed (write C get tw fuel root []).final := by
  have hwp : (write C get tw fuel root).Gives (fun _ t => Listing Proper (nodes t)) [] := by
    refine wp_ite (fun _ => .throw .nil) fun _ => ?_
    have hopen : Open ([] : List Bytes) (fun _ => True) (nodes []) :=
      ⟨fun q r heq hq => absurd (List.append_eq_nil_iff.mp heq.symm).1 hq, nofun⟩
    refine (writesBelow_dir C get tw fuel root [] _ [] nofun .nil hopen rfl).seq fun r t ht => ?_
    cases r with
    | error e => exact ht.1
    | ok _ =>
      rw [post_ok, wp_bind, wp_read, post_ok]
      refine wp_ite (fun _ => ?_) fun _ => ?_
      · exact .pure ht.1
      · exact .throw ht.1
  exact .of_listing hwp.2

end Write

end AmberStore.Tarexport
