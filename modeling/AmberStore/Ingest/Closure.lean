import AmberStore.Ingest.Emission
import AmberStore.Fstree.Walks

/-!
# Ingest emits the closure of its root

The objects that a part of the walk emits are those below the keys it returns. This is kept by every
object that is put on top: what is below it is itself and what is below its children.
-/

namespace AmberStore.Ingest
open Amberpack Fstree Cborx List Except

/-! ## Closed lists of objects -/

section Closed
variable {C : Cbor} {objects : Objects}

/-- The objects are those below the keys, and all of them parse. -/
structure Closed (C : Cbor) (objects : Objects) (ks : List Key) (objs : List Object) : Prop where
  keys : ∀ k, (∃ o ∈ objs, o.key = k) ↔ ∃ r ∈ ks, Reachable C objects r k
  parses : ∀ o ∈ objs, ∃ cs, childKeys C o.key o.data = .ok cs

theorem Closed.nil : Closed C objects [] [] := ⟨by simp, nofun⟩

theorem Closed.append (h : Closed C objects ks objs) (h' : Closed C objects ks' objs') :
    Closed C objects (ks ++ ks') (objs ++ objs') := by
  refine ⟨fun k => ?_, fun o ho => (mem_append.mp ho).elim (h.parses o) (h'.parses o)⟩
  have hkeys := h.keys k
  have hkeys' := h'.keys k
  simp only [mem_append, or_and_right, exists_or, hkeys, hkeys']

/-- An object on top of what its children reach. -/
theorem Closed.object (h : Closed C objects ks objs) (ho : objects.lookup o.key = some o.data)
    (hks : childKeys C o.key o.data = .ok ks) : Closed C objects [o.key] (objs ++ [o]) := by
  refine ⟨fun k => ?_, fun o' ho' => ?_⟩
  · have hstep : Reachable C objects o.key k ↔ o.key = k ∨ ∃ r ∈ ks, Reachable C objects r k := by
      rw [Reachable, Relation.ReflTransGen.cases_head_iff]
      refine or_congr Iff.rfl ⟨?_, ?_⟩
      · rintro ⟨c, ⟨data, cs, hd, hcs, hc⟩, hck⟩
        cases ho.symm.trans hd
        cases hks.symm.trans hcs
        exact ⟨c, hc, hck⟩
      · rintro ⟨c, hc, hck⟩
        exact ⟨c, ⟨o.data, ks, ho, hks, hc⟩, hck⟩
    have hkeys := h.keys k
    simp only [mem_append, mem_singleton, or_and_right, exists_or, exists_eq_left, hkeys,
      hstep]
    exact or_comm
  · rcases mem_append.mp ho' with ho' | ho'
    · exact h.parses o' ho'
    · exact mem_singleton.mp ho' ▸ ⟨ks, hks⟩

/-- All of the objects are in the store. -/
def Stored (objects : Objects) (objs : List Object) : Prop :=
  ∀ o ∈ objs, objects.lookup o.key = some o.data

theorem Closed.all (h : List.Forall₂ (fun k => Closed C objects [k]) ks dss) :
    Closed C objects ks dss.flatten := by
  induction h with
  | nil => exact Closed.nil
  | cons hk _ ih => exact hk.append ih

theorem EntryEmits.closed (h : List.Forall₂ (EntryEmits fun k => Closed C objects [k]) es dss) :
    ∃ kss, es.mapM Entry.childKeys = .ok kss ∧ Closed C objects kss.flatten dss.flatten := by
  induction h with
  | nil => exact ⟨[], rfl, Closed.nil⟩
  | cons he _ ih =>
    obtain ⟨c, x, ds, hnames, hds, rfl⟩ := he
    obtain ⟨kss, hkss, hrest⟩ := ih
    refine ⟨_ :: kss, ?_, (Closed.all hds).append hrest⟩
    rw [mapM_cons, hnames.childKeys, hkss]
    rfl

/-- What is below a key is closed, whatever is put on top. -/
theorem Closed.emission (H : Blake3) (hC : C.Lawful) :
    Emission H C (fun o => objects.lookup o.key = some o.data) (fun k => Closed C objects [k])
      fun k => Closed C objects [k] where
  file hclosed := hclosed
  blob hobj hget := Closed.nil.object hget (childKeys_leaf (by rw [(encodeBlob_ok hobj).2.1]; rfl))
  xattrSet hobj hget := Closed.nil.object hget (childKeys_leaf (by rw [(encodeXattrSet_ok hobj).2.1]; rfl))
  fileNode hcanon hall hobj hget := (Closed.all hall).object hget (childKeys_fileNode hC hobj hcanon)
  dirNode hcanon hall hobj hget := (Closed.all hall).object hget (childKeys_dirNode hC hobj hcanon)
  dirLeaf hall hobj hget := by
    obtain ⟨kss, hkss, hclosed⟩ := EntryEmits.closed hall
    exact hclosed.object hget (childKeys_dirLeaf hC hobj hkss)

end Closed

/-! ## The walk succeeds -/

mutual

/-- No file of the tree has a type that the walk rejects. -/
def Node.Supported : Node → Prop
  | .mk _ info _ children => fileType info.mode ≠ .unsupported ∧ AllSupported children

def AllSupported : List Node → Prop
  | [] => True
  | n :: ns => n.Supported ∧ AllSupported ns

end

section Success
variable {H : Blake3} {C : Cbor} {d : Driver} {M : Type} {matcher : Matcher M}

theorem exists_addChunks (h : Buildable levels) :
    ∃ levels' objs, addChunks H C d levels chunks = .ok (levels', objs) ∧ Buildable levels' ∧
      (levels ≠ [] ∨ chunks ≠ [] → levels' ≠ []) := by
  induction chunks generalizing levels with
  | nil => exact ⟨levels, [], rfl, h, fun hne => hne.resolve_right (not_not_intro rfl)⟩
  | cons chunk chunks ih =>
    obtain ⟨obj, hobj⟩ : ∃ obj, encodeBlob H chunk = .ok obj := exists_encode H rfl _ _
    have hitem : (Item.mk obj.key []).key.Canonical := (encodeBlob_ok hobj).2.2
    obtain ⟨levels₁, objs₁, hone, h₁, hne⟩ : ∃ levels₁ objs₁, addItem H C d.ic false levels _ =
        .ok (levels₁, objs₁) ∧ Buildable levels₁ ∧ levels₁ ≠ [] := exists_addItem h hitem
    obtain ⟨levels₂, objs₂, hrest, h₂, hne₂⟩ := ih h₁
    refine ⟨levels₂, obj :: (objs₁ ++ objs₂), ?_, h₂, fun _ => hne₂ (.inl hne)⟩
    exact bind_eq_ok.mpr ⟨obj, hobj, bind_eq_ok.mpr ⟨_, hone, bind_eq_ok.mpr ⟨_, hrest, rfl⟩⟩⟩

theorem exists_buildChunks (hne : chunks ≠ []) :
    ∃ root objs, buildChunks H C d chunks = .ok (root, objs) ∧ root.Canonical := by
  obtain ⟨levels, objs₁, hadd, hlevels, hany⟩ : ∃ levels objs, addChunks H C d [] chunks =
      .ok (levels, objs) ∧ Buildable levels ∧ (_ → levels ≠ []) := exists_addChunks ⟨nofun, nofun⟩
  obtain ⟨root, objs₂, hfin, hroot⟩ : ∃ root objs, finishIndex H C d.ic false levels =
      .ok (root, objs) ∧ root.Canonical := exists_finishIndex hlevels (hany (.inr hne))
  exact ⟨root, objs₁ ++ objs₂, bind_eq_ok.mpr ⟨_, hadd, bind_eq_ok.mpr ⟨_, hfin, rfl⟩⟩, hroot⟩

theorem exists_buildFile (content : Bytes) :
    ∃ root objs, buildFile H C d content = .ok (root, objs) ∧ root.Canonical := by
  refine exists_buildChunks ?_
  split
  · exact cons_ne_nil _ _
  · next hsome => exact hsome

theorem exists_addXattrs (xattrs : Xattrs) (e : Entry) :
    ∃ e' objs, addXattrs H d xattrs e = .ok (e', objs) := by
  unfold addXattrs
  split
  · exact ⟨e, [], rfl⟩
  · simp only
    split
    · exact ⟨_, [], rfl⟩
    · obtain ⟨obj, hobj⟩ : ∃ obj, encodeXattrSet H xattrs = .ok obj := by
        rw [encodeXattrSet]
        exact exists_encode H rfl _ _
      exact ⟨_, [obj], bind_eq_ok.mpr ⟨obj, hobj, rfl⟩⟩

theorem exists_addPayload (hs : fileType info.mode ≠ .unsupported)
    (hdir : ∃ ck objs, dir = .ok (ck, objs) ∧ ck.Canonical) :
    ∃ e objs c, addPayload H C d info content dir (bareEntry name info) = .ok (e, objs) ∧
      Names e c none := by
  have hkey : ∀ ck : Key, ck.Canonical →
      Names { bareEntry name info with contentKey := ck.bytes } (some ck) none := fun ck hck =>
    ⟨rfl, rfl, fun k hk => Option.some.inj hk ▸ hck, nofun⟩
  unfold addPayload
  cases ht : fileType info.mode with
  | regular =>
    obtain ⟨ck, objs, hfile, hck⟩ := exists_buildFile (H := H) (C := C) (d := d) content
    exact ⟨_, objs, some ck, bind_eq_ok.mpr ⟨_, hfile, rfl⟩, hkey ck hck⟩
  | directory =>
    obtain ⟨ck, objs, hbuilt, hck⟩ := hdir
    exact ⟨_, objs, some ck, bind_eq_ok.mpr ⟨_, hbuilt, rfl⟩, hkey ck hck⟩
  | unsupported => exact absurd ht hs
  | _ => exact ⟨_, [], none, rfl, rfl, rfl, nofun, nofun⟩

/-- The ignore files of the tree can be read. -/
def Matcher.Total (matcher : Matcher M) : Prop :=
  ∀ ign name, ∃ sub, matcher.descend ign name = .ok sub

mutual

theorem exists_buildEntry (hmatcher : matcher.Total) : ∀ (ign : M) (n : Node), n.Supported →
    ∃ e objs, buildEntry H C d matcher ign n = .ok (e, objs) ∧ e.KeysOk
  | ign, .mk name info content children, hs => by
    rw [Node.Supported] at hs
    obtain ⟨sub, hsub⟩ := hmatcher ign name
    obtain ⟨db, objs₁, hnodes, hdb⟩ := exists_addNodes hmatcher sub children .new hs.2 .new
    obtain ⟨ck, objs₂, hfin, hck⟩ : ∃ root objs, db.finish H C d.ic = .ok (root, objs) ∧
        root.Canonical := hdb.finish
    have hdir : (matcher.descend ign name >>= fun sub =>
        addNodes H C d matcher sub .new children >>= finishDir H C d) = .ok (ck, objs₁ ++ objs₂) :=
      bind_eq_ok.mpr ⟨sub, hsub, bind_eq_ok.mpr ⟨_, hnodes, bind_eq_ok.mpr ⟨_, hfin, rfl⟩⟩⟩
    obtain ⟨e, objs₃, c, hpayload, hc⟩ := exists_addPayload (H := H) (C := C) (d := d) hs.1
      ⟨ck, objs₁ ++ objs₂, hdir, hck⟩
    obtain ⟨e', objs₄, hxattrs⟩ := exists_addXattrs (H := H) (d := d)
      (if fileType info.mode = .symlink then ∅ else info.xattrs) e
    obtain ⟨x, -, hx, -⟩ := Emission.trivial.addXattrs (C := C) hc hxattrs fun _ _ => trivial
    refine ⟨e', objs₃ ++ objs₄, ?_, hx.keysOk⟩
    rw [buildEntry]
    exact bind_eq_ok.mpr ⟨_, hpayload, bind_eq_ok.mpr ⟨_, hxattrs, rfl⟩⟩

theorem exists_addNodes (hmatcher : matcher.Total) : ∀ (ign : M) (ns : List Node)
    (db : DirBuilder), AllSupported ns → db.Ready →
    ∃ db' objs, addNodes H C d matcher ign db ns = .ok (db', objs) ∧ db'.Ready
  | ign, [], db, _, hdb => ⟨db, [], by rw [addNodes], hdb⟩
  | ign, n :: ns, db, hs, hdb => by
    rw [AllSupported] at hs
    rw [addNodes]
    split
    · exact exists_addNodes hmatcher ign ns db hs.2 hdb
    · obtain ⟨e, objs₁, hentry, he⟩ := exists_buildEntry hmatcher ign n hs.1
      obtain ⟨db₁, objs₂, hadd, hdb₁⟩ : ∃ db' objs, db.addEntry H C d.ic e = .ok (db', objs) ∧
          db'.Ready := hdb.addEntry he
      obtain ⟨db₂, objs₃, hrest, hdb₂⟩ := exists_addNodes hmatcher ign ns db₁ hs.2 hdb₁
      exact ⟨db₂, objs₁ ++ objs₂ ++ objs₃, bind_eq_ok.mpr ⟨_, hentry, bind_eq_ok.mpr ⟨_, hadd,
        bind_eq_ok.mpr ⟨_, hrest, rfl⟩⟩⟩, hdb₂⟩

end

theorem exists_buildDir (hmatcher : matcher.Total) (hs : AllSupported children) (ign : M) :
    ∃ root objs, buildDir H C d matcher ign children = .ok (root, objs) := by
  obtain ⟨db, objs₁, hnodes, hdb⟩ := exists_addNodes hmatcher ign children .new hs .new
  obtain ⟨root, objs₂, hfin, -⟩ := hdb.finish (H := H) (C := C)
  exact ⟨root, objs₁ ++ objs₂, bind_eq_ok.mpr ⟨_, hnodes, bind_eq_ok.mpr ⟨_, hfin, rfl⟩⟩⟩

end Success

/-! ## What is emitted is what is reachable -/

/-- The store that holds the emitted objects. -/
def storeOf (objs : List Object) : Objects := (objs.map fun o => ⟨o.key, o.data⟩).toAList

theorem KeysDistinct.stored (h : KeysDistinct objs) : Stored (storeOf objs) objs := by
  intro o ho
  rw [storeOf, AList.lookup_to_alist]
  have hmem : o.key ∈ (objs.map fun o => (⟨o.key, o.data⟩ : Sigma fun _ : Key => Bytes)).keys :=
    mem_keys_of_mem (mem_map_of_mem ho)
  obtain ⟨data, hdata⟩ := Option.isSome_iff_exists.mp (dlookup_isSome.mpr hmem)
  obtain ⟨o', ho', heq⟩ := mem_map.mp (of_mem_dlookup hdata)
  obtain ⟨hkey, hdata'⟩ := Sigma.mk.inj_iff.mp heq
  cases eq_of_heq hdata'
  rw [hdata]
  by_contra hne
  exact h o' ho' o ho (fun hd => hne (congrArg some hd)) hkey

theorem Closed.complete (h : Closed C objects [root] objs) (hget : Stored objects objs) :
    Complete C objects root := by
  intro k hk
  obtain ⟨o, ho, rfl⟩ := (h.keys k).mpr ⟨root, mem_cons_self, hk⟩
  obtain ⟨cs, hcs⟩ := h.parses o ho
  exact ⟨o.data, cs, hget o ho, hcs⟩

/-- The walk of a tree succeeds, and the keys it emits are those a listing of its root returns. -/
theorem ingest_emits_closure (H : Blake3) (d : Driver) (matcher : Matcher M) (ign : M)
    (children : List Node) (hC : C.Lawful) :
    (matcher.Total → AllSupported children →
      ∃ root objs, buildDir H C d matcher ign children = .ok (root, objs)) ∧
    ∀ root objs, buildDir H C d matcher ign children = .ok (root, objs) → KeysDistinct objs →
      ∃ ks, Loop.Yields (reachableKeys C (storeOf objs) · root) (.ok ks) ∧
        ∀ k, k ∈ ks ↔ ∃ o ∈ objs, o.key = k := by
  refine ⟨fun hmatcher hs => exists_buildDir hmatcher hs ign, fun root objs hbuild hkeys => ?_⟩
  have hget := KeysDistinct.stored hkeys
  obtain ⟨-, hclosed⟩ := (Closed.emission H hC).buildDir hbuild hget
  obtain ⟨ks, hks, -⟩ := (hclosed.complete hget).lists
  refine ⟨ks, Loop.yields_run.mpr hks, fun k => ?_⟩
  rw [hks.ok.2.2.1, Walk.Reaches, edge_expand, hclosed.keys k]
  simp

/-! A directory of one small file. -/

def sampleDriver : Driver :=
  ⟨⟨2, 2, fun _ => true, Nat.one_lt_two, Nat.one_lt_two⟩, fun b => [b], fun _ => flatten_singleton, 0⟩

def keepAll : Matcher Unit := ⟨fun _ _ _ => false, fun _ _ => .ok ()⟩

def sampleFile : Node := .mk [97] ⟨0o100644, 0, 0, 0, (0, 0), [], ∅⟩ [104, 105] []

theorem buildEntry_sample
    (h : buildEntry H C sampleDriver keepAll () sampleFile = .ok (e, objs)) :
    ∃ blob, objs = [blob] ∧ blob.key.type = .blob := by
  rw [sampleFile, buildEntry] at h
  obtain ⟨⟨e₁, objs₁⟩, hpayload, h⟩ := bind_eq_ok.mp h
  obtain ⟨⟨e₂, objs₂⟩, hxattrs, h⟩ := bind_eq_ok.mp h
  cases h
  cases hxattrs
  obtain ⟨⟨ck, objs₃⟩, hfile, hpayload⟩ := bind_eq_ok.mp hpayload
  cases hpayload
  obtain ⟨⟨levels, objs₄⟩, hadd, hfile⟩ := bind_eq_ok.mp hfile
  obtain ⟨⟨root, objs₅⟩, hfin, hfile⟩ := bind_eq_ok.mp hfile
  cases hfile
  obtain ⟨blob, hblob, hadd⟩ := bind_eq_ok.mp hadd
  cases hadd
  simp only [finishIndex] at hfin
  cases hfin
  exact ⟨blob, rfl, (encodeBlob_ok hblob).2.1⟩

theorem buildDir_sample (h : buildDir H C sampleDriver keepAll () [sampleFile] = .ok (root, objs)) :
    KeysDistinct objs := by
  obtain ⟨⟨db, objs₁⟩, hnodes, hfin⟩ := bind_eq_ok.mp h
  rw [addNodes, if_neg (by decide)] at hnodes
  obtain ⟨⟨e, objs₂⟩, hentry, hnodes⟩ := bind_eq_ok.mp hnodes
  obtain ⟨⟨db₁, objs₃⟩, hadd, hnodes⟩ := bind_eq_ok.mp hnodes
  rw [DirBuilder.new_addEntry] at hadd
  cases hadd
  obtain ⟨⟨db₂, objs₄⟩, hnil, hnodes⟩ := bind_eq_ok.mp hnodes
  rw [addNodes] at hnil
  cases hnil
  cases hnodes
  obtain ⟨⟨root', objs₅⟩, hroot, hret⟩ := bind_eq_ok.mp hfin
  cases hret
  obtain ⟨leaf, hleaf, -, rfl⟩ := DirBuilder.finish_leaf hroot
  obtain ⟨blob, rfl, hblob⟩ := buildEntry_sample hentry
  have htypes : blob.key.type ≠ leaf.key.type := by
    rw [hblob, (encodeDirLeaf_ok hleaf).2.1]
    decide
  simp only [KeysDistinct, append_nil, singleton_append, mem_cons, not_mem_nil,
    or_false]
  rintro o (rfl | rfl) o' (rfl | rfl) hne heq
  · exact hne rfl
  · exact htypes (by rw [heq])
  · exact htypes (by rw [heq])
  · exact hne rfl

theorem ingest_emits_closure_sample :
    ∃ root objs ks, buildDir (fun _ => ⟨List.replicate 32 0, rfl⟩) .counting sampleDriver keepAll ()
        [sampleFile] = .ok (root, objs) ∧
      Loop.Yields (reachableKeys .counting (storeOf objs) · root) (.ok ks) ∧
      ∀ k, k ∈ ks ↔ ∃ o ∈ objs, o.key = k := by
  have hclosure := ingest_emits_closure (fun _ => ⟨List.replicate 32 0, rfl⟩) sampleDriver keepAll ()
    [sampleFile] Cbor.counting_lawful
  obtain ⟨root, objs, hbuild⟩ := hclosure.1 (fun _ _ => ⟨(), rfl⟩) (by
    simp only [AllSupported, sampleFile, Node.Supported]
    decide)
  obtain ⟨ks, hks, hmem⟩ := hclosure.2 root objs hbuild (buildDir_sample hbuild)
  exact ⟨root, objs, ks, hbuild, hks, hmem⟩

end AmberStore.Ingest
