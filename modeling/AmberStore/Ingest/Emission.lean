import AmberStore.Ingest.Driver
import AmberStore.Fstree.DirectorySpec

/-!
# The objects of a walk

Each part of the walk returns a key and emits objects for it, those for the children of an object
before the object itself. A statement about a key and its objects holds of the whole walk when every
object that is put on top of others keeps it.
-/

namespace AmberStore.Ingest
open Amberpack Fstree Cborx List Except

/-- The entry names the given keys, for its content and its extended attributes. -/
structure Names (e : Entry) (content xattrs : Option Key) : Prop where
  contentKey : e.contentKey = (content.map Key.bytes).getD []
  xattrsKey : e.xattrsKey = (xattrs.map Key.bytes).getD []
  contentOk : ∀ k ∈ content, k.Canonical
  xattrsOk : ∀ k ∈ xattrs, k.Canonical

theorem parseKeys_option {k : Option Key} (h : ∀ x ∈ k, x.Canonical) :
    parseKeys wrap i (if (k.map Key.bytes).getD [] = [] then [] else [(k.map Key.bytes).getD []]) =
      .ok k.toList := by
  cases k with
  | none => rfl
  | some k =>
    have hne : k.bytes ≠ [] := ne_nil_of_length_pos (by rw [k.size_eq]; decide)
    simp only [Option.map_some, Option.getD_some, if_neg hne]
    exact parseKeys_bytes fun x hx => h x (mem_singleton.mp hx ▸ rfl)

theorem Names.childKeys (h : Names e c x) : e.childKeys = .ok (c.toList ++ x.toList) := by
  rw [Entry.childKeys, h.contentKey, h.xattrsKey, parseKeys_option h.contentOk,
    parseKeys_option h.xattrsOk]
  rfl

theorem parse_option {k : Option Key} (h : ∀ x ∈ k, x.Canonical)
    (hlen : ((k.map Key.bytes).getD []).length = 32) :
    ∃ x, Key.parse ((k.map Key.bytes).getD []) = .ok x := by
  cases k with
  | none => cases hlen
  | some k => exact ⟨k, (h k rfl).parse⟩

theorem Names.keysOk (h : Names e c x) : e.KeysOk := by
  refine ⟨fun hlen => ?_, fun hlen => ?_⟩
  · rw [h.contentKey] at hlen ⊢
    exact parse_option h.contentOk hlen
  · rw [h.xattrsKey] at hlen ⊢
    exact parse_option h.xattrsOk hlen

theorem encodeXattrSet_ok (h : encodeXattrSet H m = .ok o) :
    o.data = encodeXattrs m ∧ o.key.type = .xattrSet ∧ o.key.Canonical := by
  rw [encodeXattrSet] at h
  exact encode_ok h

/-! ## The children of what is emitted -/

section Children
variable {C : Cbor} (hC : C.Lawful)
include hC

theorem childKeys_fileNode (h : encodeFileNode H C ks = .ok o) (hcanon : ∀ k ∈ ks, k.Canonical) :
    childKeys C o.key o.data = .ok ks := by
  obtain ⟨hdata, htype, -⟩ := encodeFileNode_ok h
  rw [childKeys, htype, hdata]
  simp only [hC.keys]
  exact parseKeys_bytes hcanon

theorem childKeys_dirNode {its : List Item}
    (h : encodeDirNode H C (its.map fun it => ⟨it.sep, it.key.bytes⟩) = .ok o)
    (hcanon : ∀ it ∈ its, it.key.Canonical) : childKeys C o.key o.data = .ok (its.map Item.key) := by
  obtain ⟨hdata, htype, -⟩ := encodeDirNode_ok h
  rw [childKeys, htype, hdata]
  simp only [hC.pairs, map_map]
  have hbytes : parseKeys (fun _ => .dirNodeChild o.key) 0 ((its.map Item.key).map Key.bytes) =
      .ok (its.map Item.key) := by
    refine parseKeys_bytes fun k hk => ?_
    obtain ⟨it, hit, rfl⟩ := mem_map.mp hk
    exact hcanon it hit
  rwa [map_map] at hbytes

theorem childKeys_dirLeaf (h : encodeDirLeaf H C es = .ok o)
    (hkss : es.mapM Entry.childKeys = .ok kss) : childKeys C o.key o.data = .ok kss.flatten := by
  obtain ⟨hdata, htype, -⟩ := encodeDirLeaf_ok h
  rw [childKeys, htype, hdata]
  simp only [hC.entries, hkss]
  rfl

end Children

/-! ## What every object keeps -/

/-- What holds of a key and the objects emitted for it is kept by the objects of a file. The objects
satisfy `T`. -/
structure FileEmission (H : Blake3) (C : Cbor) (T : Object → Prop) (K : Key → List Object → Prop) :
    Prop where
  blob : ∀ {chunk o}, encodeBlob H chunk = .ok o → T o → K o.key [o]
  fileNode : ∀ {ks dss o}, (∀ k ∈ ks, k.Canonical) → List.Forall₂ K ks dss →
    encodeFileNode H C ks = .ok o → T o → K o.key (dss.flatten ++ [o])

/-- The objects of an entry are those of the keys it names. -/
def EntryEmits (K : Key → List Object → Prop) (e : Entry) (objs : List Object) : Prop :=
  ∃ c x dss, Names e c x ∧ List.Forall₂ K (c.toList ++ x.toList) dss ∧ objs = dss.flatten

/-- What holds of a key and its objects is kept by all objects of a walk. For a file it follows from
what is kept by the objects of the file. -/
structure Emission (H : Blake3) (C : Cbor) (T : Object → Prop) (F K : Key → List Object → Prop) : Prop
    extends FileEmission H C T F where
  file : ∀ {k objs}, F k objs → K k objs
  xattrSet : ∀ {m o}, encodeXattrSet H m = .ok o → T o → K o.key [o]
  dirNode : ∀ {its : List Item} {dss o}, (∀ it ∈ its, it.key.Canonical) →
    List.Forall₂ K (its.map Item.key) dss →
    encodeDirNode H C (its.map fun it => ⟨it.sep, it.key.bytes⟩) = .ok o → T o →
    K o.key (dss.flatten ++ [o])
  dirLeaf : ∀ {es dss o}, List.Forall₂ (EntryEmits K) es dss → encodeDirLeaf H C es = .ok o → T o →
    K o.key (dss.flatten ++ [o])

theorem Emission.trivial : Emission H C (fun _ => True) (fun _ _ => True) fun _ _ => True :=
  ⟨⟨fun _ _ => ⟨⟩, fun _ _ _ _ => ⟨⟩⟩, fun _ => ⟨⟩, fun _ _ => ⟨⟩, fun _ _ _ _ => ⟨⟩, fun _ _ _ => ⟨⟩⟩

/-! ## The walk -/

section Walk
variable {H : Blake3} {C : Cbor} {d : Driver} {M : Type} {matcher : Matcher M} {T : Object → Prop}
  {F K : Key → List Object → Prop}

/-- An item with the objects of its key. -/
def Emits (K : Key → List Object → Prop) (it : Item) (objs : List Object) : Prop :=
  it.key.Canonical ∧ K it.key objs

theorem Emits.run (h : List.Forall₂ (Emits K) L dss) :
    (∀ it ∈ L, it.key.Canonical) ∧ List.Forall₂ K (L.map Item.key) dss := by
  induction h with
  | nil => exact ⟨nofun, .nil⟩
  | cons hit _ ih =>
    refine ⟨fun it hit' => ?_, .cons hit.2 ih.2⟩
    rcases mem_cons.mp hit' with rfl | hit'
    · exact hit.1
    · exact ih.1 it hit'

theorem FileEmission.node (h : FileEmission H C T K) :
    NodeDenotes H C false (Emits K) (fun o => [o]) T := by
  intro L dss obj sep _ hall hbuild hT
  obtain ⟨hcanon, hks⟩ := Emits.run hall
  refine ⟨(buildNode_file hbuild).2.2, ?_⟩
  obtain ⟨o, ho, hret⟩ := bind_eq_ok.mp hbuild
  cases hret
  refine h.fileNode (fun k hk => ?_) hks ho hT
  obtain ⟨it, hit, rfl⟩ := mem_map.mp hk
  exact hcanon it hit

theorem Emission.node (h : Emission H C T F K) : NodeDenotes H C true (Emits K) (fun o => [o]) T := by
  intro L dss obj sep _ hall hbuild hT
  obtain ⟨hcanon, hks⟩ := Emits.run hall
  refine ⟨(buildNode_dir hbuild).2.2.1, ?_⟩
  obtain ⟨o, ho, hret⟩ := bind_eq_ok.mp hbuild
  cases hret
  exact h.dirNode hcanon hks ho hT

theorem Emission.leaf (h : Emission H C T F K) :
    LeafDenotes H C (EntryEmits K) (Emits K) (fun o => [o]) T :=
  fun _ _ _ _ hall hencode hT => ⟨(encodeDirLeaf_ok hencode).2.2, h.dirLeaf hall hencode hT⟩

theorem FileEmission.addChunks (h : FileEmission H C T K) (hden : Denotes (Emits K) levels c)
    (hadd : addChunks H C d levels chunks = .ok (levels', objs)) (hT : ∀ o ∈ objs, T o) :
    Denotes (Emits K) levels' (c ++ objs) := by
  induction chunks generalizing levels c objs with
  | nil =>
    cases hadd
    rwa [append_nil]
  | cons chunk chunks ih =>
    obtain ⟨obj, hobj, hadd⟩ := bind_eq_ok.mp hadd
    obtain ⟨⟨levels₁, objs₁⟩, hone, hadd⟩ := bind_eq_ok.mp hadd
    obtain ⟨⟨levels₂, objs₂⟩, hrest, hadd⟩ := bind_eq_ok.mp hadd
    cases hadd
    have hblob : Emits K ⟨obj.key, []⟩ [obj] :=
      ⟨(encodeBlob_ok hobj).2.2, h.blob hobj (hT obj mem_cons_self)⟩
    obtain ⟨hone', -⟩ := addItem_denotes h.node hden hblob hone fun o ho => hT o (by simp [ho])
    simpa using ih hone' hrest fun o ho => hT o (by simp [ho])

/-- The root of a file index over chunks, and the objects emitted on the way. -/
def buildChunks (H : Blake3) (C : Cbor) (d : Driver) (chunks : List Bytes) :
    Except FsError (Key × List Object) := do
  let (levels, objs) ← addChunks H C d [] chunks
  let (root, objs') ← finishIndex H C d.ic false levels
  return (root, objs ++ objs')

theorem buildFile_eq (H : Blake3) (C : Cbor) (d : Driver) (content : Bytes) :
    buildFile H C d content =
      buildChunks H C d (if d.splitBytes content = [] then [[]] else d.splitBytes content) := rfl

theorem FileEmission.buildChunks (h : FileEmission H C T K)
    (hbuild : buildChunks H C d chunks = .ok (root, objs)) (hT : ∀ o ∈ objs, T o) :
    root.Canonical ∧ K root objs := by
  obtain ⟨⟨levels, objs₁⟩, hadd, hbuild⟩ := bind_eq_ok.mp hbuild
  obtain ⟨⟨root, objs₂⟩, hfin, hbuild⟩ := bind_eq_ok.mp hbuild
  cases hbuild
  have hlevels := h.addChunks .nil hadd fun o ho => hT o (mem_append_left _ ho)
  obtain ⟨⟨sep, hroot⟩, -⟩ := finishIndex_denotes h.node hlevels hfin fun o ho =>
    hT o (mem_append_right _ ho)
  simpa [Emits] using hroot

theorem Emission.finishDir (h : Emission H C T F K)
    (hdb : DirDenotes (EntryEmits K) (Emits K) db objs₁)
    (hfin : finishDir H C d (db, objs₁) = .ok (root, objs)) (hT : ∀ o ∈ objs, T o) :
    root.Canonical ∧ K root objs := by
  obtain ⟨⟨root, objs₂⟩, hroot, hret⟩ := bind_eq_ok.mp hfin
  cases hret
  have hT₂ : ∀ o ∈ objs₂, T o := fun o ho => hT o (mem_append_right _ ho)
  by_cases hany : db.leaf ≠ [] ∨ db.levels ≠ []
  · obtain ⟨⟨sep, hemits⟩, -⟩ := DirBuilder.finish_denotes h.leaf h.node hdb hany hroot hT₂
    simpa [Emits] using hemits
  · -- nothing was added: the directory is one empty leaf
    obtain ⟨hleaf, hlevels⟩ := not_or.mp hany
    obtain ⟨levels, leaf⟩ := db
    cases not_not.mp hleaf
    cases not_not.mp hlevels
    obtain ⟨obj, hobj, rfl, rfl⟩ := DirBuilder.finish_leaf hroot
    cases hdb.nil
    exact ⟨(encodeDirLeaf_ok hobj).2.2, h.dirLeaf .nil hobj (hT₂ obj mem_cons_self)⟩

theorem Emission.addXattrs (h : Emission H C T F K) (he : Names e c none)
    (hadd : addXattrs H d xattrs e = .ok (e', objs)) (hT : ∀ o ∈ objs, T o) :
    ∃ x dss, Names e' c x ∧ List.Forall₂ K x.toList dss ∧ objs = dss.flatten := by
  unfold Ingest.addXattrs at hadd
  split at hadd
  · cases hadd
    exact ⟨none, [], he, .nil, rfl⟩
  · simp only at hadd
    split at hadd
    · cases hadd
      exact ⟨none, [], ⟨he.contentKey, he.xattrsKey, he.contentOk, he.xattrsOk⟩, .nil, rfl⟩
    · obtain ⟨obj, hobj, hadd⟩ := bind_eq_ok.mp hadd
      cases hadd
      have hcanon : ∀ k ∈ some obj.key, k.Canonical := by
        intro k hk
        cases hk
        exact (encodeXattrSet_ok hobj).2.2
      exact ⟨some obj.key, [[obj]], ⟨he.contentKey, rfl, he.contentOk, hcanon⟩,
        .cons (h.xattrSet hobj (hT obj mem_cons_self)) .nil, rfl⟩

theorem Emission.addPayload (h : Emission H C T F K)
    (hdir : ∀ ck objs, dir = .ok (ck, objs) → (∀ o ∈ objs, T o) → ck.Canonical ∧ K ck objs)
    (hadd : addPayload H C d info content dir (bareEntry name info) = .ok (e, objs))
    (hT : ∀ o ∈ objs, T o) :
    ∃ c dss, Names e c none ∧ List.Forall₂ K c.toList dss ∧ objs = dss.flatten := by
  have hkey : ∀ {ck : Key} {objs : List Object}, ck.Canonical ∧ K ck objs → ∃ c dss,
      Names { bareEntry name info with contentKey := ck.bytes } c none ∧
        List.Forall₂ K c.toList dss ∧ objs = dss.flatten := by
    intro ck objs hck
    exact ⟨some ck, [objs], ⟨rfl, rfl, fun k hk => Option.some.inj hk ▸ hck.1, nofun⟩,
      .cons hck.2 .nil, by simp⟩
  unfold Ingest.addPayload at hadd
  split at hadd
  · obtain ⟨⟨ck, objs'⟩, hfile, hadd⟩ := bind_eq_ok.mp hadd
    cases hadd
    obtain ⟨hck, hF⟩ := h.buildChunks (buildFile_eq .. ▸ hfile) hT
    exact hkey ⟨hck, h.file hF⟩
  · obtain ⟨⟨ck, objs'⟩, hbuilt, hadd⟩ := bind_eq_ok.mp hadd
    cases hadd
    exact hkey (hdir ck objs hbuilt hT)
  · cases hadd
    exact ⟨none, [], ⟨rfl, rfl, nofun, nofun⟩, .nil, rfl⟩
  · cases hadd
    exact ⟨none, [], ⟨rfl, rfl, nofun, nofun⟩, .nil, rfl⟩
  · cases hadd
    exact ⟨none, [], ⟨rfl, rfl, nofun, nofun⟩, .nil, rfl⟩
  · cases hadd
    exact ⟨none, [], ⟨rfl, rfl, nofun, nofun⟩, .nil, rfl⟩
  · cases hadd
    exact ⟨none, [], ⟨rfl, rfl, nofun, nofun⟩, .nil, rfl⟩
  · cases hadd

mutual

theorem Emission.buildEntry (h : Emission H C T F K) : ∀ (ign : M) (n : Node) (e : Entry)
    (objs : List Object), buildEntry H C d matcher ign n = .ok (e, objs) → (∀ o ∈ objs, T o) →
    EntryEmits K e objs
  | ign, .mk name info content children, e, objs, hbuild, hT => by
    rw [Ingest.buildEntry] at hbuild
    obtain ⟨⟨e₁, objs₁⟩, hpayload, hbuild⟩ := bind_eq_ok.mp hbuild
    obtain ⟨⟨e₂, objs₂⟩, hxattrs, hbuild⟩ := bind_eq_ok.mp hbuild
    cases hbuild
    obtain ⟨c, dss, hc, hdss, rfl⟩ := h.addPayload (by
      intro ck objs hdir hT
      obtain ⟨sub, -, hdir⟩ := bind_eq_ok.mp hdir
      obtain ⟨⟨db, objs'⟩, hnodes, hfin⟩ := bind_eq_ok.mp hdir
      have hT' : ∀ o ∈ objs', T o := by
        obtain ⟨⟨root, objs₂⟩, -, hret⟩ := bind_eq_ok.mp hfin
        cases hret
        exact fun o ho => hT o (mem_append_left _ ho)
      have hdb := h.addNodes sub children .new db [] objs' .new hnodes hT'
      exact h.finishDir hdb hfin hT) hpayload fun o ho => hT o (mem_append_left _ ho)
    obtain ⟨x, dss', hx, hdss', rfl⟩ := h.addXattrs hc hxattrs fun o ho =>
      hT o (mem_append_right _ ho)
    exact ⟨c, x, dss ++ dss', hx, rel_append hdss hdss', flatten_append.symm⟩

theorem Emission.addNodes (h : Emission H C T F K) : ∀ (ign : M) (ns : List Node)
    (db db' : DirBuilder) (w objs : List Object), DirDenotes (EntryEmits K) (Emits K) db w →
    addNodes H C d matcher ign db ns = .ok (db', objs) → (∀ o ∈ objs, T o) →
    DirDenotes (EntryEmits K) (Emits K) db' (w ++ objs)
  | ign, [], db, db', w, objs, hw, hadd, hT => by
    rw [Ingest.addNodes] at hadd
    cases hadd
    rwa [append_nil]
  | ign, n :: ns, db, db', w, objs, hw, hadd, hT => by
    rw [Ingest.addNodes] at hadd
    split at hadd
    · exact h.addNodes ign ns db db' w objs hw hadd hT
    · obtain ⟨⟨e, objs₁⟩, hentry, hadd⟩ := bind_eq_ok.mp hadd
      obtain ⟨⟨db₁, objs₂⟩, hone, hadd⟩ := bind_eq_ok.mp hadd
      obtain ⟨⟨db₂, objs₃⟩, hrest, hadd⟩ := bind_eq_ok.mp hadd
      cases hadd
      have he := h.buildEntry ign n e objs₁ hentry fun o ho => hT o (by simp [ho])
      obtain ⟨hdb₁, -⟩ := DirBuilder.addEntry_denotes h.leaf h.node hw he hone fun o ho =>
        hT o (by simp [ho])
      have hall := h.addNodes ign ns db₁ db' _ objs₃ hdb₁ hrest fun o ho => hT o (by simp [ho])
      simpa using hall

end

theorem Emission.buildDir (h : Emission H C T F K)
    (hbuild : buildDir H C d matcher ign children = .ok (root, objs)) (hT : ∀ o ∈ objs, T o) :
    root.Canonical ∧ K root objs := by
  obtain ⟨⟨db, objs₁⟩, hnodes, hfin⟩ := bind_eq_ok.mp hbuild
  have hT₁ : ∀ o ∈ objs₁, T o := by
    obtain ⟨⟨root, objs₂⟩, -, hret⟩ := bind_eq_ok.mp hfin
    cases hret
    exact fun o ho => hT o (mem_append_left _ ho)
  have hdb := h.addNodes ign children .new db [] objs₁ .new hnodes hT₁
  exact h.finishDir hdb hfin hT

end Walk

end AmberStore.Ingest
