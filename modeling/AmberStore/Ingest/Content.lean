import AmberStore.Fstree.Content
import AmberStore.Ingest.Closure
import AmberStore.Lib.Related

/-!
# File contents read back

Every key of a file index holds chunks: their concatenation is its content, and their size its
length. The children of an object are emitted before it.
-/

namespace AmberStore.Ingest
open Amberpack Fstree Cborx List Except

/-! ## Order -/

section Order
variable {C : Cbor} {base : Key → Prop}

/-- Every object parses, and its children are keys of the base or of objects before it. -/
def ChildrenFirst (C : Cbor) (base : Key → Prop) (objs : List Object) : Prop :=
  ∀ before o after, objs = before ++ o :: after →
    ∃ cs, childKeys C o.key o.data = .ok cs ∧ ∀ c ∈ cs, base c ∨ ∃ o' ∈ before, o'.key = c

theorem ChildrenFirst.nil : ChildrenFirst C base [] := by
  intro before o after h
  cases before <;> cases h

theorem ChildrenFirst.parses (h : ChildrenFirst C base objs) (ho : o ∈ objs) :
    ∃ cs, childKeys C o.key o.data = .ok cs := by
  obtain ⟨before, after, rfl⟩ := append_of_mem ho
  obtain ⟨cs, hcs, -⟩ := h before o after rfl
  exact ⟨cs, hcs⟩

theorem ChildrenFirst.append (h : ChildrenFirst C base objs)
    (h' : ChildrenFirst C (fun k => base k ∨ ∃ o ∈ objs, o.key = k) objs') :
    ChildrenFirst C base (objs ++ objs') := by
  intro before o after heq
  rcases append_eq_append_iff.mp heq with ⟨mid, rfl, hmid⟩ | ⟨mid, hobjs, hmid⟩
  · -- the object is one of the second list
    obtain ⟨cs, hcs, hbase⟩ := h' mid o after hmid
    refine ⟨cs, hcs, fun c hc => ?_⟩
    rcases hbase c hc with (hc | ⟨o', ho', hk⟩) | ⟨o', ho', hk⟩
    · exact .inl hc
    · exact .inr ⟨o', mem_append_left _ ho', hk⟩
    · exact .inr ⟨o', mem_append_right _ ho', hk⟩
  · cases mid with
    | nil =>
      obtain ⟨cs, hcs, hbase⟩ := h' [] o after hmid.symm
      rw [append_nil] at hobjs
      subst hobjs
      refine ⟨cs, hcs, fun c hc => ?_⟩
      rcases hbase c hc with hc | ⟨o', ho', -⟩
      · exact hc
      · cases ho'
    | cons o' mid =>
      cases hmid
      exact h before o mid hobjs

theorem ChildrenFirst.mono (h : ChildrenFirst C base objs) {base' : Key → Prop}
    (hbase : ∀ k, base k → base' k) : ChildrenFirst C base' objs := by
  intro before o after heq
  obtain ⟨cs, hcs, hc⟩ := h before o after heq
  exact ⟨cs, hcs, fun c hmem => (hc c hmem).imp_left (hbase c)⟩

theorem ChildrenFirst.single (hcs : childKeys C o.key o.data = .ok cs) (h : ∀ c ∈ cs, base c) :
    ChildrenFirst C base [o] := by
  intro before o' after heq
  cases before with
  | nil =>
    cases heq
    exact ⟨cs, hcs, fun c hc => .inl (h c hc)⟩
  | cons x before =>
    cases before <;> cases heq

/-- The key is that of the last object, and children come first. -/
structure Ordered (C : Cbor) (base : Key → Prop) (k : Key) (objs : List Object) : Prop where
  first : ChildrenFirst C base objs
  last : objs.getLast?.map Object.key = some k

theorem Ordered.mem (h : Ordered C base k objs) : ∃ o ∈ objs, o.key = k := by
  obtain ⟨o, ho, hk⟩ := Option.map_eq_some_iff.mp h.last
  exact ⟨o, mem_of_getLast? ho, hk⟩

theorem Ordered.all (h : List.Forall₂ (Ordered C base) ks dss) :
    ChildrenFirst C base dss.flatten ∧ ∀ k ∈ ks, ∃ o ∈ dss.flatten, o.key = k := by
  induction h with
  | nil => exact ⟨.nil, nofun⟩
  | cons hk _ ih =>
    refine ⟨hk.first.append (ih.1.mono fun _ hb => .inl hb), fun k' hk' => ?_⟩
    rcases mem_cons.mp hk' with rfl | hk'
    · obtain ⟨o, ho, hok⟩ := hk.mem
      exact ⟨o, mem_append_left _ ho, hok⟩
    · obtain ⟨o, ho, hok⟩ := ih.2 k' hk'
      exact ⟨o, mem_append_right _ ho, hok⟩

theorem Ordered.object (h : ChildrenFirst C base objs) (hcs : childKeys C o.key o.data = .ok cs)
    (hmem : ∀ c ∈ cs, base c ∨ ∃ o' ∈ objs, o'.key = c) : Ordered C base o.key (objs ++ [o]) :=
  ⟨h.append (.single hcs hmem), by simp⟩

theorem Ordered.fileEmission (H : Blake3) (hC : C.Lawful) :
    FileEmission H C (fun _ => True) (Ordered C base) where
  blob hobj _ := Ordered.object .nil (childKeys_leaf (by rw [(encodeBlob_ok hobj).2.1]; rfl)) nofun
  fileNode hcanon hall hobj _ :=
    Ordered.object (Ordered.all hall).1 (childKeys_fileNode hC hobj hcanon)
      fun c hc => .inr ((Ordered.all hall).2 c hc)

/-- Children come first, and the key is among the base or the objects. -/
structure Placed (C : Cbor) (base : Key → Prop) (k : Key) (objs : List Object) : Prop where
  first : ChildrenFirst C base objs
  mem : base k ∨ ∃ o ∈ objs, o.key = k

theorem Placed.all (h : List.Forall₂ (Placed C base) ks dss) :
    ChildrenFirst C base dss.flatten ∧ ∀ k ∈ ks, base k ∨ ∃ o ∈ dss.flatten, o.key = k := by
  induction h with
  | nil => exact ⟨.nil, nofun⟩
  | cons hk _ ih =>
    refine ⟨hk.first.append (ih.1.mono fun _ hb => .inl hb), fun k' hk' => ?_⟩
    rcases mem_cons.mp hk' with rfl | hk'
    · exact hk.mem.imp_right fun ⟨o, ho, hok⟩ => ⟨o, mem_append_left _ ho, hok⟩
    · exact (ih.2 k' hk').imp_right fun ⟨o, ho, hok⟩ => ⟨o, mem_append_right _ ho, hok⟩

theorem Placed.object (h : ChildrenFirst C base objs) (hcs : childKeys C o.key o.data = .ok cs)
    (hmem : ∀ c ∈ cs, base c ∨ ∃ o' ∈ objs, o'.key = c) : Placed C base o.key (objs ++ [o]) :=
  ⟨h.append (.single hcs hmem), .inr ⟨o, by simp, rfl⟩⟩

theorem EntryEmits.placed (h : List.Forall₂ (EntryEmits (Placed C base)) es dss) :
    ∃ kss, es.mapM Entry.childKeys = .ok kss ∧ ChildrenFirst C base dss.flatten ∧
      ∀ k ∈ kss.flatten, base k ∨ ∃ o ∈ dss.flatten, o.key = k := by
  induction h with
  | nil => exact ⟨[], rfl, .nil, nofun⟩
  | cons he _ ih =>
    obtain ⟨c, x, ds, hnames, hds, rfl⟩ := he
    obtain ⟨kss, hkss, hfirst, hmem⟩ := ih
    obtain ⟨hfirst', hmem'⟩ := Placed.all hds
    refine ⟨(c.toList ++ x.toList) :: kss, ?_, hfirst'.append (hfirst.mono fun _ hb => .inl hb),
      fun k hk => ?_⟩
    · rw [mapM_cons, hnames.childKeys, hkss]
      rfl
    · rcases mem_append.mp hk with hk | hk
      · exact (hmem' k hk).imp_right fun ⟨o, ho, hok⟩ => ⟨o, mem_append_left _ ho, hok⟩
      · exact (hmem k hk).imp_right fun ⟨o, ho, hok⟩ => ⟨o, mem_append_right _ ho, hok⟩

/-- Whatever is there already, the walk emits children first. -/
theorem Placed.emission (H : Blake3) (hC : C.Lawful) :
    Emission H C (fun _ => True) (Placed C base) (Placed C base) where
  file h := h
  blob hobj _ := Placed.object .nil (childKeys_leaf (by rw [(encodeBlob_ok hobj).2.1]; rfl)) nofun
  xattrSet hobj _ := Placed.object .nil (childKeys_leaf (by rw [(encodeXattrSet_ok hobj).2.1]; rfl)) nofun
  fileNode hcanon hall hobj _ :=
    Placed.object (Placed.all hall).1 (childKeys_fileNode hC hobj hcanon) (Placed.all hall).2
  dirNode hcanon hall hobj _ :=
    Placed.object (Placed.all hall).1 (childKeys_dirNode hC hobj hcanon) (Placed.all hall).2
  dirLeaf hall hobj _ := by
    obtain ⟨kss, hkss, hfirst, hmem⟩ := EntryEmits.placed hall
    exact Placed.object hfirst (childKeys_dirLeaf hC hobj hkss) hmem

end Order

/-! ## Contents -/

section Chunks
variable {H : Blake3} {C : Cbor} {d : Driver} {get : Key → Except FsError Bytes}

/-- The content is the concatenation of the chunks, and the length of the key their size. -/
structure HoldsChunks (C : Cbor) (get : Key → Except FsError Bytes) (k : Key) (chunks : List Bytes) :
    Prop where
  content : Content C get k chunks.flatten
  length : k.length = .ofNat chunks.flatten.length

theorem encode_length (h : encode H t n data = .ok o) : o.key.length = n := by
  unfold encode at h
  split at h
  · next hk =>
    cases h
    exact Key.newFromHash_length hk
  · cases h

theorem HoldsChunks.contents (h : List.Forall₂ (HoldsChunks C get) ks css) :
    List.Forall₂ (Content C get) ks (css.map List.flatten) ∧
      (ks.map Key.length).sum = .ofNat css.flatten.flatten.length := by
  induction h with
  | nil => exact ⟨.nil, rfl⟩
  | @cons k cs ks css hk _ ih =>
    refine ⟨.cons hk.content ih.1, ?_⟩
    rw [map_cons, sum_cons, hk.length, ih.2, flatten_cons, flatten_append,
      length_append, UInt64.ofNat_add]

/-- The chunks among emitted objects. -/
def chunksOf (objs : List Object) : List Bytes :=
  (objs.filter fun o => o.key.type = .blob).map Object.data

theorem chunksOf_append (a b : List Object) : chunksOf (a ++ b) = chunksOf a ++ chunksOf b := by
  simp [chunksOf]

theorem chunksOf_flatten (dss : List (List Object)) :
    chunksOf dss.flatten = (dss.map chunksOf).flatten := by
  induction dss with
  | nil => rfl
  | cons ds dss ih => rw [flatten_cons, chunksOf_append, ih, map_cons, flatten_cons]

theorem chunksOf_nodes (h : ∀ o ∈ objs, o.key.type ≠ .blob) : chunksOf objs = [] := by
  rw [chunksOf, filter_eq_nil_iff.mpr fun o ho => by simpa using h o ho, map_nil]

/-- The objects of a key: its chunks are theirs, and each object has some of them. -/
structure FileObjects (C : Cbor) (get : Key → Except FsError Bytes) (k : Key) (objs : List Object) :
    Prop where
  holds : HoldsChunks C get k (chunksOf objs)
  parts : ∀ o ∈ objs, ∃ part, part <:+: chunksOf objs ∧ HoldsChunks C get o.key part

theorem FileObjects.fileEmission (hC : C.Lawful) :
    FileEmission H C (fun o => get o.key = .ok o.data) (FileObjects C get) where
  blob {chunk o} hobj hget := by
    obtain ⟨hdata, htype, -⟩ := encodeBlob_ok hobj
    have hchunks : chunksOf [o] = [chunk] := by simp [chunksOf, htype, hdata]
    have hholds : HoldsChunks C get o.key [chunk] := by
      refine ⟨.blob htype ?_, ?_⟩
      · rw [hget, hdata, flatten_singleton]
      · rw [encode_length hobj, flatten_singleton]
    refine ⟨hchunks ▸ hholds, fun o' ho' => ⟨[chunk], ?_, mem_singleton.mp ho' ▸ hholds⟩⟩
    rw [hchunks]
  fileNode {ks dss o} hcanon hall hobj hget := by
    obtain ⟨hdata, htype, -⟩ := encodeFileNode_ok hobj
    have hnone : chunksOf [o] = [] := chunksOf_nodes (by simp [htype])
    have hchunks : chunksOf (dss.flatten ++ [o]) = (dss.map chunksOf).flatten := by
      rw [chunksOf_append, chunksOf_flatten, hnone, append_nil]
    have hkeys : List.Forall₂ (HoldsChunks C get) ks (dss.map chunksOf) :=
      List.forall₂_map_right_iff.mpr (hall.imp fun _ _ h => h.holds)
    obtain ⟨hcontents, hsum⟩ := HoldsChunks.contents hkeys
    have hholds : HoldsChunks C get o.key (dss.map chunksOf).flatten := by
      refine ⟨?_, (encode_length hobj).trans hsum⟩
      rw [flatten_flatten]
      exact .fileNode hC htype (hdata ▸ hget) hcanon hcontents
    refine ⟨hchunks ▸ hholds, fun o' ho' => ?_⟩
    rw [hchunks]
    rcases mem_append.mp ho' with ho' | ho'
    · obtain ⟨ds, hds, ho'⟩ := mem_flatten.mp ho'
      obtain ⟨k, -, hk⟩ := hall.exists_left hds
      obtain ⟨part, hpart, hholds'⟩ := hk.parts o' ho'
      exact ⟨part, hpart.trans (infix_of_mem_flatten (mem_map_of_mem hds)), hholds'⟩
    · exact ⟨_, infix_rfl, mem_singleton.mp ho' ▸ hholds⟩

theorem length_parseKeys (h : parseKeys wrap i raw = .ok ks) : ks.length = raw.length := by
  induction raw generalizing i ks with
  | nil =>
    cases h
    rfl
  | cons b raw ih =>
    rw [parseKeys] at h
    split at h
    · cases h
    · cases hks : parseKeys wrap (i + 1) raw with
      | error e =>
        rw [hks] at h
        cases h
      | ok ks' =>
        rw [hks] at h
        cases h
        rw [length_cons, length_cons, ih hks]

theorem length_children_fileNode (hC : C.Lawful) (hnode : buildNode H C false L = .ok (o, sep))
    (hcs : childKeys C o.key o.data = .ok cs) : cs.length = L.length := by
  obtain ⟨hdata, htype, -⟩ := buildNode_file hnode
  rw [childKeys, htype, hdata] at hcs
  simp only [hC.keys] at hcs
  rw [length_parseKeys hcs, length_map, length_map]

theorem NodeOfRun.not_blob (h : NodeOfRun H C ic false o) : o.key.type ≠ .blob := by
  obtain ⟨L, sep, -, -, -, hnode⟩ := h
  rw [(buildNode_file hnode).2.1]
  exact nofun

/-- The chunks are those that were added, and all other objects are nodes over runs. -/
theorem addChunks_runs (h : Short d.ic levels)
    (hadd : addChunks H C d levels chunks = .ok (levels', objs)) :
    Short d.ic levels' ∧ chunksOf objs = chunks ∧
      ∀ o ∈ objs, o.key.type = .blob ∨ NodeOfRun H C d.ic false o := by
  induction chunks generalizing levels objs with
  | nil =>
    cases hadd
    exact ⟨h, rfl, nofun⟩
  | cons chunk chunks ih =>
    obtain ⟨obj, hobj, hadd⟩ := bind_eq_ok.mp hadd
    obtain ⟨⟨levels₁, objs₁⟩, hone, hadd⟩ := bind_eq_ok.mp hadd
    obtain ⟨⟨levels₂, objs₂⟩, hrest, hadd⟩ := bind_eq_ok.mp hadd
    cases hadd
    obtain ⟨hdata, htype, hcanon⟩ := encodeBlob_ok hobj
    have hitem : (Item.mk obj.key []).key.Canonical := hcanon
    obtain ⟨h₁, hnodes⟩ := h.addItem hitem hone
    obtain ⟨h₂, hchunks, hruns⟩ := ih h₁ hrest
    refine ⟨h₂, ?_, fun o ho => ?_⟩
    · have hblob : chunksOf [obj] = [chunk] := by simp [chunksOf, htype, hdata]
      have hnone : chunksOf objs₁ = [] := chunksOf_nodes fun o ho => NodeOfRun.not_blob (hnodes o ho)
      rw [← singleton_append, chunksOf_append, chunksOf_append, hblob, hnone, hchunks]
      rfl
    · rcases mem_cons.mp ho with rfl | ho
      · exact .inl htype
      · exact (mem_append.mp ho).elim (fun ho => .inr (hnodes o ho)) (hruns o)

theorem buildChunks_runs (h : buildChunks H C d chunks = .ok (root, objs)) :
    chunksOf objs = chunks ∧ ∀ o ∈ objs, o.key.type = .fileNode → NodeOfRun H C d.ic false o := by
  obtain ⟨⟨levels, objs₁⟩, hadd, h⟩ := bind_eq_ok.mp h
  obtain ⟨⟨root, objs₂⟩, hfin, h⟩ := bind_eq_ok.mp h
  cases h
  obtain ⟨hlevels, hchunks, hruns⟩ := addChunks_runs .nil hadd
  have hnodes := hlevels.finishes (finishIndex_ok hfin)
  refine ⟨?_, fun o ho ht => ?_⟩
  · rw [chunksOf_append, hchunks, chunksOf_nodes fun o ho => NodeOfRun.not_blob (hnodes o ho), append_nil]
  · rcases mem_append.mp ho with ho | ho
    · exact (hruns o ho).resolve_left fun hblob => nomatch ht.symm.trans hblob
    · exact hnodes o ho

/-- Reading the key writes exactly the chunks, and its length is their size as long as this fits. -/
def ReadsAs (C : Cbor) (get : Key → Except FsError Bytes) (k : Key) (chunks : List Bytes) : Prop :=
  Loop.Yields (fun fuel => writeContent C get fuel k []) (chunks.flatten, none) ∧
    (chunks.flatten.length < 2 ^ 64 → k.length.toNat = chunks.flatten.length)

theorem HoldsChunks.readsAs (h : HoldsChunks C get k chunks) : ReadsAs C get k chunks := by
  obtain ⟨n, hn⟩ := h.content
  refine ⟨⟨n, fun fuel hfuel => hn fuel hfuel []⟩, fun hlt => ?_⟩
  rw [h.length, UInt64.toNat_ofNat', Nat.mod_eq_of_lt hlt]

/-- The index over the chunks of a file: the root reads as all chunks and every node as those below
it, runs have two children or more and at most the bound, and children are emitted first. -/
theorem file_reads_back (H : Blake3) (d : Driver) (hne : chunks ≠ []) (hC : C.Lawful) :
    ∃ root objs, buildChunks H C d chunks = .ok (root, objs) ∧
      (KeysDistinct objs → ReadsAs C (getFrom objs) root chunks ∧
        ∀ o ∈ objs, o.key.type = .fileNode →
          ∃ part, part <:+: chunks ∧ ReadsAs C (getFrom objs) o.key part) ∧
      (∀ o ∈ objs, o.key.type = .fileNode →
        ∃ cs, childKeys C o.key o.data = .ok cs ∧ 2 ≤ cs.length ∧ cs.length ≤ d.ic.maxRun) ∧
      ChildrenFirst C (fun _ => False) objs ∧ objs.getLast?.map Object.key = some root := by
  obtain ⟨root, objs, hbuild, -⟩ := exists_buildChunks (H := H) (C := C) (d := d) hne
  obtain ⟨hchunks, hruns⟩ := buildChunks_runs hbuild
  have hemit : FileEmission H C (fun _ => True) (Ordered C fun _ => False) := Ordered.fileEmission H hC
  obtain ⟨-, hordered⟩ := hemit.buildChunks hbuild fun _ _ => trivial
  refine ⟨root, objs, hbuild, fun hkeys => ?_, fun o ho ht => ?_, hordered.first, hordered.last⟩
  · obtain ⟨-, hobjs⟩ := (FileObjects.fileEmission hC).buildChunks hbuild fun o ho => hkeys.getFrom ho
    refine ⟨hchunks ▸ hobjs.holds.readsAs, fun o ho _ => ?_⟩
    obtain ⟨part, hpart, hholds⟩ := hobjs.parts o ho
    exact ⟨part, hchunks ▸ hpart, hholds.readsAs⟩
  · obtain ⟨L, sep, htwo, hmax, -, hnode⟩ := hruns o ho ht
    obtain ⟨cs, hcs⟩ := hordered.first.parses ho
    refine ⟨cs, hcs, ?_⟩
    rw [length_children_fileNode hC hnode hcs]
    exact ⟨htwo, hmax⟩

theorem buildChunks_two (hne : a.length < b.length) (hb : b.length < 2 ^ 64)
    (h : buildChunks H C sampleDriver [a, b] = .ok (root, objs)) :
    KeysDistinct objs ∧ ∃ o ∈ objs, o.key.type = .fileNode := by
  obtain ⟨⟨levels, objs₁⟩, hadd, h⟩ := bind_eq_ok.mp h
  obtain ⟨⟨root, objs₂⟩, hfin, h⟩ := bind_eq_ok.mp h
  cases h
  obtain ⟨blob, hblob, hadd⟩ := bind_eq_ok.mp hadd
  obtain ⟨⟨levels₁, objs₃⟩, hone, hadd⟩ := bind_eq_ok.mp hadd
  obtain ⟨⟨levels₂, objs₄⟩, hrest, hadd⟩ := bind_eq_ok.mp hadd
  cases hadd
  cases hone
  obtain ⟨blob', hblob', hrest⟩ := bind_eq_ok.mp hrest
  obtain ⟨⟨levels₃, objs₅⟩, htwo, hrest⟩ := bind_eq_ok.mp hrest
  obtain ⟨⟨levels₄, objs₆⟩, hnil, hrest⟩ := bind_eq_ok.mp hrest
  cases hrest
  cases hnil
  rcases addItem_cons htwo with ⟨hopen, -⟩ | ⟨-, node, sep, up, objs₇, hnode, hup, rfl, rfl⟩
  · cases hopen
  · cases hup
    simp only [finishIndex] at hfin
    cases hfin
    have htype := (encodeBlob_ok hblob).2.1
    have htype' := (encodeBlob_ok hblob').2.1
    have hlen : blob.key.length ≠ blob'.key.length := by
      rw [encode_length hblob, encode_length hblob']
      intro heq
      have := congrArg UInt64.toNat heq
      rw [UInt64.toNat_ofNat', UInt64.toNat_ofNat', Nat.mod_eq_of_lt (by omega), Nat.mod_eq_of_lt hb] at this
      omega
    have hkind := (buildNode_file hnode).2.1
    refine ⟨fun o ho o' ho' hd hk => ?_, node, by simp, hkind⟩
    simp only [nil_append, append_nil, mem_cons, not_mem_nil, or_false] at ho ho'
    rcases ho with rfl | rfl | rfl <;> rcases ho' with rfl | rfl | rfl <;> simp_all

theorem file_reads_back_two : ∃ root objs,
    buildChunks (fun _ => ⟨List.replicate 32 0, rfl⟩) .counting sampleDriver [[1], [2, 3]] =
        .ok (root, objs) ∧
      ReadsAs .counting (getFrom objs) root [[1], [2, 3]] ∧
      ∃ o ∈ objs, o.key.type = .fileNode ∧ ∃ cs, childKeys .counting o.key o.data = .ok cs ∧
        2 ≤ cs.length := by
  have hne : [[1], [2, 3]] ≠ ([] : List Bytes) := cons_ne_nil _ _
  obtain ⟨root, objs, hbuild, hreads, hruns, -⟩ := file_reads_back
    (fun _ => ⟨List.replicate 32 0, rfl⟩) sampleDriver hne Cbor.counting_lawful
  obtain ⟨hkeys, o, ho, ht⟩ := buildChunks_two (by decide) (by decide) hbuild
  obtain ⟨cs, hcs, htwo, -⟩ := hruns o ho ht
  exact ⟨root, objs, hbuild, (hreads hkeys).1, o, ho, ht, cs, hcs, htwo⟩

end Chunks

end AmberStore.Ingest
