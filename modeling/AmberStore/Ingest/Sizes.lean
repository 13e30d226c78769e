import AmberStore.Ingest.Content

/-!
# Key lengths are sizes

The length of a key is what the tree below it takes: the bytes of every directory object and every
separate set of extended attributes, and the content of every file, each counted once for every path
to it.
-/

namespace AmberStore.Ingest
open Amberpack Fstree Cborx List

/-- The size of the tree below a key, for at most so many levels. There is none if an object cannot
be read. -/
def unfoldedSize (C : Cbor) (get : Key → Except FsError Bytes) : Nat → Key → Option Nat
  | 0, _ => none
  | fuel + 1, k =>
    match get k with
    | .error _ => none
    | .ok data =>
      match k.type with
      | .blob | .fileNode =>
        match writeContent C get (fuel + 1) k [] with
        | some (content, none) => some content.length
        | _ => none
      | .xattrSet => some data.length
      | .dirLeaf | .dirNode =>
        match childKeys C k data with
        | .error _ => none
        | .ok ks => (ks.mapM (unfoldedSize C get fuel)).map fun sizes => data.length + sizes.sum
      | .reserved _ => none

section Sizes
variable {H : Blake3} {C : Cbor} {get : Key → Except FsError Bytes}

/-- The tree below the key has the size, and the length of the key is this size. -/
structure Sized (C : Cbor) (get : Key → Except FsError Bytes) (k : Key) (size : Nat) : Prop where
  unfolded : Loop.Yields (fun fuel => unfoldedSize C get fuel k) size
  length : k.length = .ofNat size

theorem unfolded_content (h : Content C get k content) :
    Loop.Yields (fun fuel => unfoldedSize C get fuel k) content.length := by
  obtain ⟨n, hn⟩ := h
  refine ⟨n + 1, fun fuel hfuel => ?_⟩
  obtain ⟨fuel, rfl⟩ := Nat.exists_eq_add_of_le' (Nat.le_trans (Nat.succ_le_succ n.zero_le) hfuel)
  have hwrite := hn (fuel + 1) (by omega) []
  rw [nil_append] at hwrite
  simp only [unfoldedSize, hwrite]
  -- nothing else than a file can be written
  rw [writeContent] at hwrite
  cases hget : get k with
  | error e =>
    rw [hget] at hwrite
    cases hwrite
  | ok data =>
    rw [hget] at hwrite
    cases ht : k.type with
    | blob => rfl
    | fileNode => rfl
    | _ =>
      simp only [ht] at hwrite
      cases hwrite

theorem Sized.children (h : List.Forall₂ (Sized C get) ks sizes) :
    Loop.Yields (fun fuel => ks.mapM (unfoldedSize C get fuel)) sizes ∧
      (ks.map Key.length).sum = .ofNat sizes.sum := by
  induction h with
  | nil => exact ⟨⟨0, fun _ _ => rfl⟩, rfl⟩
  | @cons k size ks sizes hk _ ih =>
    obtain ⟨m, hm⟩ := hk.unfolded
    obtain ⟨⟨n, hn⟩, hsum⟩ := ih
    refine ⟨⟨max m n, fun fuel hfuel => ?_⟩, ?_⟩
    · have hone := hm fuel (by omega)
      have hrest := hn fuel (by omega)
      simp only at hone hrest ⊢
      rw [mapM_cons, hone, hrest]
      rfl
    · rw [map_cons, sum_cons, sum_cons, hk.length, hsum, UInt64.ofNat_add]

/-- An object of a directory has its own size and that of its children. -/
theorem Sized.object {o : Object} (ht : o.key.type = .dirLeaf ∨ o.key.type = .dirNode)
    (hget : get o.key = .ok o.data) (hcs : childKeys C o.key o.data = .ok ks)
    (h : List.Forall₂ (Sized C get) ks sizes)
    (hlen : o.key.length = .ofNat o.data.length + (ks.map Key.length).sum) :
    Sized C get o.key (o.data.length + sizes.sum) := by
  obtain ⟨⟨n, hn⟩, hsum⟩ := Sized.children h
  refine ⟨⟨n + 1, fun fuel hfuel => ?_⟩, by rw [hlen, hsum, UInt64.ofNat_add]⟩
  obtain ⟨fuel, rfl⟩ := Nat.exists_eq_add_of_le' (Nat.le_trans (Nat.succ_le_succ n.zero_le) hfuel)
  have hsizes := hn fuel (by omega)
  simp only at hsizes
  rcases ht with ht | ht
  · simp only [unfoldedSize, hget, ht, hcs, hsizes, Option.map_some]
  · simp only [unfoldedSize, hget, ht, hcs, hsizes, Option.map_some]

theorem keyLength_option {k : Option Key} (h : ∀ x ∈ k, x.Canonical) :
    keyLength wrap ((k.map Key.bytes).getD []) = .ok (k.toList.map Key.length).sum := by
  cases k with
  | none => rfl
  | some k =>
    simp only [Option.map_some, Option.getD_some, keyLength, k.size_eq, (h k rfl).parse, if_true]
    simp

theorem Names.subLength (h : Names e c x) :
    e.subLength = .ok ((c.toList ++ x.toList).map Key.length).sum := by
  rw [Entry.subLength, h.contentKey, h.xattrsKey, keyLength_option h.contentOk,
    keyLength_option h.xattrsOk, map_append, sum_append]
  rfl

theorem exists_sizes (h : List.Forall₂ (fun k (_ : List Object) => ∃ size, Sized C get k size) ks dss) :
    ∃ sizes, List.Forall₂ (Sized C get) ks sizes := by
  induction h with
  | nil => exact ⟨[], .nil⟩
  | cons hk _ ih =>
    obtain ⟨size, hsize⟩ := hk
    obtain ⟨sizes, hsizes⟩ := ih
    exact ⟨size :: sizes, .cons hsize hsizes⟩

/-- Both the children of a leaf and the lengths it adds up are those of the keys its entries name. -/
theorem EntryEmits.sized (h : List.Forall₂ (EntryEmits fun k _ => ∃ size, Sized C get k size) es dss) :
    ∃ kss sizes, es.mapM Entry.childKeys = .ok kss ∧
      es.mapM Entry.subLength = .ok (kss.map fun ks => (ks.map Key.length).sum) ∧
      List.Forall₂ (Sized C get) kss.flatten sizes := by
  induction h with
  | nil => exact ⟨[], [], rfl, rfl, .nil⟩
  | cons he _ ih =>
    obtain ⟨c, x, ds, hnames, hds, -⟩ := he
    obtain ⟨kss, sizes, hkss, hsub, hsized⟩ := ih
    obtain ⟨sizes', hsized'⟩ := exists_sizes hds
    refine ⟨(c.toList ++ x.toList) :: kss, sizes' ++ sizes, ?_, ?_, rel_append hsized' hsized⟩
    · rw [mapM_cons, hnames.childKeys, hkss]
      rfl
    · rw [mapM_cons, hnames.subLength, hsub]
      rfl

theorem encodeDirLeaf_length {kss : List (List Key)} (h : encodeDirLeaf H C es = .ok o)
    (hsub : es.mapM Entry.subLength = .ok (kss.map fun ks => (ks.map Key.length).sum)) :
    o.key.length = .ofNat o.data.length + (kss.flatten.map Key.length).sum := by
  obtain ⟨sub, hs, ho⟩ := Except.bind_eq_ok.mp h
  cases hsub.symm.trans hs
  rw [encode_length ho, (encode_ok ho).1, map_flatten, sum_flatten, map_map]
  rfl

theorem encodeDirNode_length {its : List Item} (hcanon : ∀ it ∈ its, it.key.Canonical)
    (h : encodeDirNode H C (its.map fun it => ⟨it.sep, it.key.bytes⟩) = .ok o) :
    o.key.length = .ofNat o.data.length + ((its.map Item.key).map Key.length).sum := by
  obtain ⟨sub, hs, ho⟩ := Except.bind_eq_ok.mp h
  have hsub : (its.map fun it => (⟨it.sep, it.key.bytes⟩ : DirPair)).mapM DirPair.subLength =
      .ok ((its.map Item.key).map Key.length) := by
    clear h hs ho
    induction its with
    | nil => rfl
    | cons it its ih =>
      rw [map_cons, mapM_cons, DirPair.subLength, (hcanon it mem_cons_self).parse,
        ih fun x hx => hcanon x (mem_cons_of_mem _ hx)]
      rfl
  cases hsub.symm.trans hs
  rw [encode_length ho, (encode_ok ho).1]

theorem Sized.emission (H : Blake3) (hC : C.Lawful) :
    Emission H C (fun o => get o.key = .ok o.data) (FileObjects C get)
      fun k _ => ∃ size, Sized C get k size where
  toFileEmission := FileObjects.fileEmission hC
  file h := ⟨_, unfolded_content h.holds.content, h.holds.length⟩
  xattrSet {m o} hobj hget := by
    obtain ⟨hdata, htype, -⟩ := encodeXattrSet_ok hobj
    refine ⟨o.data.length, ⟨1, fun fuel hfuel => ?_⟩, ?_⟩
    · obtain ⟨fuel, rfl⟩ := Nat.exists_eq_add_of_le' hfuel
      simp only [unfoldedSize, hget, htype]
    · rw [encodeXattrSet] at hobj
      rw [encode_length hobj, hdata]
  dirNode hcanon hall hobj hget := by
    obtain ⟨sizes, hsizes⟩ := exists_sizes hall
    exact ⟨_, Sized.object (.inr (encodeDirNode_ok hobj).2.1) hget (childKeys_dirNode hC hobj hcanon)
      hsizes (encodeDirNode_length hcanon hobj)⟩
  dirLeaf hall hobj hget := by
    obtain ⟨kss, sizes, hkss, hsub, hsizes⟩ := EntryEmits.sized hall
    exact ⟨_, Sized.object (.inl (encodeDirLeaf_ok hobj).2.1) hget (childKeys_dirLeaf hC hobj hkss)
      hsizes (encodeDirLeaf_length hobj hsub)⟩

/-- The length of the root of an ingested tree is the size of the tree unfolded from it. -/
theorem root_length (H : Blake3) (d : Driver) (matcher : Matcher M) (ign : M) (hC : C.Lawful)
    (hbuild : buildDir H C d matcher ign children = .ok (root, objs)) (hkeys : KeysDistinct objs) :
    ∃ size, Loop.Yields (fun fuel => unfoldedSize C (getFrom objs) fuel root) size ∧
      (size < 2 ^ 64 → root.length.toNat = size) := by
  obtain ⟨-, size, hsize⟩ := (Sized.emission H hC).buildDir hbuild fun o ho => hkeys.getFrom ho
  refine ⟨size, hsize.unfolded, fun hlt => ?_⟩
  rw [hsize.length, UInt64.toNat_ofNat', Nat.mod_eq_of_lt hlt]

theorem root_length_sample :
    ∃ root objs size, buildDir (fun _ => ⟨List.replicate 32 0, rfl⟩) .counting sampleDriver keepAll ()
        [sampleFile] = .ok (root, objs) ∧
      Loop.Yields (fun fuel => unfoldedSize .counting (getFrom objs) fuel root) size ∧
      (size < 2 ^ 64 → root.length.toNat = size) := by
  obtain ⟨root, objs, hbuild⟩ : ∃ root objs, buildDir (fun _ => ⟨List.replicate 32 0, rfl⟩) .counting
      sampleDriver keepAll () [sampleFile] = .ok (root, objs) := exists_buildDir
    (fun _ _ => ⟨(), rfl⟩) (by
      simp only [AllSupported, sampleFile, Node.Supported]
      decide) ()
  obtain ⟨size, hsize, hlen⟩ := root_length _ sampleDriver keepAll () Cbor.counting_lawful hbuild
    (buildDir_sample hbuild)
  exact ⟨root, objs, size, hbuild, hsize, hlen⟩

end Sizes

end AmberStore.Ingest
