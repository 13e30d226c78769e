import AmberStore.Packstore.Segment

/-!
# What reads find in a segment

The index of an active segment and the footer of a sealed one both locate exactly the objects of the
segment's contents, and every read of the segment returns what its own object says.
-/

namespace AmberStore.Packstore
open Bytes Amberpack List

variable {Z : Zstd} {F : FuseLib}

/-! ## The index of an active segment -/

/-- The index locates exactly the given objects. -/
def IndexOk (Z : Zstd) (index : AList fun _ : Key => ActiveLoc) (objs : List Object) : Prop :=
  ∀ k loc, index.lookup k = some loc ↔ (k, loc) ∈ locs Z objs

namespace IndexOk
variable {index : AList fun _ : Key => ActiveLoc} {objs : List Object}

theorem nil : IndexOk Z ∅ [] := by
  intro k loc
  simp [locs, locsFrom]

theorem isSome_iff (h : IndexOk Z index objs) :
    (index.lookup k).isSome ↔ k ∈ objs.map Object.key := by
  rw [← map_fst_locs Z, Option.isSome_iff_exists]
  constructor
  · rintro ⟨loc, hloc⟩
    exact mem_map.mpr ⟨_, (h k loc).mp hloc, rfl⟩
  · intro hk
    obtain ⟨⟨k', loc⟩, hmem, rfl⟩ := mem_map.mp hk
    exact ⟨loc, (h k' loc).mpr hmem⟩

theorem snoc (h : IndexOk Z index objs) (hk : o.key ∉ objs.map Object.key) :
    IndexOk Z (index.insert o.key (locOf (bodyOf Z objs).length (objectRecord Z o)))
      (objs ++ [o]) := by
  intro k loc
  rw [locs_snoc, mem_append, mem_singleton, Prod.mk.injEq]
  by_cases hko : k = o.key
  · subst hko
    rw [AList.lookup_insert, Option.some.injEq]
    constructor
    · rintro rfl
      exact .inr ⟨rfl, rfl⟩
    · rintro (hmem | ⟨-, rfl⟩)
      · exact absurd (h.isSome_iff.mp (Option.isSome_iff_exists.mpr ⟨_, (h _ _).mpr hmem⟩)) hk
      · rfl
  · rw [AList.lookup_insert_ne hko, h k loc]
    exact ⟨.inl, fun hor => hor.resolve_right fun h' => hko h'.1⟩

end IndexOk

/-- The index entries of a list of objects. -/
def entriesOf (Z : Zstd) (objs : List Object) : List IndexEntry :=
  (locs Z objs).map fun p => { key := p.1, off := p.2.off, slen := p.2.slen }

theorem map_key_entriesOf (objs : List Object) :
    (entriesOf Z objs).map IndexEntry.key = objs.map Object.key := by
  rw [← map_fst_locs Z, entriesOf, map_map]
  rfl

theorem nodup_entriesOf (c : Contents) : ((entriesOf Z c.objs).map IndexEntry.key).Nodup := by
  rw [map_key_entriesOf]; exact c.nodup

theorem length_entriesOf (objs : List Object) : (entriesOf Z objs).length = objs.length := by
  have := congrArg List.length (map_key_entriesOf (Z := Z) objs)
  simpa using this

theorem mem_entriesOf {objs : List Object} (h : ∀ o ∈ objs, o.data.length ≤ maxPayload) :
    e ∈ entriesOf Z objs ↔ ∃ a o b, objs = a ++ o :: b ∧
      e = ⟨o.key, (bodyOf Z a).length, (storedForm Z o.data).2.length⟩ := by
  rw [entriesOf, mem_map]
  constructor
  · rintro ⟨p, hp, rfl⟩
    obtain ⟨a, o, b, rfl, rfl⟩ := (mem_locs Z).mp hp
    refine ⟨a, o, b, rfl, ?_⟩
    rw [locOf_objectRecord Z _ o (h o (by simp))]
  · rintro ⟨a, o, b, rfl, rfl⟩
    refine ⟨_, (mem_locs Z).mpr ⟨a, o, b, rfl, rfl⟩, ?_⟩
    rw [locOf_objectRecord Z _ o (h o (by simp))]

/-- The entries a seal collects from the index are those of the contents, in some order. -/
theorem IndexOk.indexEntries_perm {a : ActiveSegment} {c : Contents}
    (h : IndexOk Z a.index c.objs) : a.indexEntries.Perm (entriesOf Z c.objs) := by
  have hnd : (locs Z c.objs).Nodup := .of_map Prod.fst (map_fst_locs Z c.objs ▸ c.nodup)
  have hsig : a.index.entries.Perm ((locs Z c.objs).map fun p => ⟨p.1, p.2⟩) := by
    refine (perm_ext_iff_of_nodup a.index.nodupKeys.nodup (hnd.map ?_)).mpr ?_
    · rintro ⟨k, l⟩ ⟨k', l'⟩ heq
      cases heq
      rfl
    · rintro ⟨k, loc⟩
      rw [← AList.mem_lookup_iff, Option.mem_def, h k loc, mem_map]
      constructor
      · exact fun hm => ⟨_, hm, rfl⟩
      · rintro ⟨⟨k', l'⟩, hm, heq⟩
        cases heq
        exact hm
  have := hsig.map fun e => ({ key := e.1, off := e.2.off, slen := e.2.slen } : IndexEntry)
  rwa [map_map] at this

theorem recordAt_fields {o : Object} {d : Bytes}
    (h : slice d off (off + (objectRecord Z o).length) = objectRecord Z o)
    (ho : o.data.length ≤ maxPayload) :
    (slice d off (off + recHeaderSize)).getD 33 0 = (storedForm Z o.data).1 ∧
    uint (slice (slice d off (off + recHeaderSize)) 34 38) = o.data.length ∧
    slice d (off + recHeaderSize) (off + recHeaderSize + (storedForm Z o.data).2.length) =
      (storedForm Z o.data).2 := by
  have hloc := locOf_objectRecord Z off o ho
  have hlen := length_objectRecord Z o
  have h46 : recHeaderSize = 46 := rfl
  simp only [locOf, ActiveLoc.mk.injEq, true_and] at hloc
  obtain ⟨hflags, hulen, -⟩ := hloc
  refine ⟨?_, ?_, ?_⟩
  · rw [getD_slice (by omega), ← hflags, ← h, getD_slice (by omega)]
  · rw [slice_slice (by omega), ← hulen, ← h, slice_slice (by omega)]
  · have hp : slice (objectRecord Z o ++ []) 46 (46 + (storedForm Z o.data).2.length) =
        (storedForm Z o.data).2 := recordBytes_payload
    rw [append_nil] at hp
    rw [← h, slice_slice (by omega)] at hp
    rw [h46, Nat.add_assoc]
    exact hp

/-! ## Footers do not depend on the order of the entries -/

/-- Entries with distinct keys can be sorted in one way only. -/
theorem sorted_unique {es es' : List IndexEntry} (h : es.Perm es') (hnd : (es.map IndexEntry.key).Nodup)
    (hs : es.Pairwise fun a b => leEntries a b = true)
    (hs' : es'.Pairwise fun a b => leEntries a b = true) : es = es' := by
  refine List.Perm.eq_of_pairwise ?_ hs hs' h
  intro a b ha hb hab hba
  refine inj_on_of_nodup_map hnd ha (h.mem_iff.mpr hb) ?_
  simp only [leEntries, Bool.or_eq_true, Bool.and_eq_true, decide_eq_true_eq, beq_iff_eq] at hab hba
  rcases hab with hab | ⟨_, hab⟩ <;> rcases hba with hba | ⟨_, hba⟩
  · exact absurd (UInt8.lt_trans hab hba) (UInt8.lt_irrefl _)
  · simp_all
  · simp_all
  · exact Key.ext (Std.le_antisymm hab hba)

theorem sortEntries_congr {es es' : List IndexEntry} (h : es.Perm es')
    (hnd : (es.map IndexEntry.key).Nodup) : sortEntries es = sortEntries es' :=
  sorted_unique (((sortEntries_perm es).trans h).trans (sortEntries_perm es').symm)
    (map_key_nodup_sort hnd) (sortEntries_pairwise es) (sortEntries_pairwise es')

theorem filterTails_congr {es es' : List IndexEntry} (h : es.Perm es') :
    filterTails es = filterTails es' := by
  unfold filterTails
  congr 1
  have htrans (a b c : UInt64) : decide (a ≤ b) = true → decide (b ≤ c) = true →
      decide (a ≤ c) = true := by
    simp only [decide_eq_true_eq]; exact UInt64.le_trans
  have htotal (a b : UInt64) : (decide (a ≤ b) || decide (b ≤ a)) = true := by
    simp only [Bool.or_eq_true, decide_eq_true_eq]; exact UInt64.le_total a b
  refine List.Perm.eq_of_pairwise ?_ (pairwise_mergeSort htrans htotal _)
    (pairwise_mergeSort htrans htotal _) ?_
  · intro a b _ _ hab hba
    simp only [decide_eq_true_eq] at hab hba
    exact UInt64.le_antisymm hab hba
  · exact ((mergeSort_perm ..).trans (h.map _)).trans (mergeSort_perm ..).symm

theorem buildFooter_congr {es es' : List IndexEntry} (h : es.Perm es')
    (hnd : (es.map IndexEntry.key).Nodup) (n : Nat) : buildFooter F n es = buildFooter F n es' := by
  unfold buildFooter buildFilterSection buildIndexSection
  rw [filterTails_congr h, sortEntries_congr h hnd, h.length_eq]

/-! ## Sealed segments -/

/-- A segment that can be sealed: not empty, and few enough records for the footer's counters. -/
structure Sealable (c : Contents) : Prop where
  ne_nil : c.objs ≠ []
  lt : c.objs.length < 2 ^ 32

/-- The footer of a segment, empty where none can be built. -/
def footerOf (Z : Zstd) (F : FuseLib) (c : Contents) : Bytes :=
  match buildFooter F (bodyOf Z c.objs).length (entriesOf Z c.objs) with
  | .ok foot => foot
  | .error _ => []

/-- The whole file of a sealed segment. -/
def sealedFile (Z : Zstd) (F : FuseLib) (c : Contents) : Bytes := bodyOf Z c.objs ++ footerOf Z F c

theorem length_bodyOf_lt {c : Contents} (h : c.objs.length < 2 ^ 32) :
    (bodyOf Z c.objs).length < 2 ^ 61 := by
  have h1 := length_records_le Z fun o ho => (c.fits o ho).2
  have hcap : recHeaderSize + maxPayload = 268435502 := by decide
  rw [bodyOf, length_append, show magicHeader.length = 8 from rfl]
  rw [hcap] at h1
  omega

theorem length_buildFooter {es : List IndexEntry} (h : buildFooter F n es = .ok foot)
    (hlen : es.length < 2 ^ 32) : 0 < foot.length ∧ foot.length < 2 ^ 40 := by
  unfold buildFooter buildFilterSection at h
  split at h
  · cases h
  split at h
  · cases h
  · next filt hfilt =>
    split at hfilt
    · cases hfilt
    · next f hf =>
      cases hfilt
      cases h
      obtain ⟨-, hfp, -⟩ := F.geometry hf
      rw [length_assembleFooter, length_buildIndexSection, length_serializeFilter]
      simp only [fanoutSize, indexEntrySize, filterHeaderSize, trailerSize]
      omega

/-- A sealable segment has a footer, which reads back as an index of exactly its objects. -/
theorem parseFooter_sealedFile {c : Contents} (h : Sealable c) :
    buildFooter F (bodyOf Z c.objs).length (entriesOf Z c.objs) = .ok (footerOf Z F c) ∧
    ∃ f, parseFooter (sealedFile Z F c) =
        .ok (footerView (bodyOf Z c.objs).length (entriesOf Z c.objs) f) ∧
      ∀ o ∈ c.objs, F.contains f (filterKey o.key) = true := by
  have hlen : (entriesOf Z c.objs).length < 2 ^ 32 := by rw [length_entriesOf]; exact h.lt
  have hne : entriesOf Z c.objs ≠ [] := by
    intro hnil
    have := length_entriesOf (Z := Z) c.objs
    rw [hnil] at this
    exact h.ne_nil (eq_nil_of_length_eq_zero this.symm)
  obtain ⟨foot, f, hfoot, -, hparse, hcont⟩ := parseFooter_buildFooter F
    (magicHeader_prefix_bodyOf Z c.objs) hne hlen
    (by
      intro foot hfoot
      have hb := length_bodyOf_lt (Z := Z) h.lt
      have hf := (length_buildFooter hfoot hlen).2
      rw [length_append]
      omega)
  have hfo : footerOf Z F c = foot := by rw [footerOf, hfoot]
  refine ⟨hfo ▸ hfoot, f, by rw [sealedFile, hfo, hparse], ?_⟩
  intro o ho
  have hk : o.key ∈ (entriesOf Z c.objs).map IndexEntry.key := by
    rw [map_key_entriesOf]
    exact mem_map_of_mem ho
  obtain ⟨e, he, hek⟩ := mem_map.mp hk
  exact hek ▸ hcont e he

/-- A mapped segment holds the given contents. -/
structure SegRep (Z : Zstd) (F : FuseLib) (g : SealedSegment) (c : Contents) : Prop where
  sealable : Sealable c
  mm : g.mm = sealedFile Z F c
  fv : parseFooter g.mm = .ok g.fv

namespace SegRep
variable {g : SealedSegment} {c : Contents}

section
variable (h : SegRep Z F g c)
include h

theorem view :
    ∃ f, g.fv = footerView (bodyOf Z c.objs).length (entriesOf Z c.objs) f ∧
      ∀ o ∈ c.objs, F.contains f (filterKey o.key) = true := by
  obtain ⟨-, f, hf, hcont⟩ := parseFooter_sealedFile (Z := Z) (F := F) h.sealable
  have hfv := h.fv
  rw [h.mm, hf] at hfv
  exact ⟨f, (Except.ok.inj hfv).symm, hcont⟩

theorem entries_bound :
    ∀ e ∈ entriesOf Z c.objs, e.off < 2 ^ 64 ∧ e.slen < 2 ^ 32 := by
  intro e he
  obtain ⟨a, o, b, hobjs, rfl⟩ := (mem_entriesOf fun o ho => (c.fits o ho).2).mp he
  have hbody := length_bodyOf_lt (Z := Z) h.sealable.lt
  have hpre := (bodyOf_prefix_append Z a (o :: b)).length_le
  rw [← hobjs] at hpre
  have hs := storedForm_length_le Z (c.fits o (by rw [hobjs]; simp)).2
  have hbig : maxPayload < 2 ^ 32 := by decide
  exact ⟨Nat.lt_of_le_of_lt hpre (by omega), Nat.lt_of_le_of_lt hs hbig⟩

theorem find_of_mem (hobjs : c.objs = a ++ o :: b) :
    g.find F o.key = some ((bodyOf Z a).length, (storedForm Z o.data).2.length) := by
  obtain ⟨f, hv, hcont⟩ := h.view
  have he : (⟨o.key, (bodyOf Z a).length, (storedForm Z o.data).2.length⟩ : IndexEntry) ∈
      entriesOf Z c.objs := (mem_entriesOf fun o ho => (c.fits o ho).2).mpr ⟨a, o, b, hobjs, rfl⟩
  have hbound := h.entries_bound _ he
  have hc : F.contains g.fv.filter (filterKey o.key) = true := by
    rw [hv]; exact hcont o (by rw [hobjs]; simp)
  have hl := footerView_lookup_of_mem (bodyOf Z c.objs).length f (nodup_entriesOf c) he hbound.1
    hbound.2
  rw [SealedSegment.find, if_pos hc, hv, hl]

theorem find_of_not_mem (hk : c.find k = none) : g.find F k = none := by
  obtain ⟨f, hv, -⟩ := h.view
  unfold SealedSegment.find
  split
  · rw [hv]
    refine footerView_lookup_of_not_mem _ f ?_
    intro e he hek
    obtain ⟨a, o, b, hobjs, rfl⟩ := (mem_entriesOf fun o ho => (c.fits o ho).2).mp he
    exact c.find_eq_none.mp hk o (by rw [hobjs]; simp) hek
  · rfl

theorem has_eq (k : Key) : g.has F k = (c.find k).isSome := by
  unfold SealedSegment.has
  cases hk : c.find k with
  | none => rw [h.find_of_not_mem hk]; rfl
  | some o =>
    obtain ⟨ho, rfl⟩ := c.find_eq_some.mp hk
    obtain ⟨a, b, hobjs⟩ := append_of_mem ho
    rw [h.find_of_mem hobjs]
    rfl

theorem storedSize_eq (k : Key) :
    g.storedSize F k = (c.find k).map fun o => (storedForm Z o.data).2.length := by
  unfold SealedSegment.storedSize
  cases hk : c.find k with
  | none => rw [h.find_of_not_mem hk]; rfl
  | some o =>
    obtain ⟨ho, rfl⟩ := c.find_eq_some.mp hk
    obtain ⟨a, b, hobjs⟩ := append_of_mem ho
    rw [h.find_of_mem hobjs]
    rfl

theorem inBounds (hobjs : c.objs = a ++ o :: b) :
    g.outOfBounds (bodyOf Z a).length (storedForm Z o.data).2.length = false := by
  obtain ⟨f, hv, -⟩ := h.view
  have hbody : g.fv.bodyLen = (bodyOf Z c.objs).length := by rw [hv]; rfl
  have hlen : (bodyOf Z c.objs).length =
      (bodyOf Z a).length + (objectRecord Z o).length + (records Z b).length := by
    rw [hobjs, bodyOf_append, records_cons, length_append, length_append, Nat.add_assoc]
  have hmag := (magicHeader_prefix_bodyOf Z a).length_le
  have hrec := length_objectRecord Z o
  unfold SealedSegment.outOfBounds
  rw [decide_eq_false_iff_not, hbody]
  omega

theorem body_prefix : bodyOf Z c.objs <+: g.mm := by
  rw [h.mm]; exact prefix_append ..

theorem getRecord_eq (k : Key) :
    g.getRecord F k = .ok ((c.find k).map (objectRecord Z)) := by
  unfold SealedSegment.getRecord
  cases hk : c.find k with
  | none => rw [h.find_of_not_mem hk]; rfl
  | some o =>
    obtain ⟨ho, rfl⟩ := c.find_eq_some.mp hk
    obtain ⟨a, b, hobjs⟩ := append_of_mem ho
    rw [h.find_of_mem hobjs]
    simp only [h.inBounds hobjs, Bool.false_eq_true, if_false, Option.map_some]
    rw [Nat.add_assoc, ← length_objectRecord, slice_record Z (hobjs ▸ h.body_prefix)]

theorem get_eq (k : Key) : g.get F k Z = .ok ((c.find k).map Object.data) := by
  unfold SealedSegment.get
  cases hk : c.find k with
  | none => rw [h.find_of_not_mem hk]; rfl
  | some o =>
    obtain ⟨ho, rfl⟩ := c.find_eq_some.mp hk
    obtain ⟨a, b, hobjs⟩ := append_of_mem ho
    obtain ⟨hflags, hulen, hstored⟩ := recordAt_fields (slice_record Z (hobjs ▸ h.body_prefix))
      (c.fits o ho).2
    rw [h.find_of_mem hobjs]
    simp only [h.inBounds hobjs, Bool.false_eq_true, if_false, Option.map_some, hflags, hulen,
      hstored, decodePayload_storedForm (c.fits o ho).2]

end

end SegRep
end AmberStore.Packstore
