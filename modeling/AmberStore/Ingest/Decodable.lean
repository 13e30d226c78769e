import AmberStore.Ingest.ItemBits

/-!
# Decoding what was emitted

The decoder of the CBOR library takes arrays up to a length only. The bound of the chunker keeps every
run within that length when it has at most 15 bits.
-/

namespace AmberStore.Ingest
open Amberpack Fstree Cborx List Except

/-! ## A decoder with a limit -/

/-- What was encoded can be decoded, unless it has an array of more than so many elements. -/
structure Limited (C : Cbor) (limit : Nat) : Prop where
  keys : ∀ l, C.decodeKeys (C.encodeKeys l) = if l.length ≤ limit then some l else none
  entries : ∀ l, C.decodeEntries (C.encodeEntries l) =
    if l.length ≤ limit ∧ ∀ e ∈ l, e.rdev.length ≤ limit then some l else none
  pairs : ∀ l, C.decodePairs (C.encodePairs l) = if l.length ≤ limit then some l else none

/-- The default of the library. -/
def maxArrayElements : Nat := 131072

/-- The object is accepted by the decoder of its type, and decodes to what was encoded. -/
structure Decodes (C : Cbor) (o : Object) : Prop where
  file : o.key.type = .fileNode →
    ∃ ks, o.data = C.encodeKeys (ks.map Key.bytes) ∧ decodeFileNode C o.key o.data = .ok ks
  leaf : o.key.type = .dirLeaf →
    ∃ es, o.data = C.encodeEntries es ∧ C.decodeEntries o.data = some es
  dir : o.key.type = .dirNode →
    ∃ ps, o.data = C.encodePairs ps ∧ C.decodePairs o.data = some ps

section Runs
variable {H : Blake3} {C : Cbor} {ic : ItemChunker}

theorem NodeOfRun.decodes (hC : Limited C limit) (hmax : ic.maxRun ≤ limit)
    (h : NodeOfRun H C ic isDir o) : Decodes C o := by
  obtain ⟨L, sep, -, hlen, hc, hnode⟩ := h
  cases isDir with
  | true =>
    obtain ⟨hdata, htype, -⟩ := buildNode_dir hnode
    refine ⟨fun ht => ?_, fun ht => ?_, fun _ => ⟨_, hdata, ?_⟩⟩
    · cases htype.symm.trans ht
    · cases htype.symm.trans ht
    · rw [hdata, hC.pairs, if_pos (by rw [length_map]; omega)]
  | false =>
    obtain ⟨hdata, htype, -⟩ := buildNode_file hnode
    refine ⟨fun _ => ⟨_, hdata, ?_⟩, fun ht => ?_, fun ht => ?_⟩
    · rw [decodeFileNode, hdata, hC.keys, if_pos (by rw [length_map, length_map]; omega)]
      refine parseKeys_bytes fun k hk => ?_
      obtain ⟨it, hit, rfl⟩ := mem_map.mp hk
      exact hc it hit
    · cases htype.symm.trans ht
    · cases htype.symm.trans ht

theorem decodes_blob (ht : o.key.type = .blob) : Decodes C o := by
  refine ⟨fun h => ?_, fun h => ?_, fun h => ?_⟩ <;> cases ht.symm.trans h

theorem decodes_leaf (hC : Limited C limit) (h : encodeDirLeaf H C es = .ok o) (hlen : es.length ≤ limit)
    (hr : ∀ e ∈ es, e.rdev.length ≤ limit) : Decodes C o := by
  obtain ⟨hdata, htype, -⟩ := encodeDirLeaf_ok h
  refine ⟨fun ht => ?_, fun _ => ⟨es, hdata, ?_⟩, fun ht => ?_⟩
  · cases htype.symm.trans ht
  · rw [hdata, hC.entries, if_pos ⟨hlen, hr⟩]
  · cases htype.symm.trans ht

/-! ## Runs within the limit -/

theorem addChunks_decodes {d : Driver} (hC : Limited C limit) (hmax : d.ic.maxRun ≤ limit)
    (h : Short d.ic levels) (hadd : addChunks H C d levels chunks = .ok (levels', objs)) :
    Short d.ic levels' ∧ ∀ o ∈ objs, Decodes C o := by
  obtain ⟨hlevels, -, hobjs⟩ := addChunks_runs h hadd
  refine ⟨hlevels, fun o ho => ?_⟩
  rcases hobjs o ho with hblob | hnode
  · exact decodes_blob hblob
  · exact NodeOfRun.decodes hC hmax hnode

/-- The open leaf and the open runs have not reached the bound. -/
structure ShortDir (ic : ItemChunker) (limit : Nat) (db : DirBuilder) : Prop where
  levels : Short ic db.levels
  leaf : db.leaf.length < ic.maxRun
  rdev : ∀ e ∈ db.leaf, e.rdev.length ≤ limit

theorem closeLeaf_decodes {db : DirBuilder} (hC : Limited C limit) (hmax : ic.maxRun ≤ limit)
    (h : Short ic db.levels) (hlen : db.leaf.length ≤ ic.maxRun)
    (hr : ∀ e ∈ db.leaf, e.rdev.length ≤ limit) (hclose : db.closeLeaf H C ic = .ok (db', objs)) :
    ShortDir ic limit db' ∧ ∀ o ∈ objs, Decodes C o := by
  obtain ⟨obj, levels, objs', ho, ha, rfl, rfl⟩ := DirBuilder.closeLeaf_ok hclose
  have hitem : (Item.mk obj.key (lastName db.leaf)).key.Canonical := (encodeDirLeaf_ok ho).2.2
  obtain ⟨hlevels, hnodes⟩ := h.addItem hitem ha
  have htwo := ic.two_le_min
  have hle := ic.min_le_max
  refine ⟨⟨hlevels, by simp; omega, nofun⟩, fun o ho' => ?_⟩
  rcases mem_cons.mp ho' with rfl | ho'
  · exact decodes_leaf hC ho (Nat.le_trans hlen hmax) hr
  · exact NodeOfRun.decodes hC hmax (hnodes o ho')

theorem ShortDir.addEntries {db : DirBuilder} (hC : Limited C limit) (hmax : ic.maxRun ≤ limit)
    (h : ShortDir ic limit db) (hr : ∀ e ∈ es, e.rdev.length ≤ limit)
    (hadd : db.addEntries H C ic es = .ok (db', objs)) :
    ShortDir ic limit db' ∧ ∀ o ∈ objs, Decodes C o := by
  induction es generalizing db objs with
  | nil =>
    cases hadd
    exact ⟨h, nofun⟩
  | cons e es ih =>
    obtain ⟨db₁, objs₁, objs₂, hone, hrest, rfl⟩ := DirBuilder.addEntries_cons hadd
    have hleaf : ∀ x ∈ db.leaf ++ [e], x.rdev.length ≤ limit := by
      intro x hx
      rcases mem_append.mp hx with hx | hx
      · exact h.rdev x hx
      · exact mem_singleton.mp hx ▸ hr e mem_cons_self
    obtain ⟨h₁, hobjs₁⟩ : ShortDir ic limit db₁ ∧ ∀ o ∈ objs₁, Decodes C o := by
      unfold DirBuilder.addEntry at hone
      simp only at hone
      split at hone
      · refine closeLeaf_decodes hC hmax ?_ ?_ hleaf hone
        · exact h.levels
        · have := h.leaf
          simp
          omega
      · next hb =>
        cases hone
        exact ⟨⟨h.levels, ItemChunker.lt_max (Bool.eq_false_iff.mpr hb), hleaf⟩, nofun⟩
    obtain ⟨h₂, hobjs₂⟩ := ih h₁ (fun x hx => hr x (mem_cons_of_mem _ hx)) hrest
    exact ⟨h₂, fun o ho => (mem_append.mp ho).elim (hobjs₁ o) (hobjs₂ o)⟩

theorem ShortDir.finish {db : DirBuilder} (hC : Limited C limit) (hmax : ic.maxRun ≤ limit)
    (h : ShortDir ic limit db) (hfin : db.finish H C ic = .ok (root, objs)) :
    ∀ o ∈ objs, Decodes C o := by
  obtain ⟨db', objs₁, objs₂, hclose, hindex, rfl⟩ := DirBuilder.finish_ok hfin
  obtain ⟨h', hobjs₁⟩ : ShortDir ic limit db' ∧ ∀ o ∈ objs₁, Decodes C o := by
    unfold DirBuilder.closeTrailing at hclose
    split at hclose
    · exact closeLeaf_decodes hC hmax h.levels (Nat.le_of_lt h.leaf) h.rdev hclose
    · cases hclose
      exact ⟨h, nofun⟩
  intro o ho
  rcases mem_append.mp ho with ho | ho
  · exact hobjs₁ o ho
  · exact NodeOfRun.decodes hC hmax (h'.levels.finishes (finishIndex_ok hindex) o ho)

end Runs

/-! ## The number of bits -/

/-- All that the builder emits for the entries, and when it is finished, decodes. -/
def DirDecodes (H : Blake3) (C : Cbor) (ic : ItemChunker) (entries : List Entry) : Prop :=
  ∀ db objs, DirBuilder.new.addEntries H C ic entries = .ok (db, objs) →
    (∀ o ∈ objs, Decodes C o) ∧
      ∀ root objs', db.finish H C ic = .ok (root, objs') → ∀ o ∈ objs', Decodes C o

/-- All that the builder emits for the chunks, and when it is finished, decodes. -/
def FileDecodes (H : Blake3) (C : Cbor) (d : Driver) (chunks : List Bytes) : Prop :=
  ∀ levels objs, addChunks H C d [] chunks = .ok (levels, objs) →
    (∀ o ∈ objs, Decodes C o) ∧
      ∀ root objs', finishIndex H C d.ic false levels = .ok (root, objs') → ∀ o ∈ objs', Decodes C o

/-- A builder whose chunker never ends a run has all entries in one leaf. -/
theorem addEntries_open {H : Blake3} {C : Cbor} {ic : ItemChunker} {leaf : List Entry}
    (h : ∀ enc n, n ≤ leaf.length + es.length → ic.isBoundary enc n = false) :
    DirBuilder.addEntries H C ic ⟨[], leaf⟩ es = .ok (⟨[], leaf ++ es⟩, []) := by
  induction es generalizing leaf with
  | nil => simp [DirBuilder.addEntries]
  | cons e es ih =>
    have hone : DirBuilder.addEntry H C ic ⟨[], leaf⟩ e = .ok (⟨[], leaf ++ [e]⟩, []) := by
      unfold DirBuilder.addEntry
      simp only
      rw [h _ _ (by simp), if_neg (by decide)]
    have hrest : DirBuilder.addEntries H C ic ⟨[], leaf ++ [e]⟩ es =
        .ok (⟨[], leaf ++ [e] ++ es⟩, []) := ih fun enc n hn => h enc n (by simp at hn ⊢; omega)
    rw [DirBuilder.addEntries, hone]
    simp only [bind, Except.bind, hrest, append_assoc, singleton_append]
    rfl

/-- A hash that never ends a run. -/
def onesHash : Blake3 := fun _ => ⟨List.replicate 32 255, rfl⟩

theorem onesHash_open (h : bits ≤ 60) (hbits : 16 ≤ bits ∧ bits ≤ 40) (enc : Bytes)
    (hn : n < 2 ^ 18) : (itemChunker onesHash bits h).isBoundary enc n = false := by
  have hlow : ∀ b, b < 25 → (newItemChunker (16 + b)).lowBitsZero onesHash enc = false := by
    have hmask : ∀ b, b < 25 →
        littleEndian (List.replicate 32 255) &&& (newItemChunker (16 + b)).mask ≠ 0 := by
      decide +kernel
    intro b hb
    exact decide_eq_false (hmask b hb)
  obtain ⟨b, rfl⟩ := Nat.exists_eq_add_of_le hbits.1
  have hpow : 2 ^ 18 ≤ 2 ^ (16 + b + 2) := Nat.pow_le_pow_right (by decide) (by omega)
  rw [ItemChunker.isBoundary, if_neg (by rw [itemChunker_maxRun]; omega)]
  split
  · rfl
  · exact hlow b (by omega)

theorem leaf_too_long {H : Blake3} {C : Cbor} {ic : ItemChunker} (hC : Limited C limit)
    (hlen : limit < entries.length) (hkeys : ∀ e ∈ entries, e.KeysOk)
    (hopen : ∀ enc n, n ≤ entries.length → ic.isBoundary enc n = false) :
    ∃ root o, buildDirectory H C ic entries = .ok (root, [o]) ∧ o.key.type = .dirLeaf ∧
      C.decodeEntries o.data = none ∧ ¬DirDecodes H C ic entries := by
  have hadd : DirBuilder.new.addEntries H C ic entries = .ok (⟨[], entries⟩, []) :=
    addEntries_open fun enc n hn => hopen enc n (by simpa using hn)
  have hready : DirBuilder.Ready ⟨[], entries⟩ := ⟨⟨nofun, nofun⟩, hkeys⟩
  obtain ⟨root, objs, hfin, -⟩ : ∃ root objs, DirBuilder.finish H C ic ⟨[], entries⟩ =
      .ok (root, objs) ∧ root.Canonical := hready.finish
  obtain ⟨o, ho, rfl, rfl⟩ := DirBuilder.finish_leaf hfin
  obtain ⟨hdata, htype, -⟩ := encodeDirLeaf_ok ho
  have hnone : C.decodeEntries o.data = none := by
    rw [hdata, hC.entries, if_neg (by omega)]
  refine ⟨o.key, o, ?_, htype, hnone, fun hdec => ?_⟩
  · exact bind_eq_ok.mpr ⟨_, hadd, bind_eq_ok.mpr ⟨_, hfin, rfl⟩⟩
  · obtain ⟨es, -, hes⟩ := ((hdec _ _ hadd).2 _ _ hfin o mem_cons_self).leaf htype
    cases hnone.symm.trans hes

/-- A codec that takes arrays up to a length. -/
def boundedCbor (limit : Nat) : Cbor where
  encodeKeys := count
  decodeKeys b := (uncount b).filter fun l => l.length ≤ limit
  encodeEntries := count
  decodeEntries b := (uncount b).filter fun l => l.length ≤ limit ∧ ∀ e ∈ l, e.rdev.length ≤ limit
  encodePairs := count
  decodePairs b := (uncount b).filter fun l => l.length ≤ limit
  encodeEntry := count
  encodePair := count

theorem boundedCbor_limited (limit : Nat) : Limited (boundedCbor limit) limit := by
  refine ⟨fun l => ?_, fun l => ?_, fun l => ?_⟩ <;>
    simp only [boundedCbor, uncount_count, Option.filter_some, decide_eq_true_eq]

/-- Files with names of three bytes. -/
def manyFiles (n : Nat) : List Entry := (List.range n).map fun i => emptyFile (Bytes.putUint 3 i)

theorem manyFiles_fit (n limit : Nat) :
    (manyFiles n).length = n ∧ (∀ e ∈ manyFiles n, e.KeysOk) ∧
      ∀ e ∈ manyFiles n, e.rdev.length ≤ limit := by
  refine ⟨by simp [manyFiles], fun e he => ?_, fun e he => ?_⟩
  · obtain ⟨i, -, rfl⟩ := mem_map.mp he
    simp [Entry.KeysOk, emptyFile]
  · obtain ⟨i, -, rfl⟩ := mem_map.mp he
    exact Nat.zero_le _

/-- Up to 40 bits, every object of every build decodes just when there are at most 15 bits. -/
theorem emitted_decodes_iff (hbits : bits ≤ 40) :
    (∀ H C, Limited C maxArrayElements →
      (∀ entries, (∀ e ∈ entries, e.rdev.length ≤ maxArrayElements) →
        DirDecodes H C (itemChunker H bits (by omega)) entries) ∧
      ∀ chunks, FileDecodes H C { sampleDriver with ic := itemChunker H bits (by omega) } chunks) ↔
    bits ≤ 15 := by
  constructor
  · intro h
    by_contra hlt
    obtain ⟨hlen, hkeys, hrdev⟩ := manyFiles_fit 131073 maxArrayElements
    have hopen : ∀ enc n, n ≤ (manyFiles 131073).length →
        (itemChunker onesHash bits (by omega)).isBoundary enc n = false := fun enc n hn =>
      onesHash_open _ (by omega) enc (by rw [hlen] at hn; omega)
    obtain ⟨-, -, -, -, -, hnot⟩ := leaf_too_long (H := onesHash)
      (boundedCbor_limited maxArrayElements) (by rw [hlen]; decide) hkeys hopen
    exact hnot ((h onesHash _ (boundedCbor_limited _)).1 _ hrdev)
  · intro h H C hC
    have hmax : (itemChunker H bits (by omega)).maxRun ≤ maxArrayElements := by
      rw [itemChunker_maxRun]
      calc 2 ^ (bits + 2) ≤ 2 ^ 17 := Nat.pow_le_pow_right (by decide) (by omega)
        _ = maxArrayElements := rfl
    have htwo := (itemChunker H bits (by omega)).two_le_min
    have hle := (itemChunker H bits (by omega)).min_le_max
    refine ⟨fun entries hrdev db objs hadd => ?_, fun chunks levels objs hadd => ?_⟩
    · have hnew : ShortDir (itemChunker H bits (by omega)) maxArrayElements .new :=
        ⟨Short.nil, by simp [DirBuilder.new]; omega, nofun⟩
      obtain ⟨hdb, hobjs⟩ := hnew.addEntries hC hmax hrdev hadd
      exact ⟨hobjs, fun root objs' hfin => hdb.finish hC hmax hfin⟩
    · obtain ⟨hlevels, hobjs⟩ := addChunks_decodes hC hmax Short.nil hadd
      exact ⟨hobjs, fun root objs' hfin o ho =>
        NodeOfRun.decodes hC hmax (hlevels.finishes (finishIndex_ok hfin) o ho)⟩

/-- With the default of seven bits, the objects of a small directory decode. -/
theorem emitted_decodes_seven : 7 ≤ 40 ∧ DirDecodes onesHash (boundedCbor maxArrayElements)
    (itemChunker onesHash 7 (by decide)) (manyFiles 3) := by
  refine ⟨by decide, ?_⟩
  have hseven : 7 ≤ 40 := by decide
  exact ((emitted_decodes_iff hseven).mpr (by decide) onesHash _ (boundedCbor_limited _)).1 _
    (manyFiles_fit 3 _).2.2

theorem manyFiles_ascending (h : n ≤ 256 ^ 3) : Ascending (manyFiles n) := by
  unfold Ascending manyFiles
  rw [map_map, pairwise_map]
  refine pairwise_lt_range.imp_of_mem fun _ hj hlt => ?_
  exact Bytes.putUint_lt hlt (Nat.lt_of_lt_of_le (mem_range.mp hj) h)

/-- With 20 bits, a directory of 131073 files is one leaf, which is not decoded. -/
theorem leaf_of_131073 : Ascending (manyFiles 131073) ∧ ∃ root o,
    buildDirectory onesHash (boundedCbor maxArrayElements) (itemChunker onesHash 20 (by decide))
        (manyFiles 131073) = .ok (root, [o]) ∧
      o.key.type = .dirLeaf ∧ (boundedCbor maxArrayElements).decodeEntries o.data = none := by
  refine ⟨manyFiles_ascending (by decide), ?_⟩
  obtain ⟨hlen, hkeys, -⟩ := manyFiles_fit 131073 maxArrayElements
  have hopen : ∀ enc n, n ≤ (manyFiles 131073).length →
      (itemChunker onesHash 20 (by decide)).isBoundary enc n = false := fun enc n hn =>
    onesHash_open _ (by decide) enc (by rw [hlen] at hn; omega)
  obtain ⟨root, o, hbuild, htype, hnone, -⟩ := leaf_too_long (H := onesHash)
    (boundedCbor_limited maxArrayElements) (by rw [hlen]; decide) hkeys hopen
  exact ⟨root, o, hbuild, htype, hnone⟩

end AmberStore.Ingest
