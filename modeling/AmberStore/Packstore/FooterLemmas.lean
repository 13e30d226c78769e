import AmberStore.Packstore.Footer

/-!
# Footers read back

What `parseFooter` recovers from a file that ends in a footer built by `buildFooter`: the filter,
the fanout table, and an index in which the binary search finds exactly the entries it was built
from. A footer over 2³² entries or more is refused.
-/

namespace AmberStore.Packstore
open Bytes Crc32

/-! ## Removing adjacent repetitions -/

section Compact
variable {α : Type _} [DecidableEq α]

theorem mem_slicesCompact {l : List α} : a ∈ slicesCompact l ↔ a ∈ l := by
  fun_induction slicesCompact l with
  | case1 | case2 => rfl
  | case3 b l ih => rw [ih]; simp
  | case4 a b l hne ih => rw [List.mem_cons, ih, ← List.mem_cons]

/-- Without adjacent repetitions a sorted list has no repetitions. -/
theorem slicesCompact_nodup {r : α → α → Prop} (hanti : ∀ {a b}, r a b → r b a → a = b) {l : List α}
    (h : l.Pairwise r) : (slicesCompact l).Nodup := by
  fun_induction slicesCompact l with
  | case1 => exact .nil
  | case2 => exact List.nodup_singleton _
  | case3 b l ih => exact ih (List.pairwise_cons.mp h).2
  | case4 a b l hne ih =>
    obtain ⟨ha, hl⟩ := List.pairwise_cons.mp h
    refine List.nodup_cons.mpr ⟨?_, ih hl⟩
    intro hmem
    rcases List.mem_cons.mp (mem_slicesCompact.mp hmem) with rfl | hmem
    · exact hne rfl
    · exact hne (hanti (ha b List.mem_cons_self) ((List.pairwise_cons.mp hl).1 a hmem))

theorem length_slicesCompact_le (l : List α) : (slicesCompact l).length ≤ l.length := by
  fun_induction slicesCompact l with
  | case1 | case2 => exact Nat.le_refl _
  | case3 b l ih => simp only [List.length_cons] at ih ⊢; omega
  | case4 a b l hne ih => simp only [List.length_cons] at ih ⊢; omega

end Compact

/-! ## The filter section -/

theorem mem_filterTails (h : e ∈ entries) : filterKey e.key ∈ filterTails entries := by
  rw [filterTails, mem_slicesCompact, List.mem_mergeSort]
  exact List.mem_map_of_mem h

theorem filterTails_nodup (entries : List IndexEntry) : (filterTails entries).Nodup := by
  have hs := @List.pairwise_mergeSort _ (fun a b : UInt64 => decide (a ≤ b))
    (fun a b c hab hbc => by
      simp only [decide_eq_true_eq] at *; exact UInt64.le_trans hab hbc)
    (fun a b => by
      simp only [Bool.or_eq_true, decide_eq_true_eq]; exact UInt64.le_total a b)
    (entries.map fun e => filterKey e.key)
  refine slicesCompact_nodup (r := fun a b : UInt64 => decide (a ≤ b) = true) ?_ hs
  intro a b hab hba
  simp only [decide_eq_true_eq] at *
  exact UInt64.le_antisymm hab hba

theorem length_filterTails_le (entries : List IndexEntry) :
    (filterTails entries).length ≤ entries.length := by
  have h := length_slicesCompact_le ((entries.map fun e => filterKey e.key).mergeSort
    fun a b => decide (a ≤ b))
  rwa [List.length_mergeSort, List.length_map] at h

/-- The filter of a non-empty segment can be built, and it contains every key. -/
theorem buildFilterSection_ok (F : FuseLib) (hne : entries ≠ [])
    (hlen : (filterTails entries).length < 2 ^ 32) :
    ∃ f, F.newBinaryFuse (filterTails entries) = some f ∧
      (f.segmentCount ≠ 0 ∧ f.fingerprints.length < 2 ^ 32 ∧
        geometryOk f.segmentLength f.segmentLengthMask f.segmentCountLength f.segmentCount
          f.fingerprints.length = true) ∧
      ∀ e ∈ entries, F.contains f (filterKey e.key) = true := by
  have hne' : filterTails entries ≠ [] := by
    obtain ⟨e, he⟩ := List.exists_mem_of_ne_nil entries hne
    exact List.ne_nil_of_mem (mem_filterTails he)
  obtain ⟨f, hf⟩ := F.build _ hne' (filterTails_nodup entries) hlen
  refine ⟨f, hf, F.geometry hf, ?_⟩
  intro e he
  exact F.contains_built hf _ (mem_filterTails he)

/-- The header fields of a serialized filter and its fingerprints, as a list of fields. -/
theorem serializeFilter_fields (f : BinaryFuse) : serializeFilter f =
    List.flatten [[filterTypeBinaryFuse16], putUint 8 f.seed.toNat, putUint 4 f.segmentLength.toNat,
      putUint 4 f.segmentLengthMask.toNat, putUint 4 f.segmentCount.toNat,
      putUint 4 f.segmentCountLength.toNat, putUint 4 f.fingerprints.length,
      f.fingerprints.flatMap fun fp => putUint 2 fp.toNat] := by
  simp [serializeFilter]

theorem length_fingerprints (l : List UInt16) :
    (l.flatMap fun fp => putUint 2 fp.toNat).length = l.length * 2 :=
  length_flatMap_const fun _ _ => length_putUint ..

theorem length_serializeFilter (f : BinaryFuse) :
    (serializeFilter f).length = filterHeaderSize + 2 * f.fingerprints.length := by
  rw [serializeFilter_fields]
  simp only [List.length_flatten, List.map_cons, List.map_nil, List.sum_cons, List.sum_nil,
    List.length_singleton, length_putUint, length_fingerprints, filterHeaderSize]
  omega

theorem ofNat_uint_putUint32 (x : UInt32) : UInt32.ofNat (uint (putUint 4 x.toNat)) = x := by
  rw [uint_putUint_of_lt x.toNat_lt, UInt32.ofNat_toNat]

theorem parseFilterSection_serialize {f : BinaryFuse} (hc : f.segmentCount ≠ 0)
    (hlen : f.fingerprints.length < 2 ^ 32)
    (hg : geometryOk f.segmentLength f.segmentLengthMask f.segmentCountLength f.segmentCount
      f.fingerprints.length = true) : parseFilterSection (serializeFilter f) = .ok f := by
  have hfield := serializeFilter_fields f
  have hseed : slice (serializeFilter f) 1 9 = putUint 8 f.seed.toNat := by
    rw [hfield]; exact slice_flatten _ 1 rfl (by simp) (by simp)
  have hsl : slice (serializeFilter f) 9 13 = putUint 4 f.segmentLength.toNat := by
    rw [hfield]; exact slice_flatten _ 2 rfl (by simp) (by simp)
  have hmask : slice (serializeFilter f) 13 17 = putUint 4 f.segmentLengthMask.toNat := by
    rw [hfield]; exact slice_flatten _ 3 rfl (by simp) (by simp)
  have hsc : slice (serializeFilter f) 17 21 = putUint 4 f.segmentCount.toNat := by
    rw [hfield]; exact slice_flatten _ 4 rfl (by simp) (by simp)
  have hscl : slice (serializeFilter f) 21 25 = putUint 4 f.segmentCountLength.toNat := by
    rw [hfield]; exact slice_flatten _ 5 rfl (by simp) (by simp)
  have hfp : slice (serializeFilter f) 25 29 = putUint 4 f.fingerprints.length := by
    rw [hfield]; exact slice_flatten _ 6 rfl (by simp) (by simp)
  have hcount : uint (putUint 4 f.fingerprints.length) = f.fingerprints.length :=
    uint_putUint_of_lt (by simpa using hlen)
  have hfps : (List.range f.fingerprints.length).map (fun i => UInt16.ofNat (uint
      (slice (serializeFilter f) (filterHeaderSize + 2 * i) (filterHeaderSize + 2 * i + 2)))) =
      f.fingerprints := by
    refine List.ext_getElem? fun i => ?_
    by_cases hi : i < f.fingerprints.length
    · have hrow := slice_flatMap_const (l := f.fingerprints) (f := fun fp => putUint 2 fp.toNat)
        (w := 2) (fun _ _ => length_putUint ..) (List.getElem?_eq_getElem hi)
      have hsplit : serializeFilter f = ([filterTypeBinaryFuse16] ++ putUint 8 f.seed.toNat ++
          putUint 4 f.segmentLength.toNat ++ putUint 4 f.segmentLengthMask.toNat ++
          putUint 4 f.segmentCount.toNat ++ putUint 4 f.segmentCountLength.toNat ++
          putUint 4 f.fingerprints.length) ++
          f.fingerprints.flatMap fun fp => putUint 2 fp.toNat := by
        simp [serializeFilter]
      rw [List.getElem?_map, List.getElem?_range hi, List.getElem?_eq_getElem hi, Option.map_some,
        hsplit, slice_append_right _ (by simp [filterHeaderSize])]
      rw [show (filterHeaderSize + 2 * i - _) = i * 2 by simp [filterHeaderSize]; omega,
        show (filterHeaderSize + 2 * i + 2 - _) = i * 2 + 2 by simp [filterHeaderSize]; omega, hrow,
        uint_putUint_of_lt (UInt16.toNat_lt _), UInt16.ofNat_toNat]
    · rw [List.getElem?_eq_none (by simp; omega), List.getElem?_eq_none (by omega)]
  have htype : (serializeFilter f).getD 0 0 = filterTypeBinaryFuse16 := rfl
  unfold parseFilterSection
  rw [if_neg (by rw [length_serializeFilter]; omega), if_neg (not_not.mpr htype)]
  simp only [hfp, hcount, hsl, hmask, hsc, hscl, hseed, ofNat_uint_putUint32]
  rw [if_neg (by rw [length_serializeFilter]; simp), if_neg hc, if_neg (by simp [hg]), hfps,
    uint_putUint_of_lt (UInt64.toNat_lt _), UInt64.ofNat_toNat]

/-! ## The index section -/

theorem leEntries_trans (a b c : IndexEntry) (hab : leEntries a b = true)
    (hbc : leEntries b c = true) : leEntries a c = true := by
  simp only [leEntries, Bool.or_eq_true, Bool.and_eq_true, decide_eq_true_eq, beq_iff_eq] at *
  rcases hab with hab | ⟨hab, hle⟩ <;> rcases hbc with hbc | ⟨hbc, hle'⟩
  · exact .inl (UInt8.lt_trans hab hbc)
  · exact .inl (hbc ▸ hab)
  · exact .inl (hab ▸ hbc)
  · exact .inr ⟨hab.trans hbc, Std.le_trans hle hle'⟩

theorem leEntries_total (a b : IndexEntry) : (leEntries a b || leEntries b a) = true := by
  simp only [leEntries, Bool.or_eq_true, Bool.and_eq_true, decide_eq_true_eq, beq_iff_eq]
  rcases Nat.lt_trichotomy a.key.lastByte.toNat b.key.lastByte.toNat with h | h | h
  · exact .inl (.inl (UInt8.lt_iff_toNat_lt.mpr h))
  · have heq := UInt8.toNat_inj.mp h
    rcases Std.le_total (a := a.key.bytes) (b := b.key.bytes) with hle | hle
    · exact .inl (.inr ⟨heq, hle⟩)
    · exact .inr (.inr ⟨heq.symm, hle⟩)
  · exact .inr (.inl (UInt8.lt_iff_toNat_lt.mpr h))

theorem sortEntries_pairwise (entries : List IndexEntry) :
    (sortEntries entries).Pairwise fun a b => leEntries a b = true :=
  List.pairwise_mergeSort leEntries_trans leEntries_total entries

theorem sortEntries_perm (entries : List IndexEntry) : (sortEntries entries).Perm entries :=
  List.mergeSort_perm ..

theorem mem_sortEntries : e ∈ sortEntries entries ↔ e ∈ entries := (sortEntries_perm entries).mem_iff

theorem length_sortEntries (entries : List IndexEntry) :
    (sortEntries entries).length = entries.length := (sortEntries_perm entries).length_eq

theorem leEntries_bucket {a b : IndexEntry} (h : leEntries a b = true) : a.bucket ≤ b.bucket := by
  simp only [leEntries, Bool.or_eq_true, Bool.and_eq_true, decide_eq_true_eq, beq_iff_eq] at h
  rcases h with h | ⟨h, _⟩
  · exact Nat.le_of_lt (UInt8.lt_iff_toNat_lt.mp h)
  · exact Nat.le_of_eq (congrArg UInt8.toNat h)

theorem cumCounts_eq (es : List IndexEntry) (b : Nat) :
    cumCounts es b = es.countP fun e => decide (e.bucket ≤ b) := by
  induction b with
  | zero =>
    rw [cumCounts, counts]
    congr 1
    funext e
    simp
  | succ b ih =>
    rw [cumCounts, counts, ih, ← Search.countP_lt_add_eq IndexEntry.bucket es (b + 1)]
    congr 2
    funext e
    rw [decide_eq_decide]
    omega

theorem cumCounts_le (es : List IndexEntry) (b : Nat) : cumCounts es b ≤ es.length := by
  rw [cumCounts_eq]; exact List.countP_le_length

@[simp] theorem length_indexRow (e : IndexEntry) : (indexRow e).length = indexEntrySize := by
  simp [indexRow, e.key.size_eq, indexEntrySize]

theorem length_rows (es : List IndexEntry) :
    (es.flatMap indexRow).length = es.length * indexEntrySize :=
  length_flatMap_const fun _ _ => length_indexRow _

theorem length_fanoutBytes (es : List IndexEntry) :
    ((List.range 256).flatMap fun b => putUint 4 (cumCounts es b)).length = fanoutSize := by
  rw [length_flatMap_const (w := 4) fun _ _ => length_putUint ..]
  simp [fanoutSize]

/-- The index section over entries that are in order already. -/
def indexSection (es : List IndexEntry) : Bytes :=
  (List.range 256).flatMap (fun b => putUint 4 (cumCounts es b)) ++ es.flatMap indexRow

theorem buildIndexSection_eq (entries : List IndexEntry) :
    buildIndexSection entries = indexSection (sortEntries entries) := rfl

theorem length_indexSection (es : List IndexEntry) :
    (indexSection es).length = fanoutSize + es.length * indexEntrySize := by
  rw [indexSection, List.length_append, length_fanoutBytes, length_rows]

theorem length_buildIndexSection (entries : List IndexEntry) :
    (buildIndexSection entries).length = fanoutSize + entries.length * indexEntrySize := by
  rw [buildIndexSection_eq, length_indexSection, length_sortEntries]

/-- The fanout table of a sorted index. -/
def fanoutOf (es : List IndexEntry) : List Nat := (List.range 256).map (cumCounts es)

theorem fanoutOf_getD (es : List IndexEntry) (h : b < 256) : (fanoutOf es).getD b 0 = cumCounts es b := by
  simp [fanoutOf, h]

theorem readFanout_append (es : List IndexEntry) (hlen : es.length < 2 ^ 32) (x : Bytes) :
    readFanout ((List.range 256).flatMap (fun b => putUint 4 (cumCounts es b)) ++ x) =
      fanoutOf es := by
  unfold readFanout fanoutOf
  refine List.map_congr_left fun i hi => ?_
  rw [List.mem_range] at hi
  rw [slice_append_left _ (by rw [length_fanoutBytes, fanoutSize]; omega),
    slice_flatMap_const (fun _ _ => length_putUint ..) (List.getElem?_range hi),
    uint_putUint_of_lt]
  have := cumCounts_le es i
  omega

theorem fanoutOf_pairwise (es : List IndexEntry) : (fanoutOf es).Pairwise (· ≤ ·) := by
  rw [fanoutOf, List.pairwise_map]
  refine List.pairwise_lt_range.imp fun {a b} hab => ?_
  rw [cumCounts_eq, cumCounts_eq]
  refine List.countP_mono_left fun e _ he => ?_
  simp only [decide_eq_true_eq] at he ⊢
  omega

theorem cumCounts_last (es : List IndexEntry) : cumCounts es 255 = es.length := by
  rw [cumCounts_eq, List.countP_eq_length]
  intro e _
  have := e.key.lastByte.toNat_lt
  exact decide_eq_true (by unfold IndexEntry.bucket; omega)

theorem parseIndexSection_indexSection {es : List IndexEntry} (hlen : es.length < 2 ^ 32) :
    parseIndexSection (indexSection es) es.length = .ok (fanoutOf es, es.flatMap indexRow) := by
  have hfan : readFanout (indexSection es) = fanoutOf es := readFanout_append _ hlen _
  have hdrop : (indexSection es).drop fanoutSize = es.flatMap indexRow :=
    List.drop_left' (length_fanoutBytes _)
  unfold parseIndexSection
  simp only [hfan, length_indexSection]
  rw [if_neg (by unfold maxUint32; omega), if_neg (by simp),
    if_neg (not_not.mpr (fanoutOf_pairwise _)), if_neg]
  · rw [hdrop]
  · rw [fanoutOf_getD _ (by decide), cumCounts_last]
    simp

theorem parseIndexSection_build (hlen : entries.length < 2 ^ 32) :
    parseIndexSection (buildIndexSection entries) entries.length =
      .ok (fanoutOf (sortEntries entries), (sortEntries entries).flatMap indexRow) := by
  have hsorted := length_sortEntries entries
  rw [buildIndexSection_eq, ← hsorted]
  exact parseIndexSection_indexSection (by rw [hsorted]; exact hlen)

/-! ## Searching the index -/

section Search
variable {es : List IndexEntry}

theorem rowAt_rows (hi : es[i]? = some e) :
    ∃ rest, rowAt (es.flatMap indexRow) i = indexRow e ++ rest := by
  obtain ⟨hlt, rfl⟩ := List.getElem?_eq_some_iff.mp hi
  refine ⟨(es.drop (i + 1)).flatMap indexRow, ?_⟩
  rw [rowAt, drop_flatMap_const (fun _ _ => length_indexRow _), List.drop_eq_getElem_cons hlt,
    List.flatMap_cons]

theorem rowAt_key (hi : es[i]? = some e) : (rowAt (es.flatMap indexRow) i).take 32 = e.key.bytes := by
  obtain ⟨rest, h⟩ := rowAt_rows hi
  rw [h, indexRow, List.append_assoc, List.append_assoc, List.take_left' e.key.size_eq]

theorem rowAt_off (hi : es[i]? = some e) (ho : e.off < 2 ^ 64) :
    uint (slice (rowAt (es.flatMap indexRow) i) 32 40) = e.off := by
  obtain ⟨rest, h⟩ := rowAt_rows hi
  have hs : slice (rowAt (es.flatMap indexRow) i) 32 40 = putUint 8 e.off := by
    rw [h, indexRow, List.append_assoc]
    exact slice_append _ _ _ (by simp [e.key.size_eq]) (by simp [e.key.size_eq])
  rw [hs, uint_putUint_of_lt (by simpa using ho)]

theorem rowAt_slen (hi : es[i]? = some e) (hs : e.slen < 2 ^ 32) :
    uint (slice (rowAt (es.flatMap indexRow) i) 40 44) = e.slen := by
  obtain ⟨rest, h⟩ := rowAt_rows hi
  have hsl : slice (rowAt (es.flatMap indexRow) i) 40 44 = putUint 4 e.slen := by
    rw [h, indexRow]
    exact slice_append _ _ _ (by simp [e.key.size_eq]) (by simp [e.key.size_eq])
  rw [hsl, uint_putUint_of_lt (by simpa using hs)]

/-- The entries of one bucket, where the fanout table says they are. -/
theorem getElem?_bucket (hs : es.Pairwise fun a b => leEntries a b = true) (b : Nat)
    (hi : i < es.countP fun e => decide (e.bucket = b)) :
    es[es.countP (fun e => decide (e.bucket < b)) + i]? =
      (es.filter fun e => decide (e.bucket = b))[i]? := by
  rw [← Search.drop_countP_lt IndexEntry.bucket (hs.imp leEntries_bucket) b,
    List.getElem?_take_of_lt hi, List.getElem?_drop]

theorem bucket_pairwise (hs : es.Pairwise fun a b => leEntries a b = true) (b : Nat) :
    (es.filter fun e => decide (e.bucket = b)).Pairwise fun x y => x.key.bytes ≤ y.key.bytes := by
  apply List.Pairwise.imp_of_mem _ (hs.filter _)
  intro x y hx hy hle
  simp only [List.mem_filter, decide_eq_true_eq] at hx hy
  have hlast : x.key.lastByte = y.key.lastByte := UInt8.toNat_inj.mp (hx.2.trans hy.2.symm)
  simp only [leEntries, Bool.or_eq_true, Bool.and_eq_true, decide_eq_true_eq, beq_iff_eq] at hle
  rcases hle with hlt | ⟨_, hle⟩
  · rw [hlast] at hlt
    exact absurd hlt (UInt8.lt_irrefl _)
  · exact hle

/-- Where a search looks: the bucket of a key, from the count of the buckets before it. -/
theorem fanoutOf_bucket (es : List IndexEntry) (hb : b < 256) :
    (if b > 0 then (fanoutOf es).getD (b - 1) 0 else 0) = es.countP (fun e => decide (e.bucket < b)) ∧
    (fanoutOf es).getD b 0 - es.countP (fun e => decide (e.bucket < b)) =
      es.countP fun e => decide (e.bucket = b) := by
  constructor
  · split
    · rw [fanoutOf_getD es (by omega), cumCounts_eq]
      congr 1
      funext e
      rw [decide_eq_decide]
      omega
    · rw [eq_comm, List.countP_eq_zero]
      intro e _
      simp; omega
  · rw [fanoutOf_getD es hb, cumCounts_eq, ← Search.countP_lt_add_eq]
    omega

section
variable (hs : es.Pairwise fun a b => leEntries a b = true)
include hs

/-- The binary search in a sorted index finds an entry for the key if there is one. -/
theorem searchIndexPos_spec (k : Key) :
    (∃ pos e, searchIndexPos (fanoutOf es) (es.flatMap indexRow) k = some pos ∧ es[pos]? = some e ∧
      e.key = k) ∨
    (searchIndexPos (fanoutOf es) (es.flatMap indexRow) k = none ∧ ∀ e ∈ es, e.key ≠ k) := by
  obtain ⟨hlo, hn⟩ := fanoutOf_bucket es k.lastByte.toNat_lt
  rw [searchIndexPos]
  simp only [hlo, hn]
  generalize hR : es.filter (fun e => decide (e.bucket = k.lastByte.toNat)) = R
  generalize hl : es.countP (fun e => decide (e.bucket < k.lastByte.toNat)) = lo
  have hRlen : es.countP (fun e => decide (e.bucket = k.lastByte.toNat)) = R.length := by
    rw [← hR, List.countP_eq_length_filter]
  have hget : ∀ i, i < R.length → es[lo + i]? = R[i]? := by
    intro i hi
    have := getElem?_bucket hs k.lastByte.toNat (i := i) (by rw [hRlen]; exact hi)
    rwa [hl, hR] at this
  have hRs : R.Pairwise fun x y => x.key.bytes ≤ y.key.bytes := hR ▸ bucket_pairwise hs _
  have hsorted : ∀ a b (hb : b < R.length) (hab : a ≤ b), (R[a]).key.bytes ≤ (R[b]).key.bytes := by
    intro a b hb hab
    rcases Nat.lt_or_eq_of_le hab with hlt | rfl
    · exact List.pairwise_iff_getElem.mp hRs a b _ hb hlt
    · exact Std.le_refl _
  have hrow : ∀ i (h : i < R.length), (rowAt (es.flatMap indexRow) (lo + i)).take 32 =
      (R[i]).key.bytes := by
    intro i hi
    exact rowAt_key (by rw [hget i hi, List.getElem?_eq_getElem hi])
  -- the entries for `k` sit in the bucket of `k`
  have hmemR : ∀ e ∈ es, e.key = k → ∃ j, ∃ h : j < R.length, (R[j]).key = k := by
    intro e he hek
    have hmem : e ∈ R := by
      rw [← hR, List.mem_filter]
      exact ⟨he, by simp only [IndexEntry.bucket, hek, decide_true]⟩
    obtain ⟨j, hj, rfl⟩ := List.getElem_of_mem hmem
    exact ⟨j, hj, hek⟩
  rw [hRlen]
  have hmono : ∀ a b, a ≤ b → b < R.length →
      decide (k.bytes ≤ (rowAt (es.flatMap indexRow) (lo + a)).take 32) = true →
      decide (k.bytes ≤ (rowAt (es.flatMap indexRow) (lo + b)).take 32) = true := by
    intro a b hab hbl ha
    rw [decide_eq_true_eq, hrow a (by omega)] at ha
    rw [decide_eq_true_eq, hrow b hbl]
    exact Std.le_trans ha (hsorted a b hbl hab)
  obtain ⟨-, hbelow, habove⟩ := Search.search_spec hmono
  generalize Search.search R.length (fun i =>
    decide (k.bytes ≤ (rowAt (es.flatMap indexRow) (lo + i)).take 32)) = i at hbelow habove ⊢
  -- no entry for `k` comes before the place that was found
  have hfirst : ∀ j (h : j < R.length), (R[j]).key = k → i ≤ j := by
    intro j hj hjk
    apply Nat.le_of_not_lt
    intro hlt
    have hfalse := hbelow j hlt
    rw [decide_eq_false_iff_not, hrow j hj, hjk] at hfalse
    exact hfalse (Std.le_refl _)
  by_cases hi : i ≥ R.length
  · rw [if_pos hi]
    refine .inr ⟨rfl, fun e he hek => ?_⟩
    obtain ⟨j, hj, hjk⟩ := hmemR e he hek
    exact absurd (hfirst j hj hjk) (by omega)
  · have hlt : i < R.length := Nat.lt_of_not_le hi
    rw [if_neg hi, hrow i hlt]
    by_cases hik : (R[i]).key.bytes = k.bytes
    · rw [if_neg (not_not_intro hik)]
      exact .inl ⟨lo + i, R[i], rfl, by rw [hget i hlt, List.getElem?_eq_getElem hlt], Key.ext hik⟩
    · rw [if_pos hik]
      refine .inr ⟨rfl, fun e he hek => hik ?_⟩
      obtain ⟨j, hj, hjk⟩ := hmemR e he hek
      have hge := habove i (Nat.le_refl i) hlt
      rw [decide_eq_true_eq, hrow i hlt] at hge
      have hle := hsorted i j hj (hfirst j hj hjk)
      rw [hjk] at hle
      exact Std.le_antisymm hle hge

theorem searchIndex_spec
    (hb : ∀ e ∈ es, e.off < 2 ^ 64 ∧ e.slen < 2 ^ 32) (k : Key) :
    (∃ e ∈ es, e.key = k ∧ searchIndex (fanoutOf es) (es.flatMap indexRow) k = some (e.off, e.slen)) ∨
    (searchIndex (fanoutOf es) (es.flatMap indexRow) k = none ∧ ∀ e ∈ es, e.key ≠ k) := by
  rw [searchIndex]
  rcases searchIndexPos_spec hs k with ⟨pos, e, hpos, hget, hek⟩ | ⟨hpos, hnone⟩
  · have he := List.mem_of_getElem? hget
    obtain ⟨ho, hl⟩ := hb e he
    rw [hpos]
    simp only [rowAt_off hget ho, rowAt_slen hget hl]
    exact .inl ⟨e, he, hek, rfl⟩
  · rw [hpos]
    exact .inr ⟨rfl, hnone⟩

/-- The index maps each of its keys to the offset and stored length recorded for it. -/
theorem searchIndex_of_mem
    (hnd : (es.map IndexEntry.key).Nodup) (he : e ∈ es) (ho : e.off < 2 ^ 64)
    (hl : e.slen < 2 ^ 32) :
    searchIndex (fanoutOf es) (es.flatMap indexRow) e.key = some (e.off, e.slen) := by
  rw [searchIndex]
  rcases searchIndexPos_spec hs e.key with ⟨pos, e', hpos, hget, hek⟩ | ⟨-, hnone⟩
  · obtain rfl : e' = e := List.inj_on_of_nodup_map hnd (List.mem_of_getElem? hget) he hek
    rw [hpos]
    simp only [rowAt_off hget ho, rowAt_slen hget hl]
  · exact absurd rfl (hnone e he)

theorem searchIndex_of_not_mem
    (hk : ∀ e ∈ es, e.key ≠ k) : searchIndex (fanoutOf es) (es.flatMap indexRow) k = none := by
  rw [searchIndex]
  rcases searchIndexPos_spec hs k with ⟨pos, e, -, hget, hek⟩ | ⟨hpos, -⟩
  · exact absurd hek (hk e (List.mem_of_getElem? hget))
  · rw [hpos]

end

end Search

/-! ## The whole footer -/

/-- What `parseFooter` should recover from a footer over `entries`. -/
def footerView (bodyLen : Nat) (entries : List IndexEntry) (f : BinaryFuse) : FooterView where
  fanout := fanoutOf (sortEntries entries)
  entries := (sortEntries entries).flatMap indexRow
  filter := f
  keyCount := entries.length
  bodyLen
  indexOff := bodyLen + 1
  indexLen := fanoutSize + entries.length * indexEntrySize

section Footer
variable (bodyLen : Nat) (idx filt : Bytes) (keyCount : Nat)

@[simp] theorem length_trailerHead (a b c d : Nat) : (trailerHead a b c d).length = 48 := by
  simp [trailerHead]

theorem length_assembleFooter :
    (assembleFooter bodyLen idx filt keyCount).length =
      1 + idx.length + filt.length + trailerSize := by
  simp [assembleFooter, magicTrailer, trailerSize]
  omega

/-- The part of a footer that its CRC covers. -/
def footerCovered : Bytes :=
  [tagSeal] ++ idx ++ filt ++ trailerHead bodyLen idx.length filt.length keyCount

/-- The last 64 bytes of a footer. -/
def trailer : Bytes :=
  trailerHead bodyLen idx.length filt.length keyCount ++
    putUint 4 (checksum castagnoli (footerCovered bodyLen idx filt keyCount)).toNat ++ putUint 4 0 ++
    magicTrailer

theorem assembleFooter_eq : assembleFooter bodyLen idx filt keyCount =
    [tagSeal] ++ idx ++ filt ++ trailer bodyLen idx filt keyCount := by
  simp [assembleFooter, trailer, footerCovered]

@[simp] theorem length_trailer : (trailer bodyLen idx filt keyCount).length = trailerSize := by
  simp [trailer, magicTrailer, trailerSize]

theorem trailer_fields : trailer bodyLen idx filt keyCount =
    List.flatten [putUint 8 (bodyLen + 1), putUint 8 idx.length, putUint 8 (bodyLen + 1 + idx.length),
      putUint 8 filt.length, putUint 8 keyCount, putUint 8 bodyLen,
      putUint 4 (checksum castagnoli (footerCovered bodyLen idx filt keyCount)).toNat,
      putUint 4 0, magicTrailer] := by
  simp [trailer, trailerHead]

theorem drop_trailer (body : Bytes) :
    (body ++ assembleFooter bodyLen idx filt keyCount).drop
      ((body ++ assembleFooter bodyLen idx filt keyCount).length - trailerSize) =
      trailer bodyLen idx filt keyCount := by
  rw [assembleFooter_eq, ← List.append_assoc]
  refine List.drop_left' ?_
  rw [@List.length_append _ _ (trailer ..), length_trailer, Nat.add_sub_cancel]

theorem slice_assembleFooter (body : Bytes) :
    slice (body ++ assembleFooter body.length idx filt keyCount) (body.length + 1)
      (body.length + 1 + idx.length) = idx := by
  have hsplit : body ++ assembleFooter body.length idx filt keyCount =
      (body ++ [tagSeal]) ++ idx ++ (filt ++ trailer body.length idx filt keyCount) := by
    simp [assembleFooter_eq]
  rw [hsplit]
  exact slice_append _ _ _ (by simp) (by simp)

theorem trailer_uint (i : Nat) (h : [putUint 8 (bodyLen + 1), putUint 8 idx.length,
      putUint 8 (bodyLen + 1 + idx.length), putUint 8 filt.length, putUint 8 keyCount,
      putUint 8 bodyLen][i]? = some (putUint 8 v)) (hv : v < 2 ^ 64) :
    uint (slice (trailer bodyLen idx filt keyCount) (8 * i) (8 * i + 8)) = v := by
  have hi : i < 6 := (List.getElem?_eq_some_iff.mp h).1
  have hslice : slice (trailer bodyLen idx filt keyCount) (8 * i) (8 * i + 8) = putUint 8 v := by
    rw [trailer_fields]
    refine slice_flatten _ i ?_ ?_ (by simp)
    · rw [← h]
      interval_cases i <;> rfl
    · interval_cases i <;> simp
  rw [hslice, uint_putUint_of_lt (by simpa using hv)]

end Footer

section Parse
variable {body idx filt : Bytes} {n : Nat}

/-- Up to its two sections, a footer read back is the footer written, if its key count fits. -/
theorem parseFooter_append (hb : magicHeader <+: body) (hn0 : 0 < n)
    (hidx : idx.length = fanoutSize + n * indexEntrySize) (hfilt : filterHeaderSize ≤ filt.length)
    (hlen : (body ++ assembleFooter body.length idx filt n).length < 2 ^ 64) :
    parseFooter (body ++ assembleFooter body.length idx filt n) =
      if n > maxUint32 then .error .inconsistentOffsets
      else match parseIndexSection idx n with
        | .error e => .error e
        | .ok (fanout, entries) =>
          match parseFilterSection filt with
          | .error e => .error e
          | .ok filter => .ok {
              fanout, entries, filter, keyCount := n, bodyLen := body.length
              indexOff := body.length + 1, indexLen := idx.length } := by
  have hmagic : magicHeader.length = 8 := rfl
  have hbl := hb.length_le
  have hmm : (body ++ assembleFooter body.length idx filt n).length =
      body.length + (1 + idx.length + filt.length + trailerSize) := by
    rw [List.length_append, length_assembleFooter]
  have hmm' := hmm ▸ hlen
  simp only [trailerSize, fanoutSize, indexEntrySize] at hmm hmm' hidx
  have hsplit : body ++ assembleFooter body.length idx filt n =
      body ++ footerCovered body.length idx filt n ++
        (putUint 4 (checksum castagnoli (footerCovered body.length idx filt n)).toNat ++
          putUint 4 0 ++ magicTrailer) := by
    simp [assembleFooter, footerCovered]
  have hcov : slice (body ++ assembleFooter body.length idx filt n) body.length
      (body.length + (1 + idx.length + filt.length + 64) - 16) =
      footerCovered body.length idx filt n := by
    rw [hsplit]
    refine slice_append _ _ _ rfl ?_
    simp [footerCovered]
    omega
  have hseal : (body ++ assembleFooter body.length idx filt n).getD body.length 0 = tagSeal := by
    rw [List.getD_append_right _ _ _ _ (Nat.le_refl _), Nat.sub_self]
    rfl
  have hi := slice_assembleFooter idx filt n body
  have hf : slice (body ++ assembleFooter body.length idx filt n) (body.length + 1 + idx.length)
      (body.length + 1 + idx.length + filt.length) = filt := by
    rw [assembleFooter_eq, show body ++ ([tagSeal] ++ idx ++ filt ++ trailer body.length idx filt n) =
      (body ++ [tagSeal] ++ idx) ++ filt ++ trailer body.length idx filt n by simp]
    exact slice_append _ _ _ (by simp; omega) (by simp; omega)
  have htake : (body ++ assembleFooter body.length idx filt n).take 8 = magicHeader := by
    rw [List.take_append_of_le_length (by omega)]
    exact (List.prefix_iff_eq_take.mp hb).symm
  have hread {v : Nat} := trailer_uint body.length idx filt n (v := v)
  have h0 : uint (slice (trailer body.length idx filt n) 0 8) = body.length + 1 :=
    hread 0 rfl (by omega)
  have h1 : uint (slice (trailer body.length idx filt n) 8 16) = idx.length :=
    hread 1 rfl (by omega)
  have h2 : uint (slice (trailer body.length idx filt n) 16 24) = body.length + 1 + idx.length :=
    hread 2 rfl (by omega)
  have h3 : uint (slice (trailer body.length idx filt n) 24 32) = filt.length :=
    hread 3 rfl (by omega)
  have h4 : uint (slice (trailer body.length idx filt n) 32 40) = n := hread 4 rfl (by omega)
  have h5 : uint (slice (trailer body.length idx filt n) 40 48) = body.length :=
    hread 5 rfl (by omega)
  have h6 : uint (slice (trailer body.length idx filt n) 48 52) =
      (checksum castagnoli (footerCovered body.length idx filt n)).toNat := by
    rw [trailer_fields, slice_flatten _ 6 rfl (by simp) (by simp),
      uint_putUint_of_lt (UInt32.toNat_lt _)]
  have h7 : uint (slice (trailer body.length idx filt n) 52 56) = 0 := by
    rw [trailer_fields, slice_flatten _ 7 rfl (by simp) (by simp)]
    rfl
  have h8 : slice (trailer body.length idx filt n) 56 64 = magicTrailer := by
    rw [trailer_fields, slice_flatten _ 8 rfl (by simp) (by simp [magicTrailer])]
  unfold parseFooter
  simp only [drop_trailer]
  simp only [h0, h1, h2, h3, h4, h5, h6, h7, h8, hmm, hmagic, htake, trailerSize,
    hcov, hseal, hi, hf, fanoutSize, indexEntrySize, ne_eq, not_true_eq_false, if_false, false_or]
  rw [if_neg]
  · by_cases hbig : n > maxUint32
    · rw [if_pos (by omega), if_pos hbig]
    · rw [if_neg (by omega)]
      exact (if_neg hbig).symm
  · simp only [minSealedSize, hmagic, fanoutSize, indexEntrySize, filterHeaderSize,
      trailerSize] at *
    omega

/-- A footer over `entries` is accepted and carries exactly those entries. -/
theorem parseFooter_buildFooter (F : FuseLib) {entries : List IndexEntry}
    (hb : magicHeader <+: body) (hne : entries ≠ []) (hn : entries.length < 2 ^ 32)
    (hsize : ∀ foot, buildFooter F body.length entries = .ok foot →
      (body ++ foot).length < 2 ^ 64) :
    ∃ foot f, buildFooter F body.length entries = .ok foot ∧
      F.newBinaryFuse (filterTails entries) = some f ∧
      parseFooter (body ++ foot) = .ok (footerView body.length entries f) ∧
      ∀ e ∈ entries, F.contains f (filterKey e.key) = true := by
  obtain ⟨f, hf, ⟨hc, hfl, hg⟩, hcont⟩ := buildFilterSection_ok F hne
    (Nat.lt_of_le_of_lt (length_filterTails_le entries) hn)
  have hpos : 0 < entries.length := List.length_pos_iff.mpr hne
  have hfoot : buildFooter F body.length entries = .ok (assembleFooter body.length
      (buildIndexSection entries) (serializeFilter f) entries.length) := by
    rw [buildFooter, if_neg (by omega), buildFilterSection, hf]
  refine ⟨_, f, hfoot, hf, ?_, hcont⟩
  rw [parseFooter_append hb hpos (length_buildIndexSection entries)
    (by rw [length_serializeFilter]; omega) (hsize _ hfoot), if_neg (by unfold maxUint32; omega),
    parseIndexSection_build hn]
  simp only [parseFilterSection_serialize hc hfl hg, length_buildIndexSection]
  rfl

theorem parseFooter_too_many (F : FuseLib) {entries : List IndexEntry} {foot : Bytes}
    (hb : magicHeader <+: body) (hn : 2 ^ 32 ≤ entries.length)
    (hfoot : buildFooter F body.length entries = .ok foot)
    (hsize : (body ++ foot).length < 2 ^ 64) :
    parseFooter (body ++ foot) = .error .inconsistentOffsets := by
  rw [buildFooter, if_neg (by omega)] at hfoot
  unfold buildFilterSection at hfoot
  split at hfoot
  · cases hfoot
  · next filt hfilt =>
    cases hfoot
    split at hfilt
    · cases hfilt
    · cases hfilt
      rw [parseFooter_append hb (by omega) (length_buildIndexSection entries)
        (by rw [length_serializeFilter]; omega) hsize, if_pos (by unfold maxUint32; omega)]

/-- A footer that is accepted counts fewer than 2³² keys. -/
theorem parseFooter_keyCount {mm : Bytes} {fv : FooterView} (h : parseFooter mm = .ok fv) :
    uint (slice (mm.drop (mm.length - trailerSize)) 32 40) ≤ maxUint32 := by
  by_contra hbig
  have hmany : uint (slice (mm.drop (mm.length - trailerSize)) 32 40) > maxUint32 :=
    Nat.lt_of_not_le hbig
  unfold parseFooter at h
  simp only [hmany, true_or, or_true, if_true] at h
  split at h <;> try cases h
  split at h <;> try cases h
  split at h <;> try cases h
  split at h <;> cases h

/-- Whatever its size, a file with a footer over 2³² entries or more is refused. -/
theorem parseFooter_refuses (F : FuseLib) {entries : List IndexEntry} {foot : Bytes}
    (hn : 2 ^ 32 ≤ entries.length) (hlt : entries.length < 2 ^ 64)
    (hfoot : buildFooter F n entries = .ok foot) (fv : FooterView) :
    parseFooter (body ++ foot) ≠ .ok fv := by
  intro h
  rw [buildFooter, if_neg (by omega)] at hfoot
  split at hfoot
  · cases hfoot
  · next filt hfilt =>
    cases hfoot
    have hcount := parseFooter_keyCount h
    have hread : uint (slice (trailer n (buildIndexSection entries) filt entries.length) 32 40) =
        entries.length := trailer_uint _ _ _ _ 4 rfl hlt
    rw [drop_trailer, hread] at hcount
    unfold maxUint32 at hcount
    omega

end Parse

/-! ## Reading a parsed footer -/

section View
variable {entries : List IndexEntry}

theorem map_key_nodup_sort (h : (entries.map IndexEntry.key).Nodup) :
    ((sortEntries entries).map IndexEntry.key).Nodup :=
  ((sortEntries_perm entries).map _).nodup_iff.mpr h

theorem footerView_lookup_of_mem (bodyLen : Nat) (f : BinaryFuse)
    (hnd : (entries.map IndexEntry.key).Nodup) (he : e ∈ entries) (ho : e.off < 2 ^ 64)
    (hl : e.slen < 2 ^ 32) : (footerView bodyLen entries f).lookup e.key = some (e.off, e.slen) :=
  searchIndex_of_mem (sortEntries_pairwise _) (map_key_nodup_sort hnd) (mem_sortEntries.mpr he) ho hl

theorem footerView_lookup_of_not_mem (bodyLen : Nat) (f : BinaryFuse)
    (hk : ∀ e ∈ entries, e.key ≠ k) : (footerView bodyLen entries f).lookup k = none :=
  searchIndex_of_not_mem (sortEntries_pairwise _) fun e he => hk e (mem_sortEntries.mp he)

theorem footerView_entryAt (bodyLen : Nat) (f : BinaryFuse) (hi : (sortEntries entries)[i]? = some e)
    (ho : e.off < 2 ^ 64) (hl : e.slen < 2 ^ 32) :
    (footerView bodyLen entries f).entryAt i = some e := by
  have hkey := rowAt_key hi
  unfold FooterView.entryAt footerView
  simp only [hkey, e.key.size_eq, dif_pos, rowAt_off hi ho, rowAt_slen hi hl]

theorem footerView_allEntries (bodyLen : Nat) (f : BinaryFuse)
    (hb : ∀ e ∈ entries, e.off < 2 ^ 64 ∧ e.slen < 2 ^ 32) :
    (footerView bodyLen entries f).allEntries = sortEntries entries := by
  have hlen : (footerView bodyLen entries f).keyCount = (sortEntries entries).length :=
    (length_sortEntries entries).symm
  rw [FooterView.allEntries, hlen]
  have hmap : (List.range (sortEntries entries).length).map (footerView bodyLen entries f).entryAt =
      (sortEntries entries).map some := by
    refine List.ext_getElem? fun i => ?_
    by_cases hi : i < (sortEntries entries).length
    · have hget := List.getElem?_eq_getElem hi
      obtain ⟨ho, hl⟩ := hb _ (mem_sortEntries.mp (List.getElem_mem hi))
      rw [List.getElem?_map, List.getElem?_range hi, Option.map_some, List.getElem?_map, hget,
        Option.map_some, footerView_entryAt bodyLen f hget ho hl]
    · rw [List.getElem?_eq_none (by simp; omega), List.getElem?_eq_none (by simp; omega)]
  rw [← Function.id_comp (FooterView.entryAt _), ← List.filterMap_map, hmap, List.filterMap_map]
  exact List.filterMap_some

/-- The row of a record with no payload. -/
def zeroEntry : IndexEntry := ⟨⟨List.replicate 32 0, length_zeros⟩, 8, 0⟩

theorem length_zeroEntry (h : buildFooter .full magicHeader.length [zeroEntry] = .ok foot) :
    (magicHeader ++ foot).length < 2 ^ 63 := by
  rw [buildFooter, if_neg (by decide)] at h
  cases h
  rw [List.length_append, length_assembleFooter, length_buildIndexSection, length_serializeFilter]
  decide

end View

end AmberStore.Packstore
