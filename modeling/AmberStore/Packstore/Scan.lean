import AmberStore.Packstore.Layout

/-!
# The tail scan

A segment file cut short is a run of whole records followed by part of a record or of the footer. The
scan of such a file finds exactly the whole records.
-/

namespace AmberStore.Packstore
open Bytes Amberpack List

variable {Z : Zstd} {F : FuseLib}

/-! ## Files cut short -/

/-- The ways a segment file can be cut short: inside the header, inside a record, or after the last
record. -/
inductive Cut (Z : Zstd) (objs : List Object) (foot : Bytes) : Bytes → Prop
  | header : data <+: magicHeader → data.length < magicHeader.length → Cut Z objs foot data
  | record : objs = done ++ o :: rest → n < (objectRecord Z o).length →
      Cut Z objs foot (bodyOf Z done ++ (objectRecord Z o).take n)
  | footer (n : Nat) : Cut Z objs foot (bodyOf Z objs ++ foot.take n)

theorem prefix_append_cases {a b p : List α} (h : p <+: a ++ b) :
    (p <+: a ∧ p.length < a.length) ∨ ∃ q, p = a ++ q ∧ q <+: b := by
  rcases Nat.lt_or_ge p.length a.length with hlt | hge
  · exact .inl ⟨prefix_of_prefix_length_le h (prefix_append a b) (by omega), hlt⟩
  · have ha : a <+: p := prefix_of_prefix_length_le (prefix_append a b) h hge
    obtain ⟨q, rfl⟩ := ha
    exact .inr ⟨q, rfl, (prefix_append_right_inj a).mp h⟩

theorem cut_records {objs : List Object} {foot data : Bytes} (h : data <+: records Z objs ++ foot) :
    (∃ done o rest n, objs = done ++ o :: rest ∧ n < (objectRecord Z o).length ∧
      data = records Z done ++ (objectRecord Z o).take n) ∨
    ∃ n, data = records Z objs ++ foot.take n := by
  induction objs generalizing data with
  | nil =>
    refine .inr ⟨data.length, ?_⟩
    simpa [records] using prefix_iff_eq_take.mp h
  | cons o l ih =>
    rw [records_cons, append_assoc] at h
    rcases prefix_append_cases h with ⟨hp, hlt⟩ | ⟨q, rfl, hq⟩
    · refine .inl ⟨[], o, l, data.length, rfl, hlt, ?_⟩
      simpa [records] using prefix_iff_eq_take.mp hp
    · rcases ih hq with ⟨done, x, rest, n, rfl, hn, rfl⟩ | ⟨n, rfl⟩
      · exact .inl ⟨o :: done, x, rest, n, rfl, hn, by rw [records_cons, append_assoc]⟩
      · exact .inr ⟨n, by rw [records_cons, append_assoc]⟩

/-- Every prefix of a segment file is cut in one of these ways. -/
theorem cut_of_prefix {objs : List Object} {foot data : Bytes} (h : data <+: bodyOf Z objs ++ foot) :
    Cut Z objs foot data := by
  rw [bodyOf, append_assoc] at h
  rcases prefix_append_cases h with ⟨hp, hlt⟩ | ⟨q, rfl, hq⟩
  · exact .header hp hlt
  · rcases cut_records hq with ⟨done, o, rest, n, hobjs, hn, rfl⟩ | ⟨n, rfl⟩
    · rw [← append_assoc]
      exact .record hobjs hn
    · rw [← append_assoc]
      exact .footer n

/-! ## Scanning -/

theorem parseRecord_objectRecord {o : Object} (ho : o.key.Canonical ∧ o.data.length ≤ maxPayload)
    (x : Bytes) : parseRecord (objectRecord Z o ++ x) =
      .ok ⟨o.key, (storedForm Z o.data).1, o.data.length, (storedForm Z o.data).2.length⟩ :=
  parseRecord_recordBytes ho.1 (storedForm_lengths ho.2) x

theorem objectRecord_head (o : Object) : ∃ t, objectRecord Z o = tagChunk :: t := ⟨_, rfl⟩

theorem scanFrom_record {b x : Bytes} {off : Nat} {index : AList fun _ : Key => ActiveLoc}
    {o : Object} (ho : o.key.Canonical ∧ o.data.length ≤ maxPayload)
    (hb : b.drop off = objectRecord Z o ++ x) :
    scanFrom b off index = scanFrom b (off + (objectRecord Z o).length)
      (index.insert o.key (locOf off (objectRecord Z o))) := by
  have hpos := length_objectRecord_pos Z o
  have hlt : off < b.length := by
    have := congrArg List.length hb
    rw [length_drop, length_append] at this
    simp only [recHeaderSize] at hpos
    omega
  obtain ⟨t, ht⟩ := objectRecord_head (Z := Z) o
  have htag : b.getD off 0 = tagChunk := by
    have h0 : (b.drop off).getD 0 0 = tagChunk := by rw [hb, ht]; rfl
    simpa [getD_eq_getElem?_getD, getElem?_drop] using h0
  rw [scanFrom, dif_pos hlt, htag, if_neg (by decide), hb, parseRecord_objectRecord ho,
    locOf_objectRecord Z off o ho.2, length_objectRecord]

theorem scanFrom_records {b x : Bytes} {index : AList fun _ : Key => ActiveLoc}
    (done : List Object) {rest : List Object} (hnd : ((done ++ rest).map Object.key).Nodup)
    (hfit : ∀ o ∈ rest, o.key.Canonical ∧ o.data.length ≤ maxPayload)
    (hi : IndexOk Z index done) (hb : b.drop (bodyOf Z done).length = records Z rest ++ x) :
    ∃ index', IndexOk Z index' (done ++ rest) ∧ scanFrom b (bodyOf Z done).length index =
      scanFrom b (bodyOf Z (done ++ rest)).length index' := by
  induction rest generalizing done index with
  | nil => exact ⟨index, by simpa using hi, by simp⟩
  | cons o l ih =>
    rw [records_cons, append_assoc] at hb
    have hsnoc : done ++ o :: l = (done ++ [o]) ++ l := by simp
    have hk : o.key ∉ done.map Object.key := by
      rw [map_append, nodup_append] at hnd
      intro hmem
      exact hnd.2.2 _ hmem _ (mem_map_of_mem mem_cons_self) rfl
    have hlen : (bodyOf Z (done ++ [o])).length =
        (bodyOf Z done).length + (objectRecord Z o).length := by
      rw [bodyOf_snoc, length_append]
    obtain ⟨index', hi', heq⟩ := ih (done ++ [o]) (hsnoc ▸ hnd)
      (fun x hx => hfit x (mem_cons_of_mem _ hx)) (hi.snoc hk)
      (by rw [hlen, ← drop_drop, hb, drop_left])
    refine ⟨index', hsnoc ▸ hi', ?_⟩
    rw [scanFrom_record (hfit o mem_cons_self) hb, ← hlen, heq, hsnoc]

theorem scanFrom_end {b : Bytes} {index : AList fun _ : Key => ActiveLoc} (h : b.length ≤ off) :
    scanFrom b off index = ⟨off, index, false⟩ := by
  rw [scanFrom, dif_neg (by omega)]

theorem scanFrom_cut {b : Bytes} {index : AList fun _ : Key => ActiveLoc} {o : Object}
    (ho : o.data.length ≤ maxPayload) (hn : n < (objectRecord Z o).length)
    (hb : b.drop off = (objectRecord Z o).take n) : scanFrom b off index = ⟨off, index, false⟩ := by
  rcases Nat.lt_or_ge off b.length with hlt | hge
  · have htag : b.getD off 0 ≠ tagSeal := by
      have hget : b.getD off 0 = (b.drop off).getD 0 0 := by
        simp [getD_eq_getElem?_getD, getElem?_drop]
      obtain ⟨t, ht⟩ := objectRecord_head (Z := Z) o
      have hpos : n ≠ 0 := by
        rintro rfl
        have := congrArg List.length hb
        simp only [take_zero, length_drop, length_nil] at this
        omega
      obtain ⟨m, rfl⟩ := Nat.exists_eq_succ_of_ne_zero hpos
      rw [hget, hb, ht, take_succ_cons]
      exact (by decide : tagChunk ≠ tagSeal)
    obtain ⟨e, he⟩ : ∃ e, parseRecord ((objectRecord Z o).take n) = .error e :=
      parseRecord_take (storedForm_length_le Z ho) (by rw [← length_objectRecord]; exact hn)
    have hparse : parseRecord (b.drop off) = .error e := by rw [hb]; exact he
    rw [scanFrom, dif_pos hlt, if_neg htag, hparse]
  · exact scanFrom_end hge

theorem scanFrom_seal {b t : Bytes} {index : AList fun _ : Key => ActiveLoc}
    (hb : b.drop off = tagSeal :: t) :
    scanFrom b off index =
      match parseFooter b with
      | .ok _ => ⟨b.length, index, true⟩
      | .error _ => ⟨off, index, false⟩ := by
  have hlt : off < b.length := by
    have := congrArg List.length hb
    rw [length_drop, length_cons] at this
    omega
  have htag : b.getD off 0 = tagSeal := by
    have h0 : (b.drop off).getD 0 0 = tagSeal := by rw [hb]; rfl
    simpa [getD_eq_getElem?_getD, getElem?_drop] using h0
  rw [scanFrom, dif_pos hlt]
  exact if_pos htag

/-! ## Scanning a file cut short -/

/-- A file that holds whole records after the header is scanned to the end of them. -/
theorem scanActive_body {objs : List Object} {x : Bytes} (hnd : (objs.map Object.key).Nodup)
    (hfit : ∀ o ∈ objs, o.key.Canonical ∧ o.data.length ≤ maxPayload) :
    ∃ index, IndexOk Z index objs ∧ scanActive (bodyOf Z objs ++ x) =
      scanFrom (bodyOf Z objs ++ x) (bodyOf Z objs).length index := by
  have hb : (bodyOf Z objs ++ x).drop (bodyOf Z []).length = records Z objs ++ x := by
    rw [bodyOf_nil, bodyOf, append_assoc, drop_left]
  obtain ⟨index, hi, heq⟩ := scanFrom_records [] hnd hfit .nil hb
  refine ⟨index, hi, ?_⟩
  rw [scanActive, if_neg, ← bodyOf_nil Z, heq, nil_append]
  have hpre : magicHeader <+: bodyOf Z objs ++ x :=
    (magicHeader_prefix_bodyOf Z objs).trans (prefix_append ..)
  rw [not_or, not_lt, not_not]
  exact ⟨hpre.length_le, (prefix_iff_eq_take.mp hpre).symm⟩

end AmberStore.Packstore
