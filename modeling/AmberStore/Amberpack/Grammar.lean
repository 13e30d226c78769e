import AmberStore.Amberpack.Pack
import AmberStore.Lib.Except

/-!
# The grammar of wire packs

A pack is its magic, records one after the other, an end marker, and whatever follows. Records carry
their own length, so that a byte string splits into records in one way only: the reader finds that
way, and a pack that was cut short is never mistaken for a whole one.
-/

namespace AmberStore.Amberpack
open Bytes List

/-! ## Unique decoding -/

section Framing
variable {Z : Zstd} {r r' x x' : Bytes} {recs recs' : List Bytes}

theorem Framed.inj (h : Framed r) (h' : Framed r') (he : r ++ x = r' ++ x') : r = r' ∧ x = x' := by
  have hslen : slice r 38 42 = slice r' 38 42 := by rw [← h.slen x, he, h'.slen x']
  exact append_inj he (by rw [h.length_eq, h'.length_eq, hslen])

/-- Two ways to start a byte string with records agree as far as both go. -/
theorem flatten_prefix (h : ∀ r ∈ recs, Framed r) (h' : ∀ r ∈ recs', Framed r)
    (he : recs.flatten ++ x = recs'.flatten ++ x') :
    (∃ more, recs' = recs ++ more ∧ x = more.flatten ++ x') ∨
      ∃ more, recs = recs' ++ more ∧ x' = more.flatten ++ x := by
  induction recs generalizing recs' with
  | nil => exact .inl ⟨recs', rfl, he⟩
  | cons r recs ih =>
    cases recs' with
    | nil => exact .inr ⟨r :: recs, rfl, he.symm⟩
    | cons r' recs' =>
      rw [flatten_cons, flatten_cons, append_assoc, append_assoc] at he
      obtain ⟨rfl, htail⟩ := (h r mem_cons_self).inj (h' r' mem_cons_self) he
      have hrest := ih (fun s hs => h s (mem_cons_of_mem _ hs))
        (fun s hs => h' s (mem_cons_of_mem _ hs)) htail
      rcases hrest with ⟨more, rfl, hx⟩ | ⟨more, rfl, hx⟩
      · exact .inl ⟨more, rfl, hx⟩
      · exact .inr ⟨more, rfl, hx⟩

theorem flatten_end_nil (h : ∀ r ∈ recs, Framed r) (he : tagEnd :: x = recs.flatten ++ x') : recs = [] := by
  cases recs with
  | nil => rfl
  | cons r recs =>
    obtain ⟨t, rfl⟩ := (h r mem_cons_self).cons
    have htag : tagEnd = tagChunk := (List.cons.inj he).1
    exact absurd htag (by decide)

theorem flatten_end_inj (h : ∀ r ∈ recs, Framed r) (h' : ∀ r ∈ recs', Framed r)
    (he : recs.flatten ++ tagEnd :: x = recs'.flatten ++ tagEnd :: x') : recs = recs' ∧ x = x' := by
  rcases flatten_prefix h h' he with ⟨more, rfl, hx⟩ | ⟨more, rfl, hx⟩
  · obtain rfl := flatten_end_nil (fun r hr => h' r (mem_append_right _ hr)) hx
    exact ⟨(append_nil recs).symm, (List.cons.inj hx).2⟩
  · obtain rfl := flatten_end_nil (fun r hr => h r (mem_append_right _ hr)) hx
    exact ⟨append_nil recs', (List.cons.inj hx).2.symm⟩

theorem exists_encodes (h : List.Forall₂ (Encodes Z) recs objs) (hr : r ∈ recs) : ∃ o, Encodes Z r o := by
  induction h with
  | nil => cases hr
  | cons hE _ ih =>
    rcases mem_cons.mp hr with rfl | hr
    · exact ⟨_, hE⟩
    · exact ih hr

theorem forall₂_framed (h : List.Forall₂ (Encodes Z) recs objs) : ∀ r ∈ recs, Framed r := by
  intro r hr
  obtain ⟨o, hE⟩ := exists_encodes h hr
  exact hE.framed

end Framing

/-! ## Reading -/

section Reading
variable {Z : Zstd} {r : Bytes}

/-- Nothing that the reader accepts comes next: neither an end marker nor a record. -/
def Stuck (Z : Zstd) (rest : Bytes) : Prop :=
  (∀ t, rest ≠ tagEnd :: t) ∧ ∀ r o, r <+: rest → ¬Encodes Z r o

theorem stuck_of_take {rest : Bytes} (htag : ∀ t, rest ≠ tagEnd :: t)
    (h : ∀ o, ¬Encodes Z (rest.take (recHeaderSize + uint (slice rest 38 42))) o) : Stuck Z rest := by
  refine ⟨htag, fun r o hr hE => h o ?_⟩
  obtain ⟨x, rfl⟩ := hr
  rw [hE.framed.slen, ← hE.framed.length_eq, take_left]
  exact hE

theorem stuck_of_short {rest : Bytes} (htag : ∀ t, rest ≠ tagEnd :: t)
    (h : rest.length < recHeaderSize + uint (slice rest 38 42)) : Stuck Z rest := by
  refine stuck_of_take htag fun o hE => ?_
  have hlen := hE.framed.length_eq
  rw [slice_take (Nat.le_trans (by decide : 42 ≤ recHeaderSize) (Nat.le_add_right _ _)),
    length_take] at hlen
  omega

/-- The bytes are the records of the objects, followed by an end marker if there is no error, and by
nothing acceptable otherwise. -/
def Splits (Z : Zstd) (b : Bytes) (res : List Object × Option PackError) : Prop :=
  ∃ recs rest, b = recs.flatten ++ rest ∧ List.Forall₂ (Encodes Z) recs res.1 ∧
    (res.2 = none → ∃ t, rest = tagEnd :: t) ∧ (res.2 ≠ none → Stuck Z rest)

theorem Splits.stuck (h : Stuck Z b) (e : PackError) : Splits Z b ([], some e) :=
  ⟨[], b, rfl, .nil, nofun, fun _ => h⟩

theorem Splits.cons (h : Encodes Z r o) (hrest : Splits Z b res) :
    Splits Z (r ++ b) (o :: res.1, res.2) := by
  obtain ⟨recs, rest, rfl, hrecs, hend⟩ := hrest
  exact ⟨r :: recs, rest, by rw [flatten_cons, append_assoc], .cons h hrecs, hend⟩

theorem tagChunk_ne_end (rest t : Bytes) : tagChunk :: rest ≠ tagEnd :: t := by
  intro h
  exact absurd (List.cons.inj h).1 (by decide)

theorem readRecords_splits (Z : Zstd) (b : Bytes) : Splits Z b (readRecords Z b) := by
  fun_induction readRecords Z b with
  | case1 =>
    have hnil : Stuck Z [] := stuck_of_short nofun (by decide)
    exact .stuck hnil _
  | case2 rest => exact ⟨[], tagEnd :: rest, rfl, .nil, fun _ => ⟨rest, rfl⟩, fun h => absurd rfl h⟩
  | case3 rest _ hshort =>
    exact .stuck (stuck_of_short (tagChunk_ne_end rest) (Nat.lt_add_right _ hshort)) _
  | case4 rest _ _ slen hbig =>
    -- the limit is one that the parser has as well
    refine .stuck (stuck_of_take (tagChunk_ne_end rest) fun o hE => ?_) _
    obtain ⟨hd, hparse, -⟩ := id hE
    have hle := parseRecord_slen_le hparse
    rw [(parseRecord_ok hparse).2.1, slice_take (Nat.le_trans (by decide : 42 ≤ recHeaderSize)
      (Nat.le_add_right _ _))] at hle
    exact absurd hbig (Nat.not_lt.mpr hle)
  | case5 rest _ _ slen _ hshort => exact .stuck (stuck_of_short (tagChunk_ne_end rest) hshort) _
  | case6 rest e _ _ slen _ _ full herr =>
    refine .stuck (stuck_of_take (tagChunk_ne_end rest) fun o hE => ?_) _
    obtain ⟨hd, hparse, -⟩ := hE
    rw [herr] at hparse
    cases hparse
  | case7 rest hd e _ _ slen _ _ full hparse herr =>
    refine .stuck (stuck_of_take (tagChunk_ne_end rest) fun o hE => ?_) _
    obtain ⟨hd', hparse', -, -, hdata⟩ := hE
    rw [hparse] at hparse'
    cases hparse'
    rw [herr] at hdata
    cases hdata
  | case8 rest hd payload objs err _ _ slen _ hlong full hparse hdata hread ih =>
    rw [hread] at ih
    have hlen : full.length = recHeaderSize + slen := length_take_of_le (Nat.le_of_not_lt hlong)
    have hslen : hd.slen = slen := by
      rw [(parseRecord_ok hparse).2.1, slice_take (Nat.le_trans (by decide : 42 ≤ recHeaderSize)
        (Nat.le_add_right _ _))]
    have hfull : Encodes Z full ⟨hd.key, payload⟩ := ⟨hd, hparse, by rw [hlen, hslen], rfl, hdata⟩
    have hsplit := Splits.cons hfull ih
    rwa [take_append_drop] at hsplit
  | case9 tag rest hend hchunk =>
    refine .stuck ⟨fun t ht => hend (List.cons.inj ht).1, fun r o hr hE => ?_⟩ _
    obtain ⟨t, rfl⟩ := hE.framed.cons
    obtain ⟨x, hx⟩ := hr
    exact hchunk (List.cons.inj hx).1.symm

theorem readRecords_flatten (h : List.Forall₂ (Encodes Z) recs objs) (rest : Bytes) :
    readRecords Z (recs.flatten ++ rest) = (objs ++ (readRecords Z rest).1, (readRecords Z rest).2) := by
  induction h with
  | nil => rfl
  | cons hE _ ih => rw [flatten_cons, append_assoc, readRecords_encodes hE, ih, cons_append]

/-! ## Whole packs -/

/-- The grammar of packs. -/
def InPack (Z : Zstd) (b : Bytes) (objs : List Object) : Prop :=
  ∃ recs t, b = packMagic ++ recs.flatten ++ tagEnd :: t ∧ List.Forall₂ (Encodes Z) recs objs

/-- The bytes start as a pack of some objects does. -/
def RecordPrefix (Z : Zstd) (b : Bytes) (recs : List Bytes) (objs : List Object) : Prop :=
  packMagic ++ recs.flatten <+: b ∧ List.Forall₂ (Encodes Z) recs objs

/-- The objects of the longest start of a pack, of which there is none without the magic. -/
def Longest (Z : Zstd) (b : Bytes) (objs : List Object) : Prop :=
  (∃ recs, RecordPrefix Z b recs objs ∧ ∀ recs' objs', RecordPrefix Z b recs' objs' → recs' <+: recs) ∨
    (¬packMagic <+: b ∧ objs = [])

theorem readAll_magic (Z : Zstd) (b : Bytes) : readAll Z (packMagic ++ b) = readRecords Z b := by
  rw [readAll, if_neg (by rw [length_append]; omega), take_left, if_neg (fun h => h rfl),
    drop_left]

theorem readAll_no_magic (h : ¬packMagic <+: b) : ∃ e, readAll Z b = ([], some e) := by
  rw [readAll]
  split
  · exact ⟨_, rfl⟩
  · split
    · exact ⟨_, rfl⟩
    · next heq => exact absurd (prefix_iff_eq_take.mpr (not_not.mp heq).symm) h

/-- What is stuck after some records is stuck after all that can be read. -/
theorem Stuck.longest (h : Stuck Z rest) (hrecs : List.Forall₂ (Encodes Z) recs objs) :
    Longest Z (packMagic ++ (recs.flatten ++ rest)) objs := by
  have hpre : packMagic ++ recs.flatten <+: packMagic ++ (recs.flatten ++ rest) :=
    (prefix_append_right_inj _).mpr (prefix_append _ _)
  refine .inl ⟨recs, ⟨hpre, hrecs⟩, fun recs' objs' hp => ?_⟩
  obtain ⟨⟨x, hx⟩, hrecs'⟩ := hp
  rw [append_assoc, append_cancel_left_eq] at hx
  rcases flatten_prefix (forall₂_framed hrecs) (forall₂_framed hrecs') hx.symm with ⟨more, rfl, hrest⟩ | ⟨more, rfl, -⟩
  · cases more with
    | nil => exact (append_nil recs).symm ▸ prefix_refl recs
    | cons r more =>
      obtain ⟨o, hE⟩ := exists_encodes hrecs' (mem_append_right recs mem_cons_self)
      refine absurd hE (h.2 r o ⟨more.flatten ++ x, ?_⟩)
      rw [hrest, flatten_cons, append_assoc]
  · exact prefix_append recs' more

theorem readAll_accepts (Z : Zstd) (b : Bytes) (objs : List Object) :
    readAll Z b = (objs, none) ↔ InPack Z b objs := by
  constructor
  · intro h
    by_cases hmagic : packMagic <+: b
    · obtain ⟨b, rfl⟩ := hmagic
      rw [readAll_magic] at h
      obtain ⟨recs, rest, rfl, hrecs, hend, -⟩ := readRecords_splits Z b
      rw [h] at hrecs hend
      obtain ⟨t, rfl⟩ := hend rfl
      exact ⟨recs, t, by rw [append_assoc], hrecs⟩
    · obtain ⟨e, he⟩ := readAll_no_magic (Z := Z) hmagic
      rw [he] at h
      cases h
  · rintro ⟨recs, t, rfl, hrecs⟩
    rw [append_assoc, readAll_magic, readRecords_flatten hrecs, readRecords, if_pos rfl, append_nil]

theorem readAll_rejects (h : ∀ objs, ¬InPack Z b objs) :
    ∃ objs e, readAll Z b = (objs, some e) ∧ Longest Z b objs := by
  cases hread : readAll Z b with
  | mk objs err =>
    cases err with
    | none => exact absurd ((readAll_accepts Z b objs).mp hread) (h objs)
    | some e =>
      refine ⟨objs, e, rfl, ?_⟩
      by_cases hmagic : packMagic <+: b
      · obtain ⟨b, rfl⟩ := hmagic
        rw [readAll_magic] at hread
        obtain ⟨recs, rest, rfl, hrecs, -, hstuck⟩ := readRecords_splits Z b
        rw [hread] at hrecs hstuck
        exact (hstuck nofun).longest hrecs
      · obtain ⟨e', he⟩ := readAll_no_magic (Z := Z) hmagic
        rw [he] at hread
        exact .inr ⟨hmagic, (congrArg Prod.fst hread).symm⟩

/-! ## What a writer writes -/

/-- A call of a writer: with an object, or with the record that was encoded from one. -/
inductive PackItem where
  | object (o : Object)
  | record (o : Object)

def PackItem.obj : PackItem → Object
  | .object o | .record o => o

def Writer.addItem (Z : Zstd) (w : Writer) : PackItem → Except RecordError Writer
  | .object o => w.add Z o
  | .record o => (encodeRecord Z o.key o.data).map w.addRecord

def writeItems (Z : Zstd) (items : List PackItem) : Except RecordError Bytes :=
  (items.foldlM (Writer.addItem Z) newWriter).map Writer.close

theorem addItem_eq (w : Writer) (i : PackItem) : w.addItem Z i = w.add Z i.obj := by
  cases i with
  | object o => rfl
  | record o =>
    rw [Writer.addItem, Writer.add, PackItem.obj]
    cases encodeRecord Z o.key o.data with
    | error e => rfl
    | ok rec => rfl

theorem writeItems_eq (Z : Zstd) (items : List PackItem) : writeItems Z items = writePack Z (items.map PackItem.obj) := by
  have hfold : ∀ w, items.foldlM (Writer.addItem Z) w = (items.map PackItem.obj).foldlM (Writer.add Z) w := by
    induction items with
    | nil => exact fun _ => rfl
    | cons i items ih =>
      intro w
      rw [foldlM_cons, map_cons, foldlM_cons, addItem_eq]
      exact congrArg _ (funext ih)
  rw [writeItems, writePack, hfold]

theorem writePack_fits (h : writePack Z objs = .ok b) : ∀ o ∈ objs, o.data.length ≤ maxPayload := by
  have hfold : ∀ w w', objs.foldlM (Writer.add Z) w = .ok w' → ∀ o ∈ objs, o.data.length ≤ maxPayload := by
    clear h
    induction objs with
    | nil => exact fun _ _ _ => nofun
    | cons o objs ih =>
      intro w w' h
      rw [foldlM_cons] at h
      obtain ⟨w₁, hadd, h⟩ := Except.bind_eq_ok.mp h
      intro x hx
      rcases mem_cons.mp hx with rfl | hx
      · cases henc : encodeRecord Z x.key x.data with
        | error e => rw [Writer.add, henc] at hadd; cases hadd
        | ok rec => exact (encodeRecord_ok henc).1
      · exact ih w₁ w' h x hx
  cases hw : objs.foldlM (Writer.add Z) newWriter with
  | error e => rw [writePack, hw] at h; cases h
  | ok w => exact hfold _ _ hw

theorem framed_objectRecord {o : Object} (h : o.data.length ≤ maxPayload) : Framed (objectRecord Z o) := by
  have hlens := storedForm_lengths (Z := Z) h
  have hbig : maxPayload < 256 ^ 4 := by decide
  have hslen : slice (objectRecord Z o ++ []) 38 42 = putUint 4 (storedForm Z o.data).2.length := recordBytes_slen
  rw [append_nil] at hslen
  refine ⟨?_, rfl, ?_⟩
  · rw [objectRecord, length_recordBytes]
    omega
  · rw [hslen, uint_putUint_of_lt (Nat.lt_of_le_of_lt hlens.slen_le hbig), objectRecord, length_recordBytes]

theorem readAll_cut (h : writePack Z objs = .ok b) (hp : p <+: b) (hne : p ≠ b) :
    ∃ objs' e, readAll Z p = (objs', some e) := by
  cases hread : readAll Z p with
  | mk objs' err =>
    cases err with
    | some e => exact ⟨objs', e, rfl⟩
    | none =>
      exfalso
      obtain ⟨recs, t, rfl, hrecs⟩ := (readAll_accepts Z p objs').mp hread
      obtain ⟨q, rfl⟩ := hp
      have hfits := writePack_fits h
      rw [writePack_eq hfits] at h
      have he := Except.ok.inj h
      rw [flatMap_def, append_assoc, append_assoc, append_assoc, append_cancel_left_eq, cons_append] at he
      have hframed : ∀ r ∈ objs.map (objectRecord Z), Framed r := by
        intro r hr
        obtain ⟨o, ho, rfl⟩ := mem_map.mp hr
        exact framed_objectRecord (hfits o ho)
      obtain ⟨-, htail⟩ := flatten_end_inj hframed (forall₂_framed hrecs) he
      have hq : q = [] := (append_eq_nil_iff.mp htail.symm).2
      exact hne (by rw [hq, append_nil])

/-- The reader accepts the packs of the grammar, with their objects, and no other byte strings. Of any
other it yields the objects of the longest start of a pack and one error. A pack that was cut short is
no pack. -/
theorem readAll_grammar (Z : Zstd) (b : Bytes) :
    (∀ objs, readAll Z b = (objs, none) ↔ InPack Z b objs) ∧
    ((∀ objs, ¬InPack Z b objs) → ∃ objs e, readAll Z b = (objs, some e) ∧ Longest Z b objs) ∧
    ∀ items, writeItems Z items = .ok b → ∀ p, p <+: b → p ≠ b → ∃ objs e, readAll Z p = (objs, some e) := by
  refine ⟨readAll_accepts Z b, readAll_rejects, fun items h p hp hne => ?_⟩
  rw [writeItems_eq] at h
  exact readAll_cut h hp hne

/-- Whatever calls they are written by, objects with canonical keys that fit read back from their pack,
and from the record of each, whatever follows it. -/
theorem pack_roundTrip (Z : Zstd) (items : List PackItem)
    (h : ∀ i ∈ items, i.obj.key.Canonical ∧ i.obj.data.length ≤ maxPayload) :
    (∃ b, writeItems Z items = .ok b ∧ readAll Z b = (items.map PackItem.obj, none)) ∧
    ∀ i ∈ items, ∃ rec, encodeRecord Z i.obj.key i.obj.data = .ok rec ∧ ∀ x, ∃ r,
      parseRecord (rec ++ x) = .ok r ∧ r.key = i.obj.key ∧ recHeaderSize + r.slen = rec.length ∧
      decodePayload Z r.flags r.ulen (slice (rec ++ x) recHeaderSize (recHeaderSize + r.slen)) =
        .ok i.obj.data := by
  constructor
  · have hobjs : ∀ o ∈ items.map PackItem.obj, o.key.Canonical ∧ o.data.length ≤ maxPayload := by
      intro o ho
      obtain ⟨i, hi, rfl⟩ := mem_map.mp ho
      exact h i hi
    have hwrite := writePack_eq (Z := Z) fun o ho => (hobjs o ho).2
    rw [writeItems_eq]
    exact ⟨_, hwrite, readAll_writePack (fun o ho => (hobjs o ho).1) hwrite fun o ho => (hobjs o ho).2⟩
  · intro i hi
    obtain ⟨hkey, hdata⟩ := h i hi
    refine ⟨_, encodeRecord_eq hdata, fun x => ⟨_, parseRecord_recordBytes hkey (storedForm_lengths hdata) x, rfl, ?_, ?_⟩⟩
    · exact length_recordBytes.symm
    · rw [objectRecord]
      exact (congrArg _ recordBytes_payload).trans (decodePayload_storedForm hdata)

/-- A pack of an empty blob, as an object and as a record. -/
theorem pack_roundTrip_blob :
    let o : Object := ⟨⟨List.replicate 32 0, rfl⟩, []⟩
    (∃ b, writeItems .stored [.object o, .record o] = .ok b ∧ readAll .stored b = ([o, o], none)) ∧
    ∀ i ∈ [PackItem.object o, .record o], ∃ rec, encodeRecord .stored i.obj.key i.obj.data = .ok rec ∧
      ∀ x, ∃ r, parseRecord (rec ++ x) = .ok r ∧ r.key = i.obj.key ∧ recHeaderSize + r.slen = rec.length ∧
        decodePayload .stored r.flags r.ulen (slice (rec ++ x) recHeaderSize (recHeaderSize + r.slen)) =
          .ok i.obj.data :=
  pack_roundTrip .stored [.object ⟨⟨List.replicate 32 0, rfl⟩, []⟩, .record ⟨⟨List.replicate 32 0, rfl⟩, []⟩]
    (by
      intro i hi
      have hobj : i.obj = ⟨⟨List.replicate 32 0, rfl⟩, []⟩ := by
        rcases mem_pair.mp hi with rfl | rfl <;> rfl
      rw [hobj]
      decide)

end Reading

end AmberStore.Amberpack
