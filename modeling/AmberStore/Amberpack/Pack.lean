import AmberStore.Amberpack.Record

/-!
# Wire packs

A pack is a magic, records as a segment has them, and an end marker. Reading one decodes the records
in order and stops at the first problem.
-/

namespace AmberStore.Amberpack
open Bytes List

/-- The bytes of `AMBERPK` and the version. -/
def packMagic : Bytes := [65, 77, 66, 69, 82, 80, 75, 3]

def tagEnd : UInt8 := 0x00

inductive PackError where
  | readingMagic
  | badMagic
  | truncatedBeforeEnd
  | truncatedHeader
  | payloadExceedsLimit (slen : Nat)
  | truncatedPayload
  | record (e : RecordError)
  | badTag (tag : UInt8)

/-- The objects up to the end marker, or up to the first problem. -/
def readRecords (Z : Zstd) : Bytes → List Object × Option PackError
  | [] => ([], some .truncatedBeforeEnd)
  | tag :: rest =>
    if tag = tagEnd then ([], none)
    else if tag = tagChunk then
      if (tag :: rest).length < recHeaderSize then ([], some .truncatedHeader)
      else
        let slen := uint (slice (tag :: rest) 38 42)
        if maxPayload < slen then ([], some (.payloadExceedsLimit slen))
        else if (tag :: rest).length < recHeaderSize + slen then ([], some .truncatedPayload)
        else
          let full := (tag :: rest).take (recHeaderSize + slen)
          match parseRecord full with
          | .error e => ([], some (.record e))
          | .ok parsed =>
            match decodePayload Z parsed.flags parsed.ulen (full.drop recHeaderSize) with
            | .error e => ([], some (.record e))
            | .ok payload =>
              let (objs, err) := readRecords Z ((tag :: rest).drop (recHeaderSize + slen))
              (⟨parsed.key, payload⟩ :: objs, err)
    else ([], some (.badTag tag))
termination_by b => b.length
decreasing_by
  simp only [length_drop, length_cons, recHeaderSize]
  omega

def readAll (Z : Zstd) (b : Bytes) : List Object × Option PackError :=
  if b.length < packMagic.length then ([], some .readingMagic)
  else if b.take packMagic.length ≠ packMagic then ([], some .badMagic)
  else readRecords Z (b.drop packMagic.length)

/-! ## Records in a stream -/

/-- The bytes of one record that delimits itself. -/
structure Framed (r : Bytes) : Prop where
  header : recHeaderSize ≤ r.length
  tag : r.getD 0 0 = tagChunk
  length_eq : r.length = recHeaderSize + uint (slice r 38 42)

/-- The bytes are a record over their whole length, and they decode to the object. -/
def Encodes (Z : Zstd) (r : Bytes) (o : Object) : Prop :=
  ∃ h, parseRecord r = .ok h ∧ r.length = recHeaderSize + h.slen ∧ h.key = o.key ∧
    decodePayload Z h.flags h.ulen (r.drop recHeaderSize) = .ok o.data

section Framing
variable {Z : Zstd} {r : Bytes}

theorem Framed.cons (h : Framed r) : ∃ t, r = tagChunk :: t := by
  obtain ⟨hlen, htag, -⟩ := h
  cases r with
  | nil => cases hlen
  | cons a t => exact ⟨t, congrArg (· :: t) htag⟩

theorem Framed.slen (h : Framed r) (x : Bytes) : slice (r ++ x) 38 42 = slice r 38 42 :=
  slice_append_left x (Nat.le_trans (by decide) h.header)

theorem Encodes.framed (h : Encodes Z r o) : Framed r := by
  obtain ⟨hd, hparse, hlen, -⟩ := h
  obtain ⟨-, hslen, htag, -⟩ := parseRecord_ok hparse
  exact ⟨by omega, htag, by rw [hlen, hslen]⟩

theorem readRecords_encodes (h : Encodes Z r o) (rest : Bytes) : readRecords Z (r ++ rest) =
    (o :: (readRecords Z rest).1, (readRecords Z rest).2) := by
  obtain ⟨hd, hparse, hlen, hkey, hdata⟩ := id h
  have hle := parseRecord_slen_le hparse
  have hslen : uint (slice (r ++ rest) 38 42) = hd.slen := by
    rw [h.framed.slen, (parseRecord_ok hparse).2.1]
  obtain ⟨t, ht⟩ := h.framed.cons
  have happ : r ++ rest = tagChunk :: (t ++ rest) := by rw [ht, cons_append]
  rw [happ, readRecords, if_neg (by decide), if_pos rfl, ← happ, hslen]
  dsimp only
  rw [if_neg (by rw [length_append]; omega), if_neg (by omega),
    if_neg (by rw [length_append]; omega), ← hlen, take_left, drop_left, hparse]
  dsimp only
  rw [hdata, hkey]

end Framing

/-! ## Writing a pack -/

/-- What a writer has written. -/
structure Writer where
  out : Bytes
  wroteHeader : Bool

def newWriter : Writer := ⟨[], false⟩

namespace Writer

def ensureHeader (w : Writer) : Writer := if w.wroteHeader then w else ⟨w.out ++ packMagic, true⟩

/-- A record that is encoded already. -/
def addRecord (w : Writer) (rec : Bytes) : Writer :=
  let w := w.ensureHeader
  { w with out := w.out ++ rec }

def add (Z : Zstd) (w : Writer) (o : Object) : Except RecordError Writer :=
  match encodeRecord Z o.key o.data with
  | .error e => .error e
  | .ok rec => .ok (w.addRecord rec)

def close (w : Writer) : Bytes := w.ensureHeader.out ++ [tagEnd]

end Writer

/-- The pack of some objects. -/
def writePack (Z : Zstd) (objs : List Object) : Except RecordError Bytes :=
  (objs.foldlM (Writer.add Z) newWriter).map Writer.close

section Written
variable {Z : Zstd} {objs : List Object}

theorem ensureHeader_addRecord (w : Writer) (rec : Bytes) :
    (w.addRecord rec).ensureHeader = ⟨w.ensureHeader.out ++ rec, true⟩ := by
  obtain ⟨out, wrote⟩ := w
  cases wrote <;> rfl

theorem foldlM_add (w : Writer) (h : ∀ o ∈ objs, o.data.length ≤ maxPayload) :
    ∃ w', objs.foldlM (Writer.add Z) w = .ok w' ∧
      w'.ensureHeader.out = w.ensureHeader.out ++ objs.flatMap (objectRecord Z) := by
  induction objs generalizing w with
  | nil => exact ⟨w, rfl, by simp⟩
  | cons o objs ih =>
    obtain ⟨w', hw', hout⟩ := ih (w.addRecord (objectRecord Z o)) fun x hx => h x (mem_cons_of_mem _ hx)
    refine ⟨w', ?_, ?_⟩
    · have hadd : Writer.add Z w o = .ok (w.addRecord (objectRecord Z o)) := by
        rw [Writer.add, encodeRecord_eq (h o mem_cons_self)]
      rw [foldlM_cons, hadd]
      exact hw'
    · rw [hout, ensureHeader_addRecord, flatMap_cons, append_assoc]

theorem writePack_eq (h : ∀ o ∈ objs, o.data.length ≤ maxPayload) :
    writePack Z objs = .ok (packMagic ++ objs.flatMap (objectRecord Z) ++ [tagEnd]) := by
  obtain ⟨w, hw, hout⟩ := foldlM_add newWriter h
  rw [writePack, hw]
  exact congrArg Except.ok (congrArg (· ++ [tagEnd]) hout)

/-! ## Reading what was written -/

theorem encodes_objectRecord {o : Object} (hkey : o.key.Canonical) (hdata : o.data.length ≤ maxPayload) :
    Encodes Z (objectRecord Z o) o := by
  have hparse := parseRecord_recordBytes hkey (storedForm_lengths (Z := Z) hdata) []
  rw [append_nil] at hparse
  have hpayload : (objectRecord Z o).drop recHeaderSize = (storedForm Z o.data).2 :=
    drop_left' (by simp [recHeaderSize])
  exact ⟨_, hparse, length_recordBytes, rfl, by rw [hpayload]; exact decodePayload_storedForm hdata⟩

theorem readRecords_records (h : ∀ o ∈ objs, o.key.Canonical ∧ o.data.length ≤ maxPayload) :
    readRecords Z (objs.flatMap (objectRecord Z) ++ [tagEnd]) = (objs, none) := by
  induction objs with
  | nil => rw [flatMap_nil, nil_append, readRecords, if_pos rfl]
  | cons o objs ih =>
    obtain ⟨hkey, hdata⟩ := h o mem_cons_self
    rw [flatMap_cons, append_assoc, readRecords_encodes (encodes_objectRecord hkey hdata),
      ih fun x hx => h x (mem_cons_of_mem _ hx)]

theorem readAll_writePack (hkeys : ∀ o ∈ objs, o.key.Canonical) (h : writePack Z objs = .ok b)
    (hdata : ∀ o ∈ objs, o.data.length ≤ maxPayload) : readAll Z b = (objs, none) := by
  rw [writePack_eq hdata] at h
  cases h
  rw [readAll, if_neg (by simp), if_neg (by simp), append_assoc, drop_left]
  exact readRecords_records fun o ho => ⟨hkeys o ho, hdata o ho⟩

end Written

end AmberStore.Amberpack
