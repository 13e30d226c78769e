import AmberStore.Packstore.Held
import AmberStore.Packstore.SafeReads
import AmberStore.Packstore.Verify

/-!
# Scrubbing a sealed segment

`verify` walks the body of a segment record by record, hashes every payload again, asks the filter for
every key and compares the index with one built anew. A segment that passes is one whose reads find
exactly the records of the body, each with a payload that its key stands for; and every segment that a
seal makes of such payloads passes.
-/

namespace AmberStore.Packstore
open Bytes Amberpack Act

/-! ## The scrub -/

/-- `slices.SortFunc` on index entries. The sort is not stable: it may leave entries with one key in
any order. -/
structure SortFunc where
  sort : List IndexEntry → List IndexEntry
  perm : ∀ es, (sort es).Perm es
  sorted : ∀ es, (sort es).Pairwise fun a b => leEntries a b = true

def SortFunc.stable : SortFunc := ⟨sortEntries, sortEntries_perm, sortEntries_pairwise⟩

inductive ScrubError where
  | cancelled
  | record (off : Nat) (e : RecordError)
  | object (off : Nat) (e : Err)
  | filter (k : Key) (off : Nat)
  | recordsEnd (off bodyLen : Nat)
  | recordCount (n keyCount : Nat)
  | index

namespace SealedSegment
-- `ctx` says whether the context is cancelled when the walk comes to an offset.
variable (Z : Zstd) (H : Blake3) (F : FuseLib) (S : SortFunc) (ctx : Nat → Bool) (g : SealedSegment)

/-- The checks of the record at an offset. -/
def scrubRecord (off : Nat) : Except ScrubError Record :=
  if ctx off then .error .cancelled
  else
    match parseRecord (slice g.mm off g.fv.bodyLen) with
    | .error e => .error (.record off e)
    | .ok rec =>
      match decodePayload Z rec.flags rec.ulen
          (slice g.mm (off + recHeaderSize) (off + recHeaderSize + rec.slen)) with
      | .error e => .error (.record off e)
      | .ok payload =>
        match verifyObject H ⟨rec.key, payload⟩ with
        | .error e => .error (.object off e)
        | .ok () =>
          if !F.contains g.fv.filter (filterKey rec.key) then .error (.filter rec.key off) else .ok rec

/-- The walk from an offset on: the entries of the records and where they end. -/
def scrubBody (off : Nat) : Except ScrubError (List IndexEntry × Nat) :=
  if off < g.fv.bodyLen then
    match g.scrubRecord Z H F ctx off with
    | .error e => .error e
    | .ok rec =>
      match scrubBody (off + recHeaderSize + rec.slen) with
      | .error e => .error e
      | .ok (entries, stop) => .ok (⟨rec.key, off, rec.slen⟩ :: entries, stop)
  else .ok ([], off)
  termination_by g.fv.bodyLen - off
  decreasing_by
    simp only [recHeaderSize]
    omega

def verify : Except ScrubError Unit :=
  match g.scrubBody Z H F ctx magicHeader.length with
  | .error e => .error e
  | .ok (entries, off) =>
    if off ≠ g.fv.bodyLen then .error (.recordsEnd off g.fv.bodyLen)
    else if entries.length ≠ g.fv.keyCount then .error (.recordCount entries.length g.fv.keyCount)
    else if indexSection (S.sort entries) ≠
        slice g.mm g.fv.indexOff (g.fv.indexOff + g.fv.indexLen) then .error .index
    else .ok ()

end SealedSegment

/-! ## What the walk has seen -/

section Walk
variable {Z : Zstd} {H : Blake3} {F : FuseLib} {S : SortFunc} {ctx : Nat → Bool} {g : SealedSegment}

/-- The records of a body from an offset on, each behind the one before, up to its end. -/
inductive Walk (body : Bytes) : Nat → List (Nat × Record) → Prop
  | done : Walk body body.length []
  | step : parseRecord (body.drop off) = .ok rec → Walk body (off + recHeaderSize + rec.slen) rs →
    Walk body off ((off, rec) :: rs)

/-- The index entry of a record. -/
def entryOf (p : Nat × Record) : IndexEntry := ⟨p.2.key, p.1, p.2.slen⟩

/-- A record that has passed. -/
structure Scrubbed (Z : Zstd) (H : Blake3) (F : FuseLib) (g : SealedSegment) (p : Nat × Record) : Prop where
  parse : parseRecord (slice g.mm p.1 g.fv.bodyLen) = .ok p.2
  payload : ∃ data, decodePayload Z p.2.flags p.2.ulen
      (slice g.mm (p.1 + recHeaderSize) (p.1 + recHeaderSize + p.2.slen)) = .ok data ∧
    verifyObject H ⟨p.2.key, data⟩ = .ok ()
  filter : F.contains g.fv.filter (filterKey p.2.key) = true

theorem scrubRecord_ok : g.scrubRecord Z H F ctx off = .ok rec ↔
    ctx off = false ∧ Scrubbed Z H F g (off, rec) := by
  unfold SealedSegment.scrubRecord
  constructor
  · intro h
    split at h
    · cases h
    next hctx =>
    split at h
    · cases h
    next hparse =>
    split at h
    · cases h
    next data hdata =>
    split at h
    · cases h
    next hverify =>
    split at h
    · cases h
    next hfilter =>
    cases h
    refine ⟨Bool.eq_false_iff.mpr hctx, hparse, ⟨data, hdata, hverify⟩, ?_⟩
    rwa [Bool.not_eq_true', Bool.not_eq_false] at hfilter
  · rintro ⟨hctx, hparse, ⟨data, hdata, hverify⟩, hfilter⟩
    simp only at hparse hdata hverify hfilter
    simp only [hctx, hparse, hdata, hverify, hfilter, Bool.false_eq_true, if_false, Bool.not_true]

theorem Scrubbed.end_le (h : Scrubbed Z H F g p) (hp : p.1 < g.fv.bodyLen) :
    p.1 + recHeaderSize + p.2.slen ≤ g.fv.bodyLen := by
  have hlen := (parseRecord_inv h.parse).length
  rw [length_slice] at hlen
  omega

theorem scrubBody_walk {off : Nat} (hbody : g.fv.bodyLen ≤ g.mm.length) (hoff : off ≤ g.fv.bodyLen)
    (h : g.scrubBody Z H F ctx off = .ok (es, stop)) :
    ∃ rs, Walk (g.mm.take g.fv.bodyLen) off rs ∧ es = rs.map entryOf ∧
      ∀ p ∈ rs, off ≤ p.1 ∧ p.1 < g.fv.bodyLen ∧ Scrubbed Z H F g p := by
  induction hn : g.fv.bodyLen - off using Nat.strongRecOn generalizing off es with
  | ind n ih =>
  rw [SealedSegment.scrubBody] at h
  split at h
  case isFalse hge =>
    obtain ⟨rfl, -⟩ := Prod.mk.inj (Except.ok.inj h)
    have hend : off = (g.mm.take g.fv.bodyLen).length := by
      rw [List.length_take, Nat.min_eq_left hbody]
      omega
    exact ⟨[], hend ▸ .done, rfl, nofun⟩
  case isTrue hlt =>
    split at h
    · cases h
    next rec hrec =>
    obtain ⟨-, hpass⟩ := scrubRecord_ok.mp hrec
    have hstop : off + recHeaderSize + rec.slen ≤ g.fv.bodyLen := hpass.end_le hlt
    split at h
    · cases h
    next entries _ hrest =>
    cases h
    have hless : g.fv.bodyLen - (off + recHeaderSize + rec.slen) < n := by
      simp only [recHeaderSize]
      omega
    obtain ⟨rs, hwalk, rfl, hall⟩ := ih _ hless hstop hrest rfl
    refine ⟨(off, rec) :: rs, .step ?_ hwalk, rfl, ?_⟩
    · rw [List.drop_take]
      exact hpass.parse
    · intro p hp
      cases hp with
      | head => exact ⟨Nat.le_refl _, hlt, hpass⟩
      | tail _ hp =>
        obtain ⟨hle, hpast⟩ := hall p hp
        exact ⟨by omega, hpast⟩

/-- What a scrub without findings has established. -/
structure ScrubPassed (Z : Zstd) (H : Blake3) (F : FuseLib) (S : SortFunc) (g : SealedSegment)
    (rs : List (Nat × Record)) : Prop where
  walk : Walk (g.mm.take g.fv.bodyLen) magicHeader.length rs
  records : ∀ p ∈ rs, magicHeader.length ≤ p.1 ∧ p.1 < g.fv.bodyLen ∧ Scrubbed Z H F g p
  count : rs.length = g.fv.keyCount
  index : indexSection (S.sort (rs.map entryOf)) =
    slice g.mm g.fv.indexOff (g.fv.indexOff + g.fv.indexLen)

theorem verify_passed (hacc : Accepted g.mm g.fv) (h : g.verify Z H F S ctx = .ok ()) :
    ∃ rs, ScrubPassed Z H F S g rs := by
  unfold SealedSegment.verify at h
  split at h
  · cases h
  next entries off hbody =>
  split at h
  · cases h
  split at h
  · cases h
  next hcount =>
  split at h
  · cases h
  next hindex =>
  obtain ⟨rs, hwalk, rfl, hall⟩ := scrubBody_walk hacc.bodyLen_le hacc.header_le hbody
  refine ⟨rs, hwalk, hall, ?_, not_not.mp hindex⟩
  rw [← not_not.mp hcount, List.length_map]

end Walk

/-! ## Reads of a segment that has passed -/

section Reads
variable {Z : Zstd} {H : Blake3} {F : FuseLib} {S : SortFunc} {g : SealedSegment}
  {rs : List (Nat × Record)} {k : Key}

theorem ScrubPassed.lookup (h : ScrubPassed Z H F S g rs) (hacc : Accepted g.mm g.fv) (k : Key) :
    (∃ p ∈ rs, p.2.key = k ∧ g.fv.lookup k = some (p.1, p.2.slen)) ∨
    (g.fv.lookup k = none ∧ ∀ p ∈ rs, p.2.key ≠ k) := by
  have hperm := S.perm (rs.map entryOf)
  have hlen : (S.sort (rs.map entryOf)).length = g.fv.keyCount := by
    rw [hperm.length_eq, List.length_map, h.count]
  have hparse : parseIndexSection (indexSection (S.sort (rs.map entryOf))) g.fv.keyCount =
      .ok (g.fv.fanout, g.fv.entries) := h.index ▸ hacc.index
  have hsmall : (S.sort (rs.map entryOf)).length < 2 ^ 32 := by
    rw [hlen]
    exact Nat.lt_of_le_of_lt hacc.keyCount_le (by decide)
  rw [← hlen, parseIndexSection_indexSection hsmall] at hparse
  obtain ⟨hfan, hrows⟩ := Prod.mk.inj (Except.ok.inj hparse)
  have hbound : ∀ e ∈ S.sort (rs.map entryOf), e.off < 2 ^ 64 ∧ e.slen < 2 ^ 32 := by
    intro e he
    obtain ⟨p, hp, rfl⟩ := List.mem_map.mp (hperm.mem_iff.mp he)
    obtain ⟨-, hlt, hpass⟩ := h.records p hp
    have hslen := parseRecord_slen_le hpass.parse
    have hmax : maxPayload < 2 ^ 32 := by decide
    exact ⟨Nat.lt_trans hlt hacc.bodyLen_lt, Nat.lt_of_le_of_lt hslen hmax⟩
  rw [FooterView.lookup, ← hfan, ← hrows]
  rcases searchIndex_spec (S.sorted _) hbound k with ⟨e, he, hek, hfound⟩ | ⟨hnone, hno⟩
  · obtain ⟨p, hp, rfl⟩ := List.mem_map.mp (hperm.mem_iff.mp he)
    exact .inl ⟨p, hp, hek, hfound⟩
  · refine .inr ⟨hnone, fun p hp => ?_⟩
    exact hno (entryOf p) (hperm.mem_iff.mpr (List.mem_map_of_mem hp))

theorem ScrubPassed.inBounds (h : ScrubPassed Z H F S g rs) (hp : p ∈ rs) :
    ¬g.outOfBounds p.1 p.2.slen = true := by
  obtain ⟨hlo, hlt, hpass⟩ := h.records p hp
  have hend := hpass.end_le hlt
  rw [SealedSegment.outOfBounds, decide_eq_true_eq]
  omega

theorem ScrubPassed.payloadOf (h : ScrubPassed Z H F S g rs) (hp : p ∈ rs) :
    ∃ data, g.payloadOf Z (some (p.1, p.2.slen)) = .ok (some data) ∧
      verifyObject H ⟨p.2.key, data⟩ = .ok () := by
  obtain ⟨-, hlt, hpass⟩ := h.records p hp
  have hend := hpass.end_le hlt
  have hparsed := parseRecord_inv hpass.parse
  obtain ⟨data, hdata, hverify⟩ := hpass.payload
  have hflags : (slice g.mm p.1 (p.1 + recHeaderSize)).getD 33 0 = p.2.flags := by
    rw [hparsed.flags, getD_slice (by simp [recHeaderSize]), getD_slice (by simp only [recHeaderSize] at hend; omega)]
  have hulen : uint (slice (slice g.mm p.1 (p.1 + recHeaderSize)) 34 38) = p.2.ulen := by
    rw [hparsed.ulen, slice_slice (by simp [recHeaderSize]), slice_slice (by simp only [recHeaderSize] at hend; omega)]
  refine ⟨data, ?_, hverify⟩
  rw [SealedSegment.payloadOf, if_neg (h.inBounds hp)]
  simp only [hflags, hulen, hdata]

theorem ScrubPassed.recordOf (h : ScrubPassed Z H F S g rs) (hp : p ∈ rs) :
    ∃ rec, g.recordOf (some (p.1, p.2.slen)) = .ok (some rec) ∧ parseRecord rec = .ok p.2 := by
  obtain ⟨-, hlt, hpass⟩ := h.records p hp
  have hend := hpass.end_le hlt
  refine ⟨_, by rw [SealedSegment.recordOf, if_neg (h.inBounds hp)], ?_⟩
  have hcut := parseRecord_cut hpass.parse (Nat.le_refl _)
  rw [slice, List.take_take, Nat.min_eq_left (by omega)] at hcut
  rwa [slice, Nat.add_assoc, Nat.add_sub_cancel_left]

/-- What the reads of a key find, in terms of the records of the body. -/
structure ReadsBody (Z : Zstd) (H : Blake3) (F : FuseLib) (g : SealedSegment) (rs : List (Nat × Record))
    (k : Key) : Prop where
  find_iff : (∃ data, g.get F k Z = .ok (some data)) ↔ ∃ p ∈ rs, p.2.key = k
  absent : (∀ p ∈ rs, p.2.key ≠ k) → g.get F k Z = .ok none ∧ g.getRecord F k = .ok none
  payload : ∀ data, g.get F k Z = .ok (some data) → verifyObject H ⟨k, data⟩ = .ok ()
  record : (∃ p ∈ rs, p.2.key = k) →
    ∃ b rec, g.getRecord F k = .ok (some b) ∧ parseRecord b = .ok rec ∧ rec.key = k

theorem ScrubPassed.reads (h : ScrubPassed Z H F S g rs) (hacc : Accepted g.mm g.fv) (k : Key) :
    ReadsBody Z H F g rs k := by
  rcases h.lookup hacc k with ⟨p, hp, rfl, hfound⟩ | ⟨hnone, hno⟩
  · obtain ⟨-, -, hpass⟩ := h.records p hp
    have hfind : g.find F p.2.key = some (p.1, p.2.slen) := by
      rw [SealedSegment.find, if_pos hpass.filter, hfound]
    obtain ⟨data, hdata, hverify⟩ := h.payloadOf hp
    obtain ⟨b, hb, hparse⟩ := h.recordOf hp
    rw [← hfind, ← SealedSegment.get_eq] at hdata
    rw [← hfind, ← SealedSegment.getRecord_eq] at hb
    refine ⟨⟨fun _ => ⟨p, hp, rfl⟩, fun _ => ⟨data, hdata⟩⟩, fun hne => absurd rfl (hne p hp), ?_,
      fun _ => ⟨b, p.2, hb, hparse, rfl⟩⟩
    intro d hd
    rw [hdata] at hd
    obtain rfl := Option.some.inj (Except.ok.inj hd)
    exact hverify
  · have hfind : g.find F k = none := by
      rw [SealedSegment.find, hnone, ite_self]
    have hget : g.get F k Z = .ok none := by
      rw [SealedSegment.get_eq, hfind]
      rfl
    have hrec : g.getRecord F k = .ok none := by
      rw [SealedSegment.getRecord_eq, hfind]
      rfl
    have habsent : ¬∃ p ∈ rs, p.2.key = k := by
      rintro ⟨p, hp, hk⟩
      exact hno p hp hk
    refine ⟨⟨?_, fun h => absurd h habsent⟩, fun _ => ⟨hget, hrec⟩, ?_, fun h => absurd h habsent⟩
    · rintro ⟨data, hdata⟩
      rw [hget] at hdata
      cases hdata
    · intro data hdata
      rw [hget] at hdata
      cases hdata

end Reads

/-! ## Segments that a seal makes -/

section Sealed
variable {Z : Zstd} {H : Blake3} {F : FuseLib} {S : SortFunc} {g : SealedSegment} {w : World}
  {rs : List (Nat × Record)}

/-- An active segment whose file holds the records, and whose index has an entry for each. -/
structure ActiveHolds (fs : FS Name) (a : ActiveSegment) (rs : List (Nat × Record)) : Prop where
  size_le : a.size ≤ (fs.files a.ino).data.length
  header : magicHeader <+: (fs.files a.ino).data.take a.size
  walk : Walk ((fs.files a.ino).data.take a.size) magicHeader.length rs
  index : a.indexEntries.Perm (rs.map entryOf)

/-- The payload of a record is one that its key stands for. -/
def PayloadOk (Z : Zstd) (H : Blake3) (body : Bytes) (p : Nat × Record) : Prop :=
  ∃ data, decodePayload Z p.2.flags p.2.ulen
      (slice body (p.1 + recHeaderSize) (p.1 + recHeaderSize + p.2.slen)) = .ok data ∧
    verifyObject H ⟨p.2.key, data⟩ = .ok ()

theorem Walk.mem {body : Bytes} (h : Walk body off rs) (hp : p ∈ rs) :
    parseRecord (body.drop p.1) = .ok p.2 ∧ p.1 + recHeaderSize + p.2.slen ≤ body.length := by
  induction h with
  | done => cases hp
  | @step off rec rs hparse _ ih =>
    cases hp with
    | head =>
      have hlen := (parseRecord_inv hparse).length
      rw [List.length_drop] at hlen
      refine ⟨hparse, ?_⟩
      simp only [recHeaderSize] at hlen ⊢
      omega
    | tail _ hp => exact ih hp

theorem Walk.length_le {body : Bytes} (h : Walk body off rs) : off + rs.length ≤ body.length := by
  induction h with
  | done => exact Nat.le_refl _
  | step _ _ ih =>
    simp only [List.length_cons, recHeaderSize] at ih ⊢
    omega

theorem Walk.scrubBody (h : Walk (g.mm.take g.fv.bodyLen) off rs) (hbody : g.fv.bodyLen ≤ g.mm.length)
    (hall : ∀ p ∈ rs, Scrubbed Z H F g p) :
    g.scrubBody Z H F (fun _ => false) off = .ok (rs.map entryOf, g.fv.bodyLen) := by
  have hlen : (g.mm.take g.fv.bodyLen).length = g.fv.bodyLen := by
    rw [List.length_take, Nat.min_eq_left hbody]
  induction h with
  | done =>
    rw [hlen, SealedSegment.scrubBody, if_neg (Nat.lt_irrefl _)]
    rfl
  | @step off rec rs hparse hwalk ih =>
    have hend := hwalk.length_le
    have hlt : off < g.fv.bodyLen := by
      rw [hlen] at hend
      simp only [recHeaderSize] at hend
      omega
    have hrec : g.scrubRecord Z H F (fun _ => false) off = .ok rec :=
      scrubRecord_ok.mpr ⟨rfl, hall (off, rec) List.mem_cons_self⟩
    have hrest := ih fun p hp => hall p (List.mem_cons_of_mem _ hp)
    rw [SealedSegment.scrubBody, if_pos hlt, hrec]
    simp only [hrest]
    rfl

theorem nodup_indexEntries (a : ActiveSegment) : (a.indexEntries.map IndexEntry.key).Nodup := by
  rw [ActiveSegment.indexEntries, List.map_map]
  exact a.index.nodupKeys

/-- What is read from a file that ends in a footer which was built for it and is accepted. -/
theorem parseFooter_built {body foot : Bytes} {es : List IndexEntry} {fv : FooterView}
    (hb : magicHeader <+: body) (hsize : body.length < 2 ^ 63) (hes : es.length < 2 ^ 63)
    (hfoot : buildFooter F body.length es = .ok foot) (hfv : parseFooter (body ++ foot) = .ok fv) :
    ∃ f, fv = footerView body.length es f ∧ (∀ e ∈ es, F.contains f (filterKey e.key) = true) ∧
      slice (body ++ foot) fv.indexOff (fv.indexOff + fv.indexLen) = buildIndexSection es := by
  have hlt : es.length < 2 ^ 32 := by
    by_contra hbig
    exact parseFooter_refuses F (by omega) (by omega) hfoot fv hfv
  have hpos : es.length ≠ 0 := by
    intro hnil
    rw [buildFooter, if_pos hnil] at hfoot
    cases hfoot
  have hne : es ≠ [] := fun hnil => hpos (by rw [hnil]; rfl)
  obtain ⟨foot', f, hfoot', hf, hparse, hcont⟩ := parseFooter_buildFooter F hb hne hlt
    fun foot' hf' => by
      have hshort := (length_buildFooter hf' hlt).2
      rw [List.length_append]
      omega
  obtain rfl : foot = foot' := Except.ok.inj (hfoot.symm.trans hfoot')
  obtain rfl : fv = footerView body.length es f := Except.ok.inj (hfv.symm.trans hparse)
  refine ⟨f, rfl, hcont, ?_⟩
  rw [buildFooter, if_neg hpos, buildFilterSection, hf] at hfoot
  obtain rfl := Except.ok.inj hfoot
  have hslice := slice_assembleFooter (buildIndexSection es) (serializeFilter f) es.length body
  rwa [length_buildIndexSection] at hslice

/-- A file that ends in the footer of an active segment passes. -/
theorem ActiveHolds.verify {fs : FS Name} {a : ActiveSegment} (h : ActiveHolds fs a rs)
    (hsize : a.size < 2 ^ 63)
    (hok : ∀ p ∈ rs, PayloadOk Z H ((fs.files a.ino).data.take a.size) p)
    (hfoot : buildFooter F a.size a.indexEntries = .ok foot)
    (hmm : g.mm = (fs.files a.ino).data.take a.size ++ foot) (hfv : parseFooter g.mm = .ok g.fv) :
    g.verify Z H F S (fun _ => false) = .ok () := by
  obtain ⟨hle, hheader, hwalk, hperm⟩ := h
  have hlen : ((fs.files a.ino).data.take a.size).length = a.size := by
    rw [List.length_take, Nat.min_eq_left hle]
  generalize (fs.files a.ino).data.take a.size = body at *
  have hcount : a.indexEntries.length = rs.length := by
    rw [hperm.length_eq, List.length_map]
  have hfew := hwalk.length_le
  rw [← hlen] at hfoot
  rw [hmm] at hfv
  obtain ⟨f, hview, hcont, hindex⟩ := parseFooter_built hheader (by omega) (by omega) hfoot hfv
  rw [← hmm] at hindex
  have hbodyLen : g.fv.bodyLen = body.length := congrArg FooterView.bodyLen hview
  have htake : g.mm.take g.fv.bodyLen = body := by
    rw [hbodyLen, hmm, List.take_left]
  have hbody : g.fv.bodyLen ≤ g.mm.length := by
    rw [hbodyLen, hmm, List.length_append]
    exact Nat.le_add_right _ _
  -- every record of the file passes the checks of the walk
  have hall : ∀ p ∈ rs, Scrubbed Z H F g p := by
    intro p hp
    obtain ⟨hrec, hend⟩ := hwalk.mem hp
    obtain ⟨data, hdata, hverify⟩ := hok p hp
    refine ⟨?_, ⟨data, ?_, hverify⟩, ?_⟩
    · rwa [← htake, List.drop_take] at hrec
    · rwa [← htake, slice_take (hbodyLen ▸ hend)] at hdata
    · rw [hview]
      exact hcont (entryOf p) (hperm.mem_iff.mpr (List.mem_map_of_mem hp))
  have hscrub := (htake.symm ▸ hwalk).scrubBody hbody hall
  have hsort : S.sort (rs.map entryOf) = sortEntries a.indexEntries := by
    have hp := ((S.perm _).trans hperm.symm).trans (sortEntries_perm a.indexEntries).symm
    exact sorted_unique hp ((hp.map _).nodup_iff.mpr (map_key_nodup_sort (nodup_indexEntries a)))
      (S.sorted _) (sortEntries_pairwise _)
  have hkeys : (rs.map entryOf).length = g.fv.keyCount := by
    rw [List.length_map, ← hcount, hview]
    rfl
  rw [SealedSegment.verify, hscrub]
  simp only [ne_eq, not_true_eq_false, if_false, hkeys, hsort, hindex, ← buildIndexSection_eq]

/-- A segment that was made of the active segment's records and a footer for them. -/
def MadeOf (F : FuseLib) (fs : FS Name) (a : ActiveSegment) (g : SealedSegment) : Prop :=
  ∃ foot, buildFooter F a.size a.indexEntries = .ok foot ∧
    g.mm = (fs.files a.ino).data.take a.size ++ foot ∧ parseFooter g.mm = .ok g.fv

theorem sealRename_makes {a : ActiveSegment} {u : World}
    (hlook : FS.lookup u.fs.cur (.active a.id) = some a.ino) (hs : u.s.sealed = w.s.sealed)
    (hfoot : buildFooter F a.size a.indexEntries = .ok foot)
    (hdata : (u.fs.files a.ino).data = (w.fs.files a.ino).data.take a.size ++ foot) :
    (do
      rename (.active a.id) (.sealed a.id)
      syncDir
      let seg ← openSealed a.id
      setStore fun s => { s with sealed := s.sealed ++ [seg], active := none }
      closeFile).Gives (fun _ w' => ∃ gs, w'.s.sealed = w.s.sealed ++ gs ∧
        ∀ g ∈ gs, MadeOf F w.fs a g) u := by
  have hsame : ∃ gs, u.s.sealed = w.s.sealed ++ gs ∧ ∀ g ∈ gs, MadeOf F w.fs a g :=
    ⟨[], by rw [hs, List.append_nil], nofun⟩
  have hlook' := FS.lookup_rename (b := .sealed a.id) (by exact nofun) hlook
  simp only [rename, wp_bind, wp_read, post_ok, hlook]
  refine wp_ioOp_any (fun io => ⟨trivial, ?_⟩) fun n io => ⟨trivial, ?_⟩
  swap
  · exact hsame
  refine wp_syncOp_any (fun sf _ => ⟨trivial, ?_⟩) fun n sf _ _ => ⟨trivial, ?_⟩
  swap
  · exact hsame
  refine Wp.post_mono (openSealed_bytes (by exact hlook')) ?_
  rintro (e | seg) t ⟨⟨io', rfl⟩, hseg⟩
  · exact hsame
  obtain ⟨hmm, hparse, -⟩ := hseg seg rfl
  have hmade : ∃ gs, u.s.sealed ++ [seg] = w.s.sealed ++ gs ∧ ∀ g ∈ gs, MadeOf F w.fs a g := by
    refine ⟨[seg], by rw [hs], fun g hg => ?_⟩
    obtain rfl := List.mem_singleton.mp hg
    exact ⟨foot, hfoot, hmm.trans hdata, hparse⟩
  simp only [post_ok, wp_setStore]
  exact wp_ioOp_any (fun io => ⟨trivial, hmade⟩) fun n io => ⟨trivial, hmade⟩

/-- Whatever fails, the segments that a seal adds are made of the active segment. -/
theorem sealActiveLocked_makes {a : ActiveSegment} (ha : w.s.active = some a)
    (hname : FS.lookup w.fs.cur (.active a.id) = some a.ino)
    (hle : a.size ≤ (w.fs.files a.ino).data.length) :
    (sealActiveLocked F).Gives (fun _ w' => ∃ gs, w'.s.sealed = w.s.sealed ++ gs ∧
      ∀ g ∈ gs, MadeOf F w.fs a g) w := by
  have hsame : ∃ gs, w.s.sealed = w.s.sealed ++ gs ∧ ∀ g ∈ gs, MadeOf F w.fs a g :=
    ⟨[], (List.append_nil _).symm, nofun⟩
  unfold sealActiveLocked
  simp only [wp_bind, wp_getStore, post_ok, ha]
  refine wp_ite (fun _ => .pure hsame) fun _ => ?_
  cases hfoot : buildFooter F a.size a.indexEntries with
  | error e => exact .throw hsame
  | ok foot =>
    -- truncate, write the footer, fsync: none of them touches the store
    refine wp_bind.mpr (wp_ioOp_any (fun io => ⟨trivial, ?_⟩) fun n io => ⟨trivial, ?_⟩)
    swap
    · exact hsame
    refine post_ok.mpr (wp_bind.mpr (wp_ioOp_any (fun io => ⟨trivial, ?_⟩) fun n io => ⟨trivial, ?_⟩))
    swap
    · exact hsame
    refine post_ok.mpr
      (wp_bind.mpr (wp_syncOp_any (fun sf _ => ⟨trivial, ?_⟩) fun n sf _ _ => ⟨trivial, ?_⟩))
    swap
    · exact hsame
    refine sealRename_makes (by exact hname) (by rfl) hfoot ?_
    have hlen : ((w.fs.files a.ino).data.take a.size).length = a.size := by
      rw [List.length_take, Nat.min_eq_left hle]
    have hwrite := writeAt_end ((w.fs.files a.ino).data.take a.size) foot
    rw [hlen] at hwrite
    rw [FS.setFile_self, File.fsync_data, FS.setFile_self, FS.setFile_self]
    exact hwrite

/-! ### The active segments of a store -/

/-- The record that a location describes. -/
def recordAt (p : Key × ActiveLoc) : Nat × Record := (p.2.off, ⟨p.1, p.2.flags, p.2.ulen, p.2.slen⟩)

theorem walk_bodyOf {b : List Object} (hb : ∀ o ∈ b, o.key.Canonical ∧ o.data.length ≤ maxPayload)
    (a : List Object) : Walk (bodyOf Z (a ++ b)) (bodyOf Z a).length
      ((locsFrom Z (bodyOf Z a).length b).map recordAt) := by
  induction b generalizing a with
  | nil =>
    rw [List.append_nil]
    exact .done
  | cons o b ih =>
    obtain ⟨hkey, hdata⟩ := hb o List.mem_cons_self
    have hrest := ih (fun x hx => hb x (List.mem_cons_of_mem _ hx)) (a ++ [o])
    rw [bodyOf_snoc, List.length_append, List.append_assoc, List.singleton_append] at hrest
    rw [locsFrom, List.map_cons, recordAt, locOf_objectRecord Z _ o hdata]
    apply Walk.step
    · rw [bodyOf_append, List.drop_left, records_cons]
      exact parseRecord_recordBytes hkey (storedForm_lengths hdata) _
    · rwa [length_objectRecord, ← Nat.add_assoc] at hrest ⊢

/-- An active segment of a store holds the records of its contents. -/
theorem ActiveRep.holds {fs : FS Name} {a : ActiveSegment} {c : Contents} (h : ActiveRep Z fs a c)
    (hok : ∀ o ∈ c.objs, verifyObject H o = .ok ()) :
    ActiveHolds fs a ((locs Z c.objs).map recordAt) ∧
    ∀ p ∈ (locs Z c.objs).map recordAt, PayloadOk Z H ((fs.files a.ino).data.take a.size) p := by
  have htake := h.take_eq
  refine ⟨⟨?_, ?_, ?_, ?_⟩, ?_⟩
  · rw [h.size]
    exact h.data.length_le
  · rw [htake]
    exact magicHeader_prefix_bodyOf Z _
  · rw [htake]
    have hwalk := walk_bodyOf (Z := Z) c.fits []
    rwa [bodyOf_nil, List.nil_append] at hwalk
  · have hperm := h.index.indexEntries_perm
    rw [entriesOf] at hperm
    rw [List.map_map]
    exact hperm
  · intro p hp
    obtain ⟨q, hq, rfl⟩ := List.mem_map.mp hp
    obtain ⟨l, o, b, hobjs, rfl⟩ := (mem_locs Z).mp hq
    have ho : o ∈ c.objs := by rw [hobjs]; exact List.mem_append_right _ List.mem_cons_self
    have hfits := (c.fits o ho).2
    have hrec := slice_record Z (hobjs ▸ List.prefix_refl (bodyOf Z c.objs))
    obtain ⟨-, -, hstored⟩ := recordAt_fields hrec hfits
    refine ⟨o.data, ?_, hok o ho⟩
    rw [htake, recordAt, locOf_objectRecord Z _ o hfits, hobjs]
    dsimp only
    rw [hstored, decodePayload_storedForm hfits]

/-- A scrub without findings means that the reads of the segment find exactly the records of its body,
with payloads that their keys stand for; and a scrub finds nothing in a segment that a seal has made of
such records, whatever fails during the seal. -/
theorem scrub_exact (Z : Zstd) (H : Blake3) (F : FuseLib) (S : SortFunc) :
    (∀ mm fv id ctx, parseFooter mm = .ok fv →
      SealedSegment.verify Z H F S ctx ⟨id, mm, fv⟩ = .ok () →
      ∃ rs, Walk (mm.take fv.bodyLen) magicHeader.length rs ∧
        ∀ k, ReadsBody Z H F ⟨id, mm, fv⟩ rs k) ∧
    ∀ (w : World) (a : ActiveSegment) rs, w.s.active = some a →
      FS.lookup w.fs.cur (.active a.id) = some a.ino → a.size < 2 ^ 63 → ActiveHolds w.fs a rs →
      (∀ p ∈ rs, PayloadOk Z H ((w.fs.files a.ino).data.take a.size) p) →
      ∃ gs, (sealActiveLocked F w).final.s.sealed = w.s.sealed ++ gs ∧
        ∀ g ∈ gs, g.verify Z H F S (fun _ => false) = .ok () := by
  constructor
  · intro mm fv id ctx hparse hverify
    have hacc := parseFooter_accepted hparse
    obtain ⟨rs, hpassed⟩ := verify_passed hacc hverify
    exact ⟨rs, hpassed.walk, hpassed.reads hacc⟩
  · intro w a rs ha hname hsize hholds hok
    obtain ⟨gs, hsealed, hmade⟩ := (sealActiveLocked_makes (F := F) ha hname hholds.size_le).2
    refine ⟨gs, hsealed, fun g hg => ?_⟩
    obtain ⟨foot, hfoot, hmm, hfv⟩ := hmade g hg
    exact hholds.verify hsize hok hfoot hmm hfv

/-- The empty blob, for a hash that is zero everywhere. -/
def emptyBlob : Contents where
  objs := [⟨⟨List.replicate 32 0, length_zeros⟩, []⟩]
  nodup := List.nodup_singleton _
  fits := by
    intro o ho
    obtain rfl := List.mem_singleton.mp ho
    exact ⟨by decide, Nat.zero_le _⟩

/-- A segment with the empty blob passes, and reads find the blob. -/
theorem scrub_exact_blob : ∃ mm fv rs, parseFooter mm = .ok fv ∧
    Walk (mm.take fv.bodyLen) magicHeader.length rs ∧
    ∀ k, ReadsBody .stored (fun _ => ⟨List.replicate 32 0, rfl⟩) .full ⟨1, mm, fv⟩ rs k := by
  have hsealable : Sealable emptyBlob := ⟨List.cons_ne_nil _ _, by decide⟩
  obtain ⟨hfoot, f, hparse, -⟩ := parseFooter_sealedFile (Z := .stored) (F := .full) hsealable
  let body := bodyOf .stored emptyBlob.objs
  let fs : FS Name := ⟨fun _ => ⟨body, 0, false⟩, 1, [(.active 1, 0)], []⟩
  let a : ActiveSegment := ⟨1, 0, body.length, (∅ : AList fun _ : Key => ActiveLoc).insert
    ⟨List.replicate 32 0, rfl⟩ (locOf magicHeader.length (objectRecord .stored ⟨⟨List.replicate 32 0, rfl⟩, []⟩))⟩
  have hindex : IndexOk .stored a.index emptyBlob.objs := by
    have hsnoc := IndexOk.nil.snoc (Z := .stored) (o := ⟨⟨List.replicate 32 0, rfl⟩, []⟩) List.not_mem_nil
    rwa [bodyOf_nil] at hsnoc
  have hrep : ActiveRep .stored fs a emptyBlob := ⟨List.prefix_refl _, rfl, hindex⟩
  obtain ⟨hholds, hok⟩ := hrep.holds (H := fun _ => ⟨List.replicate 32 0, rfl⟩) (by
    intro o ho
    obtain rfl := List.mem_singleton.mp ho
    decide)
  have hverify := hholds.verify (g := ⟨1, sealedFile .stored .full emptyBlob, _⟩) (S := .stable)
    (Nat.lt_trans (length_bodyOf_lt hsealable.lt) (by decide)) hok (hrep.buildFooter_eq.trans hfoot)
    (by rw [hrep.take_eq]; rfl) hparse
  obtain ⟨rs, hwalk, hreads⟩ := (scrub_exact .stored _ .full .stable).1 _ _ 1 _ hparse hverify
  exact ⟨_, _, rs, hparse, hwalk, hreads⟩

end Sealed
end AmberStore.Packstore
