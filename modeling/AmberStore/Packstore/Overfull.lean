import AmberStore.Packstore.MapRefinement

/-!
# Sealing 2³² records

The footer counts keys in 32 bits, and nothing keeps an active segment from growing beyond that when
the rotation threshold is large. Sealing such a segment writes a footer that `parseFooter` refuses,
but only after the file has its sealed name: the store is poisoned and `Open` fails from then on.
-/

namespace AmberStore.Packstore
open Bytes Amberpack Act List

variable {Z : Zstd} {F : FuseLib} {w : World} {G : Written}

/-! ## A directory that does not open -/

/-- A sealed name stands, durably, for a file whose footer is refused. -/
def Bricked (fs : FS Name) : Prop :=
  fs.past = [] ∧ ∃ id i e, FS.lookup fs.cur (.sealed id) = some i ∧
    (fs.files i).synced = (fs.files i).data.length ∧ parseFooter (fs.files i).data = .error e

theorem Bricked.crash {fs fs' : FS Name} (h : Bricked fs) (hc : FS.Crash fs fs') : Bricked fs' := by
  obtain ⟨hp, id, i, e, hl, hs, hparse⟩ := h
  have hdir := hc.dir
  rw [FS.dirs, hp, mem_singleton] at hdir
  obtain ⟨n, hn, hf⟩ := hc.files i
  have hdata : (fs'.files i).data = (fs.files i).data := by
    rw [hf]
    exact take_of_length_le (hs ▸ hn)
  refine ⟨hc.past, id, i, e, by rw [hdir, hl], ?_, by rw [hdata, hparse]⟩
  rw [hf]

theorem openSealed_refused {id : Nat} {e : FooterError} (hio : w.ioFaults = [])
    (hl : FS.lookup w.fs.cur (.sealed id) = some i)
    (hparse : parseFooter (w.fs.files i).data = .error e) :
    (openSealed id).Gives (fun r w' => (∃ e, r = .error e) ∧ w' = w) w := by
  unfold openSealed
  refine wp_bind.mpr (wp_readFile hio hl trivial (post_ok.mpr (wp_ite (fun _ => ?_) fun _ => ?_)))
  · exact .throw ⟨⟨_, rfl⟩, rfl⟩
  · rw [hparse]
    exact .throw ⟨⟨_, rfl⟩, rfl⟩

/-- Opening a sealed segment, whatever it holds, changes no file. -/
theorem openSealed_any {id : Nat} (hio : w.ioFaults = []) :
    (openSealed id).Gives (fun _ w' => w' = w) w := by
  unfold openSealed
  cases hl : FS.lookup w.fs.cur (.sealed id) with
  | none =>
    simp only [readFile, wp_bind, wp_read, post_ok, hl, wp_throw, post_error]
  | some i =>
    refine wp_bind.mpr (wp_readFile hio hl trivial (post_ok.mpr (wp_ite (fun _ => ?_) fun _ => ?_)))
    · exact .throw rfl
    · cases parseFooter (w.fs.files i).data with
      | error e => exact .throw rfl
      | ok fv => exact .pure rfl

theorem Bricked.openStore (h : Bricked w.fs) (hio : w.ioFaults = []) (cfg : Config) :
    (openStore cfg).Gives (Post (fun _ _ => False) fun _ _ => True) w := by
  obtain ⟨-, id, i, e, hl, -, hparse⟩ := h
  have hmem : id ∈ sealedIDs (readDir w.fs.cur) := by
    obtain ⟨x, hx, hxi⟩ := Option.map_eq_some_iff.mp hl
    have hn : x.1 = .sealed id := by simpa using find?_some hx
    refine mem_sealedIDs.mpr ⟨x.2, mem_readDir.mpr ?_⟩
    rw [← hn]
    exact mem_of_find?_eq_some hx
  unfold Packstore.openStore load
  simp only [wp_bind, wp_setStore, post_ok, wp_read]
  refine Wp.post_mono (Wp.each (E := fun _ _ => True) (P := fun ids (t : World) =>
    id ∈ ids ∧ t.fs = w.fs ∧ t.ioFaults = []) ⟨hmem, rfl, hio⟩ ?_) ?_
  · rintro b bs t ⟨hid, hfs, ht⟩
    unfold loadSealed
    by_cases hb : b = id
    · subst hb
      refine (openSealed_refused ht (by rw [hfs]; exact hl)
        (by rw [hfs]; exact hparse)).seq ?_
      rintro r u ⟨⟨e, rfl⟩, -⟩
      exact trivial
    · refine (openSealed_any ht).seq ?_
      rintro (e | seg) u rfl
      · trivial
      simp only [post_ok, bumpNextID, wp_bind, wp_setStore]
      exact ⟨(mem_cons.mp hid).resolve_left fun h => hb h.symm, hfs, ht⟩
  · rintro (e | ⟨⟩) t ht
    · trivial
    · exact absurd ht.1 not_mem_nil

/-! ## The seal that fails -/

/-- Contents whose footer is built and refused. -/
structure Overfull (Z : Zstd) (F : FuseLib) (c : Contents) : Prop where
  many : 2 ^ 32 ≤ c.objs.length
  size : (sealedFile Z F c).length < 2 ^ 64
  builds : buildFooter F (bodyOf Z c.objs).length (entriesOf Z c.objs) = .ok (footerOf Z F c)

theorem Overfull.refused {c : Contents} (h : Overfull Z F c) :
    parseFooter (sealedFile Z F c) = .error .inconsistentOffsets :=
  parseFooter_too_many F (magicHeader_prefix_bodyOf Z c.objs)
    (by rw [length_entriesOf]; exact h.many) h.builds h.size

/-- What a failed seal of too many records leaves. -/
structure SealFailed (w w' : World) : Prop where
  io : w'.ioFaults = []
  sync : w'.syncFaults = []
  bricked : Bricked w'.fs
  idle : ∀ id i, (.active id, i) ∉ w'.fs.cur
  store : w'.s = w.s

theorem sealActiveLocked_overfull {a : ActiveSegment} (h : Good Z F True P A w G)
    (hf : w.s.failed = none) (ha : w.s.active = some a) (hover : Overfull Z F (G a.ino)) : (sealActiveLocked F).Gives (Post
      (fun _ _ => False) fun _ w' => SealFailed w w') w := by
  have hm := h.mounted hf
  have hok := hm.active a ha
  have hs := hm.synced_le h.durable ha
  have hne : ¬(G a.ino).objs.length = 0 := fun h0 => by
    have := hover.many
    omega
  have hbuild : buildFooter F a.size a.indexEntries = .ok (footerOf Z F (G a.ino)) := by
    have hperm := hok.index.indexEntries_perm
    rw [buildFooter_congr hperm ((hperm.map _).nodup_iff.mpr (nodup_entriesOf _)), hok.size]
    exact hover.builds
  unfold sealActiveLocked
  simp only [wp_bind, wp_getStore, post_ok, ha, hok.length_entries, hne, if_false, hbuild]
  refine wp_truncate (by exact h.io) trivial ?_
  rw [hok.truncate_eq hs, FS.setFile_eq_self _ rfl]
  refine wp_writeAt (by exact h.io) trivial ?_
  rw [hok.writeAt_footer hs]
  refine wp_syncOp (fun sf hsf => ⟨trivial, ?_⟩) fun hne => absurd (h.sync trivial) hne
  simp only [FS.setFile_self, FS.setFile_setFile]
  refine wp_rename (i := a.ino) (by exact h.io) (by exact h.durable.cur.lookup hok.mem) trivial ?_
  refine wp_syncOp (fun sf' hsf' => ⟨trivial, ?_⟩) fun hne => absurd (hsf (h.sync trivial)) hne
  have hlook := lookup_sealed h.durable.cur hok.mem
  have hidle := sealed_idle h.durable.cur hok.mem
  have hfile : (w.fs.setFile a.ino (footFile Z F (w.fs.files a.ino) (G a.ino)).fsync).files a.ino =
      (footFile Z F (w.fs.files a.ino) (G a.ino)).fsync := FS.setFile_self ..
  have hparse : parseFooter (footFile Z F (w.fs.files a.ino) (G a.ino)).fsync.data =
      .error .inconsistentOffsets := hover.refused
  have hsynced : ((w.fs.setFile a.ino (footFile Z F (w.fs.files a.ino) (G a.ino)).fsync).files
      a.ino).synced = ((w.fs.setFile a.ino (footFile Z F (w.fs.files a.ino)
        (G a.ino)).fsync).files a.ino).data.length := by
    rw [hfile]
    rfl
  refine post_ok.mpr (Wp.post_mono (openSealed_refused (i := a.ino) (by exact h.io) (by exact hlook)
    (by exact hfile ▸ hparse)) ?_)
  rintro r u ⟨⟨e, rfl⟩, rfl⟩
  exact ⟨h.io, hsf' (hsf (h.sync trivial)), ⟨rfl, a.id, a.ino, _, hlook, hsynced, hfile ▸ hparse⟩,
    hidle, rfl⟩

/-! ## Filling a segment -/

/-- A canonical key; the keys differ before their last eight bytes. -/
def bulkKey (n : Nat) : Key where
  bytes := [0, 0] ++ putUint 4 n ++ List.replicate 26 0
  size_eq := by simp

def bulkObject (n : Nat) : Object := ⟨bulkKey n, []⟩

theorem bulkKey_canonical (n : Nat) : (bulkKey n).Canonical := by
  have h0 : (bulkKey n).byte 0 = 0 := rfl
  have hls : (bulkKey n).lengthSize = 1 := by rw [Key.lengthSize, h0]; rfl
  have hlen : (bulkKey n).length = 0 := by rw [Key.length, hls]; rfl
  have htype : (bulkKey n).type = .blob := by rw [Key.type, h0]; rfl
  rw [Key.Canonical, Key.validate, h0, htype, if_neg (by decide), if_neg (by decide),
    if_neg fun h => h.2 ⟨hls, hlen⟩]

theorem bulkKey_inj (hm : m < 2 ^ 32) (hn : n < 2 ^ 32) (h : bulkKey m = bulkKey n) : m = n := by
  have hbytes := congrArg Key.bytes h
  have hput : putUint 4 m = putUint 4 n := by
    have := append_cancel_right hbytes
    exact append_cancel_left this
  have := congrArg uint hput
  rwa [uint_putUint_of_lt hm, uint_putUint_of_lt hn] at this

theorem filterKey_bulkKey (n : Nat) : filterKey (bulkKey n) = 0 := by
  have h : slice (bulkKey n).bytes 24 32 = List.replicate 8 0 := by
    have hlong : ([0, 0] ++ putUint 4 n).length ≤ 24 := by simp
    unfold bulkKey slice
    rw [drop_append, drop_eq_nil_of_le hlong]
    simp
  rw [filterKey, h]
  rfl

theorem length_bulkRecord (n : Nat) : (objectRecord Z (bulkObject n)).length = 46 := by
  have hraw : storedForm Z (bulkObject n).data = (0, []) := if_neg (Nat.not_lt_zero _)
  rw [length_objectRecord, hraw]
  rfl

def bulk (n : Nat) : List Object := (List.range n).map bulkObject

theorem bulk_succ (n : Nat) : bulk (n + 1) = bulk n ++ [bulkObject n] := by
  simp [bulk, range_succ]

theorem bulkKey_mem_bulk (hm : m < 2 ^ 32) (hn : n ≤ 2 ^ 32)
    (h : bulkKey m ∈ (bulk n).map Object.key) : m < n := by
  obtain ⟨o, ho, hk⟩ := mem_map.mp h
  obtain ⟨i, hi, rfl⟩ := mem_map.mp ho
  have hin := mem_range.mp hi
  rwa [← bulkKey_inj (Nat.lt_of_lt_of_le hin hn) hm hk]

section Bulk
variable {objs : List Object}

theorem length_bodyOf_bulk (h : ∀ o ∈ objs, ∃ i, o = bulkObject i) :
    (bodyOf Z objs).length = 8 + 46 * objs.length := by
  induction objs using List.reverseRecOn with
  | nil => rfl
  | append_singleton l o ih =>
    obtain ⟨i, rfl⟩ := h o (by simp)
    rw [bodyOf_snoc, length_append, ih fun x hx => h x (mem_append_left _ hx),
      length_bulkRecord, length_append, length_singleton]
    omega

theorem filterTails_bulk (h : ∀ o ∈ objs, ∃ i, o = bulkObject i) :
    (filterTails (entriesOf Z objs)).length ≤ 1 := by
  have hsub : filterTails (entriesOf Z objs) ⊆ [0] := by
    intro t ht
    rw [filterTails, mem_slicesCompact, mem_mergeSort] at ht
    obtain ⟨e, he, rfl⟩ := mem_map.mp ht
    have hk : e.key ∈ objs.map Object.key := by
      rw [← map_key_entriesOf (Z := Z)]
      exact mem_map_of_mem he
    obtain ⟨o, ho, hok⟩ := mem_map.mp hk
    obtain ⟨i, rfl⟩ := h o ho
    rw [← hok]
    exact mem_singleton.mpr (filterKey_bulkKey i)
  exact (subperm_of_subset (filterTails_nodup _) hsub).length_le

theorem overfull_bulk {c : Contents} (hlen : c.objs.length = 2 ^ 32)
    (h : ∀ o ∈ c.objs, ∃ i, o = bulkObject i) : Overfull Z F c := by
  have hne : entriesOf Z c.objs ≠ [] := by
    intro hnil
    have := length_entriesOf (Z := Z) c.objs
    rw [hnil, hlen] at this
    cases this
  obtain ⟨f, hf, ⟨-, hfp, -⟩, -⟩ := buildFilterSection_ok F hne
    (Nat.lt_of_le_of_lt (filterTails_bulk h) (by decide))
  have hbuild : buildFooter F (bodyOf Z c.objs).length (entriesOf Z c.objs) =
      .ok (assembleFooter (bodyOf Z c.objs).length (buildIndexSection (entriesOf Z c.objs))
        (serializeFilter f) (entriesOf Z c.objs).length) := by
    rw [buildFooter, buildFilterSection, hf, if_neg]
    intro h0
    exact hne (eq_nil_of_length_eq_zero h0)
  have hfoot : footerOf Z F c = assembleFooter (bodyOf Z c.objs).length
      (buildIndexSection (entriesOf Z c.objs)) (serializeFilter f)
      (entriesOf Z c.objs).length := by rw [footerOf, hbuild]
  refine ⟨by rw [hlen], ?_, by rw [hfoot]; exact hbuild⟩
  rw [sealedFile, hfoot, length_append, length_assembleFooter, length_buildIndexSection,
    length_serializeFilter, length_entriesOf, length_bodyOf_bulk h, hlen]
  simp only [fanoutSize, indexEntrySize, filterHeaderSize, trailerSize]
  omega

end Bulk

/-- A store whose active segment holds the first `n` objects, and that holds nothing else. -/
structure Filling (Z : Zstd) (F : FuseLib) (cfg : Config) (n : Nat) (w : World) (G : Written) :
    Prop where
  good : Good Z F True (fun _ => True) (fun _ => False) w G
  ready : w.s.failed = none
  cfg : w.s.cfg = cfg
  disk : ∀ o, OnDisk w.fs G o ↔ o ∈ bulk n
  held : (∃ a, w.s.active = some a ∧ a.index.entries.length = n) ∨ w.s.active = none ∧ n = 0

namespace Filling
variable {cfg : Config} {n : Nat} {I : World → Prop} {a : ActiveSegment}

section
variable (h : Filling Z F cfg n w G)
include h

theorem setGrey (g : Option (List Key)) :
    Filling Z F cfg n { w with s := { w.s with grey := g } } G :=
  ⟨h.good.setGrey g, h.ready, h.cfg, h.disk, h.held⟩

theorem activeOk (ha : w.s.active = some a) :
    ActiveOk Z w.fs a (G a.ino) := (h.good.mounted h.ready).active a ha

theorem contents (ha : w.s.active = some a) :
    (G a.ino).objs.length = n ∧ ∀ o ∈ (G a.ino).objs, ∃ i, o = bulkObject i := by
  have hok := h.activeOk ha
  refine ⟨?_, fun o ho => ?_⟩
  · rcases h.held with ⟨b, hb, hlen⟩ | ⟨hb, -⟩
    · cases ha.symm.trans hb
      rw [← hok.length_entries, hlen]
    · cases ha.symm.trans hb
  · obtain ⟨i, -, hi⟩ := mem_map.mp ((h.disk o).mp ⟨_, hok.mem, ho⟩)
    exact ⟨i, hi.symm⟩

theorem size_eq (ha : w.s.active = some a) : a.size = 8 + 46 * n := by
  obtain ⟨hlen, hbulk⟩ := h.contents ha
  rw [(h.activeOk ha).size, length_bodyOf_bulk hbulk, hlen]

theorem due_iff (ha : w.s.active = some a) :
    w.s.cfg.segmentSize ≤ a.size ↔ cfg.segmentSize ≤ (8 + 46 * n : Nat) := by
  rw [h.cfg, h.size_eq ha]

theorem has_eq (hn : n < 2 ^ 32) :
    has F w.s (bulkKey n) = .ok false := by
  have hm := h.good.mounted h.ready
  have hd := h.good.durable.cur
  rw [(hm.rep hd).has_eq hm.closed]
  have hno : ¬((layoutOf w.fs w.s G).lookup (bulkKey n)).isSome := by
    rw [Layout.lookup_isSome]
    rintro ⟨o, ho, hk⟩
    rw [hm.mem_objects hd, h.disk] at ho
    have := bulkKey_mem_bulk hn (Nat.le_of_lt hn) (hk ▸ mem_map_of_mem ho)
    exact Nat.lt_irrefl _ this
  rw [Bool.eq_false_iff.mpr hno]

theorem claim (hn : n < 2 ^ 32)
    {Q : Except Err (Option ActiveSegment) → World → Prop}
    (hQ : ∀ t G' a, Filling Z F cfg n t G' → t.s.active = some a →
      a.index.lookup (bulkKey n) = none → Q (.ok (some a)) t) :
    (claim (bulkKey n)).Gives Q w := by
  refine (claim_spec h.good (bulkKey n)).mono (fun _ _ => trivial) ?_
  rintro (e | (_ | a)) t ht
  · exact absurd h.ready (ht.1 trivial)
  · obtain ⟨-, -, -, -, hin⟩ := ht
    obtain ⟨⟨b, loc⟩, hloc⟩ := Option.isSome_iff_exists.mp hin
    have hhas := h.has_eq hn
    rw [Packstore.has, Store.probe, (h.good.mounted h.ready).closed, if_neg (by decide),
      hloc] at hhas
    cases hhas
  obtain ⟨-, hft, hcfg, -, ha, hk, hnew, hold, G1, hg, hdisk⟩ := ht
  have hlen : a.index.entries.length = n := by
    rcases h.held with ⟨b, hb, hlen⟩ | ⟨hb, rfl⟩
    · rw [← hold b hb, hlen]
    · exact hnew hb
  exact hQ t G1 a ⟨hg, hft, hcfg.trans h.cfg, fun o => (hdisk o).trans (h.disk o),
    .inl ⟨a, ha, hlen⟩⟩ ha hk

theorem writeRecord (ha : w.s.active = some a)
    (hk : a.index.lookup (bulkKey n) = none)
    {Q : Except Err ActiveSegment → World → Prop}
    (hQ : ∀ t G' a', Filling Z F cfg (n + 1) t G' → t.s.active = some a' → Q (.ok a') t) :
    (writeRecord a (bulkKey n) (objectRecord Z (bulkObject n))).Gives Q w := by
  have hlen : a.index.entries.length = n := by
    rw [(h.activeOk ha).length_entries, (h.contents ha).1]
  refine Wp.mono (writeRecord_spec (o := bulkObject n) h.good h.ready ha hk
    ⟨bulkKey_canonical n, Nat.zero_le _⟩ trivial) (fun _ _ => trivial) ?_
  rintro (e | a') t ht
  · exact ht.elim
  obtain ⟨-, hts, hlen', G2, hg, hdisk⟩ := ht
  have hta : t.s.active = some a' := by rw [hts]
  refine hQ t G2 a' ⟨hg, by rw [hts]; exact h.ready, by rw [hts]; exact h.cfg, fun o => ?_,
    .inl ⟨a', hta, hlen'.trans (by rw [hlen])⟩⟩ hta
  rw [hdisk, h.disk, bulk_succ, mem_append, mem_singleton]

theorem fsyncRecord (ha : w.s.active = some a) (syncNow : Bool)
    {Q : Except Err Unit → World → Prop}
    (hQ : ∀ t, Filling Z F cfg n t G → t.s.active = some a → Q (.ok ()) t) :
    (fsyncRecord a syncNow).Gives Q w := by
  refine Wp.mono (fsyncRecord_spec h.good h.ready ha syncNow) (fun _ _ => trivial) ?_
  rintro (e | ⟨⟩) t ht
  · exact (ht.1 trivial).elim
  obtain ⟨hts, hg, hdisk⟩ := ht
  refine hQ t ⟨hg.mono fun _ hx => hx.elim, by rw [hts]; exact h.ready, by rw [hts]; exact h.cfg,
    fun o => (hdisk o).trans (h.disk o), by rw [hts]; exact h.held⟩ (by rw [hts]; exact ha)

theorem rotate_skip (ha : w.s.active = some a)
    (hdue : ¬cfg.segmentSize ≤ (8 + 46 * n : Nat)) {Q : Except Err Unit → World → Prop}
    (hQ : Q (.ok ()) w) : (rotate F a).Wp I Q w := by
  simp only [rotate, wp_bind, wp_getStore, post_ok]
  exact wp_runIf (fun hc => absurd ((h.due_iff ha).mp hc) hdue) fun _ => hQ

/-- The seal of 2³² records fails, and no later `Open` succeeds. -/
theorem rotate_overfull (ha : w.s.active = some a) (hn : n = 2 ^ 32)
    (hdue : cfg.segmentSize ≤ (8 + 46 * n : Nat)) :
    (rotate F a).Gives (Post (fun _ _ => False) fun _ w' => w'.ioFaults = [] ∧ w'.syncFaults = [] ∧
      Bricked w'.fs ∧ ∀ id i, (.active id, i) ∉ w'.fs.cur) w := by
  simp only [rotate, wp_bind, wp_getStore, post_ok]
  refine wp_runIf (fun _ => ?_) fun hc => absurd ((h.due_iff ha).mpr hdue) hc
  obtain ⟨hlen, hbulk⟩ := h.contents ha
  have hseal := sealActiveLocked_overfull h.good h.ready ha
    (overfull_bulk (hlen.trans hn) hbulk)
  refine (orPoison_spec hseal).post_mono ?_
  rintro (e | ⟨⟩) u hu
  · obtain ⟨v, hv, rfl⟩ := hu
    exact ⟨hv.io, hv.sync, hv.bricked, hv.idle⟩
  · exact hu

end

/-- An append writes the next object; what follows is the seal, if it is due. -/
theorem appendLocked (h : Filling Z F cfg n w G) (hn : n < 2 ^ 32) (syncNow : Bool)
    {Q : Except Err Unit → World → Prop}
    (hQ : ∀ t G' a, Filling Z F cfg (n + 1) t G' → t.s.active = some a → (rotate F a).Gives Q t) :
    (appendLocked F (bulkKey n) (objectRecord Z (bulkObject n)) syncNow).Gives Q w := by
  unfold Packstore.appendLocked Packstore.appendTo
  refine wp_bind.mpr (h.claim hn fun t G1 a ht ha hk => ?_)
  refine wp_bind.mpr (ht.writeRecord ha hk fun u G2 a' hu hua => ?_)
  exact wp_bind.mpr (hu.fsyncRecord hua syncNow fun v hv hva => hQ v G2 a' hv hva)

theorem put (h : Filling Z F cfg n w G) (hn : n < 2 ^ 32)
    {Q : Except Err Unit → World → Prop}
    (hQ : ∀ t G' a, Filling Z F cfg (n + 1) t G' → t.s.active = some a → (rotate F a).Gives Q t) :
    (put Z F (bulkKey n) []).Gives Q w := by
  unfold Packstore.put writeObject
  simp only [wp_bind, wp_getStore, post_ok, h.ready, observe, wp_setStore]
  have hobs : Filling Z F cfg n { w with s := w.s.observe (bulkKey n) } G := h.setGrey _
  refine wp_reading (hobs.has_eq hn) ?_
  rw [post_ok, if_neg (by decide)]
  have hfit : ([] : Bytes).length ≤ maxPayload := Nat.zero_le _
  simp only [encode, encodeRecord_eq hfit, wp_bind, wp_pure, post_ok]
  refine hobs.appendLocked hn true fun t G' a ht ha => (hQ t G' a ht ha).post_mono ?_
  rintro (e | ⟨⟩) u hu
  · exact hu
  · exact hu

/-- While the threshold is not reached, the segment fills up. -/
theorem put_ok (h : Filling Z F cfg n w G) (hn : n < 2 ^ 32)
    (hdue : ¬cfg.segmentSize ≤ (8 + 46 * (n + 1) : Nat)) :
    (Packstore.put Z F (bulkKey n) []).Gives (Post (fun _ w' => ∃ G', Filling Z F cfg (n + 1) w' G')
      fun _ _ => False) w := by
  exact h.put hn fun t G' a ht ha => ht.rotate_skip ha hdue ⟨G', ht⟩

theorem put_overfull (h : Filling Z F cfg n w G) (hn : n + 1 = 2 ^ 32)
    (hdue : cfg.segmentSize ≤ (8 + 46 * (n + 1) : Nat)) :
    (Packstore.put Z F (bulkKey n) []).Gives (Post (fun _ _ => False)
      fun _ w' => w'.ioFaults = [] ∧ w'.syncFaults = [] ∧ Bricked w'.fs) w := by
  refine h.put (by omega) fun t G' a ht ha => (ht.rotate_overfull ha hn hdue).post_mono ?_
  rintro (e | ⟨⟩) u hu
  · exact ⟨hu.1, hu.2.1, hu.2.2.1⟩
  · exact hu

end Filling

/-! ## The whole run -/

/-- The first objects, put one by one. -/
def fillOps (n : Nat) : List Op := (List.range n).map fun i => .put (bulkObject i)

theorem runOps_append (Z : Zstd) (F : FuseLib) (ops ops' : List Op) (w : World) :
    runOps Z F (ops ++ ops') w = ((runOps Z F ops w).1 ++ (runOps Z F ops' (runOps Z F ops w).2).1,
      (runOps Z F ops' (runOps Z F ops w).2).2) := by
  induction ops generalizing w with
  | nil => rfl
  | cons op ops ih => simp only [cons_append, runOps, ih]

theorem fillOps_succ (n : Nat) : fillOps (n + 1) = fillOps n ++ [.put (bulkObject n)] := by
  simp [fillOps, range_succ]

theorem fillOps_fits (n : Nat) : ∀ op ∈ fillOps n, op.Fits := by
  intro op hop
  obtain ⟨i, -, rfl⟩ := mem_map.mp hop
  exact ⟨bulkKey_canonical i, Nat.zero_le _⟩

theorem freshWorld_filling (cfg : Config) :
    Filling Z F cfg 0 (freshWorld cfg) fun _ => .empty := by
  have h := emptyWorld_refines (Z := Z) (F := F) cfg
  rw [freshWorld_eq]
  refine ⟨h.good, h.ready, rfl, fun o => ?_, .inr ⟨rfl, rfl⟩⟩
  rw [h.objects]
  exact ⟨nofun, nofun⟩

/-- A threshold that 2³² of the objects reach. -/
def bulkConfig : Config := ⟨8 + 46 * 2 ^ 32, true⟩

theorem runOps_fill (hn : n < 2 ^ 32) : (∃ G, Filling Z F bulkConfig n
      (runOps Z F (fillOps n) (freshWorld bulkConfig)).2 G) ∧
    ∀ r ∈ (runOps Z F (fillOps n) (freshWorld bulkConfig)).1, r = .ok () := by
  induction n with
  | zero => exact ⟨⟨_, freshWorld_filling _⟩, nofun⟩
  | succ n ih =>
    obtain ⟨⟨G, h⟩, hres⟩ := ih (Nat.lt_of_succ_lt hn)
    have hput := h.put_ok (Nat.lt_of_succ_lt hn)
      (by simp only [bulkConfig]; omega)
    rw [fillOps_succ, runOps_append]
    have hpost := hput.2
    cases hr : (Packstore.put Z F (bulkKey n) []
        (runOps Z F (fillOps n) (freshWorld bulkConfig)).2).result with
    | error e => rw [hr] at hpost; exact hpost.elim
    | ok u =>
      rw [hr] at hpost
      refine ⟨hpost, ?_⟩
      intro r hr'
      rcases mem_append.mp hr' with hr' | hr'
      · exact hres r hr'
      · exact (mem_singleton.mp hr').trans hr

theorem mapOf_fillOps (n : Nat) : mapOf (fillOps (n + 1)) (bulkKey 0) = some [] := by
  induction n with
  | zero => rfl
  | succ n ih =>
    rw [fillOps_succ, mapOf, foldl_append]
    exact WriteOnce.add_mono ih ..

theorem Bricked.fsync {fs : FS Name} (h : Bricked fs) (ino : Nat) :
    Bricked (fs.setFile ino (fs.files ino).fsync) := by
  obtain ⟨hp, id, i, e, hl, hs, hparse⟩ := h
  refine ⟨hp, id, i, e, hl, ?_⟩
  by_cases hi : i = ino
  · subst hi
    rw [FS.setFile_self, File.fsync]
    split
    · exact ⟨hs, hparse⟩
    · exact ⟨rfl, hparse⟩
  · rw [FS.setFile_ne _ _ hi]
    exact ⟨hs, hparse⟩

theorem close_bricked (h : Bricked w.fs) (hio : w.ioFaults = []) (hsync : w.syncFaults = []) : close.Gives (Post (fun _ w' =>
      Bricked w'.fs ∧ w'.ioFaults = [] ∧ w'.syncFaults = []) fun _ _ => False) w := by
  unfold close
  simp only [wp_bind, wp_getStore, post_ok]
  refine wp_ite (fun _ => .pure ⟨h, hio, hsync⟩) fun _ => ?_
  simp only [wp_bind, wp_setStore, post_ok]
  refine allThenFail_spec ⟨h, hio, hsync⟩ ?_
  intro act hact t ht
  have hclose : closeFile.Gives (Post (fun _ w' => Bricked w'.fs ∧ w'.ioFaults = [] ∧
      w'.syncFaults = []) fun _ _ => False) t := wp_closeFile ht.2.1 trivial ht
  rcases mem_append.mp hact with hact | hact
  · rcases mem_append.mp hact with hact | hact
    · cases ha : w.s.active with
      | none => simp [ha] at hact
      | some a =>
        rw [ha] at hact
        rcases mem_cons.mp hact with rfl | hact
        · exact wp_syncOp (fun sf hsf => ⟨trivial, ht.1.fsync a.ino, ht.2.1, hsf ht.2.2⟩)
            fun hne => absurd ht.2.2 hne
        · rw [mem_singleton.mp hact]
          exact hclose
    · obtain ⟨g, -, rfl⟩ := mem_map.mp hact
      exact hclose
  · rw [mem_singleton.mp hact]
    exact hclose

theorem reopen_bricked (h : Bricked w.fs) (hio : w.ioFaults = []) (hsync : w.syncFaults = [])
    (cfg : Config) : ∃ e, ((Op.reopen cfg).run Z F w).result = .error e := by
  have hrun : ((Op.reopen cfg).run Z F).Gives
      (Post (fun _ _ => False) fun _ _ => True) w := by
    refine (close_bricked h hio hsync).seq ?_
    rintro (e | ⟨⟩) t ht
    · exact ht.elim
    · exact ht.1.openStore ht.2.1 cfg
  have hpost := hrun.2
  cases hres : ((Op.reopen cfg).run Z F w).result with
  | error e => exact ⟨e, rfl⟩
  | ok u =>
    rw [hres] at hpost
    exact hpost.elim

theorem runOps_fill_fails (hn : n + 1 = 2 ^ 32) : ∃ e, (runOps Z F
    (fillOps (n + 1) ++ [.reopen bulkConfig]) (freshWorld bulkConfig)).1.getLast? =
      some (.error e) := by
  obtain ⟨⟨G, hfill⟩, -⟩ := runOps_fill (Z := Z) (F := F) (n := n) (by omega)
  rw [fillOps_succ, append_assoc, runOps_append]
  have hput := hfill.put_overfull hn (by simp only [bulkConfig]; omega)
  have hpost := hput.2
  cases hr : (Packstore.put Z F (bulkKey n) []
      (runOps Z F (fillOps n) (freshWorld bulkConfig)).2).result with
  | ok u =>
    rw [hr] at hpost
    exact hpost.elim
  | error e =>
    rw [hr] at hpost
    obtain ⟨hio, hsync, hbrick⟩ := hpost
    obtain ⟨e', he'⟩ := reopen_bricked (Z := Z) (F := F) hbrick hio hsync bulkConfig
    refine ⟨e', ?_⟩
    rw [getLast?_append]
    exact congrArg some he'

/-- A run with a threshold of 8 + 46 · 2³² bytes: 2³² − 1 puts of distinct keys succeed, the next one
fails, and so does the `Open` after it: none of the objects can be read any more. -/
theorem runOps_overfull :
    (∀ op ∈ fillOps (2 ^ 32) ++ [.reopen bulkConfig], op.Fits) ∧
    mapOf (fillOps (2 ^ 32) ++ [.reopen bulkConfig]) (bulkKey 0) = some [] ∧
    ∃ e, (runOps .stored .full (fillOps (2 ^ 32) ++ [.reopen bulkConfig])
      (freshWorld bulkConfig)).1.getLast? = some (.error e) := by
  obtain ⟨n, hn⟩ : ∃ n, n + 1 = 2 ^ 32 := ⟨2 ^ 32 - 1, by decide⟩
  rw [← hn]
  refine ⟨?_, ?_, runOps_fill_fails hn⟩
  · intro op hop
    rcases mem_append.mp hop with hop | hop
    · exact fillOps_fits _ op hop
    · rw [mem_singleton.mp hop]
      exact trivial
  · rw [mapOf, foldl_append]
    exact mapOf_fillOps n

end AmberStore.Packstore
