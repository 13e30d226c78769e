import AmberStore.Packstore.AppendSpec

/-!
# Writing when anything can fail

Whatever file operation fails, a store goes on representing what it represented before: a failed
write leaves at most garbage behind the records of the active segment, and a failed seal leaves the
active segment open. A failed fsync is assumed to leave the bytes of the file readable.
-/

namespace AmberStore.Packstore
open Bytes Amberpack Act List

variable {Z : Zstd} {F : FuseLib} {w w' : World} {L : Layout} {a : ActiveSegment} {c : Contents}

/-- The ids of a store's segments. -/
def Store.ids (s : Store) : List Nat :=
  s.sealed.map SealedSegment.id ++ (s.active.map ActiveSegment.id).toList

/-- A store that represents a layout. -/
structure Mapped (Z : Zstd) (F : FuseLib) (w : World) (L : Layout) : Prop where
  rep : Rep Z F w.fs w.s L
  ino : ∀ a, w.s.active = some a → a.ino < w.fs.next
  ids : w.s.ids.Nodup
  next : ∀ id ∈ w.s.ids, id < w.s.nextID
  lossless : ∀ n, some n ∈ w.syncFaults → n = 0

/-- Unless the write path is poisoned, the active segment has its name. -/
structure Held (Z : Zstd) (F : FuseLib) (w : World) (L : Layout) : Prop
    extends Mapped Z F w L where
  named : w.s.failed = none → ∀ a, w.s.active = some a →
    FS.lookup w.fs.cur (.active a.id) = some a.ino

/-! ## Files -/

theorem ActiveRep.take_eq (h : ActiveRep Z fs a c) :
    (fs.files a.ino).data.take a.size = bodyOf Z c.objs := by
  rw [h.size]
  exact (prefix_iff_eq_take.mp h.data).symm

theorem Rep.active_some (h : Rep Z F fs s L) (ha : s.active = some a) :
    ∃ c, L.active = some c ∧ ActiveRep Z fs a c := by
  have hrel := h.active
  rw [ha] at hrel
  cases hL : L.active with
  | none => rw [hL] at hrel; cases hrel
  | some c =>
    rw [hL] at hrel
    cases hrel with
    | some hrep => exact ⟨c, rfl, hrep⟩

theorem Rep.active_none (h : Rep Z F fs s L) (ha : s.active = none) : L.active = none := by
  have hrel := h.active
  rw [ha] at hrel
  cases hL : L.active with
  | none => rfl
  | some c => rw [hL] at hrel; cases hrel

theorem Rep.files (h : Rep Z F fs s L) (hf : ∀ a, s.active = some a →
    (fs.files a.ino).data.take a.size <+: (fs'.files a.ino).data) : Rep Z F fs' s L := by
  refine ⟨h.sealed, ?_⟩
  cases ha : s.active with
  | none =>
    rw [h.active_none ha]
    exact .none
  | some a =>
    obtain ⟨c, hc, hrep⟩ := h.active_some ha
    rw [hc]
    exact .some ⟨hrep.take_eq ▸ hf a ha, hrep.size, hrep.index⟩

/-- The store is unchanged, and so are the records in the active file. -/
structure Frame (w w' : World) : Prop where
  store : w'.s = w.s
  next : w.fs.next ≤ w'.fs.next
  faults : ∀ x ∈ w'.syncFaults, x ∈ w.syncFaults
  files : ∀ a, w.s.active = some a →
    (w.fs.files a.ino).data.take a.size <+: (w'.fs.files a.ino).data

theorem Mapped.frame (h : Mapped Z F w L) (hw : Frame w w') : Mapped Z F w' L := by
  obtain ⟨hs, hn, hsf, hf⟩ := hw
  refine ⟨hs ▸ h.rep.files hf, ?_, hs ▸ h.ids, hs ▸ h.next, fun n hn' => h.lossless n (hsf _ hn')⟩
  intro a ha
  rw [hs] at ha
  exact Nat.lt_of_lt_of_le (h.ino a ha) hn

theorem Frame.of_files (hs : w'.s = w.s) (hn : w.fs.next ≤ w'.fs.next)
    (hsf : ∀ x ∈ w'.syncFaults, x ∈ w.syncFaults)
    (hf : ∀ a, w.s.active = some a → w'.fs.files a.ino = w.fs.files a.ino) : Frame w w' :=
  ⟨hs, hn, hsf, fun a ha => by rw [hf a ha]; exact take_prefix ..⟩

theorem Held.frame (h : Held Z F w L) (hw : Frame w w') (hcur : w'.fs.cur = w.fs.cur) :
    Held Z F w' L := by
  refine ⟨h.toMapped.frame hw, ?_⟩
  rw [hw.store, hcur]
  exact h.named

theorem Mapped.setStore (h : Mapped Z F w L) {s : Store} (hs : s.sealed = w.s.sealed)
    (ha : s.active = w.s.active) (hn : w.s.nextID ≤ s.nextID) : Mapped Z F { w with s } L := by
  have hids : s.ids = w.s.ids := by rw [Store.ids, hs, ha, Store.ids]
  refine ⟨⟨hs ▸ h.rep.sealed, ha ▸ h.rep.active⟩, ?_, hids ▸ h.ids, ?_, h.lossless⟩
  · intro a ha'
    exact h.ino a (ha ▸ ha')
  · intro id hid
    rw [hids] at hid
    exact Nat.lt_of_lt_of_le (h.next id hid) hn

/-! ## Growing -/

/-- The objects of the segments from the `n`th on. -/
def Layout.after (L : Layout) (n : Nat) : List Object :=
  (L.sealed.drop n ++ L.active.toList).flatMap Contents.objs

/-- The number of records of the active segment. -/
def Layout.count (L : Layout) : Nat := (L.active.map fun c => c.objs.length).getD 0

/-- Segments are only added, behind the ones that are there. -/
structure Grew (w : World) (L : Layout) (w' : World) (L' : Layout) : Prop where
  segs : ∃ gs, w'.s.sealed = w.s.sealed ++ gs
  layout : ∃ cs, L'.sealed = L.sealed ++ cs
  cfg : w'.s.cfg = w.s.cfg
  closed : w'.s.closed = w.s.closed

theorem Grew.refl (w : World) (L : Layout) : Grew w L w L :=
  ⟨⟨[], (append_nil _).symm⟩, ⟨[], (append_nil _).symm⟩, rfl, rfl⟩

theorem Grew.trans (h : Grew w L w' L') (h' : Grew w' L' w'' L'') : Grew w L w'' L'' := by
  obtain ⟨gs, hgs⟩ := h.segs
  obtain ⟨gs', hgs'⟩ := h'.segs
  obtain ⟨cs, hcs⟩ := h.layout
  obtain ⟨cs', hcs'⟩ := h'.layout
  exact ⟨⟨gs ++ gs', by rw [hgs', hgs, append_assoc]⟩,
    ⟨cs ++ cs', by rw [hcs', hcs, append_assoc]⟩, h'.cfg.trans h.cfg, h'.closed.trans h.closed⟩

theorem Grew.of_eq (hs : w'.s.sealed = w.s.sealed) (hL : L'.sealed = L.sealed)
    (hcfg : w'.s.cfg = w.s.cfg) (hclosed : w'.s.closed = w.s.closed) : Grew w L w' L' :=
  ⟨⟨[], by rw [hs, append_nil]⟩, ⟨[], by rw [hL, append_nil]⟩, hcfg, hclosed⟩

theorem Frame.grew (h : Frame w w') : Grew w L w' L :=
  .of_eq (by rw [h.store]) rfl (by rw [h.store]) (by rw [h.store])

/-- Sealing moves the active contents to the end of the sealed ones. -/
theorem Layout.after_seal (hc : L.active = some c) (hn : n ≤ L.sealed.length) :
    Layout.after ⟨L.sealed ++ [c], none⟩ n = L.after n := by
  rw [after, after, hc, drop_append_of_le_length hn]
  simp

/-! ## Sealing -/

theorem ActiveRep.truncate_data (h : ActiveRep Z fs a c) :
    ((fs.files a.ino).truncate a.size).data = bodyOf Z c.objs := h.take_eq

theorem ActiveRep.buildFooter_eq (h : ActiveRep Z fs a c) :
    buildFooter F a.size a.indexEntries =
      buildFooter F (bodyOf Z c.objs).length (entriesOf Z c.objs) := by
  have hperm := h.index.indexEntries_perm
  rw [buildFooter_congr hperm ((hperm.map _).nodup_iff.mpr (nodup_entriesOf _)), h.size]

theorem ActiveRep.length_entries (h : ActiveRep Z fs a c) :
    a.index.entries.length = c.objs.length := by
  have hlen := h.index.indexEntries_perm.length_eq
  rwa [ActiveSegment.indexEntries, length_map, length_entriesOf] at hlen

/-- The store with the active segment sealed. -/
def Store.sealWith (s : Store) (seg : SealedSegment) : Store :=
  { s with sealed := s.sealed ++ [seg], active := none }

theorem Mapped.seal (h : Mapped Z F w L) (ha : w.s.active = some a)
    {seg : SealedSegment} (hseg : SegRep Z F seg c) (hid : seg.id = a.id)
    (hs : w'.s = w.s.sealWith seg) (hsf : ∀ x ∈ w'.syncFaults, x ∈ w.syncFaults) :
    Held Z F w' ⟨L.sealed ++ [c], none⟩ := by
  have hids : w'.s.ids = w.s.ids := by
    rw [hs]
    simp [Store.ids, Store.sealWith, ha, hid]
  have hrep := h.rep.sealed
  refine ⟨⟨⟨?_, ?_⟩, ?_, hids ▸ h.ids, ?_, fun n hn => h.lossless n (hsf _ hn)⟩, ?_⟩
  · rw [hs]
    exact rel_append hrep (.cons hseg .nil)
  · rw [hs]
    exact .none
  · rw [hs]
    exact nofun
  · rw [hids, hs]
    exact h.next
  · rw [hs]
    exact nofun

/-- The outcome of a seal: the active contents are sealed, or nothing has changed. Only a seal that
succeeds is known to keep the name of the active segment. -/
def SealPost (Z : Zstd) (F : FuseLib) (w : World) (L : Layout) (r : Except Err Unit) (w' : World) :
    Prop :=
  ∃ L', Mapped Z F w' L' ∧ Grew w L w' L' ∧ w'.s.failed = w.s.failed ∧ L'.count ≤ L.count ∧
    (∀ n ≤ L.sealed.length, L'.after n = L.after n) ∧
    (r = .ok () → Held Z F w' L' ∧ ∀ c, L'.active = some c → c.objs = [])

theorem SealPost.of_frame (h : Mapped Z F w L) (hw : Frame w w') (hr : r ≠ .ok ()) :
    SealPost Z F w L r w' :=
  ⟨L, h.frame hw, hw.grew, by rw [hw.store], Nat.le_refl _, fun _ _ => rfl, fun he => absurd he hr⟩

theorem SealPost.sealed (h : Mapped Z F w L) (ha : w.s.active = some a) (hc : L.active = some c)
    {seg : SealedSegment} (hseg : SegRep Z F seg c) (hid : seg.id = a.id)
    (hs : w'.s = w.s.sealWith seg) (hsf : ∀ x ∈ w'.syncFaults, x ∈ w.syncFaults) :
    SealPost Z F w L r w' := by
  have hheld := h.seal ha hseg hid hs hsf
  refine ⟨_, hheld.toMapped, ⟨⟨[seg], by rw [hs]; rfl⟩, ⟨[c], rfl⟩, by rw [hs]; rfl, by rw [hs]; rfl⟩,
    by rw [hs]; rfl, Nat.zero_le _, fun n hn => Layout.after_seal hc hn, fun _ => ⟨hheld, nofun⟩⟩

theorem Frame.refl (w : World) : Frame w w :=
  ⟨rfl, Nat.le_refl _, fun _ hx => hx, fun _ _ => take_prefix ..⟩

/-- A state in the middle of a seal: the active file is the records and more. -/
structure Sealing (Z : Zstd) (w u : World) (a : ActiveSegment) (c : Contents) (more : Bytes) :
    Prop where
  store : u.s = w.s
  next : u.fs.next = w.fs.next
  faults : ∀ x ∈ u.syncFaults, x ∈ w.syncFaults
  data : (u.fs.files a.ino).data = bodyOf Z c.objs ++ more

theorem Sealing.frame (h : Sealing Z w u a c more) (ha : w.s.active = some a)
    (hrep : ActiveRep Z w.fs a c) : Frame w u := by
  refine ⟨h.store, h.next.ge, h.faults, fun b hb => ?_⟩
  cases ha.symm.trans hb
  rw [hrep.take_eq, h.data]
  exact prefix_append ..

/-- Mapping a sealed file fails, or gives a segment with the bytes of the file. -/
theorem openSealed_bytes {id i : Nat} (hl : FS.lookup w.fs.cur (.sealed id) = some i) :
    (openSealed id).Gives (fun r w' => (∃ io, w' = { w with ioFaults := io }) ∧
      ∀ seg, r = .ok seg → seg.mm = (w.fs.files i).data ∧ parseFooter seg.mm = .ok seg.fv ∧ seg.id = id)
      w := by
  unfold openSealed readFile
  simp only [wp_bind, wp_read, post_ok, hl]
  refine wp_ioOp_any (fun io => ⟨trivial, ?_⟩) fun n io => ⟨trivial, ⟨io, rfl⟩, by simp⟩
  refine .pure (post_ok.mpr (wp_ite (fun _ => .throw ⟨⟨io, rfl⟩, by simp⟩) fun _ => ?_))
  cases hparse : parseFooter (w.fs.files i).data with
  | error e => exact .throw ⟨⟨io, rfl⟩, by simp⟩
  | ok fv =>
    refine .pure ⟨⟨io, rfl⟩, fun seg hseg => ?_⟩
    obtain rfl := Except.ok.inj hseg
    exact ⟨rfl, hparse, rfl⟩

/-- Mapping the sealed file fails, or gives a segment with the contents. -/
theorem openSealed_any_contents {id i : Nat} (hl : FS.lookup w.fs.cur (.sealed id) = some i)
    (hdata : (w.fs.files i).data = bodyOf Z c.objs ++ foot)
    (hfoot : buildFooter F (bodyOf Z c.objs).length (entriesOf Z c.objs) = .ok foot)
    (hne : c.objs ≠ []) (hcount : c.objs.length < 2 ^ 64) :
    (openSealed id).Gives (fun r w' => (∃ io, w' = { w with ioFaults := io }) ∧
      ∀ seg, r = .ok seg → SegRep Z F seg c ∧ seg.id = id) w := by
  refine (openSealed_bytes hl).post_mono fun r w' ⟨hio, hr⟩ => ⟨hio, fun seg hseg => ?_⟩
  obtain ⟨hmm, hparse, hid⟩ := hr seg hseg
  have hsealed : seg.mm = sealedFile Z F c := by
    rw [hmm, hdata, sealedFile, footerOf, hfoot]
  have hlt : c.objs.length < 2 ^ 32 := by
    by_contra hbig
    rw [hmm, hdata] at hparse
    exact parseFooter_refuses F (by rw [length_entriesOf]; omega)
      (by rw [length_entriesOf]; exact hcount) hfoot seg.fv hparse
  exact ⟨⟨⟨hne, hlt⟩, hsealed, hparse⟩, hid⟩

/-- The second half of a seal, once the footer is written and durable. -/
theorem sealRename_any (h : Mapped Z F w L) (hname : FS.lookup u.fs.cur (.active a.id) = some a.ino)
    (ha : w.s.active = some a) (hc : L.active = some c) (hrep : ActiveRep Z w.fs a c)
    (hfoot : buildFooter F (bodyOf Z c.objs).length (entriesOf Z c.objs) = .ok foot)
    (hne : c.objs ≠ []) (hcount : c.objs.length < 2 ^ 64) (hu : Sealing Z w u a c foot) :
    (do
      rename (.active a.id) (.sealed a.id)
      syncDir
      let seg ← openSealed a.id
      setStore fun s => { s with sealed := s.sealed ++ [seg], active := none }
      closeFile).Gives (SealPost Z F w L) u := by
  have hfail : ∀ t e, Sealing Z w t a c foot → SealPost Z F w L (.error e) t :=
    fun t e ht => .of_frame h (ht.frame ha hrep) nofun
  have hlook := FS.lookup_rename (b := .sealed a.id) (by exact nofun) hname
  simp only [rename, wp_bind, wp_read, post_ok, hname]
  refine wp_ioOp_any (fun io => ⟨trivial, ?_⟩) fun n io => ⟨trivial, hfail _ _ ?_⟩
  · refine wp_syncOp_any (fun sf hsf => ⟨trivial, ?_⟩) fun n sf _ hsf => ⟨trivial, hfail _ _ ?_⟩
    · refine Wp.post_mono (openSealed_any_contents (by exact hlook) (by exact hu.data) hfoot hne
        hcount) ?_
      rintro (e | seg) t ⟨⟨io', rfl⟩, hseg⟩
      · exact hfail _ _ ⟨hu.store, hu.next, fun x hx => hu.faults x (hsf x hx), hu.data⟩
      obtain ⟨hrepseg, hid⟩ := hseg seg rfl
      have hdone : ∀ r v, v.s = w.s.sealWith seg → (∀ x ∈ v.syncFaults, x ∈ sf) →
          SealPost Z F w L r v := fun r v hv hvf =>
        .sealed h ha hc hrepseg hid hv fun x hx => hu.faults x (hsf x (hvf x hx))
      have hs : { u.s with sealed := u.s.sealed ++ [seg], active := none } = w.s.sealWith seg := by
        rw [hu.store]
        rfl
      simp only [post_ok, wp_setStore]
      exact wp_ioOp_any (fun io => ⟨trivial, hdone _ _ hs fun _ hx => hx⟩)
        fun n io => ⟨trivial, hdone _ _ hs fun _ hx => hx⟩
    · exact ⟨hu.store, hu.next, fun x hx => hu.faults x (hsf x hx), hu.data⟩
  · exact ⟨hu.store, hu.next, hu.faults, hu.data⟩

theorem File.fsync_data (f : File) : f.fsync.data = f.data := by
  unfold File.fsync
  split <;> rfl

theorem File.fsyncFail_data (f : File) : (f.fsyncFail 0).data = f.data :=
  take_of_length_le (Nat.le_max_right ..)

theorem Sealing.setFile (h : Sealing Z w u a c more) {f : File} (io sf : List (Option Nat))
    (hf : f.data = bodyOf Z c.objs ++ more') (hsf : ∀ x ∈ sf, x ∈ u.syncFaults) :
    Sealing Z w { u with fs := u.fs.setFile a.ino f, ioFaults := io, syncFaults := sf } a c more' :=
  ⟨h.store, h.next, fun x hx => h.faults x (hsf x hx), by rw [FS.setFile_self, hf]⟩

theorem Sealing.writeAt_data (h : Sealing Z w u a c []) (hrep : ActiveRep Z w.fs a c) (p : Bytes) :
    ((u.fs.files a.ino).writeAt a.size p).data = bodyOf Z c.objs ++ p := by
  have hdata := h.data
  rw [append_nil] at hdata
  simp only [File.writeAt, hdata, hrep.size, writeAt_end]

theorem Sealing.post (h : Sealing Z w u a c more) (hm : Mapped Z F w L) (ha : w.s.active = some a)
    (hrep : ActiveRep Z w.fs a c) (e : Err) : SealPost Z F w L (.error e) u :=
  .of_frame hm (h.frame ha hrep) nofun

theorem sealActiveLocked_any (h : Held Z F w L) (hf : w.s.failed = none)
    (hcount : ∀ c, L.active = some c → c.objs.length < 2 ^ 64) :
    (sealActiveLocked F).Gives (SealPost Z F w L) w := by
  have hm := h.toMapped
  unfold sealActiveLocked
  simp only [wp_bind, wp_getStore, post_ok]
  cases ha : w.s.active with
  | none =>
    have hnone := hm.rep.active_none ha
    refine .pure ⟨L, hm, .refl .., rfl, Nat.le_refl _, fun _ _ => rfl, fun _ => ⟨h, fun c hc => ?_⟩⟩
    cases hnone.symm.trans hc
  | some a =>
    obtain ⟨c, hc, hrep⟩ := hm.rep.active_some ha
    refine wp_ite (fun hnil => .pure ?_) fun hne => ?_
    · refine ⟨L, hm, .refl .., rfl, Nat.le_refl _, fun _ _ => rfl,
        fun _ => ⟨h, fun c' hc' => ?_⟩⟩
      cases hc.symm.trans hc'
      rw [hrep.length_entries] at hnil
      exact eq_nil_of_length_eq_zero hnil
    have hne' : c.objs ≠ [] := fun hnil => hne (by rw [hrep.length_entries, hnil]; rfl)
    rw [hrep.buildFooter_eq]
    cases hfoot : buildFooter F (bodyOf Z c.objs).length (entriesOf Z c.objs) with
    | error e => exact .throw (.of_frame hm (.refl w) (by simp))
    | ok foot =>
      -- Truncate, write the footer, fsync: each leaves the records in place.
      refine wp_bind.mpr (wp_ioOp_any (fun io => ⟨trivial, ?_⟩) fun n io => ⟨trivial, ?_⟩)
      swap
      · exact .of_frame hm (.of_files rfl (Nat.le_refl _) (fun _ hx => hx) fun _ _ => rfl) (by simp)
      have h1 : Sealing Z w { w with
          fs := w.fs.setFile a.ino ((w.fs.files a.ino).truncate a.size), ioFaults := io } a c [] :=
        ⟨rfl, rfl, fun _ hx => hx, by rw [FS.setFile_self, hrep.truncate_data, append_nil]⟩
      refine wp_bind.mpr (wp_ioOp_any (fun io => ⟨trivial, ?_⟩) fun n io => ⟨trivial, ?_⟩)
      swap
      · exact (h1.setFile io _ (h1.writeAt_data hrep (foot.take n)) fun _ hx => hx).post hm ha hrep _
      have h2 := h1.setFile io _ (h1.writeAt_data hrep foot) fun _ hx => hx
      refine wp_bind.mpr (wp_syncOp_any (fun sf hsf => ⟨trivial, ?_⟩) fun n sf hn hsf => ⟨trivial, ?_⟩)
      swap
      · obtain rfl := h.lossless n hn
        exact (h2.setFile _ sf ((File.fsyncFail_data _).trans h2.data) hsf).post hm ha hrep _
      have h3 := h2.setFile io sf ((File.fsync_data _).trans h2.data) hsf
      exact sealRename_any hm (by exact h.named hf a ha) ha hc hrep hfoot hne' (hcount c hc) h3

/-- Sealing under `orPoison`: what is left is in order, or poisoned. -/
theorem rotate_any (h : Held Z F w L) (hf : w.s.failed = none)
    (hcount : ∀ c, L.active = some c → c.objs.length < 2 ^ 64) :
    (orPoison (sealActiveLocked F)).Gives (fun r w' => ∃ L', Held Z F w' L' ∧
      Grew w L w' L' ∧ (∀ n ≤ L.sealed.length, L'.after n = L.after n) ∧
      (r = .ok () ↔ w'.s.failed = none) ∧ (r = .ok () → ∀ c, L'.active = some c → c.objs = [])) w := by
  unfold orPoison
  refine (sealActiveLocked_any h hf hcount).tries ?_
  rintro (e | ⟨⟩) t ⟨L', hm, hg, hft, -, hafter, hok⟩
  · simp only [post_ok, setFailed, wp_bind, wp_setStore, wp_throw]
    have hm' := hm.setStore (s := { t.s with
      failed := some (t.s.failed.getD (.writePathFailed e)) }) rfl rfl (Nat.le_refl _)
    exact ⟨L', ⟨hm', by simp⟩, hg.trans (.of_eq rfl rfl rfl rfl), hafter, by simp, by simp⟩
  · obtain ⟨hheld, hnil⟩ := hok rfl
    exact .pure ⟨L', hheld, hg, hafter, ⟨fun _ => hft.trans hf, fun _ => rfl⟩, fun _ => hnil⟩

/-! ## Creating the active segment -/

theorem Held.idle (h : Held Z F w L) (ha : w.s.active = none) (hs : w'.s.sealed = w.s.sealed)
    (ha' : w'.s.active = none) (hn : w.s.nextID ≤ w'.s.nextID)
    (hsf : ∀ x ∈ w'.syncFaults, x ∈ w.syncFaults) : Held Z F w' L := by
  have hids : w'.s.ids = w.s.ids := by rw [Store.ids, hs, ha', ← ha, Store.ids]
  refine ⟨⟨⟨hs ▸ h.rep.sealed, ?_⟩, ?_, hids ▸ h.ids, ?_, fun n hn' => h.lossless n (hsf _ hn')⟩, ?_⟩
  · rw [ha', h.rep.active_none ha]
    exact .none
  · rw [ha']
    exact nofun
  · intro id hid
    rw [hids] at hid
    exact Nat.lt_of_lt_of_le (h.next id hid) hn
  · rw [ha']
    exact nofun

/-- The layout with an empty active segment. -/
def Layout.opened (L : Layout) : Layout := { L with active := some .empty }

theorem Layout.after_opened (h : L.active = none) : L.opened.after n = L.after n := by
  rw [after, after, h]
  simp [opened, Contents.empty]

theorem Held.publish (h : Held Z F w L) (ha : w.s.active = none) {id ino : Nat}
    (hid : id = w.s.nextID)
    (hs : w'.s = { w.s with
      nextID := id + 1, active := some ⟨id, ino, magicHeader.length, ∅⟩ })
    (hdata : (w'.fs.files ino).data = magicHeader) (hino : ino < w'.fs.next)
    (hlook : FS.lookup w'.fs.cur (.active id) = some ino)
    (hsf : ∀ x ∈ w'.syncFaults, x ∈ w.syncFaults) : Held Z F w' L.opened := by
  have hids : w'.s.ids = w.s.ids ++ [id] := by
    rw [hs]
    simp [Store.ids, ha]
  refine ⟨⟨⟨?_, ?_⟩, ?_, ?_, ?_, fun n hn => h.lossless n (hsf _ hn)⟩, ?_⟩
  · rw [hs]
    exact h.rep.sealed
  · rw [hs]
    refine .some ⟨?_, ?_, ?_⟩
    · rw [Contents.empty, bodyOf_nil, hdata]
    · rw [Contents.empty, bodyOf_nil]
    · exact .nil
  · rw [hs]
    rintro a ⟨⟩
    exact hino
  · rw [hids, nodup_append]
    refine ⟨h.ids, nodup_singleton _, ?_⟩
    intro x hx y hy hxy
    have := h.next x hx
    rw [mem_singleton.mp hy] at hxy
    omega
  · rw [hids, hs]
    intro x hx
    rcases mem_append.mp hx with hx | hx
    · exact Nat.lt_succ_of_lt (hid ▸ h.next x hx)
    · rw [mem_singleton.mp hx]
      exact Nat.lt_succ_self _
  · rw [hs]
    rintro - a ⟨⟩
    exact hlook

theorem remove_any {n : Name} : (remove n).Gives (fun _ u => u.s = w.s ∧
    u.syncFaults = w.syncFaults ∧ u.fs.files = w.fs.files ∧ u.fs.next = w.fs.next ∧
    ∀ m, m ≠ n → FS.lookup u.fs.cur m = FS.lookup w.fs.cur m) w := by
  simp only [remove, wp_bind, wp_read, post_ok]
  cases FS.lookup w.fs.cur n with
  | none => exact .throw ⟨rfl, rfl, rfl, rfl, fun _ _ => rfl⟩
  | some i =>
    exact wp_ioOp_any (fun io => ⟨trivial, rfl, rfl, rfl, rfl, fun _ hm => FS.lookup_remove hm⟩)
      fun n io => ⟨trivial, rfl, rfl, rfl, rfl, fun _ _ => rfl⟩

theorem writeHeader_any {ino : Nat} (hempty : w.fs.files ino = .empty) :
    (do
      writeAt ino 0 magicHeader
      fsync ino
      syncDir : M Unit).Gives (fun r u => u.s = w.s ∧
        (∀ x ∈ u.syncFaults, x ∈ w.syncFaults) ∧ (r = .ok () →
          (u.fs.files ino).data = magicHeader ∧ u.fs.next = w.fs.next ∧ u.fs.cur = w.fs.cur)) w := by
  have hdata : ((w.fs.files ino).writeAt 0 magicHeader).data = magicHeader := by
    rw [hempty]
    rfl
  refine wp_bind.mpr (wp_ioOp_any (fun io => ⟨trivial, ?_⟩)
    fun n io => ⟨trivial, rfl, fun _ hx => hx, nofun⟩)
  refine post_ok.mpr (wp_bind.mpr (wp_syncOp_any (fun sf hsf => ⟨trivial, ?_⟩)
    fun n sf _ hsf => ⟨trivial, rfl, hsf, nofun⟩))
  refine post_ok.mpr (wp_syncOp_any
    (fun sf' hsf' => ⟨trivial, rfl, fun x hx => hsf x (hsf' x hx), fun _ => ?_⟩)
    fun n sf' _ hsf' => ⟨trivial, rfl, fun x hx => hsf x (hsf' x hx), nofun⟩)
  refine ⟨?_, rfl, rfl⟩
  rw [FS.syncDir, FS.setFile_self, File.fsync_data, FS.setFile_self, hdata]

/-- What creating the active segment does to the layout. -/
def CreatePost (Z : Zstd) (F : FuseLib) (w : World) (L : Layout) (r : Except Err ActiveSegment)
    (w' : World) : Prop :=
  ∃ L', Held Z F w' L' ∧ Grew w L w' L' ∧ w'.s.failed = w.s.failed ∧ L'.sealed = L.sealed ∧
    L'.count = 0 ∧ (∀ n, L'.after n = L.after n) ∧
    ∀ a, r = .ok a → w'.s.active = some a ∧ L'.active = some .empty

theorem createActive_any (h : Held Z F w L) (ha : w.s.active = none) :
    createActive.Gives (CreatePost Z F w L) w := by
  have hzero : L.count = 0 := by
    rw [Layout.count, h.rep.active_none ha]
    rfl
  have hstay : ∀ {u : World} {e : Err}, u.s = { w.s with nextID := w.s.nextID + 1 } →
      (∀ x ∈ u.syncFaults, x ∈ w.syncFaults) → CreatePost Z F w L (.error e) u := by
    intro u e hu hsf
    refine ⟨L, h.idle ha (by rw [hu]) (by rw [hu]; exact ha) (by rw [hu]; exact Nat.le_succ _) hsf,
      .of_eq (by rw [hu]) rfl (by rw [hu]) (by rw [hu]), by rw [hu], rfl, hzero, fun _ => rfl, nofun⟩
  unfold createActive
  simp only [wp_bind, wp_getStore, wp_setStore, post_ok, create, wp_read]
  cases hlook : FS.lookup w.fs.cur (.active w.s.nextID) with
  | some i => exact .throw (hstay rfl fun _ hx => hx)
  | none =>
    refine wp_bind.mpr (wp_ioOp_any (fun io => ⟨trivial, ?_⟩)
      fun n io => ⟨trivial, hstay rfl fun _ hx => hx⟩)
    refine .pure (wp_attempt.mpr (Wp.post_mono (writeHeader_any
      (by exact FS.create_files_next _ _)) ?_))
    rintro (e | ⟨⟩) u ⟨hus, husf, hok⟩
    · refine remove_any.tries ?_
      rintro r t ⟨hts, htsf, -⟩
      exact .throw (hstay (hts.trans hus) fun x hx => husf x (htsf ▸ hx))
    · obtain ⟨hdata, hnext, hcur⟩ := hok rfl
      simp only [post_ok, wp_bind, wp_setStore, wp_pure]
      have hheld : Held Z F { u with s := { u.s with
          active := some ⟨w.s.nextID, w.fs.next, magicHeader.length, ∅⟩ } } L.opened :=
        h.publish ha rfl (by rw [hus]) hdata (by exact hnext ▸ Nat.lt_succ_self _)
          (by exact hcur ▸ FS.lookup_create hlook) husf
      refine ⟨L.opened, hheld, .of_eq (by rw [hus]) rfl (by rw [hus]) (by rw [hus]), by rw [hus], rfl,
        rfl, fun _ => Layout.after_opened (h.rep.active_none ha), ?_⟩
      rintro a ⟨⟩
      exact ⟨rfl, rfl⟩

/-! ## Appending -/

/-- The layout with one more object in the active segment. -/
def Layout.push (L : Layout) (c : Contents) : Layout := { L with active := some c }

section Append
variable {o : Object}

theorem Layout.mem_after_push (hc : L.active = some c) (hc' : c'.objs = c.objs ++ [o]) :
    x ∈ (L.push c').after n ↔ x ∈ L.after n ∨ x = o := by
  simp only [Layout.after, Layout.push, hc, flatMap_append, Option.toList_some,
    flatMap_singleton, hc', mem_append, mem_singleton, or_assoc]

theorem Held.push (h : Held Z F w L) (ha : w.s.active = some a)
    (hrep : ActiveRep Z w.fs a c) (hk : o.key ∉ c.objs.map Object.key)
    (ho : o.key.Canonical ∧ o.data.length ≤ maxPayload) (io : List (Option Nat)) :
    Held Z F { w with
      fs := w.fs.setFile a.ino ((w.fs.files a.ino).writeAt a.size (objectRecord Z o))
      s := { w.s with active := some (a.push o.key (objectRecord Z o)) }
      ioFaults := io } (L.push (c.snoc o hk ho)) := by
  have hids : Store.ids { w.s with active := some (a.push o.key (objectRecord Z o)) } = w.s.ids := by
    rw [Store.ids, Store.ids, ha]
    rfl
  refine ⟨⟨⟨h.rep.sealed, .some ⟨?_, ?_, ?_⟩⟩, ?_, hids ▸ h.ids, ?_, h.lossless⟩, ?_⟩
  · simp only [ActiveSegment.push, FS.setFile_self, File.writeAt, Contents.snoc, bodyOf_snoc]
    rw [hrep.size]
    exact prefix_writeAt hrep.data _
  · simp only [ActiveSegment.push, Contents.snoc, bodyOf_snoc, length_append, hrep.size]
  · simp only [ActiveSegment.push, Contents.snoc, hrep.size]
    exact hrep.index.snoc hk
  · rintro b ⟨⟩
    exact h.ino a ha
  · intro id hid
    rw [hids] at hid
    exact h.next id hid
  · rintro hf b ⟨⟩
    exact h.named hf a ha

/-- What an append of an object does to the layout. -/
def AppendPost (Z : Zstd) (F : FuseLib) (w : World) (L : Layout) (o : Object) (r : Except Err Unit)
    (w' : World) : Prop :=
  ∃ L', Held Z F w' L' ∧ Grew w L w' L' ∧
    (w'.s.failed = none → w.s.failed = none ∧ L'.count ≤ max L.count w.s.cfg.segmentSize.toNat) ∧
    ∀ n ≤ L.sealed.length, (∀ x ∈ L.after n, x ∈ L'.after n) ∧
      (∀ x ∈ L'.after n, x ∈ L.after n ∨ x = o) ∧ (r = .ok () → ∃ y ∈ L'.after n, y.key = o.key)

theorem AppendPost.stay (h : Held Z F w' L') (hg : Grew w L w' L') (hcount : L'.count ≤ L.count)
    (hfailed : w'.s.failed = w.s.failed) (hafter : ∀ n ≤ L.sealed.length, L'.after n = L.after n)
    (hr : r = .ok () → ∀ n ≤ L.sealed.length, ∃ y ∈ L.after n, y.key = o.key) :
    AppendPost Z F w L o r w' := by
  refine ⟨L', h, hg, fun hf => ⟨hfailed ▸ hf, hcount.trans (Nat.le_max_left ..)⟩, fun n hn => ?_⟩
  rw [hafter n hn]
  exact ⟨fun _ hx => hx, fun _ hx => .inl hx, fun h' => hr h' n hn⟩

theorem Layout.count_le_of_nil (h : ∀ c, L.active = some c → c.objs = []) : L.count = 0 := by
  unfold count
  cases hc : L.active with
  | none => rfl
  | some c => simp [h c hc]

/-- The record is written, whatever becomes of the segment then. -/
theorem AppendPost.pushed (hc : L.active = some c) (hc' : c'.objs = c.objs ++ [o])
    (h : Held Z F w' L') (hg : Grew w (L.push c') w' L') (hf : w.s.failed = none)
    (hcount : w'.s.failed = none → L'.count ≤ w.s.cfg.segmentSize.toNat)
    (hafter : ∀ n ≤ L.sealed.length, L'.after n = (L.push c').after n) :
    AppendPost Z F w L o r w' := by
  refine ⟨L', h, ⟨hg.segs, hg.layout, hg.cfg, hg.closed⟩,
    fun hf' => ⟨hf, (hcount hf').trans (Nat.le_max_right ..)⟩, fun n hn => ?_⟩
  simp only [hafter n hn, Layout.mem_after_push hc hc']
  exact ⟨fun _ => .inl, fun _ hx => hx, fun _ => ⟨o, .inr rfl, rfl⟩⟩

theorem AppendPost.created (hg : Grew w L t L') (hs : L'.sealed = L.sealed)
    (hcount : L'.count = 0) (hfailed : t.s.failed = w.s.failed) (hafter : ∀ n, L'.after n = L.after n)
    (h : AppendPost Z F t L' o r w') : AppendPost Z F w L o r w' := by
  obtain ⟨L'', h'', hg', hcnt, hall⟩ := h
  refine ⟨L'', h'', hg.trans hg', fun hf => ?_, fun n hn => ?_⟩
  · obtain ⟨hft, hle⟩ := hcnt hf
    rw [hcount, hg.cfg, Nat.max_eq_right (Nat.zero_le _)] at hle
    exact ⟨hfailed ▸ hft, hle.trans (Nat.le_max_right ..)⟩
  rw [← hafter n]
  exact hall n (hs ▸ hn)

theorem appendTo_any (h : Held Z F w L) (hf : w.s.failed = none) (ha : w.s.active = some a)
    (hk : a.index.lookup o.key = none) (ho : o.key.Canonical ∧ o.data.length ≤ maxPayload)
    (hroom : L.count + 1 < 2 ^ 64) :
    (appendTo F a o.key (objectRecord Z o) false).Gives (AppendPost Z F w L o) w := by
  obtain ⟨c, hc, hrep⟩ := h.rep.active_some ha
  have hkey : o.key ∉ c.objs.map Object.key := by
    rw [← hrep.index.isSome_iff, hk]
    exact Bool.false_ne_true
  have hlen : (L.push (c.snoc o hkey ho)).count = L.count + 1 := by
    simp [Layout.count, Layout.push, Contents.snoc, hc]
  unfold appendTo writeRecord
  simp only [wp_bind]
  refine wp_ioOp_any (fun io => ⟨trivial, ?_⟩) fun n io => ⟨trivial, ?_⟩
  · have hpush := h.push ha hrep hkey ho io
    simp only [post_ok, wp_setStore, wp_pure, fsyncRecord, rotate, wp_bind, wp_getStore]
    refine wp_runIf (fun hb => absurd hb (by simp)) fun _ => wp_runIf (fun _ => ?_) fun _ => ?_
    · refine (rotate_any hpush hf fun c' hc' => ?_).post_mono ?_
      · cases hc'
        rw [← hlen] at hroom
        exact hroom
      · rintro r t ⟨L', ht, hg, hafter, hfailed, hnil⟩
        have hgrew : Grew w (L.push (c.snoc o hkey ho)) t L' := ⟨hg.segs, hg.layout, hg.cfg, hg.closed⟩
        refine .pushed hc rfl ht hgrew hf (fun hft => ?_) hafter
        rw [Layout.count_le_of_nil (hnil (hfailed.mpr hft))]
        exact Nat.zero_le _
    · rename_i hsize
      refine .pushed hc rfl hpush (.of_eq rfl rfl rfl rfl) hf (fun _ => ?_) fun _ _ => rfl
      have hle := length_le_bodyOf Z (c.objs ++ [o])
      have hcnt : (L.push (c.snoc o hkey ho)).count = (c.objs ++ [o]).length := rfl
      simp only [ActiveSegment.push, hrep.size, ← length_append, ← bodyOf_snoc] at hsize
      omega
  · refine .stay (h.frame ?_ rfl) ?_ (Nat.le_refl _) rfl (fun _ _ => rfl) (by simp)
    · refine ⟨rfl, Nat.le_refl _, fun _ hx => hx, fun b hb => ?_⟩
      cases ha.symm.trans hb
      rw [hrep.take_eq]
      simp only [FS.setFile_self, File.writeAt, hrep.size]
      have hp := prefix_writeAt hrep.data ((objectRecord Z o).take n)
      exact (prefix_append _ _).trans hp
    · exact .of_eq rfl rfl rfl rfl

theorem appendLocked_any (h : Held Z F w L) (ho : o.key.Canonical ∧ o.data.length ≤ maxPayload)
    (hroom : w.s.failed = none → L.count + 1 < 2 ^ 64) :
    (appendLocked F o.key (objectRecord Z o) false).Gives (AppendPost Z F w L o) w := by
  have hstay : ∀ e, AppendPost Z F w L o (.error e) w := fun e =>
    .stay h (.refl ..) (Nat.le_refl _) rfl (fun _ _ => rfl) nofun
  unfold appendLocked claim checkWritable activeSegment
  simp only [wp_bind, wp_getStore, post_ok]
  refine wp_ite (fun _ => .throw (hstay _)) fun _ => ?_
  cases hf : w.s.failed with
  | some e => exact .throw (hstay _)
  | none =>
    refine .pure ?_
    simp only [post_ok]
    cases ha : w.s.active with
    | some a =>
      refine .pure (.pure ?_)
      simp only [post_ok]
      cases hk : a.index.lookup o.key with
      | none => exact appendTo_any h hf ha hk ho (hroom hf)
      | some loc =>
        refine .pure (.stay h (.refl ..) (Nat.le_refl _) rfl (fun _ _ => rfl) fun _ n hn => ?_)
        obtain ⟨c, hc, hrep⟩ := h.rep.active_some ha
        obtain ⟨y, hy, hyk⟩ := mem_map.mp (hrep.index.isSome_iff.mp (by rw [hk]; rfl))
        refine ⟨y, ?_, hyk⟩
        rw [Layout.after, hc, flatMap_append]
        exact mem_append_right _ (by simpa using hy)
    | none =>
      refine (createActive_any h ha).post_mono ?_
      rintro (e | a) t ⟨L', ht, hg, hft, hL, hcnt, hafter, hok⟩
      · exact .stay ht hg (by rw [hcnt]; exact Nat.zero_le _) hft (fun n _ => hafter n) nofun
      · obtain ⟨ha', hnil⟩ := hok a rfl
        have hfresh : a.index.lookup o.key = none := by
          obtain ⟨c, hc, hrep⟩ := ht.rep.active_some ha'
          cases hnil.symm.trans hc
          rw [← Option.not_isSome_iff_eq_none, hrep.index.isSome_iff]
          exact not_mem_nil
        simp only [post_ok, hfresh, wp_pure]
        refine Wp.post_mono (appendTo_any ht (hft.trans hf) ha' hfresh ho (by omega)) fun r u hu => ?_
        exact .created hg hL hcnt hft hafter hu

end Append

end AmberStore.Packstore
