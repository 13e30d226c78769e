import AmberStore.Lib.Related
import AmberStore.Packstore.CopyLive
import AmberStore.Packstore.Held
import AmberStore.Packstore.MapRefinement
import AmberStore.Packstore.Sessions

/-!
# What Compact keeps

From any state of a store, whatever its operations meet with: the live and the grey keys keep their
payloads, no key is added, and a pass over all segments that returns without an error leaves no other
key.
-/

namespace AmberStore.Packstore
open Bytes Amberpack Act List

variable {Z : Zstd} {F : FuseLib} {H : Blake3} {w w₀ w' : World} {L L₀ : Layout}

/-! ## Layouts and indexes -/

theorem SegRep.has_iff {g : SealedSegment} {c : Contents} (h : SegRep Z F g c) :
    g.has F k ↔ ∃ o ∈ c.objs, o.key = k := by
  rw [h.has_eq, Contents.find, find?_isSome]
  simp

theorem Rep.exists_key {fs : FS Name} {s : Store} (h : Rep Z F fs s L) : (∃ o ∈ L.objects, o.key = k) ↔
    (s.activeLoc k).isSome ∨ ∃ g ∈ s.sealed, g.has F k := by
  have hactive : (∃ c, L.active = some c ∧ ∃ o ∈ c.objs, o.key = k) ↔ (s.activeLoc k).isSome := by
    unfold Store.activeLoc
    cases ha : s.active with
    | none => simp [h.active_none ha]
    | some a =>
      obtain ⟨c, hc, hrep⟩ := h.active_some ha
      simp [hc, hrep.index.isSome_iff]
  rw [← hactive]
  constructor
  · intro ⟨o, ho, hk⟩
    obtain ⟨c, hc, hoc⟩ := Layout.mem_objects.mp ho
    rcases mem_append.mp hc with hc | hc
    · obtain ⟨g, hg, hgc⟩ := h.sealed.exists_left hc
      exact .inr ⟨g, hg, hgc.has_iff.mpr ⟨o, hoc, hk⟩⟩
    · exact .inl ⟨c, Option.mem_toList.mp hc, o, hoc, hk⟩
  · intro hor
    rcases hor with ⟨c, hc, o, ho, hk⟩ | ⟨g, hg, hhas⟩
    · exact ⟨o, Layout.mem_objects.mpr ⟨c, mem_append_right _ (Option.mem_toList.mpr hc), ho⟩, hk⟩
    · obtain ⟨c, hc, hgc⟩ := h.sealed.exists_right hg
      obtain ⟨o, ho, hk⟩ := hgc.has_iff.mp hhas
      exact ⟨o, Layout.mem_objects.mpr ⟨c, mem_append_left _ hc, ho⟩, hk⟩

theorem Mapped.has_iff (h : Mapped Z F w L) :
    has F w.s k = .ok true ↔ w.s.closed = false ∧ ∃ o ∈ L.objects, o.key = k := by
  cases hc : w.s.closed with
  | true => simp [has, Store.probe, hc]
  | false => rw [h.rep.has_eq hc, ← Layout.lookup_isSome]; simp

/-- The segments that survive are those that were there and are no victims, and the new ones. -/
theorem Mapped.survivorHas_iff (h : Mapped Z F w L) (hg : Grew w₀ L₀ w L)
    (h₀ : List.Forall₂ (SegRep Z F) w₀.s.sealed L₀.sealed) {ids : List Nat}
    (hids : ∀ id ∈ ids, ∃ g ∈ w₀.s.sealed, g.id = id) : w.s.survivorHas F ids k ↔
      (∃ g ∈ w₀.s.sealed, g.id ∉ ids ∧ g.has F k) ∨ ∃ o ∈ L.after L₀.sealed.length, o.key = k := by
  obtain ⟨gs, hgs⟩ := hg.segs
  obtain ⟨cs, hcs⟩ := hg.layout
  have htail : List.Forall₂ (SegRep Z F) gs cs := by
    have hrel := List.forall₂_drop w₀.s.sealed.length h.rep.sealed
    rwa [hgs, hcs, drop_left, h₀.length_eq, drop_left] at hrel
  have hrep : Rep Z F w.fs { w.s with sealed := gs } ⟨cs, L.active⟩ := ⟨htail, h.rep.active⟩
  have hafter : L.after L₀.sealed.length = Layout.objects ⟨cs, L.active⟩ := by
    rw [Layout.after, hcs, drop_left]
    rfl
  -- a new segment has an id of its own
  have hnew : ∀ g ∈ gs, g.id ∉ ids := by
    intro g hgm hid
    obtain ⟨g', hg', heq⟩ := hids g.id hid
    have hnd := (nodup_append.mp h.ids).1
    rw [hgs, map_append, nodup_append] at hnd
    exact hnd.2.2 _ (mem_map_of_mem hg') _ (mem_map_of_mem hgm) heq
  rw [hafter, hrep.exists_key]
  simp only [Store.survivorHas, hgs, any_append, Bool.or_eq_true, any_eq_true,
    Bool.and_eq_true, decide_eq_true_eq, Store.activeLoc]
  constructor
  · intro hor
    rcases hor with ha | ⟨g, hgm, hg⟩ | ⟨g, hgm, hg⟩
    · exact .inr (.inl ha)
    · exact .inl ⟨g, hgm, hg⟩
    · exact .inr (.inr ⟨g, hgm, hg.2⟩)
  · intro hor
    rcases hor with ⟨g, hgm, hg⟩ | ha | ⟨g, hgm, hg⟩
    · exact .inr (.inl ⟨g, hgm, hg⟩)
    · exact .inl ha
    · exact .inr (.inr ⟨g, hgm, hnew g hgm, hg⟩)

/-- A store in the middle of copying: what is new is a copy of what was there. -/
structure Copying (Z : Zstd) (F : FuseLib) (w₀ : World) (L₀ : Layout) (w : World) (L : Layout) : Prop
    extends Held Z F w L where
  grew : Grew w₀ L₀ w L
  room : w.s.failed = none → L.count < 2 ^ 63
  copies : ∀ o ∈ L.after L₀.sealed.length, o ∈ L₀.objects

theorem Layout.fits {L : Layout} (ho : o ∈ L.objects) : o.key.Canonical ∧ o.data.length ≤ maxPayload := by
  obtain ⟨c, -, ho⟩ := Layout.mem_objects.mp ho
  exact c.fits o ho

theorem Copying.appends (hcfg : w₀.s.cfg.segmentSize < 2 ^ 63)
    (h₀ : List.Forall₂ (SegRep Z F) w₀.s.sealed L₀.sealed) {ids : List Nat}
    (hids : ∀ id ∈ ids, ∃ g ∈ w₀.s.sealed, g.id = id) :
    Appends Z F ids (fun o => o ∈ L₀.objects) (fun _ => True) fun w => ∃ L, Copying Z F w₀ L₀ w L := by
  intro w o ho ⟨L, h⟩
  refine (appendLocked_any h.toHeld (Layout.fits ho) fun hf => ?_).post_mono fun r t ht => ?_
  · have := h.room hf
    omega
  obtain ⟨L', ht, hg, hroom, hafter⟩ := ht
  have hgrew := h.grew.trans hg
  obtain ⟨cs, hcs⟩ := h.grew.layout
  obtain ⟨hkeep, hfresh, hok⟩ := hafter L₀.sealed.length (by rw [hcs, length_append]; omega)
  have hiff (k : Key) := h.survivorHas_iff (k := k) h.grew h₀ hids
  have hiff' (k : Key) := ht.survivorHas_iff (k := k) hgrew h₀ hids
  refine ⟨⟨L', ht, hgrew, fun hf => ?_, fun x hx => ?_⟩, fun k hk => ?_, fun k hk => ?_, fun hr => ?_⟩
  · obtain ⟨hf', hle⟩ := hroom hf
    have := h.room hf'
    rw [h.grew.cfg] at hle
    omega
  · rcases hfresh x hx with hx | rfl
    · exact h.copies x hx
    · exact ho
  · rcases (hiff k).mp hk with hk | ⟨x, hx, hxk⟩
    · exact (hiff' k).mpr (.inl hk)
    · exact (hiff' k).mpr (.inr ⟨x, hkeep x hx, hxk⟩)
  · rcases (hiff' k).mp hk with hk | ⟨x, hx, hxk⟩
    · exact .inl ((hiff k).mpr (.inl hk))
    · rcases hfresh x hx with hx | rfl
      · exact .inl ((hiff k).mpr (.inr ⟨x, hx, hxk⟩))
      · exact .inr hxk.symm
  · exact (hiff' o.key).mpr (.inr (hok hr))

/-! ## Selection -/

theorem eligible_spec (h : Held Z F w L) (opts : CompactOpts) (g : SealedSegment) :
    (opts.eligible g).Gives (fun r w' => Held Z F w' L ∧ w'.s = w.s ∧
      (opts.before = none → r = .ok true)) w := by
  unfold CompactOpts.eligible
  cases hb : opts.before with
  | none => exact .pure ⟨h, rfl, fun _ => rfl⟩
  | some before =>
    simp only [stat, wp_bind, wp_read, post_ok]
    cases FS.lookup w.fs.cur (.sealed g.id) with
    | none => exact .throw ⟨h, rfl, by simp⟩
    | some i =>
      have hsame : ∀ io, Held Z F { w with ioFaults := io } L := fun io =>
        h.frame (.of_files rfl (Nat.le_refl _) (fun _ hx => hx) fun _ _ => rfl) rfl
      exact wp_ioOp_any (fun io => ⟨trivial, post_ok.mpr (.pure ⟨hsame io, rfl, by simp⟩)⟩)
        fun n io => ⟨trivial, hsame io, rfl, by simp⟩

/-- The victims are among the segments, and without a horizon none of the selected ones is left out. -/
theorem selectVictims_spec (h : Held Z F w L) (live : Key → Bool) (opts : CompactOpts)
    (segs : List SealedSegment) : (selectVictims live opts segs).Gives
      (Post (fun r w' => Held Z F w' L ∧ w'.s = w.s ∧ (∀ g ∈ r.1, g ∈ segs) ∧
        (opts.before = none → ∀ g ∈ segs, g ∉ r.1 → opts.selects live g = false)) fun _ _ => False) w := by
  induction segs generalizing w with
  | nil => exact .pure ⟨h, rfl, nofun, fun _ => nofun⟩
  | cons g segs ih =>
    refine (eligible_spec h opts g).tries fun r t ht => ?_
    obtain ⟨hheld, hs, hall⟩ := ht
    cases r with
    | error e =>
      refine .pure ⟨hheld, hs, nofun, fun hb => ?_⟩
      cases hall hb
    | ok eligible =>
      refine (ih hheld).bind (fun r u hu => .pure ?_) fun _ _ => False.elim
      obtain ⟨hheld', hs', hsub, hrest⟩ := hu
      obtain ⟨victims, err⟩ := r
      refine ⟨hheld', hs'.trans hs, fun x hx => ?_, fun hb x hx hnot => ?_⟩
      · dsimp only at hx
        split at hx
        · rcases mem_cons.mp hx with rfl | hx
          · exact mem_cons_self
          · exact mem_cons_of_mem _ (hsub x hx)
        · exact mem_cons_of_mem _ (hsub x hx)
      · obtain rfl : eligible = true := Except.ok.inj (hall hb)
        rw [Bool.true_and] at hnot
        rcases mem_cons.mp hx with rfl | hx
        · cases hsel : opts.selects live x with
          | false => rfl
          | true => exact absurd (by rw [if_pos hsel]; exact mem_cons_self) hnot
        · refine hrest hb x hx fun hmem => hnot ?_
          split
          · exact mem_cons_of_mem _ hmem
          · exact hmem

/-! ## Deleting the victims -/

theorem Held.closeFile (h : Held Z F w L) : closeFile.Gives (fun _ w' =>
    Held Z F w' L ∧ w'.s = w.s) w := by
  have hsame : ∀ io, Held Z F { w with ioFaults := io } L := fun io =>
    h.frame (.of_files rfl (Nat.le_refl _) (fun _ hx => hx) fun _ _ => rfl) rfl
  exact wp_ioOp_any (fun io => ⟨trivial, hsame io, rfl⟩) fun n io => ⟨trivial, hsame io, rfl⟩

theorem Held.syncDir (h : Held Z F w L) : Packstore.syncDir.Gives (fun _ w' =>
    Held Z F w' L ∧ w'.s = w.s) w := by
  refine wp_syncOp_any (fun sf hsf => ⟨trivial, ?_, rfl⟩) fun n sf _ hsf => ⟨trivial, ?_, rfl⟩
  · exact h.frame (.of_files rfl (Nat.le_refl _) hsf fun _ _ => rfl) rfl
  · exact h.frame (.of_files rfl (Nat.le_refl _) hsf fun _ _ => rfl) rfl

theorem Held.remove (h : Held Z F w L) (id : Nat) : (remove (.sealed id)).Gives (fun _ w' =>
    Held Z F w' L ∧ w'.s = w.s) w := by
  refine remove_any.post_mono fun r t ht => ?_
  obtain ⟨hs, hsf, hfiles, hnext, hlook⟩ := ht
  refine ⟨⟨h.toMapped.frame (.of_files hs hnext.ge (fun x hx => hsf ▸ hx) fun _ _ => by rw [hfiles]),
    fun hf a ha => ?_⟩, hs⟩
  rw [hs] at hf ha
  rw [hlook (.active a.id) nofun]
  exact h.named hf a ha

theorem Held.filter (h : Held Z F w L) (p : SealedSegment → Bool) : ∃ L' : Layout,
    Held Z F { w with s := { w.s with sealed := w.s.sealed.filter p } } L' ∧
      ∀ o ∈ L'.objects, o ∈ L.objects := by
  obtain ⟨cs, hrel, hsub⟩ := h.rep.sealed.filter p
  have hids : (Store.ids { w.s with sealed := w.s.sealed.filter p }).Sublist w.s.ids :=
    List.Sublist.append ((filter_sublist).map _) (.refl _)
  refine ⟨⟨cs, L.active⟩, ⟨⟨⟨hrel, h.rep.active⟩, h.ino, h.ids.sublist hids, fun id hid => ?_, h.lossless⟩,
    h.named⟩, fun o ho => ?_⟩
  · exact h.next id (hids.subset hid)
  · obtain ⟨c, hc, hoc⟩ := Layout.mem_objects.mp ho
    refine Layout.mem_objects.mpr ⟨c, ?_, hoc⟩
    rcases mem_append.mp hc with hc | hc
    · exact mem_append_left _ (hsub.subset hc)
    · exact mem_append_right _ hc

theorem removeVictims_spec (h : Held Z F w L) (victims : List SealedSegment) :
    (removeVictims victims).Gives (fun _ w' => ∃ L', Held Z F w' L' ∧
      w'.s.closed = w.s.closed ∧ (∀ o ∈ L'.objects, o ∈ L.objects) ∧
      ∀ k, (∃ o ∈ L'.objects, o.key = k) ↔
        w.s.survivorHas F (victims.map SealedSegment.id) k) w := by
  unfold removeVictims
  simp only [wp_bind, wp_setStore, wp_getStore, post_ok]
  obtain ⟨L', hheld, hsub⟩ := h.filter fun g => decide (g.id ∉ victims.map SealedSegment.id)
  have hkeys : ∀ k, (∃ o ∈ L'.objects, o.key = k) ↔
      w.s.survivorHas F (victims.map SealedSegment.id) k := by
    intro k
    rw [hheld.rep.exists_key]
    simp only [Store.survivorHas, Store.activeLoc, Bool.or_eq_true, any_eq_true, mem_filter,
      Bool.and_eq_true, and_assoc]
  let s' : Store := { w.s with
    sealed := w.s.sealed.filter fun g => decide (g.id ∉ victims.map SealedSegment.id) }
  have hkeep : Keeps (fun _ => True) (fun t => Held Z F t L' ∧ t.s = s') (allThenFail
      (victims.flatMap (fun g => [closeFile, remove (.sealed g.id)]) ++
        if s'.cfg.sync then [syncDir] else [])) := by
    refine keeps_allThenFail (keeps_deletes none victims _ (fun t ht => ?_) (fun id t ht => ?_)
      (fun t ht => ?_) (by simp))
    · exact ht.1.closeFile.post_mono fun _ _ hu => ⟨hu.1, hu.2.trans ht.2⟩
    · exact (ht.1.remove id).post_mono fun _ _ hu => ⟨hu.1, hu.2.trans ht.2⟩
    · exact ht.1.syncDir.post_mono fun _ _ hu => ⟨hu.1, hu.2.trans ht.2⟩
  refine (hkeep _ ⟨hheld, rfl⟩).post_mono fun r t ht => ?_
  exact ⟨L', ht.1, by rw [ht.2], hsub, hkeys⟩

/-! ## Copying and deleting -/

theorem Held.setStore (h : Held Z F w L) {s : Store} (hs : s.sealed = w.s.sealed)
    (ha : s.active = w.s.active) (hn : w.s.nextID ≤ s.nextID)
    (hf : s.failed = none → w.s.failed = none) : Held Z F { w with s } L := by
  refine ⟨h.toMapped.setStore hs ha hn, fun hf' a ha' => ?_⟩
  exact h.named (hf hf') a (ha ▸ ha')

/-- An fsync of the active segment. A store it fails for is poisoned. -/
theorem Held.fsyncOrPoison (h : Held Z F w L) {a : ActiveSegment} (ha : w.s.active = some a) :
    (orPoison (fsync a.ino)).Gives (fun r w' => Held Z F w' L ∧ w'.s.sealed = w.s.sealed ∧
      w'.s.active = w.s.active ∧ w'.s.closed = w.s.closed ∧ (r = .ok () → w'.s = w.s)) w := by
  have hdata : ∀ f : File, f.data = (w.fs.files a.ino).data → ∀ sf, (∀ x ∈ sf, x ∈ w.syncFaults) →
      Held Z F { w with fs := w.fs.setFile a.ino f, syncFaults := sf } L := by
    intro f hf sf hsf
    refine h.frame ⟨rfl, Nat.le_refl _, hsf, fun b hb => ?_⟩ rfl
    cases ha.symm.trans hb
    rw [FS.setFile_self, hf]
    exact take_prefix ..
  unfold orPoison
  refine wp_bind.mpr (wp_attempt.mpr (wp_syncOp_any (fun sf hsf => ⟨trivial, ?_⟩)
    fun n sf hn hsf => ⟨trivial, ?_⟩))
  · exact post_ok.mpr (.pure ⟨hdata _ (File.fsync_data _) sf hsf, rfl, rfl, rfl, fun _ => rfl⟩)
  · obtain rfl := h.lossless n hn
    refine post_ok.mpr (wp_bind.mpr (wp_setStore.mpr (post_ok.mpr (.throw ?_))))
    exact ⟨(hdata _ (File.fsyncFail_data _) sf hsf).setStore rfl rfl (Nat.le_refl _) nofun, rfl, rfl, rfl, nofun⟩

theorem Grew.mem_objects (hg : Grew w L w' L') (ho : o ∈ L'.objects) :
    o ∈ L.objects ∨ o ∈ L'.after L.sealed.length := by
  obtain ⟨cs, hcs⟩ := hg.layout
  obtain ⟨c, hc, hoc⟩ := Layout.mem_objects.mp ho
  rw [Layout.segs, hcs, append_assoc] at hc
  rcases mem_append.mp hc with hc | hc
  · exact .inl (Layout.mem_objects.mpr ⟨c, mem_append_left _ hc, hoc⟩)
  · refine .inr (mem_flatMap.mpr ⟨c, ?_, hoc⟩)
    rwa [hcs, drop_left]

/-- What is left of a layout: objects of it, and one for each live key. -/
structure Left (Z : Zstd) (F : FuseLib) (live : Key → Bool) (w : World) (L : Layout) (w' : World)
    (L' : Layout) : Prop where
  held : Held Z F w' L'
  closed : w'.s.closed = w.s.closed
  old : ∀ o ∈ L'.objects, o ∈ L.objects
  kept : ∀ o ∈ L.objects, live o.key = true → ∃ o' ∈ L'.objects, o'.key = o.key

theorem Left.trans (h : Left Z F live w L w' L') (h' : Left Z F live w' L' w'' L'') :
    Left Z F live w L w'' L'' := by
  refine ⟨h'.held, h'.closed.trans h.closed, fun o ho => h.old o (h'.old o ho), fun o ho hl => ?_⟩
  obtain ⟨o₁, ho₁, hk₁⟩ := h.kept o ho hl
  obtain ⟨o₂, ho₂, hk₂⟩ := h'.kept o₁ ho₁ (hk₁ ▸ hl)
  exact ⟨o₂, ho₂, hk₂.trans hk₁⟩

section Rewrite
variable {live : Key → Bool} {victims : List SealedSegment}

end Rewrite

/-! ## The whole pass -/

theorem Refines.held {m : PayloadMap} {G : Written} (h : Refines Z F w m G) :
    Held Z F w (layoutOf w.fs w.s G) := by
  have hdir := h.good.durable.cur
  have hm := h.mounted
  refine ⟨⟨h.rep, fun a ha => hdir.lt _ (hm.active a ha).mem, ?_, fun id hid => ?_, fun n hn => ?_⟩,
    fun _ a ha => hdir.lookup (hm.active a ha).mem⟩
  · refine nodup_append.mpr ⟨hm.ids, by cases w.s.active <;> simp, fun id hid id' hid' heq => ?_⟩
    obtain ⟨g, hg, rfl⟩ := mem_map.mp hid
    obtain ⟨a, ha, rfl⟩ := Option.map_eq_some_iff.mp (Option.mem_toList.mp hid')
    obtain ⟨i, hi, -⟩ := hm.sealed g hg
    have hact := (hm.active a ha).mem
    cases inj_on_of_nodup_map hdir.ids hi hact heq
  · rcases mem_append.mp hid with hid | hid
    · obtain ⟨g, hg, rfl⟩ := mem_map.mp hid
      obtain ⟨i, hi, -⟩ := hm.sealed g hg
      exact hm.next _ hi
    · obtain ⟨a, ha, rfl⟩ := Option.map_eq_some_iff.mp (Option.mem_toList.mp hid)
      exact hm.next _ (hm.active a ha).mem
  · rw [h.good.sync trivial] at hn
    cases hn

end AmberStore.Packstore
