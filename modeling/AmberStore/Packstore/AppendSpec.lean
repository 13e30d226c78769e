import AmberStore.Packstore.WriteSpec

/-!
# Appends, fsyncs and seals

An append adds one record to the active file, an fsync covers everything on disk, and a seal turns the
active file into a sealed one. None of them changes what else is on disk.
-/

namespace AmberStore.Packstore
open Bytes Amberpack Act List Function

variable {Z : Zstd} {F : FuseLib} {clean : Prop} {P A B : Object → Prop} {w : World} {G : Written}
  {a : ActiveSegment} {o : Object}

/-! ## One more record -/

section Push
variable {fs : FS Name} {s : Store}

/-- The active file after one more record. -/
def pushFile (Z : Zstd) (f : File) (c : Contents) (o : Object) : File :=
  ⟨bodyOf Z (c.objs ++ [o]), f.synced, false⟩

theorem ActiveOk.writeAt_eq (h : ActiveOk Z fs a c) (hs : (fs.files a.ino).synced ≤ a.size) :
    (fs.files a.ino).writeAt a.size (objectRecord Z o) = pushFile Z (fs.files a.ino) c o := by
  have hsize : a.size = (fs.files a.ino).data.length := by rw [h.size, h.data]
  unfold File.writeAt pushFile
  rw [hsize, writeAt_end, h.data, ← bodyOf_snoc, h.torn, ← h.data, ← hsize, Nat.min_eq_left hs]

theorem Mounted.synced_le (h : Mounted Z F fs s G) (hd : Durable Z F P A fs G)
    (ha : s.active = some a) : (fs.files a.ino).synced ≤ a.size := by
  have hok := h.active a ha
  have := (hd.cur.active _ _ hok.mem).synced
  rwa [hok.data, ← hok.size] at this

theorem onDisk_update {id i : Nat} (hmem : (Name.active id, i) ∈ fs.cur) (c : Contents)
    (x : Object) : OnDisk fs (update G i c) x ↔
      x ∈ c.objs ∨ ∃ e ∈ fs.cur, e.2 ≠ i ∧ x ∈ (G e.2).objs := by
  constructor
  · rintro ⟨e, he, hx⟩
    by_cases hei : e.2 = i
    · rw [hei, update_self] at hx
      exact .inl hx
    · rw [update_of_ne hei] at hx
      exact .inr ⟨e, he, hei, hx⟩
  · rintro (hx | ⟨e, he, hei, hx⟩)
    · exact ⟨_, hmem, by rwa [update_self]⟩
    · exact ⟨e, he, by rwa [update_of_ne hei]⟩

theorem Mounted.push_durable (h : Mounted Z F fs s G) (hd : Durable Z F P A fs G)
    (ha : s.active = some a) (hP : P o) (hc : c.objs = (G a.ino).objs ++ [o]) :
    Durable Z F P A (fs.setFile a.ino (pushFile Z (fs.files a.ino) (G a.ino) o))
      (update G a.ino c) := by
  have hok := h.active a ha
  have hs := h.synced_le hd ha
  refine hd.setFile (h.not_sealed hd ha) (.of_body ?_ ?_) ?_ ?_
  · refine Nat.le_trans hs ?_
    rw [hok.size]
    exact (bodyOf_prefix_append Z _ [o]).length_le
  · rw [hc]
    exact prefix_rfl
  · intro x hx
    rw [hc] at hx
    rcases mem_append.mp hx with hx | hx
    · exact hd.objs _ x hx
    · exact mem_singleton.mp hx ▸ hP
  · intro x hx
    exact hx.mono (hc ▸ prefix_append ..) (Nat.le_refl _)

theorem Mounted.push (h : Mounted Z F fs s G) (hd : Durable Z F P A fs G) (ha : s.active = some a)
    (hk : o.key ∉ (G a.ino).objs.map Object.key) (hc : c.objs = (G a.ino).objs ++ [o]) :
    Mounted Z F (fs.setFile a.ino (pushFile Z (fs.files a.ino) (G a.ino) o))
      { s with active := some (a.push o.key (objectRecord Z o)) }
      (update G a.ino c) where
  closed := h.closed
  ids := h.ids
  sealed := by
    intro g hg
    obtain ⟨i, hi, hrep⟩ := h.sealed g hg
    refine ⟨i, hi, ?_⟩
    rwa [update_of_ne]
    rintro rfl
    exact h.not_sealed hd ha _ mem_cons_self _ hi
  listed := h.listed
  active := by
    intro a' ha'
    cases ha'
    have hok := h.active a ha
    refine ⟨hok.mem, ?_, ?_, ?_, ?_⟩
    · simp only [ActiveSegment.push, FS.setFile_self, update_self, hc, pushFile]
    · simp only [ActiveSegment.push, FS.setFile_self, pushFile]
    · simp only [ActiveSegment.push, update_self, hc, bodyOf_snoc, length_append,
        hok.size]
    · simp only [ActiveSegment.push, update_self, hc]
      rw [hok.size]
      exact hok.index.snoc hk
  idle := nofun
  kept := h.kept
  next := h.next

end Push

theorem Good.push (h : Good Z F clean P A w G) (hf : w.s.failed = none) (ha : w.s.active = some a)
    (hk : a.index.lookup o.key = none) (ho : o.key.Canonical ∧ o.data.length ≤ maxPayload)
    (hP : P o) :
    ∃ c : Contents, c.objs = (G a.ino).objs ++ [o] ∧
      Good Z F clean P A { w with
        fs := w.fs.setFile a.ino ((w.fs.files a.ino).writeAt a.size (objectRecord Z o))
        s := { w.s with active := some (a.push o.key (objectRecord Z o)) } }
        (update G a.ino c) ∧
      ∀ x, OnDisk w.fs (update G a.ino c) x ↔ OnDisk w.fs G x ∨ x = o := by
  have hm := h.mounted hf
  have hok := hm.active a ha
  have hkey : o.key ∉ (G a.ino).objs.map Object.key := by
    rw [← hok.index.isSome_iff, hk]
    exact Bool.false_ne_true
  refine ⟨(G a.ino).snoc o hkey ho, rfl, ?_, ?_⟩
  · rw [hok.writeAt_eq (hm.synced_le h.durable ha)]
    exact ⟨h.io, h.sync, hm.push_durable h.durable ha hP rfl, fun _ => hm.push h.durable ha hkey rfl⟩
  · intro x
    rw [onDisk_update hok.mem]
    constructor
    · rintro (hx | ⟨e, he, -, hx⟩)
      · rcases mem_append.mp hx with hx | hx
        · exact .inl ⟨_, hok.mem, hx⟩
        · exact .inr (mem_singleton.mp hx)
      · exact .inl ⟨e, he, hx⟩
    · rintro (⟨e, he, hx⟩ | rfl)
      · by_cases hei : e.2 = a.ino
        · exact .inl (mem_append_left _ (hei ▸ hx))
        · exact .inr ⟨e, he, hei, hx⟩
      · exact .inl (mem_append_right _ mem_cons_self)

/-! ## Fsyncs -/

/-- When the active file is synced, everything on disk is durable. -/
theorem Mounted.durable_onDisk {fs : FS Name} {s : Store} (h : Mounted Z F fs s G)
    (hd : Durable Z F P A fs G)
    (hs : ∀ a, s.active = some a → (fs.files a.ino).synced = (fs.files a.ino).data.length) :
    Durable Z F P (fun o => A o ∨ OnDisk fs G o) fs G := by
  refine ⟨hd.objs, fun d hdd => ?_⟩
  obtain ⟨hok, hA⟩ := hd.dirs d hdd
  refine ⟨hok, fun o ho => ?_⟩
  rcases ho with ho | ⟨⟨n, i⟩, he, ho⟩
  · exact hA o ho
  refine ⟨(n, i), h.kept d hdd _ he, ?_⟩
  cases n with
  | sealed id => exact (hd.cur.sealed id i he).covered ho
  | active id =>
    cases ha : s.active with
    | none => exact absurd he (h.idle ha id i)
    | some a =>
      have hact := h.active a ha
      cases hd.cur.name_inj he hact.mem (hd.cur.one _ _ _ _ he hact.mem)
      refine .of_synced ho ?_
      rw [hs a ha, hact.data]

theorem Mounted.setFile_active {fs : FS Name} {s : Store} (h : Mounted Z F fs s G)
    (ha : s.active = some a) {f : File} (hdata : f.data = (fs.files a.ino).data)
    (htorn : f.torn = false) : Mounted Z F (fs.setFile a.ino f) s G where
  closed := h.closed
  ids := h.ids
  sealed := h.sealed
  listed := h.listed
  active := by
    intro a' ha'
    rw [ha] at ha'
    cases ha'
    have hok := h.active a ha
    refine ⟨hok.mem, ?_, ?_, hok.size, hok.index⟩
    · rw [FS.setFile_self, hdata, hok.data]
    · rw [FS.setFile_self, htorn]
  idle := h.idle
  kept := h.kept
  next := h.next

/-- Fsync of the active file, which poisons the store if it fails. -/
theorem syncActiveFile_spec (h : Good Z F clean P A w G) (hf : w.s.failed = none)
    (ha : w.s.active = some a) : (orPoison (fsync a.ino)).Wp (Safe Z F P A) (Post
      (fun _ w' => Good Z F clean P (fun o => A o ∨ OnDisk w.fs G o) w' G ∧ w'.s = w.s ∧
        ∀ o, OnDisk w'.fs G o ↔ OnDisk w.fs G o)
      (fun _ w' => ¬clean ∧ Good Z F clean P A w' G ∧ w'.s.failed ≠ none ∧ w'.s.cfg = w.s.cfg)) w := by
  have hm := h.mounted hf
  have hok := hm.active a ha
  have hfile := h.durable.cur.active _ _ hok.mem
  have hns := hm.not_sealed h.durable ha
  simp only [orPoison, wp_bind, wp_attempt]
  refine wp_syncOp ?_ ?_
  · intro sf hsf
    have hd : Durable Z F P A (w.fs.setFile a.ino (w.fs.files a.ino).fsync) G :=
      h.durable.setFile_same hns hfile.fsync hfile.synced_fsync
    have hsync : (w.fs.files a.ino).fsync =
        ⟨(w.fs.files a.ino).data, (w.fs.files a.ino).data.length, false⟩ := by
      unfold File.fsync
      rw [hok.torn]
      simp only [Bool.false_eq_true, if_false]
    have hm' := hm.setFile_active ha (f := (w.fs.files a.ino).fsync) (by rw [hsync]) (by rw [hsync])
    refine ⟨⟨_, hd⟩, .pure ⟨⟨h.io, fun hc => hsf (h.sync hc), ?_, fun _ => hm'⟩, rfl,
      fun _ => .rfl⟩⟩
    refine hm'.durable_onDisk hd ?_
    intro a' ha'
    rw [show w.s.active = some a' from ha'] at ha
    cases ha
    rw [FS.setFile_self, hsync]
  · intro hne n sf
    have hd : Durable Z F P A (w.fs.setFile a.ino ((w.fs.files a.ino).fsyncFail n)) G :=
      h.durable.setFile_same hns (hfile.fsyncFail n) (Nat.le_refl _)
    refine ⟨⟨_, hd⟩, ?_⟩
    simp only [setFailed, wp_bind, wp_setStore, post_ok, wp_throw]
    exact ⟨fun hc => hne (h.sync hc), ⟨h.io, fun hc => absurd (h.sync hc) hne, hd, by simp⟩, by simp, rfl⟩

/-! ## Seals -/

section Seal
variable {fs : FS Name} {s : Store} {c : Contents} {id i : Nat}

theorem ActiveOk.truncate_eq (h : ActiveOk Z fs a c) (hs : (fs.files a.ino).synced ≤ a.size) :
    (fs.files a.ino).truncate a.size = fs.files a.ino := by
  unfold File.truncate
  rw [h.size, ← h.data, take_length, h.data, ← h.size, Nat.min_eq_left hs, ← h.data]

/-- The active file once the footer is written. -/
def footFile (Z : Zstd) (F : FuseLib) (f : File) (c : Contents) : File :=
  ⟨sealedFile Z F c, f.synced, false⟩

theorem ActiveOk.writeAt_footer (h : ActiveOk Z fs a c) (hs : (fs.files a.ino).synced ≤ a.size) :
    (fs.files a.ino).writeAt a.size (footerOf Z F c) = footFile Z F (fs.files a.ino) c := by
  have hsize : a.size = (fs.files a.ino).data.length := by rw [h.size, h.data]
  unfold File.writeAt footFile sealedFile
  rw [hsize, writeAt_end, h.data, h.torn, ← h.data, ← hsize, Nat.min_eq_left hs]

theorem ActiveOk.footFile_ok (h : ActiveOk Z fs a c) (hs : (fs.files a.ino).synced ≤ a.size)
    (hseal : Sealable c) : FileOk Z F (footFile Z F (fs.files a.ino) c) c := by
  refine ⟨?_, prefix_rfl, fun _ => hseal⟩
  refine Nat.le_trans hs ?_
  rw [h.size, footFile, sealedFile, length_append]
  exact Nat.le_add_right ..

theorem ActiveOk.buildFooter_eq (h : ActiveOk Z fs a c) (hseal : Sealable c) :
    buildFooter F a.size a.indexEntries = .ok (footerOf Z F c) := by
  have hperm := h.index.indexEntries_perm
  have hnd : (a.indexEntries.map IndexEntry.key).Nodup :=
    (hperm.map _).nodup_iff.mpr (nodup_entriesOf c)
  rw [buildFooter_congr hperm hnd, h.size]
  exact (parseFooter_sealedFile hseal).1

theorem ActiveOk.length_entries (h : ActiveOk Z fs a c) :
    a.index.entries.length = c.objs.length := by
  have := h.index.indexEntries_perm.length_eq
  rwa [ActiveSegment.indexEntries, length_map, length_entriesOf] at this

/-- Renaming the active name of a directory to the sealed one. -/
theorem rename_cur {d : Directory Name} (h : DirOk Z F fs G d) (hmem : (.active id, i) ∈ d) :
    (d.filter fun e => e.1 ≠ .sealed id) = d := by
  refine filter_eq_self.mpr fun e he => decide_eq_true fun heq => ?_
  have := h.name_inj he hmem (by rw [heq]; rfl)
  rw [this] at heq
  cases heq

/-- One directory entry under the rename. -/
def sealName (id : Nat) (e : Name × Nat) : Name × Nat :=
  if e.1 = .active id then (.sealed id, e.2) else e

theorem sealName_id (id : Nat) (e : Name × Nat) : (sealName id e).1.id = e.1.id := by
  unfold sealName
  split
  · next h => rw [h]; rfl
  · rfl

theorem sealName_snd (id : Nat) (e : Name × Nat) : (sealName id e).2 = e.2 := by
  unfold sealName
  split <;> rfl

theorem mem_map_sealName {d : Directory Name} (h : DirOk Z F fs G d)
    (hmem : (.active id, i) ∈ d) (e : Name × Nat) :
    e ∈ d.map (sealName id) ↔ e = (.sealed id, i) ∨ e ∈ d ∧ e.1.id ≠ id := by
  rw [mem_map]
  constructor
  · rintro ⟨x, hx, rfl⟩
    by_cases hid : x.1.id = id
    · obtain rfl := h.name_inj hx hmem hid
      exact .inl (by simp [sealName])
    · have hne : x.1 ≠ .active id := fun heq => hid (by rw [heq]; rfl)
      rw [sealName, if_neg hne]
      exact .inr ⟨hx, hid⟩
  · rintro (rfl | ⟨he, hid⟩)
    · exact ⟨_, hmem, by simp [sealName]⟩
    · refine ⟨e, he, ?_⟩
      rw [sealName, if_neg]
      exact fun heq => hid (by rw [heq]; rfl)

theorem map_sealName_ids (id : Nat) (d : Directory Name) :
    ((d.map (sealName id)).map fun e => e.1.id) = d.map fun e => e.1.id := by
  rw [map_map]
  simp only [Function.comp_def, sealName_id]

theorem DirOk.seal {d : Directory Name} (h : DirOk Z F fs G d) (hmem : (.active id, i) ∈ d)
    (hf : FileSealed Z F (fs.files i) (G i)) : DirOk Z F fs G (d.map (sealName id)) where
  ids := by
    rw [map_sealName_ids]
    exact h.ids
  inos := by
    rw [map_map]
    simpa only [Function.comp_def, sealName_snd] using h.inos
  lt := by
    intro e he
    obtain ⟨x, hx, rfl⟩ := mem_map.mp he
    rw [sealName_snd]
    exact h.lt x hx
  sealed := by
    intro id' j hj
    rcases (mem_map_sealName h hmem _).mp hj with heq | ⟨hj, -⟩
    · cases heq
      exact hf
    · exact h.sealed id' j hj
  active := by
    intro id' j hj
    rcases (mem_map_sealName h hmem _).mp hj with heq | ⟨hj, -⟩
    · cases heq
    · exact h.active id' j hj
  one := by
    intro x y j k hx hy
    rcases (mem_map_sealName h hmem _).mp hx with heq | ⟨hx, -⟩
    · cases heq
    rcases (mem_map_sealName h hmem _).mp hy with heq | ⟨hy, -⟩
    · cases heq
    exact h.one x y j k hx hy

theorem rename_eq (h : DirOk Z F fs G fs.cur) (hmem : (.active id, i) ∈ fs.cur) :
    fs.rename (.active id) (.sealed id) = fs.setDir (fs.cur.map (sealName id)) := by
  unfold FS.rename
  rw [rename_cur h hmem]
  rfl

theorem lookup_sealed (h : DirOk Z F fs G fs.cur) (hmem : (.active id, i) ∈ fs.cur) :
    FS.lookup (fs.rename (.active id) (.sealed id)).cur (.sealed id) = some i := by
  rw [rename_eq h hmem]
  refine (FS.lookup_eq_some (nodup_names ?_)).mpr ((mem_map_sealName h hmem _).mpr (.inl rfl))
  rw [FS.setDir, map_sealName_ids]
  exact h.ids

theorem Durable.seal (h : Durable Z F P A fs G) (hmem : (.active id, i) ∈ fs.cur)
    (hf : FileSealed Z F (fs.files i) (G i)) :
    Durable Z F P A (fs.rename (.active id) (.sealed id)) G := by
  rw [rename_eq h.cur hmem]
  refine h.setDir (h.cur.seal hmem hf) fun o ho => ?_
  obtain ⟨e, he, hcov⟩ := (h.dirs fs.cur mem_cons_self).2 o ho
  exact ⟨_, mem_map_of_mem he, by rwa [sealName_snd]⟩

theorem onDisk_seal (h : DirOk Z F fs G fs.cur) (hmem : (.active id, i) ∈ fs.cur) :
    OnDisk (fs.rename (.active id) (.sealed id)) G o ↔ OnDisk fs G o := by
  rw [rename_eq h hmem]
  constructor
  · rintro ⟨e, he, ho⟩
    obtain ⟨x, hx, rfl⟩ := mem_map.mp he
    exact ⟨x, hx, by rwa [sealName_snd] at ho⟩
  · rintro ⟨e, he, ho⟩
    exact ⟨_, mem_map_of_mem he, by rwa [sealName_snd]⟩

/-- A segment whose file gets its sealed name joins the mapped ones. -/
theorem SealedOk.seal {seg : SealedSegment} {l : List SealedSegment}
    (h : SealedOk Z F fs s G) (hd : DirOk Z F fs G fs.cur) (hmem : (.active id, i) ∈ fs.cur)
    (hid : seg.id = id) (hrep : SegRep Z F seg (G i)) (hl : l.Perm (s.sealed ++ [seg]))
    (s' : Store) (hs' : s'.sealed = l) (hc : s'.closed = false) :
    SealedOk Z F (fs.rename (.active id) (.sealed id)) s' G := by
  have hcur := mem_map_sealName hd hmem
  rw [rename_eq hd hmem]
  subst hs'
  exact {
    closed := hc
    ids := by
      rw [(hl.map _).nodup_iff, map_append, nodup_append]
      refine ⟨h.ids, nodup_singleton _, ?_⟩
      rintro x hx y hy rfl
      obtain ⟨g, hg, rfl⟩ := mem_map.mp hx
      obtain ⟨i, hi, -⟩ := h.sealed g hg
      exact nomatch hd.name_inj hi hmem ((mem_singleton.mp hy).trans hid)
    sealed := by
      intro g hg
      rcases mem_append.mp (hl.mem_iff.mp hg) with hg | hg
      · obtain ⟨i, hi, hgrep⟩ := h.sealed g hg
        refine ⟨i, (hcur _).mpr (.inr ⟨hi, fun heq => ?_⟩), hgrep⟩
        exact nomatch hd.name_inj hi hmem heq
      · obtain rfl := mem_singleton.mp hg
        exact ⟨i, (hcur _).mpr (.inl (by rw [hid])), hrep⟩
    listed := by
      intro id' j hj
      rcases (hcur _).mp hj with heq | ⟨hj, -⟩
      · cases heq
        exact ⟨seg, hl.mem_iff.mpr (mem_append_right _ mem_cons_self), hid⟩
      · obtain ⟨g, hg, hgid⟩ := h.listed id' j hj
        exact ⟨g, hl.mem_iff.mpr (mem_append_left _ hg), hgid⟩ }

theorem sealed_idle (hd : DirOk Z F fs G fs.cur) (hmem : (.active id, i) ∈ fs.cur) :
    ∀ id' j, (Name.active id', j) ∉ (fs.rename (.active id) (.sealed id)).cur := by
  rw [rename_eq hd hmem]
  intro id' j hj
  rcases (mem_map_sealName hd hmem _).mp hj with heq | ⟨hj, hne⟩
  · cases heq
  · exact hne (hd.one _ _ _ _ hj hmem)

theorem sealed_next (hd : DirOk Z F fs G fs.cur) (hmem : (.active id, i) ∈ fs.cur)
    (hn : ∀ e ∈ fs.cur, e.1.id < n) :
    ∀ e ∈ (fs.rename (.active id) (.sealed id)).cur, e.1.id < n := by
  rw [rename_eq hd hmem]
  intro e he
  obtain ⟨x, hx, rfl⟩ := mem_map.mp he
  rw [sealName_id]
  exact hn x hx

theorem kept_syncDir (fs : FS Name) : ∀ d ∈ fs.syncDir.dirs, ∀ e ∈ fs.syncDir.cur, e ∈ d := by
  intro d hd e he
  rw [mem_singleton.mp hd]
  exact he

/-- The sealed segment swapped in for the active one, whose file is complete now. -/
theorem Mounted.seal {seg : SealedSegment} {f : File} (h : Mounted Z F fs s G)
    (hd : Durable Z F P A (fs.setFile a.ino f) G) (ha : s.active = some a) (hid : seg.id = a.id)
    (hrep : SegRep Z F seg (G a.ino)) :
    Mounted Z F ((fs.setFile a.ino f).rename (.active a.id) (.sealed a.id)).syncDir
      { s with sealed := s.sealed ++ [seg], active := none } G := by
  have hmem : (.active a.id, a.ino) ∈ (fs.setFile a.ino f).cur := (h.active a ha).mem
  have hsealed : SealedOk Z F (fs.setFile a.ino f) s G := ⟨h.closed, h.ids, h.sealed, h.listed⟩
  have hok := hsealed.seal hd.cur hmem hid hrep (.refl _)
    { s with sealed := s.sealed ++ [seg], active := none } rfl h.closed
  exact {
    closed := h.closed
    ids := hok.ids
    sealed := hok.sealed
    listed := hok.listed
    active := nofun
    idle := fun _ => sealed_idle hd.cur hmem
    kept := kept_syncDir _
    next := sealed_next hd.cur hmem h.next }

end Seal

theorem openSealed_data (h : w.ioFaults = []) {id i : Nat} {c : Contents}
    (hi : FS.lookup w.fs.cur (.sealed id) = some i) (hseal : Sealable c)
    (hd : (w.fs.files i).data = sealedFile Z F c) {I : World → Prop} (hI : I w) :
    (openSealed id).Wp I (Post (fun g w' => w' = w ∧ g.id = id ∧ SegRep Z F g c) fun _ _ => False)
      w := by
  obtain ⟨-, f, hparse, -⟩ := parseFooter_sealedFile (Z := Z) (F := F) hseal
  unfold openSealed
  refine wp_bind.mpr (wp_readFile h hi hI ?_)
  rw [post_ok, hd]
  have hlen : ¬(sealedFile Z F c).length < minSealedSize := by
    intro hlt
    rw [parseFooter, if_pos hlt] at hparse
    cases hparse
  rw [if_neg hlen, hparse]
  exact .pure ⟨rfl, rfl, hseal, rfl, hparse⟩

theorem openSealed_spec (h : w.ioFaults = []) {id i : Nat} {c : Contents}
    (hi : FS.lookup w.fs.cur (.sealed id) = some i) (hf : FileSealed Z F (w.fs.files i) c)
    {I : World → Prop} (hI : I w) :
    (openSealed id).Wp I (Post (fun g w' => w' = w ∧ g.id = id ∧ SegRep Z F g c) fun _ _ => False)
      w := openSealed_data h hi hf.sealable hf.data hI

/-- Sealing the active segment, if it has records and few enough of them. -/
theorem sealActiveLocked_spec (h : Good Z F clean P A w G) (hf : w.s.failed = none)
    (hsmall : ∀ a, w.s.active = some a → (G a.ino).objs.length < 2 ^ 32) :
    (sealActiveLocked F).Wp (Safe Z F P A) (Post
      (fun _ w' => Good Z F clean P A w' G ∧ w'.s.failed = none ∧ w'.s.cfg = w.s.cfg ∧
        (∀ a, w'.s.active = some a → (G a.ino).objs = []) ∧
        ∀ o, OnDisk w'.fs G o ↔ OnDisk w.fs G o)
      (fun _ w' => ¬clean ∧ w'.ioFaults = [] ∧ Durable Z F P A w'.fs G ∧ w'.s.cfg = w.s.cfg)) w := by
  have hm := h.mounted hf
  unfold sealActiveLocked
  simp only [wp_bind, wp_getStore, post_ok]
  cases ha : w.s.active with
  | none => exact .pure ⟨h, hf, rfl, by simp [ha], fun _ => .rfl⟩
  | some a =>
    have hok := hm.active a ha
    have hs := hm.synced_le h.durable ha
    simp only [hok.length_entries]
    refine wp_ite ?_ ?_
    · intro hnil
      refine .pure ⟨h, hf, rfl, ?_, fun _ => .rfl⟩
      intro a' ha'
      cases ha.symm.trans ha'
      exact eq_nil_of_length_eq_zero hnil
    · intro hne
      have hseal : Sealable (G a.ino) := ⟨fun hnil => hne (by rw [hnil]; rfl), hsmall a ha⟩
      have hfile := hok.footFile_ok (F := F) hs hseal
      have hns := hm.not_sealed h.durable ha
      rw [hok.buildFooter_eq hseal]
      simp only [wp_bind]
      refine wp_truncate (by exact h.io) ?_ ?_ <;> rw [hok.truncate_eq hs, FS.setFile_eq_self _ rfl]
      · exact h.safe
      refine wp_writeAt (by exact h.io) ?_ ?_ <;> rw [hok.writeAt_footer hs]
      · exact ⟨_, h.durable.setFile_same hns hfile (Nat.le_refl _)⟩
      refine wp_syncOp ?_ ?_ <;> simp only [FS.setFile_self, FS.setFile_setFile]
      · intro sf hsf
        have hdone : FileSealed Z F (footFile Z F (w.fs.files a.ino) (G a.ino)).fsync (G a.ino) :=
          ⟨hseal, rfl, rfl⟩
        have hd := h.durable.setFile_same hns hdone.fileOk hfile.synced_fsync
        have hdone' : FileSealed Z F ((w.fs.setFile a.ino
            (footFile Z F (w.fs.files a.ino) (G a.ino)).fsync).files a.ino) (G a.ino) := by
          rw [FS.setFile_self]
          exact hdone
        have hmem : (.active a.id, a.ino) ∈ (w.fs.setFile a.ino
            (footFile Z F (w.fs.files a.ino) (G a.ino)).fsync).cur := hok.mem
        have hd' := hd.seal hmem hdone'
        refine ⟨⟨_, hd⟩, wp_rename (i := a.ino) (by exact h.io) (hd.cur.lookup hok.mem) ⟨_, hd'⟩ ?_⟩
        refine wp_syncOp ?_ ?_
        · intro sf' hsf'
          refine ⟨⟨_, hd'.syncDir⟩, post_ok.mpr (Wp.post_mono (openSealed_spec (c := G a.ino)
            (by exact h.io) (lookup_sealed hd.cur hok.mem) hdone' ⟨_, hd'.syncDir⟩) ?_)⟩
          rintro (e | seg) t ht
          · exact ht.elim
          obtain ⟨rfl, hid, hrep⟩ := ht
          simp only [post_ok, wp_setStore]
          refine wp_closeFile (by exact h.io) ⟨_, hd'.syncDir⟩ ⟨⟨h.io, fun hc => hsf' (hsf (h.sync hc)),
            hd'.syncDir, fun _ => hm.seal hd ha hid hrep⟩, hf, rfl, by simp, fun o => ?_⟩
          exact onDisk_seal hd.cur hok.mem
        · intro hne n sf'
          exact ⟨⟨_, hd'⟩, fun hc => hne (hsf (h.sync hc)), h.io, hd', rfl⟩
      · intro hne n sf
        have hd := h.durable.setFile_same hns (hfile.fsyncFail n) (Nat.le_refl _)
        exact ⟨⟨_, hd⟩, fun hc => hne (h.sync hc), h.io, hd, rfl⟩

theorem orPoison_spec {m : M Unit} {I : World → Prop} {Q : World → Prop} {E : Err → World → Prop}
    (h : m.Wp I (Post (fun _ => Q) E) w) : (orPoison m).Wp I (Post (fun _ => Q) fun e w' =>
      ∃ u, E e u ∧ w' = { u with s := { u.s with
        failed := some (u.s.failed.getD (.writePathFailed e)) } }) w := by
  unfold orPoison
  refine h.tries ?_
  rintro (e | ⟨⟩) u hu
  · simp only [post_ok, setFailed, wp_bind, wp_setStore, wp_throw, post_error]
    exact ⟨u, hu, rfl⟩
  · exact .pure hu

theorem wp_runIf {c : Prop} [Decidable c] {m : M Unit} {I : World → Prop}
    {Q : Except Err Unit → World → Prop} (h : c → m.Wp I Q w) (h' : ¬c → Q (.ok ()) w) :
    (runIf c m).Wp I Q w := wp_ite h fun hc => .pure (h' hc)

/-! ## The stages of an append -/

/-- The write path failed: the store is poisoned and the disk is as durable as before. -/
def Poisoned (Z : Zstd) (F : FuseLib) (clean : Prop) (P A : Object → Prop) (cfg : Config)
    (w : World) : Prop :=
  ¬clean ∧ w.s.failed ≠ none ∧ w.s.cfg = cfg ∧ ∃ G, Good Z F clean P A w G

theorem Poisoned.mono (h : Poisoned Z F clean P A cfg w) (hB : ∀ o, B o → A o) :
    Poisoned Z F clean P B cfg w := by
  obtain ⟨hc, hf, hcfg, G, hg⟩ := h
  exact ⟨hc, hf, hcfg, G, hg.mono hB⟩

/-- What an append that fsyncs makes durable besides `A`. -/
def Synced (sync : Bool) (S : Object → Prop) (A : Object → Prop) (x : Object) : Prop :=
  A x ∨ sync = true ∧ S x

/-- If the segment is due for sealing, it has fewer than 2³² records. -/
def DueSmall (s : Store) (a : ActiveSegment) : Prop :=
  s.cfg.segmentSize ≤ a.size → a.index.entries.length < 2 ^ 32

/-- Appending `rec` does not make a segment of 2³² records or more due for sealing. -/
def SealsSmall (s : Store) (rec : Bytes) : Prop :=
  ∀ a, s.active = some a → s.cfg.segmentSize ≤ (a.size + rec.length : Nat) →
    a.index.entries.length + 1 < 2 ^ 32

/-- The key is in the active segment. -/
def Store.inActive (s : Store) (k : Key) : Bool := (s.activeLoc k).isSome

theorem checkWritable_spec (h : Good Z F clean P A w G) {I : World → Prop} :
    checkWritable.Wp I (Post (fun _ w' => w' = w ∧ w.s.failed = none)
      fun _ w' => w' = w ∧ w.s.failed ≠ none) w := by
  unfold checkWritable
  simp only [wp_bind, wp_getStore, post_ok]
  cases hf : w.s.failed with
  | none =>
    rw [if_neg (by rw [(h.mounted hf).closed]; decide)]
    exact .pure ⟨rfl, rfl⟩
  | some e =>
    refine wp_ite (fun _ => .throw ⟨rfl, by simp⟩) fun _ => .throw ⟨rfl, by simp⟩

/-- The active segment to append to, and what has not changed. -/
theorem activeSegment_spec (h : Good Z F clean P A w G) (hf : w.s.failed = none) :
    activeSegment.Wp (Safe Z F P A) (Post
      (fun a w' => ∃ G', Good Z F clean P A w' G' ∧ w'.s.failed = none ∧ w'.s.cfg = w.s.cfg ∧
        w'.s.active = some a ∧ (w.s.active = some a ∧ w' = w ∧ G' = G ∨
          w.s.active = none ∧ (G' a.ino).objs = []) ∧
        ∀ x, OnDisk w'.fs G' x ↔ OnDisk w.fs G x)
      (fun _ w' => ¬clean ∧ w'.s.failed = none ∧ w'.s.cfg = w.s.cfg ∧ ∃ G',
        Good Z F clean P A w' G' ∧ ∀ x, OnDisk w'.fs G' x ↔ OnDisk w.fs G x)) w := by
  unfold activeSegment
  simp only [wp_bind, wp_getStore, post_ok]
  cases ha : w.s.active with
  | some a => exact .pure ⟨G, h, hf, rfl, ha, .inl ⟨rfl, rfl, rfl⟩, fun _ => .rfl⟩
  | none =>
    refine (createActive_spec h hf ha).post_mono ?_
    rintro (e | a) t ht
    · obtain ⟨hclean, G', hg, hs, hdisk⟩ := ht
      exact ⟨hclean, by rw [hs]; exact hf, by rw [hs], G', hg, hdisk⟩
    · obtain ⟨G', hg, hempty, hs, hdisk⟩ := ht
      refine ⟨G', hg, by rw [hs]; exact hf, by rw [hs], by rw [hs], .inr ⟨rfl, ?_⟩, hdisk⟩
      rw [hempty]
      rfl

/-- A refused append: the store was poisoned before, or an fsync failed while the active segment was
created. -/
def Refused (Z : Zstd) (F : FuseLib) (clean : Prop) (P A : Object → Prop) (w : World) (G : Written)
    (w' : World) : Prop :=
  (clean → w.s.failed ≠ none) ∧ w'.s.failed = w.s.failed ∧ w'.s.cfg = w.s.cfg ∧ ∃ G',
    Good Z F clean P A w' G' ∧ ∀ x, OnDisk w'.fs G' x ↔ OnDisk w.fs G x

/-- The segment to append the key to. None means that the key is in the active segment. -/
theorem claim_spec (h : Good Z F clean P A w G) (k : Key) : (claim k).Wp (Safe Z F P A) (Post
      (fun r w' => w.s.failed = none ∧ w'.s.failed = none ∧ w'.s.cfg = w.s.cfg ∧
        match r with
        | none => w' = w ∧ w.s.inActive k = true
        | some a => w.s.inActive k = false ∧ w'.s.active = some a ∧ a.index.lookup k = none ∧
          (w.s.active = none → a.index.entries.length = 0) ∧
          (∀ b, w.s.active = some b → b = a) ∧
          ∃ G', Good Z F clean P A w' G' ∧ ∀ x, OnDisk w'.fs G' x ↔ OnDisk w.fs G x)
      (fun _ w' => Refused Z F clean P A w G w')) w := by
  unfold claim
  refine (checkWritable_spec h).seq ?_
  rintro (e | ⟨⟩) t ⟨rfl, hf⟩
  · exact ⟨fun _ => hf, rfl, rfl, G, h, fun _ => .rfl⟩
  refine (activeSegment_spec h hf).seq ?_
  rintro (e | a) u hu
  · obtain ⟨hclean, hfu, hcfg, G', hg, hdisk⟩ := hu
    exact ⟨fun hc => absurd hc hclean, hfu.trans hf.symm, hcfg, G', hg, hdisk⟩
  obtain ⟨G', hg, hfu, hcfg, ha, hcase, hdisk⟩ := hu
  have hok := (hg.mounted hfu).active a ha
  have hlen : t.s.active = none → a.index.entries.length = 0 := by
    intro hta
    rcases hcase with ⟨hta', -, -⟩ | ⟨-, hnil⟩
    · cases hta.symm.trans hta'
    · rw [hok.length_entries, hnil]
      rfl
  have hin : t.s.inActive k = (a.index.lookup k).isSome := by
    unfold Store.inActive Store.activeLoc
    rcases hcase with ⟨hta, -, -⟩ | ⟨hta, hnil⟩
    · rw [hta]
      exact Option.isSome_map
    · rw [hta]
      have hno : ¬(a.index.lookup k).isSome := by
        rw [hok.index.isSome_iff, hnil]
        exact not_mem_nil
      exact (Bool.eq_false_iff.mpr hno).symm
  refine .pure ⟨hf, hfu, hcfg, ?_⟩
  by_cases hsome : (a.index.lookup k).isSome = true
  · rw [if_pos hsome]
    refine ⟨?_, hin.trans hsome⟩
    rcases hcase with ⟨-, rfl, -⟩ | ⟨hta, -⟩
    · rfl
    · rw [← hin, Store.inActive, Store.activeLoc, hta] at hsome
      cases hsome
  · rw [if_neg hsome]
    refine ⟨hin.trans (Bool.eq_false_iff.mpr hsome), ha, by simpa using hsome, hlen, ?_, G', hg,
      hdisk⟩
    intro b hb
    rcases hcase with ⟨hta, -, -⟩ | ⟨hta, -⟩
    · cases hta.symm.trans hb
      rfl
    · cases hta.symm.trans hb

theorem writeRecord_spec (h : Good Z F clean P A w G) (hf : w.s.failed = none)
    (ha : w.s.active = some a) (hk : a.index.lookup o.key = none)
    (ho : o.key.Canonical ∧ o.data.length ≤ maxPayload) (hP : P o) :
    (writeRecord a o.key (objectRecord Z o)).Wp (Safe Z F P A) (Post
      (fun a' w' => a' = a.push o.key (objectRecord Z o) ∧ w'.s = { w.s with active := some a' } ∧
        a'.index.entries.length = a.index.entries.length + 1 ∧
        ∃ G', Good Z F clean P A w' G' ∧ ∀ x, OnDisk w'.fs G' x ↔ OnDisk w.fs G x ∨ x = o)
      fun _ _ => False) w := by
  obtain ⟨c, hc, hpush, hdisk⟩ := h.push hf ha hk ho hP
  have hlen : (a.push o.key (objectRecord Z o)).index.entries.length =
      a.index.entries.length + 1 := by
    have hok := (hpush.mounted hf).active _ rfl
    have hfile : (update G a.ino c (a.push o.key (objectRecord Z o)).ino) = c :=
      update_self ..
    rw [hok.length_entries, hfile, hc, length_append,
      ((h.mounted hf).active a ha).length_entries]
    rfl
  unfold writeRecord
  simp only [wp_bind]
  refine wp_writeAt (by exact h.io) ⟨_, hpush.durable⟩ ?_
  simp only [post_ok, wp_setStore, wp_pure]
  exact ⟨trivial, trivial, hlen, _, hpush, hdisk⟩

theorem fsyncRecord_spec (h : Good Z F clean P A w G) (hf : w.s.failed = none)
    (ha : w.s.active = some a) (syncNow : Bool) : (fsyncRecord a syncNow).Wp (Safe Z F P A) (Post
      (fun _ w' => w'.s = w.s ∧
        Good Z F clean P (Synced (syncNow && w.s.cfg.sync) (OnDisk w.fs G) A) w' G ∧
        ∀ o, OnDisk w'.fs G o ↔ OnDisk w.fs G o)
      (fun _ w' => Poisoned Z F clean P A w.s.cfg w')) w := by
  unfold fsyncRecord
  simp only [wp_bind, wp_getStore, post_ok]
  refine wp_runIf (fun hb => (syncActiveFile_spec h hf ha).post_mono ?_) fun hb => ?_
  · rintro (e | ⟨⟩) t ht
    · obtain ⟨hc, hg, hft, hcfg⟩ := ht
      exact ⟨hc, hft, hcfg, G, hg⟩
    · exact ⟨ht.2.1, ht.1.mono fun o ho => ho.imp_right And.right, ht.2.2⟩
  · exact ⟨rfl, h.mono fun o ho => ho.resolve_right fun h' => hb h'.1, fun _ => .rfl⟩

theorem rotate_spec (h : Good Z F clean P A w G) (hf : w.s.failed = none)
    (ha : w.s.active = some a) (hsmall : DueSmall w.s a) :
    (rotate F a).Wp (Safe Z F P A) (Post
      (fun _ w' => Good Z F clean P A w' G ∧ w'.s.failed = none ∧ w'.s.cfg = w.s.cfg ∧
        ∀ o, OnDisk w'.fs G o ↔ OnDisk w.fs G o)
      (fun _ w' => Poisoned Z F clean P A w.s.cfg w')) w := by
  unfold rotate
  simp only [wp_bind, wp_getStore, post_ok]
  refine wp_runIf (fun hdue => ?_) fun _ => ⟨h, hf, rfl, fun _ => .rfl⟩
  have hcount : ∀ b, w.s.active = some b → (G b.ino).objs.length < 2 ^ 32 := by
    intro b hb
    cases ha.symm.trans hb
    rw [← ((h.mounted hf).active a ha).length_entries]
    exact hsmall hdue
  refine (orPoison_spec (sealActiveLocked_spec h hf hcount)).post_mono ?_
  rintro (e | ⟨⟩) t ht
  · obtain ⟨u, ⟨hclean, hio, hd, hcfg⟩, rfl⟩ := ht
    exact ⟨hclean, by simp, hcfg, G, hio, fun hc => absurd hc hclean, hd, by simp⟩
  · exact ⟨ht.1, ht.2.1, ht.2.2.1, ht.2.2.2.2⟩

/-- The specification of an append. If the key is in the active segment already, nothing happens;
otherwise the record is written, and durable if the append fsyncs. -/
theorem appendLocked_spec (h : Good Z F clean P A w G)
    (ho : o.key.Canonical ∧ o.data.length ≤ maxPayload) (hP : P o)
    (hsmall : SealsSmall w.s (objectRecord Z o)) (syncNow : Bool) :
    (appendLocked F o.key (objectRecord Z o) syncNow).Wp (Safe Z F P A) (Post
      (fun _ w' => w.s.failed = none ∧ w'.s.failed = none ∧ w'.s.cfg = w.s.cfg ∧
        if w.s.inActive o.key then w' = w
        else ∃ G', Good Z F clean P
            (Synced (syncNow && w.s.cfg.sync) (fun x => OnDisk w.fs G x ∨ x = o) A) w' G' ∧
          ∀ x, OnDisk w'.fs G' x ↔ OnDisk w.fs G x ∨ x = o)
      (fun _ w' => Refused Z F clean P A w G w' ∨ Poisoned Z F clean P A w.s.cfg w')) w := by
  unfold appendLocked
  refine (claim_spec h o.key).seq ?_
  rintro (e | (_ | a)) t ht
  · exact .inl ht
  · obtain ⟨hf, hft, hcfg, rfl, hin⟩ := ht
    exact .pure ⟨hf, hft, hcfg, by rw [if_pos hin]⟩
  obtain ⟨hf, hft, hcfg, hin, ha, hk, hnew, hold, G', hg, hdisk⟩ := ht
  simp only [post_ok, appendTo, wp_bind]
  refine Wp.post_mono (writeRecord_spec hg hft ha hk ho hP) ?_
  rintro (e | a') u hu
  · exact hu.elim
  obtain ⟨rfl, hus, hlen, G2, hg2, hdisk2⟩ := hu
  have hu2 : u.s.active = some (a.push o.key (objectRecord Z o)) := by rw [hus]
  have hfu : u.s.failed = none := by rw [hus]; exact hft
  have hcu : u.s.cfg = w.s.cfg := by rw [hus]; exact hcfg
  refine Wp.post_mono (fsyncRecord_spec hg2 hfu hu2 syncNow) ?_
  rintro (e | ⟨⟩) v hv
  · exact .inr (hcu ▸ hv)
  obtain ⟨hvs, hg3, hdisk3⟩ := hv
  have hdue : DueSmall v.s (a.push o.key (objectRecord Z o)) := by
    intro hdue
    rw [hvs, hcu] at hdue
    rw [hlen]
    cases hwa : w.s.active with
    | none =>
      rw [hnew hwa]
      decide
    | some b =>
      obtain rfl := hold b hwa
      exact hsmall b hwa hdue
  refine Wp.mono (rotate_spec hg3 (by rw [hvs]; exact hfu) (by rw [hvs]; exact hu2) hdue)
    (fun x hx => hx.mono fun y hy => .inl hy) ?_
  have hcv : v.s.cfg = w.s.cfg := by rw [hvs, hcu]
  rintro (e | ⟨⟩) x hx
  · exact .inr ((hcv ▸ hx).mono fun y hy => .inl hy)
  obtain ⟨hg4, hfx, hcx, hdisk4⟩ := hx
  have hall : ∀ y, OnDisk u.fs G2 y ↔ OnDisk w.fs G y ∨ y = o :=
    fun y => (hdisk2 y).trans (or_congr_left (hdisk y))
  refine ⟨hf, hfx, hcx.trans hcv, ?_⟩
  rw [if_neg (by rw [hin]; decide)]
  refine ⟨G2, hg4.mono ?_, fun y => (hdisk4 y).trans ((hdisk3 y).trans (hall y))⟩
  rw [hcu]
  exact fun y hy => hy.imp_right fun h' => ⟨h'.1, (hall y).mpr h'.2⟩

/-- Fsync of the active segment makes everything on disk durable. -/
theorem syncActive_spec (h : Good Z F clean P A w G) : syncActive.Wp (Safe Z F P A) (Post
      (fun _ w' => w.s.failed = none ∧ w'.s = w.s ∧
        Good Z F clean P (Synced w.s.cfg.sync (OnDisk w.fs G) A) w' G ∧
        ∀ x, OnDisk w'.fs G x ↔ OnDisk w.fs G x)
      (fun _ w' => (clean → w.s.failed ≠ none) ∧ w'.s.failed ≠ none ∧ w'.s.cfg = w.s.cfg ∧
        ∃ G', Good Z F clean P A w' G')) w := by
  unfold syncActive
  refine (checkWritable_spec h).seq ?_
  rintro (e | ⟨⟩) t ⟨rfl, hf⟩
  · exact ⟨fun _ => hf, hf, rfl, G, h⟩
  simp only [post_ok, wp_bind, wp_getStore]
  refine wp_ite (fun hs => ?_) fun hs => ?_
  · refine .pure ⟨hf, rfl, h.mono fun x hx => hx.resolve_right fun h' => ?_, fun _ => .rfl⟩
    simp [h'.1] at hs
  · cases ha : t.s.active with
    | none =>
      refine .pure ⟨hf, rfl, ?_, fun _ => .rfl⟩
      have hd := (h.mounted hf).durable_onDisk h.durable fun a ha' => by simp [ha] at ha'
      exact ⟨h.io, h.sync, hd.mono fun x hx => hx.imp_right And.right, h.mounted⟩
    | some a =>
      refine (syncActiveFile_spec h hf ha).post_mono ?_
      rintro (e | ⟨⟩) u hu
      · obtain ⟨hclean, hg, hfu, hcfg⟩ := hu
        exact ⟨fun hc => absurd hc hclean, hfu, hcfg, G, hg⟩
      · exact ⟨hf, hu.2.1, hu.1.mono fun x hx => hx.imp_right And.right, hu.2.2⟩

end AmberStore.Packstore
