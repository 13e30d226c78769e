import AmberStore.Packstore.Sourced

/-!
# Opening a directory of sourced files

`Open` believes every file that has the form of a segment. On a directory whose bytes all come from objects
with `P` it therefore yields a store of such objects, or fails.
-/

namespace AmberStore.Packstore
open Bytes Amberpack Act List

variable {Z : Zstd} {F : FuseLib} {P : Object → Prop} {fs : FS Name} {w : World}

/-! ## The sealed segments -/

/-- A mapped segment with the contents of a file that `P` is the source of. -/
def Backed (Z : Zstd) (F : FuseLib) (P : Object → Prop) (g : SealedSegment) : Prop :=
  ∃ c : Contents, (∀ o ∈ c.objs, P o) ∧ SegRep Z F g c

theorem exists_layout {gs : List SealedSegment} (h : ∀ g ∈ gs, Backed Z F P g) :
    ∃ cs : List Contents, List.Forall₂ (SegRep Z F) gs cs ∧ ∀ c ∈ cs, ∀ o ∈ c.objs, P o := by
  induction gs with
  | nil => exact ⟨[], .nil, nofun⟩
  | cons g gs ih =>
    obtain ⟨c, hobjs, hrep⟩ := h g mem_cons_self
    obtain ⟨cs, hreps, hall⟩ := ih fun x hx => h x (mem_cons_of_mem _ hx)
    refine ⟨c :: cs, .cons hrep hreps, fun x hx => ?_⟩
    rcases mem_cons.mp hx with rfl | hx
    · exact hobjs
    · exact hall x hx

/-- A store while the sealed segments `ids` are yet to be mapped. -/
structure Restoring (Z : Zstd) (F : FuseLib) (P : Object → Prop) (ids : List Nat) (w : World) :
    Prop extends Tidy Z F P w where
  active : w.s.active = none
  nodup : (w.s.sealed.map SealedSegment.id ++ ids).Nodup
  names : ∀ id ∈ w.s.sealed.map SealedSegment.id ++ ids, ∃ i, (Name.sealed id, i) ∈ w.fs.cur
  backed : ∀ g ∈ w.s.sealed, Backed Z F P g ∧ g.id < w.s.nextID
  listed : ∀ id i, (Name.sealed id, i) ∈ w.fs.cur → id ∈ ids ∨ id < w.s.nextID

/-- Mapping a file under a sealed name fails, or gives a segment with its contents. -/
theorem openSealed_backed (h : Tidy Z F P w) {id i : Nat} (hi : (Name.sealed id, i) ∈ w.fs.cur) :
    (openSealed id).Gives (fun r t => (Tidy Z F P t ∧ t.fs = w.fs ∧ t.s = w.s) ∧
      ∀ seg, r = .ok seg → Backed Z F P seg ∧ seg.id = id) w := by
  obtain ⟨c, hobjs, foot, hdata, hfoot, hne, hcount⟩ := h.dir.entry _ hi
  have hopen := openSealed_any_contents (w := w) (h.dir.lookup.mpr hi) hdata hfoot hne hcount
  refine ((keeps_openSealed_tidy id w ⟨h, rfl, rfl⟩).and hopen).mono (fun _ _ => trivial) fun r t ht => ?_
  refine ⟨ht.1, fun seg hseg => ?_⟩
  obtain ⟨hrep, hid⟩ := ht.2.2 seg hseg
  exact ⟨⟨c, hobjs, hrep⟩, hid⟩

theorem loadSealed_restoring {id : Nat} {ids : List Nat} (h : Restoring Z F P (id :: ids) w) :
    (loadSealed id).Gives (Post (fun _ t => Restoring Z F P ids t ∧ t.fs = w.fs) fun _ => Tidy Z F P)
      w := by
  obtain ⟨i, hi⟩ := h.names id (mem_append_right _ mem_cons_self)
  unfold loadSealed
  refine (openSealed_backed h.toTidy hi).seq fun r t ht => ?_
  obtain ⟨⟨ht, hfs, hs⟩, hseg⟩ := ht
  cases r with
  | error e => exact ht
  | ok seg =>
    obtain ⟨hback, hid⟩ := hseg seg rfl
    simp only [post_ok, bumpNextID, wp_bind, wp_setStore]
    obtain ⟨hlt, hmono⟩ := t.s.lt_bump id
    have hids : ((t.s.sealed ++ [seg]).map SealedSegment.id) ++ ids = w.s.sealed.map SealedSegment.id ++ id :: ids := by
      rw [hs, map_append, map_singleton, hid, append_assoc]
      rfl
    refine ⟨⟨⟨ht.dir, ht.io, ht.sync⟩, ?_, ?_, ?_, fun g hg => ?_, fun id' j hj => ?_⟩, hfs⟩
    · rw [Store.bump, hs]
      exact h.active
    · rw [Store.bump, hids]
      exact h.nodup
    · rw [Store.bump, hids, hfs]
      exact h.names
    · rcases mem_append.mp hg with hg | hg
      · rw [hs] at hg
        obtain ⟨hb, hn⟩ := h.backed g hg
        exact ⟨hb, hmono _ (hs ▸ hn)⟩
      · rw [mem_singleton.mp hg]
        exact ⟨hback, hid ▸ hlt⟩
    · rcases h.listed id' j (hfs ▸ hj) with hmem | hn
      · rcases mem_cons.mp hmem with rfl | hmem
        · exact .inr hlt
        · exact .inl hmem
      · exact .inr (hmono _ (hs ▸ hn))

theorem Restoring.sorted (h : Restoring Z F P [] w) :
    Restoring Z F P [] { w with s := { w.s with sealed := w.s.sealed.mergeSort leId } } := by
  have hperm := mergeSort_perm w.s.sealed leId
  refine ⟨⟨h.dir, h.io, h.sync⟩, h.active, ?_, fun id hid => ?_, fun g hg => ?_, h.listed⟩
  · have hnodup := h.nodup
    rw [append_nil] at hnodup ⊢
    exact (hperm.map _).nodup_iff.mpr hnodup
  · rw [append_nil] at hid
    refine h.names id ?_
    rw [append_nil]
    exact (hperm.map _).mem_iff.mp hid
  · exact h.backed g (mem_mergeSort.mp hg)

theorem genuine_of_backed (h : Tidy Z F P w) (ha : w.s.active = none)
    (hback : ∀ g ∈ w.s.sealed, Backed Z F P g ∧ g.id < w.s.nextID) (hnodup : (w.s.sealed.map SealedSegment.id).Nodup)
    (hnext : ∀ e ∈ w.fs.cur, e.1.id < w.s.nextID) : Genuine Z F P w := by
  obtain ⟨cs, hreps, hall⟩ := exists_layout fun g hg => (hback g hg).1
  have hids : w.s.ids = w.s.sealed.map SealedSegment.id := by
    rw [Store.ids, ha]
    exact append_nil _
  refine ⟨.of_none h hnext ha, ⟨cs, none⟩, ⟨⟨⟨hreps, ?_⟩, ?_, ?_, fun id hid => ?_, h.sync⟩, ?_⟩, fun o ho => ?_⟩
  · rw [ha]
    exact .none
  · simp [ha]
  · rw [hids]
    exact hnodup
  · rw [hids] at hid
    obtain ⟨g, hg, rfl⟩ := mem_map.mp hid
    exact (hback g hg).2
  · simp [ha]
  · obtain ⟨c, hc, hoc⟩ := Layout.mem_objects.mp ho
    rw [Layout.segs, Option.toList_none, append_nil] at hc
    exact hall c hc o hoc

theorem Restoring.genuine (h : Restoring Z F P [] w) (hidle : ∀ id i, (.active id, i) ∉ w.fs.cur) :
    Genuine Z F P w := by
  have hnodup := h.nodup
  rw [append_nil] at hnodup
  refine genuine_of_backed h.toTidy h.active h.backed hnodup fun e he => ?_
  obtain ⟨n, i⟩ := e
  cases n with
  | sealed id => exact (h.listed id i he).resolve_left not_mem_nil
  | active id => exact absurd he (hidle id i)

theorem Restoring.add (h : Restoring Z F P [] w) {u : World} {seg : SealedSegment} (hu : Tidy Z F P u)
    (hs : u.s = { w.s with sealed := (w.s.sealed ++ [seg]).mergeSort leId }) (hback : Backed Z F P seg)
    (hnew : ∀ g ∈ w.s.sealed, g.id ≠ seg.id) (hlt : seg.id < w.s.nextID)
    (hcur : ∀ e ∈ u.fs.cur, e = (.sealed seg.id, e.2) ∨ e ∈ w.fs.cur ∧ ∃ id, e.1 = .sealed id) :
    Genuine Z F P u := by
  have hperm := mergeSort_perm (w.s.sealed ++ [seg]) leId
  have hnodup := h.nodup
  rw [append_nil] at hnodup
  refine genuine_of_backed hu (by rw [hs]; exact h.active) (fun g hg => ?_) ?_ fun e he => ?_
  · rw [hs] at hg ⊢
    rcases mem_append.mp (mem_mergeSort.mp hg) with hg | hg
    · exact h.backed g hg
    · rw [mem_singleton.mp hg]
      exact ⟨hback, hlt⟩
  · rw [hs, (hperm.map _).nodup_iff, map_append, map_singleton]
    refine nodup_append.mpr ⟨hnodup, nodup_singleton _, fun x hx y hy hxy => ?_⟩
    obtain ⟨g, hg, rfl⟩ := mem_map.mp hx
    exact hnew g hg (hxy.trans (mem_singleton.mp hy))
  · rw [hs]
    rcases hcur e he with heq | ⟨hmem, id, hid⟩
    · rw [heq]
      exact hlt
    · obtain ⟨n, j⟩ := e
      cases hid
      exact (h.listed id j hmem).resolve_left not_mem_nil

theorem Restoring.resume (h : Restoring Z F P [] w) {u : World} {a : ActiveSegment} {c : Contents} (hu : Tidy Z F P u)
    (hs : u.s = { w.s with active := some a }) (hcur : u.fs.cur = w.fs.cur)
    (hc : Taking Z P u.fs a c) (hlt : a.id < w.s.nextID)
    (hone : ∀ id i, (.active id, i) ∈ w.fs.cur → id = a.id) : Genuine Z F P u := by
  obtain ⟨cs, hreps, hall⟩ := exists_layout fun g hg => (h.backed g hg).1
  have hids : u.s.ids = w.s.sealed.map SealedSegment.id ++ [a.id] := by
    rw [Store.ids, hs]
    rfl
  have hnodup := h.nodup
  rw [append_nil] at hnodup
  refine ⟨⟨hu, fun e he => ?_, fun _ b hb => ?_⟩, ⟨cs, some c⟩,
    ⟨⟨⟨by rw [hs]; exact hreps, ?_⟩, ?_, ?_, ?_, hu.sync⟩, ?_⟩, fun o ho => ?_⟩
  · rw [hs]
    rw [hcur] at he
    obtain ⟨n, j⟩ := e
    cases n with
    | sealed id => exact (h.listed id j he).resolve_left not_mem_nil
    | active id =>
      rw [hone id j he]
      exact hlt
  · rw [hs] at hb
    cases hb
    exact ⟨c, hc⟩
  · rw [hs]
    exact .some hc.rep
  · rw [hs]
    rintro b ⟨⟩
    exact hu.dir.lt _ hc.mem
  · rw [hids]
    refine nodup_append.mpr ⟨hnodup, nodup_singleton _, fun x hx y hy hxy => ?_⟩
    obtain ⟨i, hi⟩ := h.names x (mem_append_left _ hx)
    rw [← hcur] at hi
    have hid : x = a.id := hxy.trans (mem_singleton.mp hy)
    cases inj_on_of_nodup_map hu.dir.ids hi hc.mem hid
  · rw [hids, hs]
    intro id hid
    rcases mem_append.mp hid with hid | hid
    · obtain ⟨g, hg, rfl⟩ := mem_map.mp hid
      exact (h.backed g hg).2
    · rw [mem_singleton.mp hid]
      exact hlt
  · rw [hs]
    rintro - b ⟨⟩
    exact hu.dir.lookup.mpr hc.mem
  · obtain ⟨c', hc', hoc⟩ := Layout.mem_objects.mp ho
    rcases mem_append.mp hc' with hc' | hc'
    · exact hall c' hc' o hoc
    · rw [Option.toList_some, mem_singleton] at hc'
      rw [hc'] at hoc
      exact hc.objs o hoc

/-! ## The active segment -/

/-- What the scan makes of an active file: a sealed segment, a file without a header, or a run of records. -/
inductive Scanned (Z : Zstd) (F : FuseLib) (P : Object → Prop) (id : Nat) (b : Bytes) : ScanResult → Prop
  | whole : Entry Z F P (.sealed id) b → Scanned Z F P id b ⟨size, index, true⟩
  | fresh : size < magicHeader.length → Scanned Z F P id b ⟨size, ∅, false⟩
  | records {c : Contents} : (∀ o ∈ c.objs, P o) → IndexOk Z index c.objs → bodyOf Z c.objs <+: b →
    Scanned Z F P id b ⟨(bodyOf Z c.objs).length, index, false⟩

theorem scanActive_entry {id : Nat} {b : Bytes} (h : Entry Z F P (.active id) b) :
    Scanned Z F P id b (scanActive b) := by
  rcases h with rfl | ⟨c, hobjs, rfl | ⟨foot, rfl, hfoot, hne, hcount⟩⟩
  · exact .fresh (by decide)
  · obtain ⟨index, hindex, hscan⟩ := scanActive_body (Z := Z) (x := []) c.nodup c.fits
    rw [append_nil] at hscan
    rw [hscan, scanFrom_end (Nat.le_refl _)]
    exact .records hobjs hindex prefix_rfl
  · obtain ⟨index, hindex, hscan⟩ := scanActive_body (Z := Z) (x := foot) c.nodup c.fits
    obtain ⟨t, ht⟩ := buildFooter_head hfoot
    have hdrop : (bodyOf Z c.objs ++ foot).drop (bodyOf Z c.objs).length = tagSeal :: t := by
      rw [drop_left, ht]
    rw [hscan, scanFrom_seal hdrop]
    -- a footer that is refused is cut off
    cases parseFooter (bodyOf Z c.objs ++ foot) with
    | error e => exact .records hobjs hindex (prefix_append ..)
    | ok fv => exact .whole ⟨c, hobjs, foot, rfl, hfoot, hne, hcount⟩

theorem Restoring.bump (h : Restoring Z F P [] w) (id : Nat) {io : List (Option Nat)} (hio : Clean io) :
    Restoring Z F P [] { w with s := w.s.bump id, ioFaults := io } := by
  obtain ⟨-, hmono⟩ := w.s.lt_bump id
  refine ⟨⟨h.dir, hio, h.sync⟩, h.active, h.nodup, h.names, fun g hg => ?_, fun id' i hi => ?_⟩
  · obtain ⟨hb, hn⟩ := h.backed g hg
    exact ⟨hb, hmono _ hn⟩
  · exact (h.listed id' i hi).imp_right (hmono _)

/-- The outcome of opening a directory. -/
abbrev OpenPost (Z : Zstd) (F : FuseLib) (P : Object → Prop) : Except Err Unit → World → Prop :=
  Post (fun _ => Genuine Z F P) fun _ => Tidy Z F P

/-- The seal that was stopped before the rename is completed. -/
theorem completeSeal_genuine {id ino : Nat} (h : Restoring Z F P [] w) (hmem : (.active id, ino) ∈ w.fs.cur)
    (hone : ∀ id' i, (.active id', i) ∈ w.fs.cur → id' = id) (hlt : id < w.s.nextID)
    (hdata : Entry Z F P (.sealed id) (w.fs.files ino).data) :
    (do
      rename (.active id) (.sealed id)
      syncDir
      addSealed (← openSealed id) : M Unit).Gives (OpenPost Z F P) w := by
  have hdir := h.dir.rename hmem hdata
  have hsealed : (.sealed id, ino) ∈ (w.fs.rename (.active id) (.sealed id)).cur := by
    refine mem_map.mpr ⟨_, mem_filter.mpr ⟨hmem, decide_eq_true nofun⟩, ?_⟩
    rw [if_pos rfl]
  simp only [rename, wp_bind, wp_read, post_ok, h.dir.lookup.mpr hmem]
  refine wp_ioOp_clean h.io (fun io hio => ⟨trivial, ?_⟩) fun io hio => ⟨trivial, h.dir, hio, h.sync⟩
  refine wp_syncOp_clean (by exact h.sync) (fun sf hsf => ⟨trivial, ?_⟩) fun sf hsf => ⟨trivial, hdir, hio, hsf⟩
  have htidy : Tidy Z F P { w with
      fs := (w.fs.rename (.active id) (.sealed id)).syncDir, ioFaults := io, syncFaults := sf } :=
    ⟨hdir.syncDir, hio, hsf⟩
  refine (openSealed_backed htidy hsealed).post_mono fun r t ht => ?_
  obtain ⟨⟨ht, hfs, hs⟩, hseg⟩ := ht
  cases r with
  | error e => exact ht
  | ok seg =>
    obtain ⟨hback, hid⟩ := hseg seg rfl
    simp only [post_ok, addSealed, wp_setStore]
    refine h.add ⟨ht.dir, ht.io, ht.sync⟩ (by rw [hs]) hback (fun g hg heq => ?_) (hid ▸ hlt) fun e he => ?_
    · obtain ⟨i, hi⟩ := h.names g.id (mem_append_left _ (mem_map_of_mem hg))
      cases inj_on_of_nodup_map h.dir.ids hi hmem (heq.trans hid)
    · have he : e ∈ (w.fs.rename (.active id) (.sealed id)).cur := by
        rw [hfs] at he
        exact he
      rcases FS.mem_rename he with ⟨hn, -⟩ | ⟨he, hn⟩
      · rw [hid]
        exact .inl (Prod.ext hn rfl)
      · obtain ⟨n, j⟩ := e
        cases n with
        | sealed id' => exact .inr ⟨he, id', rfl⟩
        | active id' =>
          rw [hone id' j he] at hn
          exact absurd rfl hn

theorem Taking.of_setFile {id ino : Nat} {f : File} {c : Contents} {index : AList fun _ : Key => ActiveLoc}
    (hmem : (.active id, ino) ∈ fs.cur) (hobjs : ∀ o ∈ c.objs, P o) (hf : f.data = bodyOf Z c.objs)
    (hindex : IndexOk Z index c.objs) :
    Taking Z P (fs.setFile ino f) ⟨id, ino, (bodyOf Z c.objs).length, index⟩ c := by
  have hdata : ((fs.setFile ino f).files ino).data = bodyOf Z c.objs := by rw [FS.setFile_self, hf]
  refine ⟨hmem, hobjs, ⟨?_, rfl, hindex⟩, hdata⟩
  rw [hdata]

/-- The file is cut behind its records, or gets a header, and is resumed. -/
theorem resume_genuine {id ino : Nat} {res : ScanResult} {b : Bytes} (h : Restoring Z F P [] w)
    (hmem : (.active id, ino) ∈ w.fs.cur) (hone : ∀ id' i, (.active id', i) ∈ w.fs.cur → id' = id)
    (hlt : id < w.s.nextID) (hdata : (w.fs.files ino).data = b) (hres : Scanned Z F P id b res)
    (hopen : res.sealed = false) :
    (do
      openFile
      if res.size < magicHeader.length then
        truncate ino 0
        writeAt ino 0 magicHeader
        setStore fun s => { s with
          active := some { id, ino, size := magicHeader.length, index := res.index } }
      else
        truncate ino res.size
        setStore fun s => { s with active := some { id, ino, size := res.size, index := res.index } } :
      M Unit).Gives (OpenPost Z F P) w := by
  refine wp_bind.mpr (wp_ioOp_clean h.io (fun io hio => ⟨trivial, ?_⟩) fun io hio => ⟨trivial, h.dir, hio, h.sync⟩)
  cases hres with
  | whole => cases hopen
  | fresh hsize =>
    refine wp_ite (fun _ => ?_) fun hnot => absurd hsize hnot
    have hempty : Entry Z F P (.active id) ((w.fs.files ino).truncate 0).data := .inl rfl
    refine wp_bind.mpr (wp_ioOp_clean (by exact hio) (fun io hio => ⟨trivial, ?_⟩) fun io hio =>
      ⟨trivial, h.dir, hio, h.sync⟩)
    have hdir := h.dir.setFile_active hmem hempty
    have hheader : (((w.fs.setFile ino ((w.fs.files ino).truncate 0)).files ino).writeAt 0 magicHeader).data =
        bodyOf Z Contents.empty.objs := by
      rw [FS.setFile_self, Contents.empty, bodyOf_nil]
      rfl
    refine post_ok.mpr (wp_bind.mpr (wp_ioOp_clean (by exact hio) (fun io hio => ⟨trivial, ?_⟩) fun io hio =>
      ⟨trivial, ?_, hio, h.sync⟩))
    · refine wp_setStore.mpr ?_
      have hmem' : (.active id, ino) ∈ (w.fs.setFile ino ((w.fs.files ino).truncate 0)).cur := hmem
      have htaking := Taking.of_setFile (P := P) (c := .empty) hmem' (by rintro _ ⟨⟩) hheader .nil
      have hlen : (bodyOf Z Contents.empty.objs).length = magicHeader.length := by rw [Contents.empty, bodyOf_nil]
      rw [hlen] at htaking
      exact h.resume ⟨hdir.setFile_active hmem (.inr ⟨.empty, by rintro _ ⟨⟩, .inl hheader⟩), hio, h.sync⟩ rfl rfl
        htaking hlt hone
    · refine hdir.setFile_active hmem (.inl ?_)
      rw [FS.setFile_self]
      rfl
  | records hobjs hindex hpre =>
    rename_i index c
    refine wp_ite (fun hlt => ?_) fun _ => ?_
    · exact absurd (magicHeader_prefix_bodyOf Z c.objs).length_le (Nat.not_le.mpr hlt)
    have hcut : ((w.fs.files ino).truncate (bodyOf Z c.objs).length).data = bodyOf Z c.objs := by
      rw [← hdata] at hpre
      exact (prefix_iff_eq_take.mp hpre).symm
    refine wp_bind.mpr (wp_ioOp_clean (by exact hio) (fun io hio => ⟨trivial, ?_⟩) fun io hio =>
      ⟨trivial, h.dir, hio, h.sync⟩)
    refine wp_setStore.mpr ?_
    exact h.resume ⟨h.dir.setFile_active hmem (.inr ⟨c, hobjs, .inl hcut⟩), hio, h.sync⟩ rfl rfl
      (Taking.of_setFile hmem hobjs hcut hindex) hlt hone

theorem recoverActive_genuine {id ino : Nat} (h : Restoring Z F P [] w) (hmem : (.active id, ino) ∈ w.fs.cur)
    (hone : ∀ id' i, (.active id', i) ∈ w.fs.cur → id' = id) :
    (recoverActive id ino).Gives (OpenPost Z F P) w := by
  unfold recoverActive readFile
  simp only [wp_bind, wp_read, post_ok, h.dir.lookup.mpr hmem]
  refine wp_ioOp_clean h.io (fun io hio => ⟨trivial, ?_⟩) fun io hio => ⟨trivial, h.dir, hio, h.sync⟩
  refine .pure (post_ok.mpr ?_)
  simp only [bumpNextID, wp_setStore, post_ok]
  have hbump := h.bump id hio
  have hscan := scanActive_entry (h.dir.entry _ hmem)
  obtain ⟨hlt, -⟩ := w.s.lt_bump id
  refine wp_ite (fun hsealed => ?_) fun hopen => ?_
  · refine completeSeal_genuine hbump hmem hone hlt ?_
    generalize scanActive (w.fs.files ino).data = res at hscan hsealed
    cases hscan with
    | whole hentry => exact hentry
    | fresh => cases hsealed
    | records => cases hsealed
  · exact resume_genuine hbump hmem hone hlt rfl hscan (Bool.eq_false_iff.mpr hopen)

/-! ## The directory -/

theorem Sourced.nodup_sealedIDs (h : Sourced Z F P fs) : (sealedIDs (readDir fs.cur)).Nodup :=
  Packstore.nodup_sealedIDs (((mergeSort_perm fs.cur _).map _).nodup_iff.mpr h.names)

/-- `Open` yields a store of objects with `P`, or fails; the directory stays one of sourced files. -/
theorem openStore_genuine (cfg : Config) (h : Tidy Z F P w) :
    (openStore cfg).Gives (OpenPost Z F P) w := by
  unfold openStore load
  simp only [wp_bind, wp_setStore, post_ok, wp_read]
  have hstart : Restoring Z F P (sealedIDs (readDir w.fs.cur)) { w with s := .new cfg } := by
    refine ⟨⟨h.dir, h.io, h.sync⟩, rfl, h.dir.nodup_sealedIDs, fun id hid => ?_, by simp [Store.new], fun id i hi => .inl ?_⟩
    · obtain ⟨i, hi⟩ := mem_sealedIDs.mp hid
      exact ⟨i, mem_readDir.mp hi⟩
    · exact mem_sealedIDs.mpr ⟨i, mem_readDir.mpr hi⟩
  have hload := Wp.each (P := fun ids t => Restoring Z F P ids t ∧ t.fs = w.fs) (E := fun _ => Tidy Z F P)
    (f := loadSealed) (I := fun _ => True) ⟨hstart, rfl⟩ fun id ids t ht => ?_
  · refine hload.post_mono fun r t ht => ?_
    cases r with
    | error e => exact ht
    | ok _ =>
      obtain ⟨ht, hfs⟩ := ht
      have hsorted := ht.sorted
      simp only [post_ok]
      have hmem : ∀ p ∈ activePaths (readDir w.fs.cur), (.active p.1, p.2) ∈ t.fs.cur := by
        rw [hfs]
        exact fun p hp => mem_readDir.mp (mem_activePaths.mp hp)
      have hall : ∀ id i, (.active id, i) ∈ t.fs.cur → (id, i) ∈ activePaths (readDir w.fs.cur) := by
        rw [hfs]
        exact fun id i hi => mem_activePaths.mpr (mem_readDir.mpr hi)
      generalize activePaths (readDir w.fs.cur) = ps at hmem hall
      rcases ps with _ | ⟨⟨id, ino⟩, _ | ⟨q, ps⟩⟩
      · refine .pure (hsorted.genuine fun id i hi => ?_)
        exact not_mem_nil (hall id i hi)
      · refine recoverActive_genuine hsorted (hmem _ mem_cons_self) fun id' i hi => ?_
        have heq := mem_singleton.mp (hall id' i hi)
        exact congrArg Prod.fst heq
      · exact .throw ⟨ht.dir, ht.io, ht.sync⟩
  · obtain ⟨ht, hfs⟩ := ht
    refine (loadSealed_restoring ht).post_mono fun r u hu => ?_
    cases r with
    | error e => exact hu
    | ok _ => exact ⟨hu.1, hu.2.trans hfs⟩

end AmberStore.Packstore
