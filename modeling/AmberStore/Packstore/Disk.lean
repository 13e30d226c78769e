import AmberStore.Packstore.Scan

/-!
# What is on disk

`Durable` says what every crash keeps: in each directory state a crash can leave, sealed names stand
for complete synced segment files, at most one name is active and stands for a prefix of a segment
file, and each of a set of objects has a record in the synced part of some file. `Mounted` ties the
memory of a running store to the directory.
-/

namespace AmberStore.Packstore
open Bytes Amberpack List Function

/-- The contents each inode's file is written from. -/
abbrev Written := Nat → Contents

section Files
variable (Z : Zstd) (F : FuseLib)

/-- A segment file in the course of its life. A footer is only written to a sealable segment. -/
structure FileOk (f : File) (c : Contents) : Prop where
  synced : f.synced ≤ f.data.length
  data : f.data <+: sealedFile Z F c
  sealable : (bodyOf Z c.objs).length < f.data.length → Sealable c

/-- A complete and durable segment file. -/
structure FileSealed (f : File) (c : Contents) : Prop where
  sealable : Sealable c
  data : f.data = sealedFile Z F c
  synced : f.synced = f.data.length

/-- The record of `o` lies in the synced part of the file. -/
def Covered (f : File) (c : Contents) (o : Object) : Prop :=
  ∃ done rest, c.objs = done ++ rest ∧ o ∈ done ∧ (bodyOf Z done).length ≤ f.synced

/-- A directory state a crash can leave. -/
structure DirOk (fs : FS Name) (G : Written) (d : Directory Name) : Prop where
  ids : (d.map fun e => e.1.id).Nodup
  inos : (d.map Prod.snd).Nodup
  lt : ∀ e ∈ d, e.2 < fs.next
  sealed : ∀ id i, (.sealed id, i) ∈ d → FileSealed Z F (fs.files i) (G i)
  active : ∀ id i, (.active id, i) ∈ d → FileOk Z F (fs.files i) (G i)
  one : ∀ a b i j, (.active a, i) ∈ d → (.active b, j) ∈ d → a = b

/-- Every crash leaves a good directory that holds the objects of `A`. All records ever written
satisfy `P`. -/
structure Durable (P A : Object → Prop) (fs : FS Name) (G : Written) : Prop where
  objs : ∀ i, ∀ o ∈ (G i).objs, P o
  dirs : ∀ d ∈ fs.dirs, DirOk Z F fs G d ∧
    ∀ o, A o → ∃ e ∈ d, Covered Z (fs.files e.2) (G e.2) o

/-- An active segment, its name and its file agree. -/
structure ActiveOk (fs : FS Name) (a : ActiveSegment) (c : Contents) : Prop where
  mem : (.active a.id, a.ino) ∈ fs.cur
  data : (fs.files a.ino).data = bodyOf Z c.objs
  torn : (fs.files a.ino).torn = false
  size : a.size = (bodyOf Z c.objs).length
  index : IndexOk Z a.index c.objs

/-- The mapped segments of an open store are those of the sealed names. -/
structure SealedOk (fs : FS Name) (s : Store) (G : Written) : Prop where
  closed : s.closed = false
  ids : (s.sealed.map SealedSegment.id).Nodup
  sealed : ∀ g ∈ s.sealed, ∃ i, (.sealed g.id, i) ∈ fs.cur ∧ SegRep Z F g (G i)
  listed : ∀ id i, (.sealed id, i) ∈ fs.cur → ∃ g ∈ s.sealed, g.id = id

/-- The memory of a running store agrees with the directory, and what the directory holds is in
every directory state a crash can leave. -/
structure Mounted (fs : FS Name) (s : Store) (G : Written) : Prop
    extends SealedOk Z F fs s G where
  active : ∀ a, s.active = some a → ActiveOk Z fs a (G a.ino)
  idle : s.active = none → ∀ id i, (.active id, i) ∉ fs.cur
  kept : ∀ d ∈ fs.dirs, ∀ e ∈ fs.cur, e ∈ d
  next : ∀ e ∈ fs.cur, e.1.id < s.nextID

end Files

variable {Z : Zstd} {F : FuseLib} {P A B : Object → Prop} {fs : FS Name} {s : Store} {G : Written}

/-! ## Files -/

theorem FileSealed.fileOk (h : FileSealed Z F f c) : FileOk Z F f c :=
  ⟨h.synced.le, h.data ▸ prefix_rfl, fun _ => h.sealable⟩

theorem FileSealed.covered (h : FileSealed Z F f c) (ho : o ∈ c.objs) : Covered Z f c o := by
  refine ⟨c.objs, [], by simp, ho, ?_⟩
  rw [h.synced, h.data, sealedFile, length_append]
  exact Nat.le_add_right ..

theorem FileOk.fsync (h : FileOk Z F f c) : FileOk Z F f.fsync c := by
  unfold File.fsync
  split
  · exact h
  · exact ⟨Nat.le_refl _, h.data, h.sealable⟩

theorem FileOk.fsyncFail (h : FileOk Z F f c) (n : Nat) : FileOk Z F (f.fsyncFail n) c := by
  refine ⟨?_, ( take_prefix ..).trans h.data, fun hlt => h.sealable ?_⟩
  · have := h.synced
    simp only [File.fsyncFail, length_take]
    omega
  · have hle : (f.data.take (max f.synced (f.data.length - n))).length ≤ f.data.length := by
      rw [length_take]; exact Nat.min_le_right ..
    exact Nat.lt_of_lt_of_le hlt hle

theorem FileOk.synced_fsync (h : FileOk Z F f c) : f.synced ≤ f.fsync.synced := by
  unfold File.fsync
  split
  · exact Nat.le_refl _
  · exact h.synced

theorem FileOk.of_body (hs : f.synced ≤ f.data.length) (hd : f.data <+: bodyOf Z c.objs) :
    FileOk Z F f c :=
  ⟨hs, hd.trans (prefix_append ..), fun h => absurd hd.length_le (Nat.not_le.mpr h)⟩

/-- More records and a longer synced part keep what is covered. -/
theorem Covered.mono (h : Covered Z f c o) (hc : c.objs <+: c'.objs) (hf : f.synced ≤ f'.synced) :
    Covered Z f' c' o := by
  obtain ⟨done, rest, hobjs, ho, hlen⟩ := h
  obtain ⟨t, ht⟩ := hc
  exact ⟨done, rest ++ t, by rw [← ht, hobjs, append_assoc], ho, Nat.le_trans hlen hf⟩

/-- All records of a file that is synced beyond its body are covered. -/
theorem Covered.of_synced (ho : o ∈ c.objs) (h : (bodyOf Z c.objs).length ≤ f.synced) :
    Covered Z f c o := ⟨c.objs, [], by simp, ho, h⟩

/-! ## Directories -/

namespace DirOk
variable {d : Directory Name}

section
variable (h : DirOk Z F fs G d)
include h

theorem name_inj {e e' : Name × Nat} (he : e ∈ d) (he' : e' ∈ d)
    (hid : e.1.id = e'.1.id) : e = e' := inj_on_of_nodup_map h.ids he he' hid

theorem ino_inj {e e' : Name × Nat} (he : e ∈ d) (he' : e' ∈ d)
    (hi : e.2 = e'.2) : e = e' := inj_on_of_nodup_map h.inos he he' hi

theorem congr {fs' : FS Name} {G' : Written} (hn : fs.next ≤ fs'.next)
    (hf : ∀ e ∈ d, fs'.files e.2 = fs.files e.2) (hG : ∀ e ∈ d, G' e.2 = G e.2) :
    DirOk Z F fs' G' d where
  ids := h.ids
  inos := h.inos
  lt := fun e he => Nat.lt_of_lt_of_le (h.lt e he) hn
  sealed := by
    intro id i hi
    rw [hf _ hi, hG _ hi]
    exact h.sealed id i hi
  active := by
    intro id i hi
    rw [hf _ hi, hG _ hi]
    exact h.active id i hi
  one := h.one

theorem fileOk {e : Name × Nat} (he : e ∈ d) :
    FileOk Z F (fs.files e.2) (G e.2) := by
  obtain ⟨n, i⟩ := e
  cases n with
  | sealed id => exact (h.sealed id i he).fileOk
  | active id => exact h.active id i he

theorem setFile {i : Nat} (hi : ∀ id, (Name.sealed id, i) ∉ d) {f : File}
    {c : Contents} (hf : FileOk Z F f c) :
    DirOk Z F (fs.setFile i f) (update G i c) d where
  ids := h.ids
  inos := h.inos
  lt := h.lt
  sealed := by
    intro id' j hj
    have hne : j ≠ i := fun hji => hi id' (hji ▸ hj)
    rw [FS.setFile_ne _ _ hne, update_of_ne hne]
    exact h.sealed id' j hj
  active := by
    intro id' j hj
    by_cases hji : j = i
    · subst hji
      rw [FS.setFile_self, update_self]
      exact hf
    · rw [FS.setFile_ne _ _ hji, update_of_ne hji]
      exact h.active id' j hj
  one := h.one

/-- A new name for a file that has none, in a directory without an active name. -/
theorem snoc {id i : Nat} (hid : ∀ e ∈ d, e.1.id ≠ id)
    (hi : ∀ e ∈ d, e.2 ≠ i) (hlt : i < fs.next) (hone : ∀ id i, (Name.active id, i) ∉ d)
    (hf : FileOk Z F (fs.files i) (G i)) : DirOk Z F fs G (d ++ [(.active id, i)]) where
  ids := by
    rw [map_append, nodup_append]
    refine ⟨h.ids, nodup_singleton _, ?_⟩
    rintro a ha b hb rfl
    obtain ⟨e, he, rfl⟩ := mem_map.mp ha
    exact hid e he (mem_singleton.mp hb)
  inos := by
    rw [map_append, nodup_append]
    refine ⟨h.inos, nodup_singleton _, ?_⟩
    rintro a ha b hb rfl
    obtain ⟨e, he, rfl⟩ := mem_map.mp ha
    exact hi e he (mem_singleton.mp hb)
  lt := by
    intro e he
    rcases mem_append.mp he with he | he
    · exact h.lt e he
    · obtain rfl := mem_singleton.mp he
      exact hlt
  sealed := by
    intro id' j hj
    rcases mem_append.mp hj with hj | hj
    · exact h.sealed id' j hj
    · exact nomatch mem_singleton.mp hj
  active := by
    intro id' j hj
    rcases mem_append.mp hj with hj | hj
    · exact h.active id' j hj
    · cases mem_singleton.mp hj
      exact hf
  one := by
    intro a b i j ha hb
    rcases mem_append.mp ha with ha | ha
    · exact absurd ha (hone a i)
    rcases mem_append.mp hb with hb | hb
    · exact absurd hb (hone b j)
    cases mem_singleton.mp ha
    cases mem_singleton.mp hb
    rfl

end

end DirOk

/-! ## Durable states -/

theorem objs_update (h : ∀ i, ∀ o ∈ (G i).objs, P o) (hc : ∀ o ∈ c.objs, P o) (i : Nat) :
    ∀ j, ∀ o ∈ (update G i c j).objs, P o := by
  intro j o ho
  by_cases hj : j = i
  · subst hj
    rw [update_self] at ho
    exact hc o ho
  · rw [update_of_ne hj] at ho
    exact h j o ho

namespace Durable

section
variable (h : Durable Z F P A fs G)
include h

theorem mono (hB : ∀ o, B o → A o) : Durable Z F P B fs G :=
  ⟨h.objs, fun d hd => ⟨(h.dirs d hd).1, fun o ho => (h.dirs d hd).2 o (hB o ho)⟩⟩

theorem dirOk (hd : d ∈ fs.dirs) : DirOk Z F fs G d := (h.dirs d hd).1

theorem cur : DirOk Z F fs G fs.cur := h.dirOk mem_cons_self

/-- Replacing a file that has a sealed name in no directory state. -/
theorem setFile {i : Nat}
    (hi : ∀ d ∈ fs.dirs, ∀ id, (Name.sealed id, i) ∉ d) {f : File} {c : Contents}
    (hf : FileOk Z F f c) (hP : ∀ o ∈ c.objs, P o)
    (hcov : ∀ o, Covered Z (fs.files i) (G i) o → Covered Z f c o) :
    Durable Z F P A (fs.setFile i f) (update G i c) := by
  refine ⟨objs_update h.objs hP _, fun d hd => ⟨(h.dirOk hd).setFile (hi d hd) hf, fun o ho => ?_⟩⟩
  obtain ⟨e, he, hc⟩ := (h.dirs d hd).2 o ho
  refine ⟨e, he, ?_⟩
  by_cases hei : e.2 = i
  · rw [hei] at hc ⊢
    rw [FS.setFile_self, update_self]
    exact hcov o hc
  · rw [FS.setFile_ne _ _ hei, update_of_ne hei]
    exact hc

theorem setFile_same {i : Nat}
    (hi : ∀ d ∈ fs.dirs, ∀ id, (Name.sealed id, i) ∉ d) {f : File} (hf : FileOk Z F f (G i))
    (hs : (fs.files i).synced ≤ f.synced) : Durable Z F P A (fs.setFile i f) G := by
  have := h.setFile hi hf (h.objs i) fun o ho => ho.mono prefix_rfl hs
  rwa [update_eq_self] at this

theorem syncDir : Durable Z F P A fs.syncDir G := by
  refine ⟨h.objs, fun d hd => ?_⟩
  obtain rfl := mem_singleton.mp hd
  obtain ⟨hok, hA⟩ := h.dirs fs.cur mem_cons_self
  exact ⟨hok.congr (Nat.le_refl _) (fun _ _ => rfl) fun _ _ => rfl, hA⟩

theorem setDir (hd : DirOk Z F fs G d)
    (hA : ∀ o, A o → ∃ e ∈ d, Covered Z (fs.files e.2) (G e.2) o) :
    Durable Z F P A (fs.setDir d) G := by
  refine ⟨h.objs, fun d' hd' => ?_⟩
  rcases mem_cons.mp hd' with rfl | hd'
  · exact ⟨hd.congr (Nat.le_refl _) (fun _ _ => rfl) fun _ _ => rfl, hA⟩
  · obtain ⟨hok, hA'⟩ := h.dirs d' hd'
    exact ⟨hok.congr (Nat.le_refl _) (fun _ _ => rfl) fun _ _ => rfl, hA'⟩

theorem setNext (f : File) (c : Contents) (hP : ∀ o ∈ c.objs, P o) :
    Durable Z F P A { fs.setFile fs.next f with next := fs.next + 1 }
      (update G fs.next c) := by
  refine ⟨objs_update h.objs hP _, fun d hd => ?_⟩
  obtain ⟨hok, hA⟩ := h.dirs d hd
  have hne : ∀ e ∈ d, e.2 ≠ fs.next := fun e he => Nat.ne_of_lt (hok.lt e he)
  refine ⟨hok.congr (Nat.le_succ _) (fun e he => FS.setFile_ne _ _ (hne e he))
    fun e he => update_of_ne (hne e he) .., fun o ho => ?_⟩
  obtain ⟨e, he, hc⟩ := hA o ho
  refine ⟨e, he, ?_⟩
  change Covered Z ((fs.setFile fs.next f).files e.2) _ o
  rw [FS.setFile_ne _ _ (hne e he), update_of_ne (hne e he)]
  exact hc

theorem create {id : Nat} (hid : ∀ e ∈ fs.cur, e.1.id ≠ id)
    (hone : ∀ id i, (Name.active id, i) ∉ fs.cur) :
    Durable Z F P A (fs.create (.active id)) (update G fs.next .empty) := by
  have hnext := h.setNext .empty .empty nofun
  obtain ⟨hok, hA⟩ := hnext.dirs fs.cur mem_cons_self
  have hne : ∀ e ∈ fs.cur, e.2 ≠ fs.next := fun e he => Nat.ne_of_lt (h.cur.lt e he)
  have hfile : FileOk Z F .empty .empty := .of_body (Nat.le_refl _) nil_prefix
  refine hnext.setDir (hok.snoc hid hne (Nat.lt_succ_self _) hone ?_) ?_
  · rw [update_self]
    change FileOk Z F ((fs.setFile fs.next .empty).files fs.next) _
    rwa [FS.setFile_self]
  · intro o ho
    obtain ⟨e, he, hc⟩ := hA o ho
    exact ⟨e, mem_append_left _ he, hc⟩

end

end Durable

/-! ## The layout of a mounted store -/

/-- The contents of the segment file under a name. -/
def contentsAt (G : Written) (d : Directory Name) (n : Name) : Contents :=
  match FS.lookup d n with
  | some i => G i
  | none => .empty

def layoutOf (fs : FS Name) (s : Store) (G : Written) : Layout where
  sealed := s.sealed.map fun g => contentsAt G fs.cur (.sealed g.id)
  active := s.active.map fun a => G a.ino

/-- The objects in the files of the directory. -/
def OnDisk (fs : FS Name) (G : Written) (o : Object) : Prop := ∃ e ∈ fs.cur, o ∈ (G e.2).objs

theorem nodup_names {d : Directory Name} (h : (d.map fun e => e.1.id).Nodup) :
    (d.map Prod.fst).Nodup := by
  have hids : ((d.map Prod.fst).map Name.id).Nodup := by
    rw [map_map]
    exact h
  exact hids.of_map

theorem DirOk.names (h : DirOk Z F fs G d) : (d.map Prod.fst).Nodup := nodup_names h.ids

theorem DirOk.lookup (h : DirOk Z F fs G d) (hi : (n, i) ∈ d) : FS.lookup d n = some i :=
  (FS.lookup_eq_some h.names).mpr hi

theorem DirOk.contentsAt (h : DirOk Z F fs G d) (hi : (n, i) ∈ d) : contentsAt G d n = G i := by
  rw [Packstore.contentsAt, h.lookup hi]

namespace Mounted

theorem activeRep (h : Mounted Z F fs s G) (ha : s.active = some a) :
    ActiveRep Z fs a (G a.ino) := by
  have hok := h.active a ha
  exact ⟨hok.data ▸ prefix_rfl, hok.size, hok.index⟩

theorem rep (h : Mounted Z F fs s G) (hd : DirOk Z F fs G fs.cur) :
    Rep Z F fs s (layoutOf fs s G) where
  sealed := by
    refine List.forall₂_map_right_iff.mpr (List.forall₂_same.mpr fun g hg => ?_)
    obtain ⟨i, hi, hrep⟩ := h.sealed g hg
    rw [hd.contentsAt hi]
    exact hrep
  active := by
    unfold layoutOf
    cases ha : s.active with
    | none => exact .none
    | some a => exact .some (h.activeRep ha)

/-- The layout holds exactly the objects of the files in the directory. -/
theorem mem_objects (h : Mounted Z F fs s G) (hd : DirOk Z F fs G fs.cur) :
    o ∈ (layoutOf fs s G).objects ↔ OnDisk fs G o := by
  simp only [Layout.mem_objects, Layout.segs, layoutOf, mem_append, mem_map,
    Option.mem_toList, Option.map_eq_some_iff]
  constructor
  · rintro ⟨c, ⟨g, hg, rfl⟩ | ⟨a, ha, rfl⟩, ho⟩
    · obtain ⟨i, hi, -⟩ := h.sealed g hg
      rw [hd.contentsAt hi] at ho
      exact ⟨_, hi, ho⟩
    · exact ⟨_, (h.active a ha).mem, ho⟩
  · rintro ⟨⟨n, i⟩, he, ho⟩
    cases n with
    | sealed id =>
      obtain ⟨g, hg, rfl⟩ := h.listed id i he
      exact ⟨_, .inl ⟨g, hg, rfl⟩, by rwa [hd.contentsAt he]⟩
    | active id =>
      cases ha : s.active with
      | none => exact absurd he (h.idle ha id i)
      | some a =>
        have hmem := (h.active a ha).mem
        have hid := hd.one _ _ _ _ he hmem
        have := hd.name_inj he hmem hid
        cases this
        exact ⟨_, .inr ⟨a, rfl, rfl⟩, ho⟩

end Mounted
end AmberStore.Packstore
