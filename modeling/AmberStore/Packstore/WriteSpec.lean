import AmberStore.Packstore.Rules

/-!
# The write path keeps the disk durable

Specifications of the write path when nothing but an fsync fails. `clean` says that not even an fsync
does. Each operation keeps `Good`, and every state it passes through is `Safe`: a crash there loses
none of the objects of `A`.
-/

namespace AmberStore.Packstore
open Bytes Amberpack Act List Function

/-- The invariant of a running store. A poisoned store keeps only the disk part. -/
structure Good (Z : Zstd) (F : FuseLib) (clean : Prop) (P A : Object → Prop) (w : World)
    (G : Written) : Prop where
  io : w.ioFaults = []
  sync : clean → w.syncFaults = []
  durable : Durable Z F P A w.fs G
  mounted : w.s.failed = none → Mounted Z F w.fs w.s G

/-- A crash in this state loses none of the objects of `A`. -/
def Safe (Z : Zstd) (F : FuseLib) (P A : Object → Prop) (w : World) : Prop :=
  ∃ G, Durable Z F P A w.fs G

variable {Z : Zstd} {F : FuseLib} {clean : Prop} {P A B : Object → Prop} {w : World} {G : Written}

theorem Good.safe (h : Good Z F clean P A w G) : Safe Z F P A w := ⟨G, h.durable⟩

theorem Good.mono (h : Good Z F clean P A w G) (hB : ∀ o, B o → A o) : Good Z F clean P B w G :=
  ⟨h.io, h.sync, h.durable.mono hB, h.mounted⟩

theorem Safe.mono (h : Safe Z F P A w) (hB : ∀ o, B o → A o) : Safe Z F P B w := by
  obtain ⟨G, hd⟩ := h
  exact ⟨G, hd.mono hB⟩

/-- The active file has a sealed name in no directory state. -/
theorem Mounted.not_sealed {fs : FS Name} {s : Store} (h : Mounted Z F fs s G)
    (hd : Durable Z F P A fs G) (ha : s.active = some a) :
    ∀ d ∈ fs.dirs, ∀ id, (Name.sealed id, a.ino) ∉ d := by
  intro d hdd id hs
  exact nomatch (hd.dirOk hdd).ino_inj hs (h.kept d hdd _ (h.active a ha).mem) rfl

/-! ## Creating the active segment -/

section Create
variable {fs : FS Name} {id : Nat}

/-- The inode of a new file has no name in an older directory state. -/
theorem Durable.next_not_mem (h : Durable Z F P A fs G) (hd : d ∈ fs.dirs) (n : Name) :
    (n, fs.next) ∉ d := fun hmem => Nat.lt_irrefl _ ((h.dirOk hd).lt _ hmem)

theorem Durable.create_not_sealed (h : Durable Z F P A fs G) :
    ∀ d ∈ (fs.create (.active id)).dirs, ∀ id', (Name.sealed id', fs.next) ∉ d := by
  intro d hd id' hs
  rcases mem_cons.mp hd with rfl | hd
  · rcases mem_append.mp hs with hs | hs
    · exact h.next_not_mem mem_cons_self _ hs
    · exact nomatch mem_singleton.mp hs
  · exact h.next_not_mem hd _ hs

/-- Removing the name of a new file gives the old directory back. -/
theorem remove_create (hid : ∀ e ∈ fs.cur, e.1.id ≠ id) :
    (fs.cur ++ [(Name.active id, fs.next)]).filter (fun e => e.1 ≠ .active id) = fs.cur := by
  rw [filter_append, filter_eq_self.mpr]
  · simp
  · intro e he
    rw [decide_eq_true_eq]
    rintro heq
    exact hid e he (by rw [heq]; rfl)

/-- Sealed segments keep their files when a new file is created. -/
theorem Mounted.update_next {s : Store} (h : Mounted Z F fs s G) (hd : Durable Z F P A fs G)
    (c : Contents) : ∀ g ∈ s.sealed, ∃ i, (Name.sealed g.id, i) ∈ fs.cur ∧
      SegRep Z F g (update G fs.next c i) := by
  intro g hg
  obtain ⟨i, hi, hrep⟩ := h.sealed g hg
  refine ⟨i, hi, ?_⟩
  rwa [update_of_ne (Nat.ne_of_lt (hd.cur.lt _ hi))]

theorem onDisk_update_next (hd : Durable Z F P A fs G) (c : Contents) :
    (∃ e ∈ fs.cur, o ∈ (update G fs.next c e.2).objs) ↔ OnDisk fs G o := by
  constructor
  · rintro ⟨e, he, ho⟩
    rw [update_of_ne (Nat.ne_of_lt (hd.cur.lt e he))] at ho
    exact ⟨e, he, ho⟩
  · rintro ⟨e, he, ho⟩
    refine ⟨e, he, ?_⟩
    rwa [update_of_ne (Nat.ne_of_lt (hd.cur.lt e he))]

end Create

/-- The file of a new active segment once its header is written. -/
def headerFile : File := ⟨magicHeader, 0, false⟩

theorem headerFile_ok : FileOk Z F headerFile .empty :=
  .of_body (Nat.zero_le _) (by rw [Contents.empty, bodyOf_nil]; exact prefix_rfl)

theorem empty_writeAt_header : File.empty.writeAt 0 magicHeader = headerFile := rfl

/-- The file system while a new active segment is prepared: its file is `f` so far. -/
def freshFS (fs : FS Name) (id : Nat) (f : File) : FS Name :=
  (fs.create (.active id)).setFile fs.next f

section Fresh
variable {fs : FS Name} {s : Store}

theorem create_eq_freshFS (fs : FS Name) (id : Nat) :
    fs.create (.active id) = freshFS fs id .empty :=
  (FS.setFile_eq_self _ (FS.create_files_next fs _)).symm

@[simp] theorem freshFS_files (fs : FS Name) (id : Nat) (f : File) :
    (freshFS fs id f).files fs.next = f := FS.setFile_self ..

@[simp] theorem freshFS_setFile (fs : FS Name) (id : Nat) (f f' : File) :
    (freshFS fs id f).setFile fs.next f' = freshFS fs id f' := FS.setFile_setFile ..

theorem Mounted.fresh (h : Mounted Z F fs s G) : ∀ e ∈ fs.cur, e.1.id ≠ s.nextID :=
  fun e he => Nat.ne_of_lt (h.next e he)

theorem Mounted.fresh_durable (h : Mounted Z F fs s G) (hd : Durable Z F P A fs G)
    (ha : s.active = none) (hf : FileOk Z F f .empty) :
    Durable Z F P A (freshFS fs s.nextID f) (update G fs.next .empty) := by
  refine (hd.create h.fresh (h.idle ha)).setFile_same hd.create_not_sealed ?_ ?_
  · rwa [update_self]
  · rw [FS.create_files_next]
    exact Nat.zero_le _

theorem Mounted.fresh_undo (h : Mounted Z F fs s G) (hd : Durable Z F P A fs G)
    (ha : s.active = none) (hf : FileOk Z F f .empty) :
    Durable Z F P A ((freshFS fs s.nextID f).remove (.active s.nextID))
      (update G fs.next .empty) ∧
    Mounted Z F ((freshFS fs s.nextID f).remove (.active s.nextID))
      { s with nextID := s.nextID + 1 } (update G fs.next .empty) ∧
    ∀ o, OnDisk ((freshFS fs s.nextID f).remove (.active s.nextID))
      (update G fs.next .empty) o ↔ OnDisk fs G o := by
  have hrem : (freshFS fs s.nextID f).remove (.active s.nextID) =
      (freshFS fs s.nextID f).setDir fs.cur := congrArg _ (remove_create h.fresh)
  have hfd := h.fresh_durable hd ha hf
  obtain ⟨hok, hA⟩ := hfd.dirs fs.cur (mem_cons_of_mem _ mem_cons_self)
  rw [hrem]
  refine ⟨hfd.setDir hok hA, ?_, fun o => onDisk_update_next hd .empty⟩
  exact {
    closed := h.closed
    ids := h.ids
    sealed := h.update_next hd .empty
    listed := h.listed
    active := fun a ha' => by rw [ha] at ha'; cases ha'
    idle := fun _ => h.idle ha
    kept := by
      intro d hd e he
      rcases mem_cons.mp hd with rfl | hd
      · exact he
      rcases mem_cons.mp hd with rfl | hd
      · exact mem_append_left _ he
      · exact h.kept d hd e he
    next := fun e he => Nat.lt_succ_of_lt (h.next e he) }

/-- The new active segment is published once the directory is synced. -/
theorem Mounted.fresh_publish (h : Mounted Z F fs s G) (hd : Durable Z F P A fs G)
    (hf : f = ⟨magicHeader, n, false⟩) :
    Mounted Z F (freshFS fs s.nextID f).syncDir
      { s with nextID := s.nextID + 1, active := some ⟨s.nextID, fs.next, magicHeader.length, ∅⟩ }
      (update G fs.next .empty) where
  closed := h.closed
  ids := h.ids
  sealed := by
    intro g hg
    obtain ⟨i, hi, hrep⟩ := h.update_next hd .empty g hg
    exact ⟨i, mem_append_left _ hi, hrep⟩
  listed := by
    intro id i hi
    rcases mem_append.mp hi with hi | hi
    · exact h.listed id i hi
    · exact nomatch mem_singleton.mp hi
  active := by
    intro a ha
    cases ha
    have hfile : (freshFS fs s.nextID f).syncDir.files fs.next = f := freshFS_files ..
    refine ⟨mem_append_right _ mem_cons_self, ?_, ?_, ?_, ?_⟩
    · rw [hfile, update_self, Contents.empty, bodyOf_nil, hf]
    · rw [hfile, hf]
    · rw [update_self, Contents.empty, bodyOf_nil]
    · rw [update_self]
      exact .nil
  idle := fun h => nomatch h
  kept := by
    intro d hd e he
    rw [FS.syncDir_dirs, mem_singleton] at hd
    rw [hd]
    exact he
  next := by
    intro e he
    rcases mem_append.mp he with he | he
    · exact Nat.lt_succ_of_lt (h.next e he)
    · rw [mem_singleton.mp he]
      exact Nat.lt_succ_self _

end Fresh

theorem createActive_spec (h : Good Z F clean P A w G) (hf : w.s.failed = none)
    (ha : w.s.active = none) : createActive.Wp (Safe Z F P A) (Post
      (fun a w' => ∃ G', Good Z F clean P A w' G' ∧ G' a.ino = .empty ∧
        w'.s = { w.s with nextID := w.s.nextID + 1, active := some a } ∧
        ∀ o, OnDisk w'.fs G' o ↔ OnDisk w.fs G o)
      (fun _ w' => ¬clean ∧ ∃ G', Good Z F clean P A w' G' ∧
        w'.s = { w.s with nextID := w.s.nextID + 1 } ∧
        ∀ o, OnDisk w'.fs G' o ↔ OnDisk w.fs G o)) w := by
  have hm := h.mounted hf
  have hdur {f : File} (hf : FileOk Z F f .empty) :=
    hm.fresh_durable h.durable ha hf
  have hfree : FS.lookup w.fs.cur (.active w.s.nextID) = none :=
    FS.lookup_eq_none.mpr fun i hi => hm.fresh _ hi rfl
  have hsynced : FileOk Z F ⟨magicHeader, magicHeader.length, false⟩ .empty := headerFile_ok.fsync
  unfold createActive
  simp only [wp_bind, wp_getStore, post_ok, wp_setStore, wp_attempt]
  refine wp_create (by exact h.io) (by exact hfree) ?_ ?_
  · exact ⟨_, h.durable.create hm.fresh (hm.idle ha)⟩
  simp only [post_ok, create_eq_freshFS]
  refine wp_writeAt (by exact h.io) ?_ ?_ <;>
    simp only [freshFS_files, freshFS_setFile, empty_writeAt_header]
  · exact ⟨_, hdur headerFile_ok⟩
  -- what is left to do when an fsync fails: take the name away
  have hundo : ∀ f sf, ¬clean → FileOk Z F f .empty →
      (remove (.active w.s.nextID)).Wp (Safe Z F P A) (fun _ w' =>
        ¬clean ∧ ∃ G', Good Z F clean P A w' G' ∧ w'.s = { w.s with nextID := w.s.nextID + 1 } ∧
          ∀ o, OnDisk w'.fs G' o ↔ OnDisk w.fs G o)
      ⟨freshFS w.fs w.s.nextID f, { w.s with nextID := w.s.nextID + 1 }, w.ioFaults, sf⟩ := by
    intro f sf hdirty hf
    obtain ⟨hd, hmount, hdisk⟩ := hm.fresh_undo h.durable ha hf
    refine wp_remove (i := w.fs.next) (by exact h.io) ?_ ⟨_, hd⟩
      ⟨hdirty, _, ⟨h.io, fun hc => absurd hc hdirty, hd, fun _ => hmount⟩, rfl, hdisk⟩
    exact ((hdur hf).dirOk mem_cons_self).lookup
      (mem_append_right _ mem_cons_self)
  refine wp_syncOp ?_ ?_ <;> simp only [freshFS_files, freshFS_setFile]
  · intro sf hsf
    refine ⟨⟨_, hdur hsynced⟩, post_ok.mpr (wp_syncOp ?_ ?_)⟩
    · intro sf' hsf'
      refine ⟨⟨_, (hdur hsynced).syncDir⟩, ?_⟩
      simp only [wp_bind, wp_setStore, post_ok, wp_pure]
      refine ⟨_, ⟨h.io, fun hc => hsf' (hsf (h.sync hc)), (hdur hsynced).syncDir,
        fun _ => hm.fresh_publish h.durable rfl⟩, update_self .., trivial, fun o => ?_⟩
      rw [← onDisk_update_next h.durable .empty]
      constructor
      · rintro ⟨e, he, ho⟩
        rcases mem_append.mp he with he | he
        · exact ⟨e, he, ho⟩
        · rw [mem_singleton.mp he, update_self] at ho
          cases ho
      · rintro ⟨e, he, ho⟩
        exact ⟨e, mem_append_left _ he, ho⟩
    · intro hne n sf'
      refine ⟨⟨_, hdur hsynced⟩, wp_bind.mpr (wp_attempt.mpr ?_)⟩
      exact (hundo _ sf' (fun hc => hne (hsf (h.sync hc))) hsynced).post_mono
        fun _ _ ht => .throw ht
  · intro hne n sf
    have hok := headerFile_ok (Z := Z) (F := F) |>.fsyncFail n
    refine ⟨⟨_, hdur hok⟩, post_error.mpr (Wp.post_mono
      (hundo _ sf (fun hc => hne (h.sync hc)) hok) ?_)⟩
    exact fun _ _ ht => .throw ht

end AmberStore.Packstore
