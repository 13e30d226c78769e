import AmberStore.Packstore.MapRefinement
import AmberStore.Packstore.Sessions

/-!
# Sealed names and durability

A file gets the name of a sealed segment when all its bytes are durable, on the write path and, if the
footer of a seal that a kill has stopped was durable, in recovery.
-/

namespace AmberStore.Packstore
open Bytes Amberpack Act List

/-- Every byte of the file is covered by an fsync. -/
def AllSynced (f : File) : Prop := f.synced = f.data.length

/-- Files under the name of a sealed segment, in any directory state that a crash can leave, are
durable, and they are never active again. -/
structure Whole (fs : FS Name) : Prop where
  below : ∀ d ∈ fs.dirs, ∀ e ∈ d, e.2 < fs.next
  inj : ∀ e ∈ fs.cur, ∀ e' ∈ fs.cur, e.2 = e'.2 → e.1 = e'.1
  moved : ∀ d ∈ fs.dirs, ∀ id i, (.sealed id, i) ∈ d → ∀ id', (.active id', i) ∉ fs.cur
  durable : ∀ d ∈ fs.dirs, ∀ id i, (.sealed id, i) ∈ d → AllSynced (fs.files i)

/-- No directory state has the file under the name of a sealed segment. -/
def Unsealed (fs : FS Name) (i : Nat) : Prop := ∀ d ∈ fs.dirs, ∀ id, (.sealed id, i) ∉ d

/-- The file of an active segment that takes appends. -/
structure Mine (id ino : Nat) (fs : FS Name) : Prop where
  lt : ino < fs.next
  torn : (fs.files ino).torn = false
  unsealed : Unsealed fs ino
  only : ∀ i, (.active id, i) ∈ fs.cur → i = ino

namespace Whole
variable {fs : FS Name}

/-- Any change of a file that is not under a sealed name, and any that keeps a durable one durable. -/
theorem setFile (h : Whole fs) {i : Nat} {f : File}
    (hf : Unsealed fs i ∨ (AllSynced (fs.files i) → AllSynced f)) :
    Whole (fs.setFile i f) where
  below := h.below
  inj := h.inj
  moved := h.moved
  durable d hd id j hj := by
    by_cases hij : j = i
    · rw [hij, FS.setFile_self]
      subst hij
      rcases hf with hf | hf
      · exact absurd hj (hf d hd id)
      · exact hf (h.durable d hd id j hj)
    · rw [FS.setFile_ne _ _ hij]
      exact h.durable d hd id j hj

theorem syncDir (h : Whole fs) : Whole fs.syncDir where
  below d hd := by
    rw [FS.syncDir_dirs, mem_singleton] at hd
    exact hd ▸ h.below _ mem_cons_self
  inj := h.inj
  moved d hd := by
    rw [FS.syncDir_dirs, mem_singleton] at hd
    exact hd ▸ h.moved _ mem_cons_self
  durable d hd := by
    rw [FS.syncDir_dirs, mem_singleton] at hd
    exact hd ▸ h.durable _ mem_cons_self

theorem remove (h : Whole fs) (n : Name) : Whole (fs.remove n) := by
  have hsub : ∀ e ∈ (fs.remove n).cur, e ∈ fs.cur := fun e he => mem_of_mem_filter he
  refine ⟨fun d hd e he => ?_, fun e he e' he' => h.inj e (hsub e he) e' (hsub e' he'),
    fun d hd id i hi id' hi' => ?_, fun d hd id i hi => ?_⟩
  · rcases mem_cons.mp hd with rfl | hd
    · exact h.below _ mem_cons_self e (hsub e he)
    · exact h.below d hd e he
  · rcases mem_cons.mp hd with rfl | hd
    · exact h.moved _ mem_cons_self id i (hsub _ hi) id' (hsub _ hi')
    · exact h.moved d hd id i hi id' (hsub _ hi')
  · rcases mem_cons.mp hd with rfl | hd
    · exact h.durable _ mem_cons_self id i (hsub _ hi)
    · exact h.durable d hd id i hi

theorem create (h : Whole fs) (id : Nat) : Whole (fs.create (.active id)) := by
  have hlt : ∀ d ∈ fs.dirs, ∀ e ∈ d, e.2 ≠ fs.next := fun d hd e he => (h.below d hd e he).ne
  -- a sealed name of the new directory is one of the old directory
  have hsealed : ∀ d ∈ (fs.create (.active id)).dirs, ∀ j i, (.sealed j, i) ∈ d →
      ∃ d' ∈ fs.dirs, (.sealed j, i) ∈ d' := by
    intro d hd j i hi
    rcases mem_cons.mp hd with rfl | hd
    · rcases FS.mem_create hi with hi | hi
      · exact ⟨_, mem_cons_self, hi⟩
      · cases hi
    · exact ⟨d, hd, hi⟩
  refine ⟨fun d hd e he => ?_, fun e he e' he' heq => ?_, fun d hd j i hi id' hi' => ?_,
    fun d hd j i hi => ?_⟩
  · rcases mem_cons.mp hd with rfl | hd
    · rcases FS.mem_create he with he | rfl
      · exact (h.below _ mem_cons_self e he).trans (Nat.lt_succ_self _)
      · exact Nat.lt_succ_self _
    · exact (h.below d hd e he).trans (Nat.lt_succ_self _)
  · rcases FS.mem_create he with he | rfl
    · rcases FS.mem_create he' with he' | rfl
      · exact h.inj e he e' he' heq
      · exact absurd heq (hlt _ mem_cons_self e he)
    · rcases FS.mem_create he' with he' | rfl
      · exact absurd heq.symm (hlt _ mem_cons_self e' he')
      · rfl
  · obtain ⟨d', hd', hi⟩ := hsealed d hd j i hi
    rcases FS.mem_create hi' with hi' | hi'
    · exact h.moved d' hd' j i hi id' hi'
    · exact hlt d' hd' _ hi (congrArg Prod.snd hi')
  · obtain ⟨d', hd', hi⟩ := hsealed d hd j i hi
    have hf : (fs.create (.active id)).files i = fs.files i := by
      rw [FS.create]
      exact FS.setFile_ne fs _ (hlt d' hd' _ hi)
    rw [hf]
    exact h.durable d' hd' j i hi

/-- Renaming an active segment all of whose bytes are durable. -/
theorem rename (h : Whole fs) {id : Nat} (hf : ∀ i, (.active id, i) ∈ fs.cur → AllSynced (fs.files i)) :
    Whole (fs.rename (.active id) (.sealed id)) := by
  -- where the entry of a file comes from
  have hback : ∀ e ∈ (fs.rename (.active id) (.sealed id)).cur, ∃ e₀ ∈ fs.cur, e₀.2 = e.2 := by
    intro e he
    rcases FS.mem_rename he with ⟨_, he⟩ | ⟨he, _⟩
    · exact ⟨_, he, rfl⟩
    · exact ⟨e, he, rfl⟩
  have hactive : ∀ j i, (.active j, i) ∈ (fs.rename (.active id) (.sealed id)).cur →
      (.active j, i) ∈ fs.cur ∧ j ≠ id := by
    intro j i hi
    rcases FS.mem_rename hi with ⟨hn, _⟩ | ⟨hi, hn⟩
    · cases hn
    · exact ⟨hi, fun hj => hn (by rw [hj])⟩
  refine ⟨fun d hd e he => ?_, fun e he e' he' heq => ?_, fun d hd j i hi id' hi' => ?_,
    fun d hd j i hi => ?_⟩
  · rcases mem_cons.mp hd with rfl | hd
    · obtain ⟨e₀, he₀, h2⟩ := hback e he
      exact h2 ▸ h.below _ mem_cons_self e₀ he₀
    · exact h.below d hd e he
  · rcases FS.mem_rename he with ⟨hn, he⟩ | ⟨he, hn⟩
    · rcases FS.mem_rename he' with ⟨hn', he'⟩ | ⟨he', hn'⟩
      · rw [hn, hn']
      · exact absurd (h.inj _ he e' he' heq).symm hn'
    · rcases FS.mem_rename he' with ⟨hn', he'⟩ | ⟨he', hn'⟩
      · exact absurd (h.inj e he _ he' heq) hn
      · exact h.inj e he e' he' heq
  · obtain ⟨hi', hne⟩ := hactive id' i hi'
    rcases mem_cons.mp hd with rfl | hd
    · rcases FS.mem_rename hi with ⟨_, hi⟩ | ⟨hi, _⟩
      · have := h.inj _ hi _ hi' rfl
        cases this
        exact hne rfl
      · exact h.moved _ mem_cons_self j i hi id' hi'
    · exact h.moved d hd j i hi id' hi'
  · rcases mem_cons.mp hd with rfl | hd
    · rcases FS.mem_rename hi with ⟨_, hi⟩ | ⟨hi, _⟩
      · exact hf i hi
      · exact h.durable _ mem_cons_self j i hi
    · exact h.durable d hd j i hi

end Whole

/-! ## Files -/

theorem AllSynced.fsync (h : AllSynced f) : AllSynced f.fsync := by
  unfold File.fsync
  split
  · exact h
  · rfl

theorem AllSynced.fsyncFail (h : AllSynced f) (n : Nat) : AllSynced (f.fsyncFail n) := by
  unfold AllSynced File.fsyncFail at *
  simp only [h, length_take]
  omega

theorem allSynced_fsync {f : File} (h : f.torn = false) : AllSynced f.fsync := by
  rw [File.fsync, if_neg (by simp [h])]
  rfl

namespace Mine
variable {fs : FS Name} {id ino : Nat}

theorem setFile (h : Mine id ino fs) {f : File} (hf : f.torn = false) :
    Mine id ino (fs.setFile ino f) :=
  ⟨h.lt, by rwa [FS.setFile_self], h.unsealed, h.only⟩

theorem syncDir (h : Mine id ino fs) : Mine id ino fs.syncDir := by
  refine ⟨h.lt, h.torn, fun d hd => ?_, h.only⟩
  rw [FS.syncDir_dirs, mem_singleton] at hd
  exact hd ▸ h.unsealed _ mem_cons_self

theorem remove (h : Mine id ino fs) (n : Name) : Mine id ino (fs.remove n) := by
  have hsub : ∀ e ∈ (fs.remove n).cur, e ∈ fs.cur := fun e he => mem_of_mem_filter he
  refine ⟨h.lt, h.torn, fun d hd j hj => ?_, fun i hi => h.only i (hsub _ hi)⟩
  rcases mem_cons.mp hd with rfl | hd
  · exact h.unsealed _ mem_cons_self j (hsub _ hj)
  · exact h.unsealed d hd j hj

end Mine

theorem Whole.create_mine {fs : FS Name} {id : Nat} (h : Whole fs) (hn : FS.lookup fs.cur (.active id) = none) :
    Mine id fs.next (fs.create (.active id)) := by
  refine ⟨Nat.lt_succ_self _, by rw [FS.create_files_next]; rfl, fun d hd j hj => ?_, fun i hi => ?_⟩
  · rcases mem_cons.mp hd with rfl | hd
    · rcases FS.mem_create hj with hj | hj
      · exact (h.below _ mem_cons_self _ hj).false
      · cases hj
    · exact (h.below d hd _ hj).false
  · rcases FS.mem_create hi with hi | hi
    · exact absurd hi (FS.lookup_eq_none.mp hn i)
    · exact congrArg Prod.snd hi

/-! ## File operations -/

def Intact (w : World) : Prop := Whole w.fs

theorem Intact.of_eq (h : Intact w) (hfs : w'.fs = w.fs) : Intact w' := by
  rw [Intact, hfs]
  exact h

/-- The files are as they should be, and this one takes appends. -/
structure Tended (id ino : Nat) (fs : FS Name) : Prop where
  whole : Whole fs
  mine : Mine id ino fs

theorem Tended.setFile {id ino : Nat} {fs : FS Name} (h : Tended id ino fs) {f : File} (hf : f.torn = false) :
    Tended id ino (fs.setFile ino f) :=
  ⟨h.whole.setFile (.inl h.mine.unsealed), h.mine.setFile hf⟩

theorem idle_intact (h : Intact w) : (ioOp id fun _ fs => fs).Wp Intact
    (fun _ w' => w'.fs = w.fs ∧ w'.s = w.s) w :=
  wp_ioOp_any (fun _ => ⟨h, rfl, rfl⟩) fun _ _ => ⟨h, rfl, rfl⟩

section Ops
variable {w : World} {id ino : Nat}

theorem writeAt_tended (h : Tended id ino w.fs) (off : Nat) (p : Bytes) :
    (writeAt ino off p).Wp Intact (fun _ w' => Tended id ino w'.fs ∧ w'.s = w.s) w := by
  have hset : ∀ p, Tended id ino (w.fs.setFile ino ((w.fs.files ino).writeAt off p)) :=
    fun p => h.setFile h.mine.torn
  exact wp_ioOp_any (fun _ => ⟨(hset p).whole, hset p, rfl⟩) fun n _ => ⟨(hset _).whole, hset _, rfl⟩

theorem truncate_tended (h : Tended id ino w.fs) (n : Nat) :
    (truncate ino n).Wp Intact (fun _ w' => Tended id ino w'.fs ∧ w'.s = w.s) w := by
  have hset : Tended id ino (w.fs.setFile ino ((w.fs.files ino).truncate n)) := h.setFile h.mine.torn
  exact wp_ioOp_any (fun _ => ⟨hset.whole, hset, rfl⟩) fun _ _ => ⟨h.whole, h, rfl⟩

theorem fsync_intact (h : Intact w) (ino : Nat) :
    (fsync ino).Wp Intact (fun _ w' => Intact w' ∧ w'.s = w.s) w := by
  refine wp_syncOp_any (fun _ _ => ?_) fun n _ _ _ => ?_
  · have hset := Whole.setFile (i := ino) h (.inr AllSynced.fsync)
    exact ⟨hset, hset, rfl⟩
  · have hset := Whole.setFile (i := ino) h (.inr fun hf => hf.fsyncFail n)
    exact ⟨hset, hset, rfl⟩

theorem fsync_tended (h : Tended id ino w.fs) : (fsync ino).Wp Intact
    (Post (fun _ w' => Tended id ino w'.fs ∧ AllSynced (w'.fs.files ino) ∧ w'.s = w.s)
      fun _ w' => Intact w' ∧ w'.s = w.s) w := by
  refine wp_syncOp_any (fun _ _ => ?_) fun n _ _ _ => ?_
  · have htorn : (w.fs.files ino).fsync.torn = false := by
      unfold File.fsync
      split
      · exact h.mine.torn
      · exact h.mine.torn
    have hset := h.setFile htorn
    refine ⟨hset.whole, hset, ?_, rfl⟩
    rw [FS.setFile_self]
    exact allSynced_fsync h.mine.torn
  · have hset := h.whole.setFile (i := ino) (.inr fun hf => hf.fsyncFail n)
    exact ⟨hset, hset, rfl⟩

theorem syncDir_tended (h : Tended id ino w.fs) :
    syncDir.Wp Intact (fun _ w' => Tended id ino w'.fs ∧ w'.s = w.s) w :=
  wp_syncOp_any (fun _ _ => ⟨h.whole.syncDir, ⟨h.whole.syncDir, h.mine.syncDir⟩, rfl⟩)
    fun _ _ _ _ => ⟨h.whole, h, rfl⟩

theorem syncDir_intact (h : Intact w) :
    syncDir.Wp Intact (fun _ w' => Intact w' ∧ w'.s = w.s) w :=
  wp_syncOp_any (fun _ _ => ⟨h.syncDir, h.syncDir, rfl⟩) fun _ _ _ _ => ⟨h, h, rfl⟩

theorem readFile_intact (h : Intact w) (n : Name) : (readFile n).Wp Intact
    (Post (fun b w' => (∃ i, (n, i) ∈ w.fs.cur ∧ b = (w.fs.files i).data) ∧ w'.fs = w.fs ∧ w'.s = w.s)
      fun _ w' => w'.fs = w.fs ∧ w'.s = w.s) w := by
  unfold readFile
  simp only [wp_bind, wp_read, post_ok]
  cases hn : FS.lookup w.fs.cur n with
  | none => exact .throw ⟨rfl, rfl⟩
  | some i =>
    have hmem : (n, i) ∈ w.fs.cur := by
      obtain ⟨e, he, rfl⟩ := Option.map_eq_some_iff.mp hn
      have hname : e.1 = n := by simpa using find?_some he
      exact hname ▸ mem_of_find?_eq_some he
    refine (idle_intact h).seq fun r t ht => ?_
    cases r with
    | error e => exact ht
    | ok _ => exact .pure ⟨⟨i, hmem, rfl⟩, ht⟩

theorem openSealed_intact (h : Intact w) (j : Nat) :
    (openSealed j).Wp Intact (fun _ w' => w'.fs = w.fs ∧ w'.s = w.s) w := by
  refine (readFile_intact h _).bind (fun mm t ht => ?_) fun _ _ ht => ht
  refine wp_ite (fun _ => .throw ht.2) fun _ => ?_
  cases parseFooter mm with
  | error e => exact .throw ht.2
  | ok fv => exact .pure ht.2

theorem remove_intact (h : Intact w) (n : Name) : (remove n).Wp Intact
    (fun _ w' => (w'.fs = w.fs ∨ w'.fs = w.fs.remove n) ∧ w'.s = w.s) w := by
  unfold remove
  simp only [wp_bind, wp_read, post_ok]
  cases FS.lookup w.fs.cur n with
  | none => exact .throw ⟨.inl rfl, rfl⟩
  | some i =>
    exact wp_ioOp_any (fun _ => ⟨Whole.remove h n, .inr rfl, rfl⟩) fun _ _ => ⟨h, .inl rfl, rfl⟩

/-- A segment all of whose bytes are durable gets its sealed name. -/
theorem rename_intact (h : Intact w)
    (hf : ∀ i, (.active id, i) ∈ w.fs.cur → AllSynced (w.fs.files i)) :
    (rename (.active id) (.sealed id)).Wp Intact (fun _ w' => Intact w' ∧ w'.s = w.s) w := by
  unfold rename
  simp only [wp_bind, wp_read, post_ok]
  cases FS.lookup w.fs.cur (.active id) with
  | none => exact .throw ⟨h, rfl⟩
  | some i =>
    have hren := Whole.rename h hf
    exact wp_ioOp_any (fun _ => ⟨hren, hren, rfl⟩) fun _ _ => ⟨h, h, rfl⟩

end Ops

/-! ## The write path -/

/-- The active segment of a store that takes appends has its file to itself. -/
def Poised (w : World) : Prop :=
  Intact w ∧ (w.s.Writable → ∀ a, w.s.active = some a → Mine a.id a.ino w.fs)

theorem Poised.tended (h : Poised w) (hwr : w.s.Writable) (ha : w.s.active = some a) :
    Tended a.id a.ino w.fs := ⟨h.1, h.2 hwr a ha⟩

theorem Intact.poised_of_none (h : Intact w) (ha : w.s.active = none) : Poised w :=
  ⟨h, fun _ a ha' => by rw [ha] at ha'; cases ha'⟩

theorem Intact.poised_of_failed (h : Intact w) (e : Err) :
    Poised { w with s := { w.s with failed := some e } } := ⟨h, fun hwr => by cases hwr.2⟩

theorem Tended.poised {w : World} {id ino : Nat} (h : Tended id ino w.fs) (a : ActiveSegment) (hid : a.id = id)
    (hino : a.ino = ino) : Poised { w with s := { w.s with active := some a } } := by
  refine ⟨h.whole, fun _ a' ha' => ?_⟩
  cases ha'
  rw [hid, hino]
  exact h.mine

theorem orPoison_poised {m : M Unit} (h : m.Wp Intact (Post (fun _ => P) fun _ => Intact) w) :
    (orPoison m).Wp Intact (Post (fun _ => P) fun _ => Poised) w := by
  refine (orPoison_spec h).post_mono fun r t ht => ?_
  cases r with
  | ok _ => exact ht
  | error e =>
    obtain ⟨u, hu, rfl⟩ := ht
    exact hu.poised_of_failed _

theorem create_intact (h : Intact w) (id : Nat) : (create (.active id)).Wp Intact
    (Post (fun ino w' => Tended id ino w'.fs ∧ w'.s = w.s) fun _ w' => Intact w' ∧ w'.s = w.s) w := by
  unfold create
  simp only [wp_bind, wp_read, post_ok]
  cases hn : FS.lookup w.fs.cur (.active id) with
  | some i => exact .throw ⟨h, rfl⟩
  | none =>
    have hc := Whole.create h id
    refine wp_bind.mpr (wp_ioOp_any (fun _ => ⟨hc, ?_⟩) fun _ _ => ⟨h, h, rfl⟩)
    exact .pure ⟨⟨hc, Whole.create_mine h hn⟩, rfl⟩

/-- The header of a new segment, its file and its name are made durable. -/
theorem writeHeader_tended {id ino : Nat} (h : Tended id ino w.fs) :
    Wp (do writeAt ino 0 magicHeader; fsync ino; syncDir : M Unit) Intact
      (Post (fun _ w' => Tended id ino w'.fs ∧ w'.s = w.s) fun _ w' => Intact w' ∧ w'.s = w.s) w := by
  refine (Wp.const.mpr (writeAt_tended h _ _)).bind (fun _ t ht => ?_) fun _ _ ht => ⟨ht.1.whole, ht.2⟩
  refine (fsync_tended ht.1).bind (fun _ u hu => ?_) fun _ _ hu => ⟨hu.1, hu.2.trans ht.2⟩
  refine (syncDir_tended hu.1).post_mono fun r v hv => ?_
  have hs : v.s = w.s := hv.2.trans (hu.2.2.trans ht.2)
  cases r with
  | error e => exact ⟨hv.1.whole, hs⟩
  | ok _ => exact ⟨hv.1, hs⟩

theorem createActive_poised (h : Poised w) (hwr : w.s.Writable) (ha : w.s.active = none) :
    createActive.Wp Intact (Post (fun a w' => Poised w' ∧ w'.s.Writable ∧ w'.s.active = some a)
      fun _ => Poised) w := by
  have hnext : Intact { w with s := { w.s with nextID := w.s.nextID + 1 } } := h.1
  unfold createActive
  simp only [wp_bind, wp_getStore, post_ok, wp_setStore]
  refine (create_intact hnext _).post_mono fun r t ht => ?_
  cases r with
  | error e => exact ht.1.poised_of_none (by rw [ht.2]; exact ha)
  | ok ino =>
    simp only [post_ok, wp_attempt]
    refine (writeHeader_tended ht.1).post_mono fun r u hu => ?_
    cases r with
    | error e =>
      have hactive : u.s.active = none := by rw [hu.2, ht.2]; exact ha
      simp only [post_ok, wp_bind, wp_attempt]
      refine (remove_intact hu.1 _).post_mono fun r v hv => ?_
      refine .throw (Intact.poised_of_none ?_ (by rw [hv.2, hactive]))
      rcases hv.1 with hfs | hfs
      · exact hu.1.of_eq hfs
      · rw [Intact, hfs]
        exact Whole.remove hu.1 _
    | ok _ =>
      simp only [post_ok, wp_bind, wp_setStore, wp_pure]
      have hs : u.s = { w.s with nextID := w.s.nextID + 1 } := hu.2.trans ht.2
      refine ⟨⟨hu.1.whole, fun _ a ha' => ?_⟩, ?_, trivial⟩
      · cases ha'
        exact hu.1.mine
      · rw [hs]
        exact hwr

theorem sealFile_poised {a : ActiveSegment} (h : Tended a.id a.ino w.fs) (footer : Bytes) :
    Wp (do
      truncate a.ino a.size
      writeAt a.ino a.size footer
      fsync a.ino
      rename (.active a.id) (.sealed a.id)
      syncDir
      let seg ← openSealed a.id
      setStore fun s => { s with sealed := s.sealed ++ [seg], active := none }
      closeFile : M Unit) Intact (Post (fun _ => Poised) fun _ => Intact) w := by
  refine (Wp.const.mpr (truncate_tended h _)).bind (fun _ t ht => ?_) fun _ _ ht => ht.1.whole
  refine (Wp.const.mpr (writeAt_tended ht.1 _ _)).bind (fun _ t ht => ?_) fun _ _ ht => ht.1.whole
  refine (fsync_tended ht.1).bind (fun _ t ht => ?_) fun _ _ ht => ht.1
  -- the file is durable when it is renamed
  have hsynced : ∀ i, (.active a.id, i) ∈ t.fs.cur → AllSynced (t.fs.files i) := by
    intro i hi
    rw [ht.1.mine.only i hi]
    exact ht.2.1
  refine (Wp.const.mpr (rename_intact ht.1.whole hsynced)).bind (fun _ t ht => ?_) fun _ _ ht => ht.1
  refine (Wp.const.mpr (syncDir_intact ht.1)).bind (fun _ t ht => ?_) fun _ _ ht => ht.1
  refine (Wp.const.mpr (openSealed_intact ht.1 _)).bind (fun seg u hu => ?_) fun _ _ hu =>
    ht.1.of_eq hu.1
  have hi : Intact { u with s := { u.s with sealed := u.s.sealed ++ [seg], active := none } } :=
    ht.1.of_eq hu.1
  simp only [wp_bind, wp_setStore, post_ok]
  refine (idle_intact hi).post_mono fun r v hv => ?_
  have hv' : Intact v := hi.of_eq hv.1
  cases r with
  | error e => exact hv'
  | ok _ => exact hv'.poised_of_none (by rw [hv.2])

theorem sealActiveLocked_poised (h : Poised w) (hwr : w.s.Writable) (F : FuseLib) :
    (sealActiveLocked F).Wp Intact (Post (fun _ => Poised) fun _ => Intact) w := by
  unfold sealActiveLocked
  refine wp_bind.mpr (wp_getStore.mpr (post_ok.mpr ?_))
  cases ha : w.s.active with
  | none => exact .pure h
  | some a =>
    refine wp_ite (fun _ => .pure h) fun _ => ?_
    cases buildFooter F a.size a.indexEntries with
    | error e => exact .throw h.1
    | ok footer => exact sealFile_poised (h.tended hwr ha) footer

theorem writeRecord_poised (h : Poised w) (hwr : w.s.Writable) (ha : w.s.active = some a) (k : Key)
    (rec : Bytes) : (writeRecord a k rec).Wp Intact
      (Post (fun a' w' => Poised w' ∧ w'.s.Writable ∧ w'.s.active = some a') fun _ => Poised) w := by
  refine (Wp.const.mpr (writeAt_tended (h.tended hwr ha) _ _)).bind (fun _ t ht => ?_) fun _ t ht => ?_
  · simp only [wp_bind, wp_setStore, post_ok, wp_pure]
    refine ⟨⟨ht.1.whole, fun _ a' ha' => ?_⟩, ?_, trivial⟩
    · cases ha'
      exact ht.1.mine
    · rw [Store.Writable, ht.2]
      exact hwr
  · refine ⟨ht.1.whole, fun _ a' ha' => ?_⟩
    rw [ht.2, ha] at ha'
    cases ha'
    exact ht.1.mine

theorem fsync_poised (h : Poised w) (ha : w.s.active = some a) :
    (fsync a.ino).Wp Intact (Post (fun _ w' => Poised w' ∧ w'.s = w.s) fun _ => Intact) w := by
  by_cases hwr : w.s.Writable
  · refine (fsync_tended (h.tended hwr ha)).post_mono fun r t ht => ?_
    cases r with
    | error e => exact ht.1
    | ok _ =>
      refine ⟨⟨ht.1.whole, fun _ a' ha' => ?_⟩, ht.2.2⟩
      rw [ht.2.2, ha] at ha'
      cases ha'
      exact ht.1.mine
  · refine (fsync_intact h.1 a.ino).post_mono fun r t ht => ?_
    cases r with
    | error e => exact ht.1
    | ok _ => exact ⟨⟨ht.1, fun hwr' => absurd (ht.2 ▸ hwr') hwr⟩, ht.2⟩

theorem keeps_syncDir_poised : Keeps Intact Poised syncDir := fun _ h =>
  wp_syncOp_any (fun _ _ => ⟨Whole.syncDir h.1, Whole.syncDir h.1,
    fun hwr a ha => (h.2 hwr a ha).syncDir⟩) fun _ _ _ _ => ⟨h.1, h⟩

theorem keeps_remove_poised (n : Name) : Keeps Intact Poised (remove n) := by
  intro w h
  refine (remove_intact h.1 n).post_mono fun _ t ht => ?_
  obtain ⟨hfs | hfs, hs⟩ := ht
  · refine ⟨h.1.of_eq hfs, fun hwr a ha => ?_⟩
    rw [hfs]
    exact h.2 (hs ▸ hwr) a (hs ▸ ha)
  · refine ⟨?_, fun hwr a ha => ?_⟩
    · rw [Intact, hfs]
      exact Whole.remove h.1 n
    · rw [hfs]
      exact (h.2 (hs ▸ hwr) a (hs ▸ ha)).remove n

theorem steady_poised (F : FuseLib) : Steady F Intact Poised where
  point h := h.1
  store h hs := ⟨h.1, fun hwr a ha => h.2 ⟨hs.2.1 ▸ hwr.1, hs.2.2 ▸ hwr.2⟩ a (hs.1 ▸ ha)⟩
  idle h := h
  create := createActive_poised
  write h hwr ha := writeRecord_poised h hwr ha _ _
  fsync h ha := orPoison_poised (fsync_poised h ha)
  sealActive h hwr := Wp.const.mp (orPoison_poised (sealActiveLocked_poised h hwr F))
  syncDir := keeps_syncDir_poised
  removeSealed _ := keeps_remove_poised _

/-! ## Wipe, Close and Open -/

theorem keeps_wipe : Keeps Intact Poised wipe := by
  intro w h
  unfold wipe
  simp only [wp_bind, wp_getStore, post_ok]
  refine wp_ite (fun _ => .throw h) fun _ => ?_
  simp only [wp_bind, wp_setStore, post_ok]
  have hempty : Poised
      { w with s := { w.s with active := none, sealed := [], failed := none } } :=
    ⟨h.1, by rintro _ _ ⟨⟩⟩
  exact keeps_allThenFail (keeps_deletes w.s.active w.s.sealed w.s.cfg.sync
    (steady_poised .full).closeFile (fun _ => keeps_remove_poised _) keeps_syncDir_poised
    fun _ _ => keeps_remove_poised _) _ hempty

/-- A closed store. -/
def Shut (w : World) : Prop := Intact w ∧ w.s.closed = true

theorem Shut.poised (h : Shut w) : Poised w :=
  ⟨h.1, fun hwr => nomatch hwr.1.symm.trans h.2⟩

theorem keeps_close_poised : Keeps Intact Poised close := fun _ h =>
  @keeps_close_of _ _ _ Shut
    (fun ino _ h => (fsync_intact h.1 ino).post_mono fun _ _ ht => ⟨ht.1, by rw [ht.2]; exact h.2⟩)
    (fun _ h => (idle_intact h.1).post_mono fun _ _ ht =>
      ⟨h.1.of_eq ht.1, by rw [ht.2]; exact h.2⟩) h ⟨h.1, rfl⟩ fun _ => Shut.poised

/-- When a directory is opened, the file of an active segment has not lost bytes to a failed fsync and,
if it ends with a complete footer, all its bytes are durable. -/
def Settled (w : World) : Call → Prop
  | .openDir _ => ∀ id i, (.active id, i) ∈ w.fs.cur → (w.fs.files i).torn = false ∧
    ((scanActive (w.fs.files i).data).sealed = true → AllSynced (w.fs.files i))
  | _ => True

/-- A store that is loading: the directory is as it was. -/
def LoadingFrom (fs : FS Name) (w : World) : Prop := w.fs = fs ∧ w.s.active = none

theorem keeps_loadSealed_from (h : Whole fs) (ids : List Nat) :
    Keeps Intact (LoadingFrom fs) (Act.each loadSealed ids) := by
  induction ids with
  | nil => exact keeps_pure _
  | cons id ids ih =>
    refine Keeps.bind (fun w hw => ?_) fun _ => ih
    have hi : Intact w := by
      rw [Intact, hw.1]
      exact h
    refine (Wp.const.mpr (openSealed_intact hi id)).bind (fun g t ht => ?_) fun _ _ ht => ?_
    · simp only [bumpNextID, wp_bind, wp_setStore, post_ok]
      exact ⟨ht.1.trans hw.1, (congrArg Store.active ht.2).trans hw.2⟩
    · exact ⟨ht.1.trans hw.1, (congrArg Store.active ht.2).trans hw.2⟩

theorem recoverActive_poised {id ino : Nat} (h : Intact w) (ha : w.s.active = none)
    (hone : ∀ i, (.active id, i) ∈ w.fs.cur → i = ino) (hmem : (.active id, ino) ∈ w.fs.cur)
    (htorn : (w.fs.files ino).torn = false)
    (hsealed : (scanActive (w.fs.files ino).data).sealed = true → AllSynced (w.fs.files ino)) :
    (recoverActive id ino).Wp Intact (Post (fun _ => Poised) fun _ => Intact) w := by
  have hmine : Tended id ino w.fs :=
    ⟨h, h.below _ mem_cons_self _ hmem, htorn, fun d hd j hj => h.moved d hd j ino hj id hmem, hone⟩
  unfold recoverActive
  refine (readFile_intact h _).bind (fun b t ht => ?_) fun _ _ ht => h.of_eq ht.1
  obtain ⟨⟨i, hi, rfl⟩, hfs, hs⟩ := ht
  rw [hone i hi]
  simp only [bumpNextID, wp_bind, wp_setStore, post_ok]
  have hactive : (t.s.bump id).active = none := by rw [hs]; exact ha
  refine wp_ite (fun hsc => ?_) fun _ => ?_
  · have hall : ∀ j, (.active id, j) ∈ t.fs.cur → AllSynced (t.fs.files j) := by
      rw [hfs]
      intro j hj
      rw [hone j hj]
      exact hsealed hsc
    have ht : Intact { t with s := t.s.bump id } := h.of_eq hfs
    refine (Wp.const.mpr (rename_intact ht hall)).bind (fun _ u hu => ?_) fun _ _ hu => hu.1
    refine (Wp.const.mpr (syncDir_intact hu.1)).bind (fun _ v hv => ?_) fun _ _ hv => hv.1
    refine (Wp.const.mpr (openSealed_intact hv.1 id)).bind (fun g x hx => ?_) fun _ _ hx =>
      hv.1.of_eq hx.1
    refine wp_setStore.mpr (Intact.poised_of_none (w := { x with s := _ }) (hv.1.of_eq hx.1) ?_)
    rw [hx.2, hv.2, hu.2]
    exact hactive
  · have hm : Tended id ino t.fs := hfs ▸ hmine
    have ht : Intact { t with s := t.s.bump id } := hm.whole
    refine (Wp.const.mpr (idle_intact ht)).bind (fun _ u hu => ?_) fun _ _ hu => ht.of_eq hu.1
    have hu' : Tended id ino u.fs := by
      rw [hu.1]
      exact hm
    refine wp_ite (fun _ => ?_) fun _ => ?_
    · refine (Wp.const.mpr (truncate_tended hu' 0)).bind (fun _ v hv => ?_) fun _ _ hv => hv.1.whole
      refine (Wp.const.mpr (writeAt_tended hv.1 0 _)).bind (fun _ x hx => ?_) fun _ _ hx => hx.1.whole
      exact wp_setStore.mpr (hx.1.poised _ rfl rfl)
    · refine (Wp.const.mpr (truncate_tended hu' _)).bind (fun _ v hv => ?_) fun _ _ hv => hv.1.whole
      exact wp_setStore.mpr (hv.1.poised _ rfl rfl)

theorem openStore_poised (cfg : Config) (h : Intact w) (hset : Settled w (.openDir cfg)) :
    (openStore cfg).Wp Intact (Post (fun _ => Poised) fun _ => Intact) w := by
  unfold openStore load
  simp only [wp_bind, wp_setStore, post_ok, wp_read]
  have hl : LoadingFrom w.fs { w with s := .new cfg } := ⟨rfl, rfl⟩
  refine Wp.post_mono (keeps_loadSealed_from h _ _ hl) fun r t ht => ?_
  cases r with
  | error e => exact h.of_eq ht.1
  | ok _ =>
    simp only [post_ok]
    have hi : Intact t := h.of_eq ht.1
    cases hp : activePaths (readDir w.fs.cur) with
    | nil => exact .pure (Intact.poised_of_none (w := { t with s := _ }) hi ht.2)
    | cons p ps =>
      cases ps with
      | cons q ps => exact .throw hi
      | nil =>
        obtain ⟨id, ino⟩ := p
        have hmem : ∀ j i, (.active j, i) ∈ w.fs.cur ↔ (j, i) = (id, ino) := by
          intro j i
          have hiff : (j, i) ∈ activePaths (readDir w.fs.cur) ↔ (.active j, i) ∈ readDir w.fs.cur :=
            mem_activePaths
          rw [hp, mem_singleton, mem_readDir] at hiff
          exact hiff.symm
        obtain ⟨htorn, hsealed⟩ := hset id ino ((hmem id ino).mpr rfl)
        have hfs := ht.1
        refine recoverActive_poised (w := { t with s := _ }) hi ht.2 ?_ ?_ ?_ ?_
        · intro i hi
          rw [hfs] at hi
          exact congrArg Prod.snd ((hmem id i).mp hi)
        · rw [hfs]
          exact (hmem id ino).mpr rfl
        · rw [hfs]
          exact htorn
        · rw [hfs]
          exact hsealed

/-- As long as the footer of every interrupted seal is durable when the directory is opened again, the
files of sealed segments are durable, and a power loss leaves them whole. -/
theorem sealed_durable (h : Sessions Z F H Intact Settled σ) :
    (∀ d ∈ σ.w.fs.dirs, ∀ id i, (.sealed id, i) ∈ d → AllSynced (σ.w.fs.files i)) ∧
      ∀ fs, FS.Crash σ.w.fs fs → ∀ id i, (.sealed id, i) ∈ fs.cur →
        (fs.files i).data = (σ.w.fs.files i).data := by
  have hw : Intact σ.w := ((steady_poised F).sessions (fun _ h0 => h0) (fun w hw _ => keeps_wipe w hw)
    keeps_close_poised (fun _ cfg hi => openStore_poised cfg hi) h).1
  refine ⟨hw.durable, fun fs hc id i hi => ?_⟩
  have hall := hw.durable _ hc.dir id i hi
  obtain ⟨n, hn, hf⟩ := hc.files i
  rw [hf]
  exact take_of_length_le (hall ▸ hn)

/-! ## A kill between the footer and its fsync -/

/-- `Open` refuses a directory whose sealed segment has lost its footer. -/
theorem openStore_footless (cfg : Config) {w : World} {id i : Nat} (hio : w.ioFaults = [])
    (hcur : w.fs.cur = [(.sealed id, i)]) (hlen : (w.fs.files i).data.length < minSealedSize) :
    (openStore cfg w).result = .error (.footer (.tooShort (w.fs.files i).data.length)) := by
  have hids : sealedIDs (readDir w.fs.cur) = [id] := by
    rw [hcur, readDir, mergeSort_singleton]
    rfl
  have hname : FS.lookup w.fs.cur (.sealed id) = some i := by
    rw [hcur]
    simp [FS.lookup]
  have hwp : (openStore cfg).Gives (fun r _ =>
      r = .error (.footer (.tooShort (w.fs.files i).data.length))) w := by
    unfold openStore load
    simp only [wp_bind, wp_setStore, post_ok, wp_read, hids, Act.each, loadSealed, openSealed]
    refine wp_readFile (by exact hio) (by exact hname) trivial (post_ok.mpr ?_)
    rw [if_pos hlen]
    exact .throw rfl
  exact hwp.2

/-- A power loss can take the footer of a sealed segment that is not durable. -/
theorem footless_crash {fs : FS Name} {id i n : Nat} (hcur : fs.cur = [(.sealed id, i)])
    (hn : (fs.files i).synced = n) (hle : n ≤ (fs.files i).data.length) (hlt : n < minSealedSize) :
    ∃ fs', FS.Crash fs fs' ∧ ∀ w cfg, w.fs = fs' → w.ioFaults = [] →
      (openStore cfg w).result = .error (.footer (.tooShort n)) := by
  let lost (f : File) : File := ⟨f.data.take f.synced, (f.data.take f.synced).length, false⟩
  refine ⟨{ fs with files := fun j => lost (fs.files j), past := [] },
    ⟨mem_cons_self, rfl, rfl, fun j => ⟨_, le_rfl, rfl⟩⟩, fun w cfg hw hio => ?_⟩
  have hlen : (w.fs.files i).data.length = n := by
    rw [hw, length_take, hn]
    exact Nat.min_eq_left hle
  rw [openStore_footless cfg hio (by rw [hw]; exact hcur) (hlen ▸ hlt), hlen]

/-- Open an empty directory and put an object. -/
def helloSession : Session :=
  [.openDir ⟨1000, true⟩, .put helloObject.key helloObject.data].foldl
    (Session.call .stored .full noHash) ⟨emptyWorld ⟨1000, true⟩, false⟩

theorem helloSession_sessions {P : World → Call → Prop}
    (hopen : P (emptyWorld ⟨1000, true⟩) (.openDir ⟨1000, true⟩))
    (hput : ∀ w k data, P w (.put k data)) : Sessions .stored .full noHash Intact P helloSession := by
  have hnone : ∀ d ∈ emptyDir.dirs, ∀ e, e ∉ d := by
    intro d hd e
    rw [mem_singleton.mp hd]
    exact not_mem_nil
  have hwhole : Whole emptyDir :=
    ⟨fun d hd e he => absurd he (hnone d hd e), nofun, fun d hd _ _ h => absurd h (hnone d hd _),
      fun d hd _ _ h => absurd h (hnone d hd _)⟩
  exact Sessions.calls (.start ⟨hwhole, rfl⟩)
    ⟨by decide +kernel, hopen, by decide +kernel, hput _ _ _, trivial⟩

/-- `Compact` seals the active segment first. -/
theorem mem_trace_compact (live : Key → Bool) (opts : CompactOpts) (sched : List Turn) (hwr : w.s.Writable)
    (h : t ∈ (sealActiveLocked F { w with s := { w.s with grey := none } }).trace) :
    t ∈ ((Call.compact live opts sched).run Z F H w).trace := by
  obtain ⟨hc, hf⟩ := hwr
  have hcheck : checkWritable { w with s := { w.s with grey := none } } =
      ⟨[], .ok (), { w with s := { w.s with grey := none } }⟩ := by
    simp [checkWritable, getStore, Bind.bind, Act.read, pure, hc, hf]
  have hseal : t ∈ ((do checkWritable; orPoison (sealActiveLocked F) : M Unit)
      { w with s := { w.s with grey := none } }).trace := by
    refine mem_trace_bind_right hcheck ?_
    exact mem_trace_bind_left h
  refine mem_trace_bind_left (mem_trace_bind_right (a := w.s.grey.getD []) rfl ?_)
  exact mem_trace_bind_left hseal

-- The seal below is evaluated, down to the tables of the footer.
set_option maxRecDepth 100000

/-- The states the seal of that session's segment passes through. -/
def sealPoints : List World :=
  (sealActiveLocked .full { helloSession.w with s := { helloSession.w.s with grey := none } }).trace

theorem sealPoints_killed {P : World → Call → Prop}
    (h : Sessions .stored .full noHash Intact P helloSession)
    (hcompact : ∀ live opts sched, P helloSession.w (.compact live opts sched))
    (ht : t ∈ sealPoints) : Sessions .stored .full noHash Intact P ⟨t, false⟩ := by
  have hmem := mem_trace_compact (Z := .stored) (H := noHash) (fun _ => true)
    ⟨fun _ _ => true, none⟩ [] ⟨by decide +kernel, by decide +kernel⟩ ht
  exact .next h ⟨_, hcompact _ _ _, .kill (by decide +kernel) (mem_cons_of_mem _ hmem)⟩

/-- A kill after the rename leaves a sealed segment, and a durable one. -/
theorem sealed_durable_killed : ∃ σ, Sessions .stored .full noHash Intact Settled σ ∧ σ.up = false ∧
    (.sealed 1, 0) ∈ σ.w.fs.cur ∧ AllSynced (σ.w.fs.files 0) := by
  have hpoint : (sealPoints[3]?).any (fun t => t.fs.cur == [(.sealed 1, 0)]) = true := by decide +kernel
  obtain ⟨t, ht, hcur⟩ := (Option.any_eq_true ..).mp hpoint
  have hrun := sealPoints_killed (P := Settled)
    (helloSession_sessions (fun _ _ h => absurd h not_mem_nil) fun _ _ _ => trivial) (fun _ _ _ => trivial) (mem_of_getElem? ht)
  have hmem : (.sealed 1, 0) ∈ t.fs.cur := eq_of_beq hcur ▸ mem_singleton_self _
  exact ⟨_, hrun, rfl, hmem, (sealed_durable hrun).1 _ mem_cons_self 1 0 hmem⟩

/-- A kill between the footer and its fsync: the next `Open` renames the file without one, and after a
power loss no store can open the directory. -/
theorem kill_tears_seal : ∃ σ, Sessions .stored .full noHash Intact (fun _ _ => True) σ ∧
    σ.up = true ∧ σ.w.fs.cur = [(.sealed 1, 0)] ∧ ¬AllSynced (σ.w.fs.files 0) ∧
    ∃ fs, FS.Crash σ.w.fs fs ∧ ∀ w cfg, w.fs = fs → w.ioFaults = [] →
      (openStore cfg w).result = .error (.footer (.tooShort 56)) := by
  have hpoint : (sealPoints[1]?).any (fun t =>
      let σ := Session.call .stored .full noHash ⟨t, false⟩ (.openDir ⟨1000, true⟩)
      σ.up && σ.w.fs.cur == [(.sealed 1, 0)] && (σ.w.fs.files 0).synced == 56 &&
        56 < (σ.w.fs.files 0).data.length) = true := by decide +kernel
  obtain ⟨t, ht, hok⟩ := (Option.any_eq_true ..).mp hpoint
  simp only [Bool.and_eq_true, beq_iff_eq, decide_eq_true_eq] at hok
  obtain ⟨⟨⟨hup, hcur⟩, hsynced⟩, hlen⟩ := hok
  have hkill := sealPoints_killed (P := fun _ _ => True) (helloSession_sessions trivial fun _ _ _ => trivial)
    (fun _ _ _ => trivial) (mem_of_getElem? ht)
  refine ⟨_, Reach.next hkill ⟨.openDir ⟨1000, true⟩, trivial, .run rfl⟩, hup, hcur, fun hall => ?_,
    footless_crash hcur hsynced hlen.le (by decide)⟩
  exact hlen.ne (hsynced.symm.trans hall)

end AmberStore.Packstore
