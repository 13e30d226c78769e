import AmberStore.Packstore.CompactSpec

/-!
# Where the bytes of a directory come from

Every file of the directory holds the records of objects with `P`, a footer built for them, and nothing
else. This is what a later `Open` relies on: it believes whatever has the form of a record. File operations
may fail, but one that fails has had no effect.
-/

namespace AmberStore.Packstore
open Bytes Amberpack Act List

variable {Z : Zstd} {F : FuseLib} {P : Object → Prop} {fs : FS Name} {w : World}

/-! ## Failures without effect -/

/-- A failed operation has written no byte and lost none. -/
def Clean (faults : List (Option Nat)) : Prop := ∀ n, some n ∈ faults → n = 0

theorem Clean.tail {faults : List (Option Nat)} (h : Clean faults) : Clean faults.tail :=
  fun n hn => h n (mem_of_mem_tail hn)

section Rules
variable {I : World → Prop} {Q : Except Err Unit → World → Prop} {ok : FS Name → FS Name}
  {fail : Nat → FS Name → FS Name}

theorem wp_ioOp_clean (h : Clean w.ioFaults)
    (hok : ∀ io, Clean io → I { w with fs := ok w.fs, ioFaults := io } ∧
      Q (.ok ()) { w with fs := ok w.fs, ioFaults := io })
    (hfail : ∀ io, Clean io → I { w with fs := fail 0 w.fs, ioFaults := io } ∧
      Q (.error .io) { w with fs := fail 0 w.fs, ioFaults := io }) : (ioOp ok fail).Wp I Q w := by
  refine wp_ioOp_head (fun _ => hok _ h.tail) fun n hn => ?_
  obtain rfl := h n (join_head_mem hn)
  exact hfail _ h.tail

theorem wp_syncOp_clean (h : Clean w.syncFaults)
    (hok : ∀ sf, Clean sf → I { w with fs := ok w.fs, syncFaults := sf } ∧
      Q (.ok ()) { w with fs := ok w.fs, syncFaults := sf })
    (hfail : ∀ sf, Clean sf → I { w with fs := fail 0 w.fs, syncFaults := sf } ∧
      Q (.error .io) { w with fs := fail 0 w.fs, syncFaults := sf }) : (syncOp ok fail).Wp I Q w := by
  refine wp_syncOp_head (fun _ => hok _ h.tail) fun n hn => ?_
  obtain rfl := h n (join_head_mem hn)
  exact hfail _ h.tail

end Rules

/-! ## Files -/

/-- The records of `c` and a footer built for them. A segment of 2³² records or more gets one too. -/
def Footed (Z : Zstd) (F : FuseLib) (c : Contents) (b : Bytes) : Prop :=
  ∃ foot, b = bodyOf Z c.objs ++ foot ∧
    buildFooter F (bodyOf Z c.objs).length (entriesOf Z c.objs) = .ok foot ∧ c.objs ≠ [] ∧
    c.objs.length < 2 ^ 64

/-- The bytes behind a name. An active file may be new and empty, and it may have got its footer. -/
def Entry (Z : Zstd) (F : FuseLib) (P : Object → Prop) : Name → Bytes → Prop
  | .sealed _, b => ∃ c : Contents, (∀ o ∈ c.objs, P o) ∧ Footed Z F c b
  | .active _, b => b = [] ∨ ∃ c : Contents, (∀ o ∈ c.objs, P o) ∧ (b = bodyOf Z c.objs ∨ Footed Z F c b)

/-- A directory of such files. -/
structure Sourced (Z : Zstd) (F : FuseLib) (P : Object → Prop) (fs : FS Name) : Prop where
  ids : (fs.cur.map fun e => e.1.id).Nodup
  inos : (fs.cur.map Prod.snd).Nodup
  lt : ∀ e ∈ fs.cur, e.2 < fs.next
  entry : ∀ e ∈ fs.cur, Entry Z F P e.1 (fs.files e.2).data

namespace Sourced

section
variable (h : Sourced Z F P fs)
include h

theorem names : (fs.cur.map Prod.fst).Nodup := nodup_names h.ids

theorem ino_inj {e e' : Name × Nat} (he : e ∈ fs.cur) (he' : e' ∈ fs.cur)
    (heq : e.2 = e'.2) : e = e' := inj_on_of_nodup_map h.inos he he' heq

theorem setFile {i : Nat} {f : File}
    (hf : ∀ e ∈ fs.cur, e.2 = i → Entry Z F P e.1 f.data) : Sourced Z F P (fs.setFile i f) where
  ids := h.ids
  inos := h.inos
  lt := h.lt
  entry e he := by
    by_cases hi : e.2 = i
    · rw [hi, FS.setFile_self]
      exact hf e he hi
    · rw [FS.setFile_ne _ _ hi]
      exact h.entry e he

theorem setFile_data {i : Nat} {f : File} (hf : f.data = (fs.files i).data) :
    Sourced Z F P (fs.setFile i f) := by
  refine h.setFile fun e he hi => ?_
  rw [hf, ← hi]
  exact h.entry e he

theorem setFile_active {id i : Nat} {f : File} (hmem : (.active id, i) ∈ fs.cur)
    (hf : Entry Z F P (.active id) f.data) : Sourced Z F P (fs.setFile i f) := by
  refine h.setFile fun e he hi => ?_
  rw [h.ino_inj he hmem hi]
  exact hf

theorem syncDir : Sourced Z F P fs.syncDir := ⟨h.ids, h.inos, h.lt, h.entry⟩

theorem remove (n : Name) : Sourced Z F P (fs.remove n) where
  ids := h.ids.sublist (filter_sublist.map _)
  inos := h.inos.sublist (filter_sublist.map _)
  lt e he := h.lt e (mem_of_mem_filter he)
  entry e he := h.entry e (mem_of_mem_filter he)

theorem create {id : Nat} (hn : ∀ e ∈ fs.cur, e.1.id ≠ id) :
    Sourced Z F P (fs.create (.active id)) where
  ids := by
    rw [FS.create, FS.setDir, map_append]
    refine nodup_append.mpr ⟨h.ids, nodup_singleton _, fun n hn' m hm hnm => ?_⟩
    obtain ⟨e, he, rfl⟩ := mem_map.mp hn'
    rw [map_singleton, mem_singleton] at hm
    rw [hm] at hnm
    exact hn e he hnm
  inos := by
    rw [FS.create, FS.setDir, map_append]
    refine nodup_append.mpr ⟨h.inos, nodup_singleton _, fun i hi j hj hij => ?_⟩
    obtain ⟨e, he, rfl⟩ := mem_map.mp hi
    rw [map_singleton, mem_singleton] at hj
    rw [hj] at hij
    exact (h.lt e he).ne hij
  lt e he := by
    rcases FS.mem_create he with he | rfl
    · exact (h.lt e he).trans (Nat.lt_succ_self _)
    · exact Nat.lt_succ_self _
  entry e he := by
    rcases FS.mem_create he with he | rfl
    · have hf : (fs.create (.active id)).files e.2 = fs.files e.2 := FS.setFile_ne fs _ (h.lt e he).ne
      rw [hf]
      exact h.entry e he
    · rw [FS.create_files_next]
      exact .inl rfl

theorem rename {id i : Nat} (hmem : (.active id, i) ∈ fs.cur)
    (hf : Entry Z F P (.sealed id) (fs.files i).data) :
    Sourced Z F P (fs.rename (.active id) (.sealed id)) := by
  have hmap : ∀ g : Name × Nat → Nat, (∀ e, g (if e.1 = Name.active id then (.sealed id, e.2) else e) = g e) →
      (fs.rename (.active id) (.sealed id)).cur.map g =
        (fs.cur.filter fun e => e.1 ≠ .sealed id).map g := by
    intro g hg
    rw [FS.rename, FS.setDir, map_map]
    apply map_congr_left
    exact fun e _ => hg e
  refine ⟨?_, ?_, fun e he => ?_, fun e he => ?_⟩
  · rw [hmap]
    · exact h.ids.sublist (filter_sublist.map _)
    · intro e
      split
      · next heq => rw [heq]; rfl
      · rfl
  · rw [hmap]
    · exact h.inos.sublist (filter_sublist.map _)
    · intro e
      split <;> rfl
  · rcases FS.mem_rename he with ⟨-, he⟩ | ⟨he, -⟩
    · exact h.lt (.active id, e.2) he
    · exact h.lt e he
  · rcases FS.mem_rename he with ⟨hn, he⟩ | ⟨he, -⟩
    · have heq := inj_on_of_nodup_map h.names he hmem rfl
      have hi : e.2 = i := congrArg Prod.snd heq
      have hfiles : (fs.rename (.active id) (.sealed id)).files = fs.files := rfl
      rw [hn, hi, hfiles]
      exact hf
    · exact h.entry e he

theorem lookup {n : Name} {i : Nat} : FS.lookup fs.cur n = some i ↔ (n, i) ∈ fs.cur :=
  FS.lookup_eq_some h.names

end

end Sourced

/-! ## A store over such a directory -/

/-- What every store leaves behind: a directory of sourced files, and failures without effect to come. -/
structure Tidy (Z : Zstd) (F : FuseLib) (P : Object → Prop) (w : World) : Prop where
  dir : Sourced Z F P w.fs
  io : Clean w.ioFaults
  sync : Clean w.syncFaults

/-- The active segment of a store that takes appends: its file ends with its last record. -/
structure Taking (Z : Zstd) (P : Object → Prop) (fs : FS Name) (a : ActiveSegment) (c : Contents) : Prop where
  mem : (.active a.id, a.ino) ∈ fs.cur
  objs : ∀ o ∈ c.objs, P o
  rep : ActiveRep Z fs a c
  data : (fs.files a.ino).data = bodyOf Z c.objs

structure Kempt (Z : Zstd) (F : FuseLib) (P : Object → Prop) (w : World) : Prop extends Tidy Z F P w where
  next : ∀ e ∈ w.fs.cur, e.1.id < w.s.nextID
  active : w.s.failed = none → ∀ a, w.s.active = some a → ∃ c, Taking Z P w.fs a c

namespace Kempt

theorem of_none (h : Tidy Z F P w) (hnext : ∀ e ∈ w.fs.cur, e.1.id < w.s.nextID) (ha : w.s.active = none) :
    Kempt Z F P w := ⟨h, hnext, fun _ _ ha' => nomatch ha.symm.trans ha'⟩

theorem poison (h : Tidy Z F P w) (hnext : ∀ e ∈ w.fs.cur, e.1.id < w.s.nextID) (e : Err) :
    Kempt Z F P { w with s := { w.s with failed := some (w.s.failed.getD (.writePathFailed e)) } } :=
  ⟨⟨h.dir, h.io, h.sync⟩, hnext, nofun⟩

theorem setStore (h : Kempt Z F P w) {s : Store} (ha : s.active = w.s.active) (hn : w.s.nextID ≤ s.nextID)
    (hf : s.failed = none → w.s.failed = none) : Kempt Z F P { w with s } where
  dir := h.dir
  io := h.io
  sync := h.sync
  next e he := Nat.lt_of_lt_of_le (h.next e he) hn
  active hf' a ha' := h.active (hf hf') a (ha ▸ ha')

/-- Only the file of the active segment and the names matter. -/
theorem frame (h : Kempt Z F P w) {w' : World} (ht : Tidy Z F P w') (hs : w'.s = w.s)
    (hcur : ∀ e ∈ w'.fs.cur, e ∈ w.fs.cur) (hmem : ∀ a, w.s.active = some a → (.active a.id, a.ino) ∈ w.fs.cur →
      (.active a.id, a.ino) ∈ w'.fs.cur)
    (hfile : ∀ a, w.s.active = some a → (w'.fs.files a.ino).data = (w.fs.files a.ino).data) : Kempt Z F P w' where
  toTidy := ht
  next e he := by
    rw [hs]
    exact h.next e (hcur e he)
  active hf a ha := by
    rw [hs] at hf ha
    obtain ⟨c, hc⟩ := h.active hf a ha
    have hdata := hfile a ha
    refine ⟨c, hmem a ha hc.mem, hc.objs, ⟨?_, hc.rep.size, hc.rep.index⟩, ?_⟩
    · rw [hdata]
      exact hc.rep.data
    · rw [hdata]
      exact hc.data

end Kempt

/-! ## Steps of the write path -/

theorem keeps_idle_kempt : Keeps (fun _ => True) (Kempt Z F P) (ioOp id fun _ fs => fs) := by
  intro w h
  have hsame : ∀ io, Clean io → Kempt Z F P { w with ioFaults := io } := fun io hio =>
    h.frame ⟨h.dir, hio, h.sync⟩ rfl (fun _ he => he) (fun _ _ hm => hm) fun _ _ => rfl
  exact wp_ioOp_clean h.io (fun io hio => ⟨trivial, hsame io hio⟩) fun io hio => ⟨trivial, hsame io hio⟩

theorem keeps_syncDir_kempt : Keeps (fun _ => True) (Kempt Z F P) Packstore.syncDir := by
  intro w h
  refine wp_syncOp_clean h.sync (fun sf hsf => ⟨trivial, ?_⟩) fun sf hsf => ⟨trivial, ?_⟩
  · exact h.frame ⟨h.dir.syncDir, h.io, hsf⟩ rfl (fun _ he => he) (fun _ _ hm => hm) fun _ _ => rfl
  · exact h.frame ⟨h.dir, h.io, hsf⟩ rfl (fun _ he => he) (fun _ _ hm => hm) fun _ _ => rfl

theorem keeps_removeSealed_kempt (id : Nat) : Keeps (fun _ => True) (Kempt Z F P) (remove (.sealed id)) := by
  intro w h
  simp only [Packstore.remove, wp_bind, wp_read, post_ok]
  cases FS.lookup w.fs.cur (.sealed id) with
  | none => exact .throw h
  | some i =>
    refine wp_ioOp_clean h.io (fun io hio => ⟨trivial, ?_⟩) fun io hio => ⟨trivial, ?_⟩
    · refine h.frame ⟨h.dir.remove _, hio, h.sync⟩ rfl (fun _ he => mem_of_mem_filter he)
        (fun a _ hm => mem_filter.mpr ⟨hm, ?_⟩) fun _ _ => rfl
      exact decide_eq_true (by simp)
    · exact h.frame ⟨h.dir, hio, h.sync⟩ rfl (fun _ he => he) (fun _ _ hm => hm) fun _ _ => rfl

theorem keeps_fsync_kempt (ino : Nat) : Keeps (fun _ => True) (Kempt Z F P) (fsync ino) := by
  intro w h
  have hsame : ∀ f : File, f.data = (w.fs.files ino).data → ∀ sf, Clean sf →
      Kempt Z F P { w with fs := w.fs.setFile ino f, syncFaults := sf } := by
    intro f hf sf hsf
    refine h.frame ⟨h.dir.setFile_data hf, h.io, hsf⟩ rfl (fun _ he => he) (fun _ _ hm => hm) fun a _ => ?_
    by_cases hi : a.ino = ino
    · rw [hi, FS.setFile_self, hf]
    · rw [FS.setFile_ne _ _ hi]
  exact wp_syncOp_clean h.sync (fun sf hsf => ⟨trivial, hsame _ (File.fsync_data _) sf hsf⟩)
    fun sf hsf => ⟨trivial, hsame _ (File.fsyncFail_data _) sf hsf⟩

theorem orPoison_kempt {m : M Unit} (h : m.Gives (Post (fun _ => Kempt Z F P)
    fun _ w' => Tidy Z F P w' ∧ ∀ e ∈ w'.fs.cur, e.1.id < w'.s.nextID) w) :
    (orPoison m).Gives (fun _ => Kempt Z F P) w := by
  unfold orPoison
  refine h.tries fun r t ht => ?_
  cases r with
  | ok _ => exact .pure ht
  | error e =>
    simp only [post_ok, setFailed, wp_bind, wp_setStore, wp_throw]
    exact .poison ht.1 ht.2 e

theorem keeps_fsyncOrPoison_kempt (ino : Nat) : Keeps (fun _ => True) (Kempt Z F P) (orPoison (fsync ino)) := fun w h =>
  orPoison_kempt ((keeps_fsync_kempt ino w h).post_mono fun r t ht => by
    cases r with
    | ok _ => exact ht
    | error e => exact ⟨ht.toTidy, ht.next⟩)

/-! ### Creating the active segment -/

theorem writeHeader_tidy {id ino : Nat} (h : Tidy Z F P w) (hmem : (.active id, ino) ∈ w.fs.cur)
    (hempty : w.fs.files ino = .empty) :
    (do
      writeAt ino 0 magicHeader
      fsync ino
      syncDir : M Unit).Gives (fun _ u => Tidy Z F P u ∧ u.fs.cur = w.fs.cur ∧ u.s = w.s) w := by
  have hheader : ∀ f : File, f.data = magicHeader → Entry Z F P (.active id) f.data := by
    intro f hf
    refine .inr ⟨.empty, nofun, .inl ?_⟩
    rw [hf, Contents.empty, bodyOf_nil]
  have hdata : ((w.fs.files ino).writeAt 0 magicHeader).data = magicHeader := by
    rw [hempty]
    rfl
  refine wp_bind.mpr (wp_ioOp_clean h.io (fun io hio => ⟨trivial, ?_⟩) fun io hio => ⟨trivial, ?_, rfl, rfl⟩)
  · have hdir := h.dir.setFile_active hmem (hheader _ hdata)
    refine post_ok.mpr (wp_bind.mpr (wp_syncOp_clean (by exact h.sync) (fun sf hsf => ⟨trivial, ?_⟩)
      fun sf hsf => ⟨trivial, ?_, rfl, rfl⟩))
    · have hdir' := hdir.setFile_data (f := ((w.fs.setFile ino ((w.fs.files ino).writeAt 0 magicHeader)).files
        ino).fsync) (File.fsync_data _)
      exact post_ok.mpr (wp_syncOp_clean (by exact hsf)
        (fun sf' hsf' => ⟨trivial, ⟨hdir'.syncDir, hio, hsf'⟩, rfl, rfl⟩)
        fun sf' hsf' => ⟨trivial, ⟨hdir', hio, hsf'⟩, rfl, rfl⟩)
    · exact ⟨hdir.setFile_data (File.fsyncFail_data _), hio, hsf⟩
  · refine ⟨h.dir.setFile_data ?_, hio, h.sync⟩
    rw [hempty]
    rfl

theorem createActive_kempt (h : Kempt Z F P w) (ha : w.s.active = none) :
    createActive.Gives (fun _ => Kempt Z F P) w := by
  have hfresh : ∀ e ∈ w.fs.cur, e.1.id ≠ w.s.nextID := fun e he => (h.next e he).ne
  have hbump : ∀ e ∈ w.fs.cur, e.1.id < w.s.nextID + 1 := fun e he => Nat.lt_succ_of_lt (h.next e he)
  unfold createActive
  simp only [wp_bind, wp_getStore, wp_setStore, post_ok, create, wp_read]
  cases hlook : FS.lookup w.fs.cur (.active w.s.nextID) with
  | some i => exact .throw (.of_none ⟨h.dir, h.io, h.sync⟩ hbump ha)
  | none =>
    refine wp_bind.mpr (wp_ioOp_clean (by exact h.io) (fun io hio => ⟨trivial, ?_⟩) fun io hio => ⟨trivial, ?_⟩)
    swap
    · exact .of_none ⟨h.dir, hio, h.sync⟩ hbump ha
    have hdir := h.dir.create hfresh
    have hmem : (.active w.s.nextID, w.fs.next) ∈ (w.fs.create (.active w.s.nextID)).cur :=
      mem_append_right _ (mem_singleton_self _)
    have hids : ∀ e ∈ (w.fs.create (.active w.s.nextID)).cur, e.1.id < w.s.nextID + 1 := by
      intro e he
      rcases FS.mem_create he with he | rfl
      · exact hbump e he
      · exact Nat.lt_succ_self _
    refine .pure (wp_attempt.mpr ?_)
    have htidy := writeHeader_tidy (Z := Z) (F := F) (P := P) (w := { w with
      fs := w.fs.create (.active w.s.nextID), s := { w.s with nextID := w.s.nextID + 1 }, ioFaults := io })
      ⟨hdir, hio, h.sync⟩ hmem (FS.create_files_next _ _)
    have hfile := writeHeader_any (w := { w with
      fs := w.fs.create (.active w.s.nextID), s := { w.s with nextID := w.s.nextID + 1 }, ioFaults := io })
      (FS.create_files_next _ _)
    refine ((htidy.and hfile).mono (fun _ _ => trivial) fun r u hu => ?_)
    obtain ⟨⟨ht, hcur, hs⟩, -, -, hok⟩ := hu
    cases r with
    | error e =>
      refine post_ok.mpr (wp_bind.mpr (wp_attempt.mpr ?_))
      simp only [remove, wp_bind, wp_read, post_ok]
      have hnext : ∀ e ∈ u.fs.cur, e.1.id < u.s.nextID := by
        rw [hcur, hs]
        exact hids
      have hnone : u.s.active = none := by
        rw [hs]
        exact ha
      cases FS.lookup u.fs.cur (.active w.s.nextID) with
      | none => exact .throw (.throw (.of_none ht hnext hnone))
      | some i =>
        refine wp_ioOp_clean ht.io (fun io' hio' => ⟨trivial, .throw ?_⟩) fun io' hio' =>
          ⟨trivial, .throw ?_⟩
        · exact .of_none ⟨ht.dir.remove _, hio', ht.sync⟩ (fun e he => hnext e (mem_of_mem_filter he)) hnone
        · exact .of_none ⟨ht.dir, hio', ht.sync⟩ hnext hnone
    | ok _ =>
      obtain ⟨hdata, -, -⟩ := hok rfl
      simp only [post_ok, wp_bind, wp_setStore, wp_pure]
      refine ⟨⟨ht.dir, ht.io, ht.sync⟩, ?_, fun _ a ha' => ?_⟩
      · rw [hcur, hs]
        exact hids
      · cases ha'
        have hbody : (u.fs.files w.fs.next).data = bodyOf Z Contents.empty.objs := by
          rw [hdata, Contents.empty, bodyOf_nil]
        refine ⟨.empty, ?_, by rintro _ ⟨⟩, ⟨?_, ?_, .nil⟩, hbody⟩
        · rw [hcur]
          exact hmem
        · rw [hbody]
        · rw [Contents.empty, bodyOf_nil]

/-! ### Appending -/

theorem writeRecord_kempt {a : ActiveSegment} {o : Object} (h : Kempt Z F P w) (hf : w.s.failed = none)
    (ha : w.s.active = some a) (hk : a.index.lookup o.key = none)
    (ho : o.key.Canonical ∧ o.data.length ≤ maxPayload) (hP : P o) :
    (writeRecord a o.key (objectRecord Z o)).Gives (fun _ => Kempt Z F P) w := by
  obtain ⟨c, hc⟩ := h.active hf a ha
  have hsize : a.size = (w.fs.files a.ino).data.length := by rw [hc.data, hc.rep.size]
  have hkey : o.key ∉ c.objs.map Object.key := by
    rw [← hc.rep.index.isSome_iff, hk]
    exact Bool.false_ne_true
  unfold writeRecord
  refine wp_bind.mpr (wp_ioOp_clean h.io (fun io hio => ⟨trivial, ?_⟩) fun io hio => ⟨trivial, ?_⟩)
  · have hdata : ((w.fs.files a.ino).writeAt a.size (objectRecord Z o)).data =
        bodyOf Z (c.snoc o hkey ho).objs := by
      simp only [File.writeAt, hsize, writeAt_end, hc.data, Contents.snoc, bodyOf_snoc]
    have hobjs : ∀ x ∈ (c.snoc o hkey ho).objs, P x := by
      intro x hx
      rcases mem_append.mp hx with hx | hx
      · exact hc.objs x hx
      · rw [mem_singleton.mp hx]
        exact hP
    simp only [post_ok, wp_bind, wp_setStore, wp_pure]
    refine ⟨⟨h.dir.setFile_active hc.mem (.inr ⟨_, hobjs, .inl hdata⟩), hio, h.sync⟩, h.next, fun _ b hb => ?_⟩
    cases hb
    refine ⟨c.snoc o hkey ho, hc.mem, hobjs, ⟨?_, ?_, ?_⟩, ?_⟩
    · simp only [ActiveSegment.push, FS.setFile_self, hdata]
      exact prefix_rfl
    · simp only [ActiveSegment.push, Contents.snoc, bodyOf_snoc, length_append, hc.rep.size]
    · simp only [ActiveSegment.push, Contents.snoc, hc.rep.size]
      exact hc.rep.index.snoc hkey
    · simp only [ActiveSegment.push, FS.setFile_self, hdata]
  · have hsame : ((w.fs.files a.ino).writeAt a.size ((objectRecord Z o).take 0)).data =
        (w.fs.files a.ino).data := by
      simp only [File.writeAt, hsize, writeAt_end, take_zero, append_nil]
    refine h.frame ⟨h.dir.setFile_data hsame, hio, h.sync⟩ rfl (fun _ he => he) (fun _ _ hm => hm) fun b hb => ?_
    cases ha.symm.trans hb
    rw [FS.setFile_self, hsame]

/-! ### Sealing -/

theorem keeps_openSealed_tidy {fs : FS Name} {st : Store} (id : Nat) :
    Keeps (fun _ => True) (fun t => Tidy Z F P t ∧ t.fs = fs ∧ t.s = st) (openSealed id) := by
  intro w h
  unfold openSealed readFile
  simp only [wp_bind, wp_read, post_ok]
  cases FS.lookup w.fs.cur (.sealed id) with
  | none => exact .throw h
  | some i =>
    have hsame : ∀ io, Clean io → Tidy Z F P { w with ioFaults := io } ∧ w.fs = fs ∧ w.s = st :=
      fun io hio => ⟨⟨h.1.dir, hio, h.1.sync⟩, h.2⟩
    refine wp_bind.mpr (wp_ioOp_clean h.1.io (fun io hio => ⟨trivial, ?_⟩) fun io hio => ?_)
    · refine .pure (post_ok.mpr (wp_ite (fun _ => .throw (hsame io hio)) fun _ => ?_))
      cases parseFooter (w.fs.files i).data with
      | error e => exact .throw (hsame io hio)
      | ok fv => exact .pure (hsame io hio)
    · exact ⟨trivial, hsame io hio⟩

/-- The active file in the middle of a seal. -/
structure SealingFile (Z : Zstd) (F : FuseLib) (P : Object → Prop) (s : Store) (a : ActiveSegment) (b : Bytes)
    (w : World) : Prop extends Tidy Z F P w where
  store : w.s = s
  mem : (.active a.id, a.ino) ∈ w.fs.cur
  next : ∀ e ∈ w.fs.cur, e.1.id < s.nextID
  data : (w.fs.files a.ino).data = b

theorem SealingFile.post (h : SealingFile Z F P s a b w) :
    Tidy Z F P w ∧ ∀ e ∈ w.fs.cur, e.1.id < w.s.nextID := by
  refine ⟨h.toTidy, ?_⟩
  rw [h.store]
  exact h.next

theorem SealingFile.setFile {b' : Bytes} (h : SealingFile Z F P s a b w) {f : File} {io sf : List (Option Nat)}
    (hio : Clean io) (hsf : Clean sf) (hf : f.data = b') (hb : Entry Z F P (.active a.id) b') :
    SealingFile Z F P s a b' { w with fs := w.fs.setFile a.ino f, ioFaults := io, syncFaults := sf } where
  dir := h.dir.setFile_active h.mem (hf ▸ hb)
  io := hio
  sync := hsf
  store := h.store
  mem := h.mem
  next := h.next
  data := by rw [FS.setFile_self, hf]

/-- The second half of a seal: the file gets its name, and the mapping replaces the active segment. -/
theorem sealRename_kempt {a : ActiveSegment} {b : Bytes} {s : Store} (h : SealingFile Z F P s a b w)
    (hb : Entry Z F P (.sealed a.id) b) :
    (do
      rename (.active a.id) (.sealed a.id)
      syncDir
      let seg ← openSealed a.id
      setStore fun s => { s with sealed := s.sealed ++ [seg], active := none }
      closeFile).Gives (Post (fun _ => Kempt Z F P)
        fun _ w' => Tidy Z F P w' ∧ ∀ e ∈ w'.fs.cur, e.1.id < w'.s.nextID) w := by
  have hdir := h.dir.rename h.mem (by rw [h.data]; exact hb)
  have hnext : ∀ e ∈ (w.fs.rename (.active a.id) (.sealed a.id)).cur, e.1.id < w.s.nextID := by
    intro e he
    rw [h.store]
    rcases FS.mem_rename he with ⟨hn, he⟩ | ⟨he, -⟩
    · rw [hn]
      exact h.next _ he
    · exact h.next e he
  simp only [rename, wp_bind, wp_read, post_ok, h.dir.lookup.mpr h.mem]
  refine wp_ioOp_clean h.io (fun io hio => ⟨trivial, ?_⟩) fun io hio => ⟨trivial, ⟨h.dir, hio, h.sync⟩, h.post.2⟩
  refine wp_syncOp_clean (by exact h.sync) (fun sf hsf => ⟨trivial, ?_⟩) fun sf hsf =>
    ⟨trivial, ⟨hdir, hio, hsf⟩, hnext⟩
  refine (keeps_openSealed_tidy (Z := Z) (F := F) (P := P) a.id _
    ⟨⟨hdir.syncDir, hio, hsf⟩, rfl, rfl⟩).post_mono fun r t ht => ?_
  obtain ⟨ht, hfs, hs⟩ := ht
  cases r with
  | error e =>
    refine ⟨ht, ?_⟩
    rw [hfs, hs]
    exact hnext
  | ok seg =>
    simp only [post_ok, wp_setStore]
    have hdone : ∀ u : World, Tidy Z F P u → u.fs = t.fs →
        u.s = { t.s with sealed := t.s.sealed ++ [seg], active := none } → Kempt Z F P u := by
      intro u hu hufs hus
      refine .of_none hu ?_ (by rw [hus])
      rw [hufs, hus, hfs, hs]
      exact hnext
    refine wp_ioOp_clean (by exact ht.io) (fun io' hio' => ⟨trivial, ?_⟩) fun io' hio' => ⟨trivial, ?_⟩
    · exact hdone _ ⟨ht.dir, hio', ht.sync⟩ rfl rfl
    · have hkempt := hdone { t with
        s := { t.s with sealed := t.s.sealed ++ [seg], active := none }, ioFaults := io' }
        ⟨ht.dir, hio', ht.sync⟩ rfl rfl
      exact ⟨hkempt.toTidy, hkempt.next⟩

theorem sealActiveLocked_kempt (h : Kempt Z F P w) (hf : w.s.failed = none)
    (hsize : ∀ a, w.s.active = some a → a.size < 2 ^ 64) :
    (sealActiveLocked F).Gives (Post (fun _ => Kempt Z F P)
      fun _ w' => Tidy Z F P w' ∧ ∀ e ∈ w'.fs.cur, e.1.id < w'.s.nextID) w := by
  unfold sealActiveLocked
  simp only [wp_bind, wp_getStore, post_ok]
  cases ha : w.s.active with
  | none => exact .pure h
  | some a =>
    obtain ⟨c, hc⟩ := h.active hf a ha
    refine wp_ite (fun _ => .pure h) fun hne => ?_
    have hne' : c.objs ≠ [] := fun hnil => hne (by rw [hc.rep.length_entries, hnil]; rfl)
    have hcount : c.objs.length < 2 ^ 64 :=
      Nat.lt_of_le_of_lt (length_le_bodyOf Z c.objs) (hc.rep.size ▸ hsize a ha)
    rw [hc.rep.buildFooter_eq]
    cases hfoot : buildFooter F (bodyOf Z c.objs).length (entriesOf Z c.objs) with
    | error e => exact .throw ⟨h.toTidy, h.next⟩
    | ok foot =>
      have hbody : Entry Z F P (.active a.id) (bodyOf Z c.objs) := .inr ⟨c, hc.objs, .inl rfl⟩
      have hfooted : Footed Z F c (bodyOf Z c.objs ++ foot) := ⟨foot, rfl, hfoot, hne', hcount⟩
      have hwhole : Entry Z F P (.active a.id) (bodyOf Z c.objs ++ foot) := .inr ⟨c, hc.objs, .inr hfooted⟩
      have h0 : SealingFile Z F P w.s a (bodyOf Z c.objs) w := ⟨h.toTidy, rfl, hc.mem, h.next, hc.data⟩
      refine wp_bind.mpr (wp_ioOp_clean h.io (fun io hio => ⟨trivial, ?_⟩) fun io hio =>
        ⟨trivial, ⟨h.dir, hio, h.sync⟩, h.next⟩)
      have h1 := h0.setFile (f := (w.fs.files a.ino).truncate a.size) hio h.sync hc.rep.truncate_data hbody
      have hwrite : ∀ p, (((w.fs.setFile a.ino ((w.fs.files a.ino).truncate a.size)).files a.ino).writeAt a.size
          p).data = bodyOf Z c.objs ++ p := by
        intro p
        have hdata := h1.data
        simp only [File.writeAt]
        rw [hdata, hc.rep.size, writeAt_end]
      refine wp_bind.mpr (wp_ioOp_clean (by exact hio) (fun io hio => ⟨trivial, ?_⟩) fun io hio =>
        ⟨trivial, (h1.setFile hio h.sync ((hwrite _).trans (append_nil _)) hbody).post⟩)
      have h2 := h1.setFile hio h.sync (hwrite foot) hwhole
      refine wp_bind.mpr (wp_syncOp_clean (by exact h.sync) (fun sf hsf => ⟨trivial, ?_⟩) fun sf hsf =>
        ⟨trivial, (h2.setFile hio hsf ((File.fsyncFail_data _).trans h2.data) hwhole).post⟩)
      have h3 := h2.setFile hio hsf ((File.fsync_data _).trans h2.data) hwhole
      exact sealRename_kempt h3 ⟨c, hc.objs, hfooted⟩

theorem seal_kempt (h : Kempt Z F P w) (hf : w.s.failed = none)
    (hsize : ∀ a, w.s.active = some a → a.size < 2 ^ 64) :
    (orPoison (sealActiveLocked F)).Gives (fun _ => Kempt Z F P) w :=
  orPoison_kempt (sealActiveLocked_kempt h hf hsize)

/-! ## What the store holds -/

/-- The store represents objects with `P` only. -/
def Stocked (Z : Zstd) (F : FuseLib) (P : Object → Prop) (w : World) : Prop :=
  ∃ L, Held Z F w L ∧ ∀ o ∈ L.objects, P o

/-- A store that hands out objects with `P` only, now and after it is reopened. -/
def Genuine (Z : Zstd) (F : FuseLib) (P : Object → Prop) (w : World) : Prop := Kempt Z F P w ∧ Stocked Z F P w

theorem Kempt.genuine_of_empty (h : Kempt Z F P w) (ha : w.s.active = none) (hs : w.s.sealed = []) :
    Genuine Z F P w := by
  refine ⟨h, ⟨[], none⟩, ⟨⟨⟨?_, ?_⟩, ?_, ?_, ?_, h.sync⟩, ?_⟩, by rintro _ ⟨⟩⟩
  · rw [hs]
    exact .nil
  · rw [ha]
    exact .none
  · simp [ha]
  · rw [Store.ids, hs, ha]
    exact nodup_nil
  · simp [Store.ids, hs, ha]
  · simp [ha]

/-! ### File operations and the store -/

theorem keeps_store_ioOp (ok : FS Name → FS Name) (fail : Nat → FS Name → FS Name) (s : Store) :
    Keeps (fun _ => True) (fun t => t.s = s) (ioOp ok fail) := fun _ h =>
  wp_ioOp_any (fun _ => ⟨trivial, h⟩) fun _ _ => ⟨trivial, h⟩

theorem keeps_store_syncOp (ok : FS Name → FS Name) (fail : Nat → FS Name → FS Name) (s : Store) :
    Keeps (fun _ => True) (fun t => t.s = s) (syncOp ok fail) := fun _ h =>
  wp_syncOp_any (fun _ _ => ⟨trivial, h⟩) fun _ _ _ _ => ⟨trivial, h⟩

theorem keeps_store_remove (n : Name) (s : Store) :
    Keeps (fun _ => True) (fun t => t.s = s) (remove n) := fun _ h =>
  remove_any.post_mono fun _ _ ht => ht.1.trans h

theorem keeps_remove_kempt (n : Name) :
    Keeps (fun _ => True) (fun t => Kempt Z F P t ∧ t.s.active = none) (remove n) := by
  intro w h
  simp only [remove, wp_bind, wp_read, post_ok]
  cases FS.lookup w.fs.cur n with
  | none => exact .throw h
  | some i =>
    obtain ⟨h, ha⟩ := h
    refine wp_ioOp_clean h.io (fun io hio => ⟨trivial, ?_, ha⟩) fun io hio => ⟨trivial, ?_, ha⟩
    · exact .of_none ⟨h.dir.remove _, hio, h.sync⟩ (fun e he => h.next e (mem_of_mem_filter he)) ha
    · exact .of_none ⟨h.dir, hio, h.sync⟩ h.next ha

/-! ### Wipe and Close -/

/-- A store that has let go of its segments. -/
def Emptied (Z : Zstd) (F : FuseLib) (P : Object → Prop) (s : Store) (w : World) : Prop :=
  Kempt Z F P w ∧ w.s = s

theorem Emptied.genuine {s : Store} (h : Emptied Z F P s w) (ha : s.active = none) (hs : s.sealed = []) :
    Genuine Z F P w :=
  h.1.genuine_of_empty (by rw [h.2, ha]) (by rw [h.2, hs])

theorem keeps_remove_emptied {s : Store} (ha : s.active = none) (n : Name) :
    Keeps (fun _ => True) (Emptied Z F P s) (remove n) := fun w h =>
  (((keeps_remove_kempt n).and (keeps_store_remove n s)) w ⟨⟨h.1, by rw [h.2, ha]⟩, h.2⟩).post_mono
    fun _ _ ht => ⟨ht.1.1, ht.2⟩

theorem keeps_wipe_genuine : Keeps (fun _ => True) (Genuine Z F P) wipe := by
  intro w h
  unfold wipe
  simp only [wp_bind, wp_getStore, post_ok]
  refine wp_ite (fun _ => .throw h) fun _ => ?_
  simp only [wp_bind, wp_setStore, post_ok]
  let s' : Store := { w.s with active := none, sealed := [], failed := none }
  have hstart : Emptied Z F P s' { w with s := s' } :=
    ⟨.of_none ⟨h.1.dir, h.1.io, h.1.sync⟩ h.1.next rfl, rfl⟩
  have hkeep := keeps_allThenFail (keeps_deletes (I := fun _ => True) (J := Emptied Z F P s') w.s.active
    w.s.sealed w.s.cfg.sync (keeps_idle_kempt.and (keeps_store_ioOp _ _ s'))
    (fun id => keeps_remove_emptied rfl _) (keeps_syncDir_kempt.and (keeps_store_syncOp _ _ s'))
    fun a _ => keeps_remove_emptied rfl _)
  exact (hkeep _ hstart).post_mono fun _ _ ht => ht.genuine rfl rfl

theorem keeps_close_genuine : Keeps (fun _ => True) (Genuine Z F P) close := by
  intro w h
  let s' : Store := { w.s with closed := true, active := none, sealed := [] }
  have hfsync : ∀ ino, Keeps (fun _ => True) (Emptied Z F P s') (fsync ino) := fun ino =>
    (keeps_fsync_kempt ino).and (keeps_store_syncOp _ _ s')
  have hclose : Keeps (fun _ => True) (Emptied Z F P s') closeFile := keeps_idle_kempt.and (keeps_store_ioOp _ _ s')
  refine keeps_close_of hfsync hclose h ?_ fun t ht => ht.genuine rfl rfl
  exact ⟨.of_none ⟨h.1.dir, h.1.io, h.1.sync⟩ h.1.next rfl, rfl⟩

end AmberStore.Packstore
