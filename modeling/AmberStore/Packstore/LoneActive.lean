import AmberStore.Packstore.MapRefinement
import AmberStore.Packstore.Sessions

/-!
# One active segment

With at most one failing file operation the directory never holds two active segments, if `Wipe` does
delete the active segment that it forgets.
-/

namespace AmberStore.Packstore
open Bytes Amberpack Act List

/-! ## Faults -/

/-- How many of the coming file operations fail. -/
def World.faults (w : World) : Nat :=
  w.ioFaults.countP Option.isSome + w.syncFaults.countP Option.isSome

theorem countP_tail_of_none {l : List (Option Nat)} (h : l.head?.join = none) :
    l.tail.countP Option.isSome = l.countP Option.isSome := by
  cases l with
  | nil => rfl
  | cons x l =>
    cases x with
    | none => rfl
    | some n => cases h

theorem countP_tail_of_some {l : List (Option Nat)} (h : l.head?.join = some n) :
    l.tail.countP Option.isSome + 1 = l.countP Option.isSome := by
  cases l with
  | nil => cases h
  | cons x l =>
    cases x with
    | none => cases h
    | some n => simp

section Faults
variable {w : World} {I : World → Prop} {Q : Except Err Unit → World → Prop}
  {ok : FS Name → FS Name} {fail : Nat → FS Name → FS Name}

theorem wp_ioOp_faults
    (hok : w.ioFaults.head?.join = none → ∀ w', w'.fs = ok w.fs → w'.s = w.s → w'.faults = w.faults →
      I w' ∧ Q (.ok ()) w')
    (hfail : ∀ n w', w.ioFaults.head?.join = some n → w'.fs = fail n w.fs → w'.s = w.s →
      w'.faults + 1 = w.faults → I w' ∧ Q (.error .io) w') : (ioOp ok fail).Wp I Q w := by
  refine wp_ioOp_head (fun h => hok h _ rfl rfl ?_) fun n h => hfail n _ h rfl rfl ?_
  · simp only [World.faults, countP_tail_of_none h]
  · have := countP_tail_of_some h
    simp only [World.faults]
    omega

theorem wp_syncOp_faults
    (hok : ∀ w', w'.fs = ok w.fs → w'.s = w.s → w'.faults = w.faults → I w' ∧ Q (.ok ()) w')
    (hfail : ∀ n w', w'.fs = fail n w.fs → w'.s = w.s → w'.faults + 1 = w.faults →
      I w' ∧ Q (.error .io) w') : (syncOp ok fail).Wp I Q w := by
  refine wp_syncOp_head (fun h => hok _ rfl rfl ?_) fun n h => hfail n _ rfl rfl ?_
  · simp only [World.faults, countP_tail_of_none h]
  · have := countP_tail_of_some h
    simp only [World.faults]
    omega

end Faults

/-! ## The active segments of the directory -/

/-- The directory holds at most one active segment, and at most one more file operation fails. -/
def Lone (w : World) : Prop := (activePaths w.fs.cur).length ≤ 1 ∧ w.faults ≤ 1

theorem Lone.tail (h : Lone w) : Lone { w with ioFaults := w.ioFaults.tail } := by
  obtain ⟨hl, hf⟩ := h
  have htail : w.ioFaults.tail.countP Option.isSome ≤ w.ioFaults.countP Option.isSome :=
    (tail_sublist _).countP_le
  refine ⟨hl, ?_⟩
  unfold World.faults at hf ⊢
  simp only
  omega

/-- Besides, the store is in a relation to the active segments of the directory. -/
def LoneWith (R : Store → List (Nat × Nat) → Prop) (w : World) : Prop :=
  Lone w ∧ R w.s (activePaths w.fs.cur)

/-- An open store knows each active segment of the directory. -/
def Knows (s : Store) (as : List (Nat × Nat)) : Prop :=
  s.closed = false → ∀ p ∈ as, ∃ a, s.active = some a ∧ p.1 = a.id

theorem activePaths_append (d e : Directory Name) :
    activePaths (d ++ e) = activePaths d ++ activePaths e := by simp [activePaths]

theorem activePaths_create (fs : FS Name) (id : Nat) :
    activePaths (fs.create (.active id)).cur = activePaths fs.cur ++ [(id, fs.next)] := by
  rw [FS.create, FS.setDir, FS.setFile, activePaths_append]
  rfl

theorem activePaths_remove_sealed (fs : FS Name) (id : Nat) :
    activePaths (fs.remove (.sealed id)).cur = activePaths fs.cur := by
  rw [FS.remove, FS.setDir]
  induction fs.cur with
  | nil => rfl
  | cons e d ih =>
    obtain ⟨n, i⟩ := e
    cases n with
    | sealed j =>
      by_cases hj : j = id
      · simpa [activePaths, hj] using ih
      · simpa [activePaths, hj] using ih
    | active j => simpa [activePaths] using ih

theorem activePaths_remove_active (fs : FS Name) (id : Nat) :
    activePaths (fs.remove (.active id)).cur = (activePaths fs.cur).filter fun p => p.1 ≠ id := by
  rw [FS.remove, FS.setDir]
  induction fs.cur with
  | nil => rfl
  | cons e d ih =>
    obtain ⟨n, i⟩ := e
    cases n with
    | sealed j => simpa [activePaths] using ih
    | active j =>
      by_cases hj : j = id
      · simpa [activePaths, hj] using ih
      · simpa [activePaths, hj] using ih

theorem activePaths_rename (fs : FS Name) (id : Nat) :
    activePaths (fs.rename (.active id) (.sealed id)).cur =
      (activePaths fs.cur).filter fun p => p.1 ≠ id := by
  rw [FS.rename, FS.setDir]
  induction fs.cur with
  | nil => rfl
  | cons e d ih =>
    obtain ⟨n, i⟩ := e
    cases n with
    | sealed j =>
      by_cases hj : j = id
      · simpa [activePaths, hj] using ih
      · simpa [activePaths, hj] using ih
    | active j =>
      by_cases hj : j = id
      · simpa [activePaths, hj] using ih
      · simpa [activePaths, hj] using ih

theorem filter_ne_eq_nil {as : List (Nat × Nat)} {id : Nat} (h : ∀ p ∈ as, p.1 = id) :
    (as.filter fun p => p.1 ≠ id) = [] := by
  rw [filter_eq_nil_iff]
  intro p hp
  simp [h p hp]

/-- Nothing has changed but files, and perhaps faults are used up. -/
structure Same (w w' : World) : Prop where
  store : w'.s = w.s
  paths : activePaths w'.fs.cur = activePaths w.fs.cur
  faults : w'.faults ≤ w.faults

theorem Same.trans (h : Same w w') (h' : Same w' w'') : Same w w'' :=
  ⟨h'.store.trans h.store, h'.paths.trans h.paths, h'.faults.trans h.faults⟩

theorem Same.lone (h : Same w w') (hw : Lone w) : Lone w' :=
  ⟨h.paths ▸ hw.1, h.faults.trans hw.2⟩

section Ops
variable {R : Store → List (Nat × Nat) → Prop} {ok : FS Name → FS Name}
  {fail : Nat → FS Name → FS Name}

theorem Same.loneWith (h : Same w w') (hw : LoneWith R w) : LoneWith R w' :=
  ⟨h.lone hw.1, by rw [h.store, h.paths]; exact hw.2⟩

/-- The action changes nothing but files, and uses up a fault if it fails. -/
def Silent (m : M Unit) : Prop := ∀ w, Lone w →
  m.Wp Lone (Post (fun _ => Same w) fun _ w' => Same w w' ∧ w'.faults < w.faults) w

theorem silent_ioOp (hok : ∀ fs, activePaths (ok fs).cur = activePaths fs.cur)
    (hfail : ∀ n fs, activePaths (fail n fs).cur = activePaths fs.cur) : Silent (ioOp ok fail) := by
  intro w hw
  refine wp_ioOp_faults (fun _ w' hfs hs hf => ?_) fun n w' _ hfs hs hf => ?_
  · have h : Same w w' := ⟨hs, by rw [hfs, hok], hf.le⟩
    exact ⟨h.lone hw, h⟩
  · have h : Same w w' := ⟨hs, by rw [hfs, hfail], by omega⟩
    exact ⟨h.lone hw, h, by omega⟩

theorem silent_syncOp (hok : ∀ fs, activePaths (ok fs).cur = activePaths fs.cur)
    (hfail : ∀ n fs, activePaths (fail n fs).cur = activePaths fs.cur) :
    Silent (syncOp ok fail) := by
  intro w hw
  refine wp_syncOp_faults (fun w' hfs hs hf => ?_) fun n w' hfs hs hf => ?_
  · have h : Same w w' := ⟨hs, by rw [hfs, hok], hf.le⟩
    exact ⟨h.lone hw, h⟩
  · have h : Same w w' := ⟨hs, by rw [hfs, hfail], by omega⟩
    exact ⟨h.lone hw, h, by omega⟩

theorem Silent.bind {m m' : M Unit} (h : Silent m) (h' : Silent m') : Silent (do m; m') := by
  intro w hw
  refine (h w hw).bind (fun _ t ht => ?_) fun _ _ ht => ht
  refine (h' t (ht.lone hw)).post_mono fun r u hu => ?_
  cases r with
  | error e => exact ⟨ht.trans hu.1, hu.2.trans_le ht.faults⟩
  | ok _ => exact ht.trans hu

theorem Silent.keeps {m : M Unit} (h : Silent m) : Keeps Lone (LoneWith R) m := by
  intro w hw
  refine (h w hw.1).post_mono fun r t ht => ?_
  cases r with
  | error e => exact ht.1.loneWith hw
  | ok _ => exact ht.loneWith hw

theorem silent_writeAt (ino off : Nat) (p : Bytes) : Silent (writeAt ino off p) :=
  silent_ioOp (fun _ => rfl) fun _ _ => rfl

theorem silent_truncate (ino n : Nat) : Silent (truncate ino n) :=
  silent_ioOp (fun _ => rfl) fun _ _ => rfl

theorem silent_fsync (ino : Nat) : Silent (fsync ino) := silent_syncOp (fun _ => rfl) fun _ _ => rfl

theorem silent_syncDir : Silent syncDir := silent_syncOp (fun _ => rfl) fun _ _ => rfl

theorem silent_idle : Silent (ioOp id fun _ fs => fs) := silent_ioOp (fun _ => rfl) fun _ _ => rfl

theorem keeps_readFile (n : Name) : Keeps Lone (LoneWith R) (readFile n) := by
  refine keeps_read.bind fun w => ?_
  cases FS.lookup w.fs.cur n with
  | none => exact keeps_throw _
  | some i => exact silent_idle.keeps.bind fun _ => keeps_pure _

theorem keeps_openSealed (id : Nat) : Keeps Lone (LoneWith R) (openSealed id) := by
  refine (keeps_readFile _).bind fun mm => keeps_ite (keeps_throw _) ?_
  cases parseFooter mm with
  | error e => exact keeps_throw _
  | ok fv => exact keeps_pure _

theorem keeps_remove_sealed (id : Nat) : Keeps Lone (LoneWith R) (remove (.sealed id)) := by
  refine keeps_read.bind fun w => ?_
  cases FS.lookup w.fs.cur (.sealed id) with
  | none => exact keeps_throw _
  | some i => exact (silent_ioOp (fun fs => activePaths_remove_sealed fs id) fun _ _ => rfl).keeps

end Ops

/-! ## The write path -/

/-- The segment is the only active one. -/
def Sole (id : Nat) (_ : Store) (as : List (Nat × Nat)) : Prop := ∀ p ∈ as, p.1 = id

def Nothing (_ : Store) (as : List (Nat × Nat)) : Prop := as = []

theorem LoneWith.knows_of_nil (h : LoneWith Nothing w) : LoneWith Knows w :=
  ⟨h.1, fun _ p hp => by rw [h.2] at hp; cases hp⟩

theorem rename_sole {id : Nat} (h : LoneWith (Sole id) w) :
    (rename (.active id) (.sealed id)).Wp Lone
      (Post (fun _ w' => LoneWith Nothing w' ∧ w'.s = w.s)
        fun _ w' => LoneWith (Sole id) w' ∧ w'.s = w.s) w := by
  unfold rename
  simp only [wp_bind, wp_read, post_ok]
  cases FS.lookup w.fs.cur (.active id) with
  | none => exact .throw ⟨h, rfl⟩
  | some i =>
    refine wp_ioOp_faults (fun _ w' hfs hs hf => ?_) fun n w' _ hfs hs hf => ?_
    · have hnil : activePaths w'.fs.cur = [] := by
        rw [hfs, activePaths_rename, filter_ne_eq_nil h.2]
      have hl : Lone w' := ⟨by simp [hnil], hf ▸ h.1.2⟩
      exact ⟨hl, ⟨hl, hnil⟩, hs⟩
    · have hw' : LoneWith (Sole id) w' := by
        obtain ⟨⟨hl, hb⟩, hr⟩ := h
        exact ⟨⟨hfs ▸ hl, by omega⟩, by rwa [hs, hfs]⟩
      exact ⟨hw'.1, hw', hs⟩

theorem remove_sole {id : Nat} (h : LoneWith (Sole id) w) (hf : w.ioFaults.head?.join = none) :
    (remove (.active id)).Wp Lone (fun _ w' => LoneWith Nothing w' ∧ w'.s = w.s) w := by
  unfold remove
  simp only [wp_bind, wp_read, post_ok]
  cases hl : FS.lookup w.fs.cur (.active id) with
  | none =>
    refine .throw ⟨⟨h.1, ?_⟩, rfl⟩
    -- every active segment of the directory has this name, and there is none
    rw [Nothing, eq_nil_iff_forall_not_mem]
    intro p hp
    have hid := h.2 p hp
    exact FS.lookup_eq_none.mp hl p.2 (hid ▸ mem_activePaths.mp hp)
  | some i =>
    refine wp_ioOp_faults (fun _ w' hfs hs hf' => ?_) fun n w' hn => ?_
    · have hnil : activePaths w'.fs.cur = [] := by
        rw [hfs, activePaths_remove_active, filter_ne_eq_nil h.2]
      have hl : Lone w' := ⟨by simp [hnil], hf' ▸ h.1.2⟩
      exact ⟨hl, ⟨hl, hnil⟩, hs⟩
    · rw [hf] at hn
      cases hn

theorem faultless {w : World} (h : w.faults = 0) : w.ioFaults.head?.join = none := by
  cases hh : w.ioFaults.head?.join with
  | none => rfl
  | some n =>
    have := countP_tail_of_some hh
    unfold World.faults at h
    omega

theorem create_lone (h : LoneWith Nothing w) (id : Nat) : (create (.active id)).Wp Lone
    (Post (fun _ w' => (∃ i, activePaths w'.fs.cur = [(id, i)]) ∧ w'.s = w.s ∧ w'.faults ≤ w.faults)
      fun _ w' => LoneWith Nothing w' ∧ w'.s = w.s) w := by
  unfold create
  simp only [wp_bind, wp_read, post_ok]
  cases FS.lookup w.fs.cur (.active id) with
  | some i => exact .throw ⟨h, rfl⟩
  | none =>
    refine wp_bind.mpr (wp_ioOp_faults (fun _ w' hfs hs hf => ?_) fun n w' _ hfs hs hf => ?_)
    · have hp : activePaths w'.fs.cur = [(id, w.fs.next)] := by
        rw [hfs, activePaths_create, h.2, nil_append]
      exact ⟨⟨by simp [hp], hf ▸ h.1.2⟩, .pure ⟨⟨_, hp⟩, hs, hf.le⟩⟩
    · have hsame : Same w w' := ⟨hs, by rw [hfs], by omega⟩
      exact ⟨hsame.lone h.1, hsame.loneWith h, hs⟩

/-- A segment that could not be created leaves no file, since there is but one fault. -/
theorem createActive_lone (h : LoneWith Knows w) (hwr : w.s.Writable) (ha : w.s.active = none) :
    createActive.Wp Lone (Post (fun a w' => LoneWith Knows w' ∧ w'.s.Writable ∧ w'.s.active = some a)
      fun _ => LoneWith Knows) w := by
  have hnil : LoneWith Nothing w := by
    refine ⟨h.1, eq_nil_iff_forall_not_mem.mpr fun p hp => ?_⟩
    obtain ⟨a, ha', -⟩ := h.2 hwr.1 p hp
    rw [ha] at ha'
    cases ha'
  have hnext : LoneWith Nothing { w with s := { w.s with nextID := w.s.nextID + 1 } } := hnil
  unfold createActive
  simp only [wp_bind, wp_getStore, post_ok, wp_setStore]
  refine (create_lone hnext _).post_mono fun r t ht => ?_
  cases r with
  | error e => exact ht.1.knows_of_nil
  | ok ino =>
    obtain ⟨⟨i, hp⟩, hs, hf⟩ := ht
    have hl : Lone t := ⟨by simp [hp], hf.trans h.1.2⟩
    simp only [post_ok, wp_attempt]
    refine (((silent_writeAt ino 0 magicHeader).bind
      ((silent_fsync ino).bind silent_syncDir)) t hl).post_mono fun r u hu => ?_
    cases r with
    | error e =>
      obtain ⟨hsame, hlt⟩ := hu
      have hsole : LoneWith (Sole w.s.nextID) u := by
        refine ⟨hsame.lone hl, fun p hp' => ?_⟩
        rw [hsame.paths, hp] at hp'
        rw [mem_singleton.mp hp']
      have hzero : u.faults = 0 := by have := hl.2; omega
      simp only [post_ok, wp_bind, wp_attempt]
      refine (remove_sole hsole (faultless hzero)).post_mono fun r v hv => ?_
      exact .throw hv.1.knows_of_nil
    | ok _ =>
      simp only [post_ok, wp_bind, wp_setStore, wp_pure]
      have hus : u.s = { w.s with nextID := w.s.nextID + 1 } := hu.store.trans hs
      refine ⟨⟨hu.lone hl, fun _ p hp' => ⟨_, rfl, ?_⟩⟩, ?_, trivial⟩
      · rw [hu.paths, hp] at hp'
        rw [mem_singleton.mp hp']
      · rw [hus]
        exact hwr

/-- The store is the given one, and the segment the only active one. -/
def SoleOf (s₀ : Store) (id : Nat) (s : Store) (as : List (Nat × Nat)) : Prop :=
  s = s₀ ∧ Sole id s as

/-- The file operations of a seal, from the state in which it begins. -/
theorem sealFile_lone (h : LoneWith (SoleOf s₀ a.id) w) (ha : s₀.active = some a) (footer : Bytes) :
    Wp (do
      truncate a.ino a.size
      writeAt a.ino a.size footer
      fsync a.ino
      rename (.active a.id) (.sealed a.id)
      syncDir
      let seg ← openSealed a.id
      setStore fun s => { s with sealed := s.sealed ++ [seg], active := none }
      closeFile : M Unit) Lone (fun _ => LoneWith Knows) w := by
  have hback : ∀ u, LoneWith (SoleOf s₀ a.id) u → LoneWith Knows u := by
    intro u ⟨hl, hs, hid⟩
    exact ⟨hl, fun _ p hp => ⟨a, by rw [hs, ha], hid p hp⟩⟩
  refine (silent_truncate _ _).keeps.wp_bind h (fun _ t ht => ?_) fun _ => hback
  refine (silent_writeAt _ _ _).keeps.wp_bind ht (fun _ t ht => ?_) fun _ => hback
  refine (silent_fsync _).keeps.wp_bind ht (fun _ t ht => ?_) fun _ => hback
  have hsole : LoneWith (Sole a.id) t := ⟨ht.1, ht.2.2⟩
  refine (rename_sole hsole).bind (fun _ t' ht' => ?_) fun _ t' ht' =>
    hback t' ⟨ht'.1.1, ht'.2.trans ht.2.1, ht'.1.2⟩
  -- from here on there is no active segment in the directory
  refine silent_syncDir.keeps.wp_bind ht'.1 (fun _ t ht => ?_) fun _ _ h => h.knows_of_nil
  refine (keeps_openSealed _).wp_bind ht (fun seg t ht => ?_) fun _ _ h => h.knows_of_nil
  simp only [wp_bind, wp_setStore, post_ok]
  have hswap : LoneWith Nothing
      { t with s := { t.s with sealed := t.s.sealed ++ [seg], active := none } } := ht
  exact (silent_idle.keeps _ hswap).post_mono fun _ _ h => h.knows_of_nil

theorem sealActiveLocked_lone (h : LoneWith Knows w) (hwr : w.s.Writable) (F : FuseLib) :
    (sealActiveLocked F).Wp Lone (fun _ => LoneWith Knows) w := by
  unfold sealActiveLocked
  refine wp_bind.mpr (wp_getStore.mpr (post_ok.mpr ?_))
  cases ha : w.s.active with
  | none => exact .pure h
  | some a =>
    refine wp_ite (fun _ => .pure h) fun _ => ?_
    cases buildFooter F a.size a.indexEntries with
    | error e => exact .throw h
    | ok footer =>
      refine sealFile_lone ⟨h.1, rfl, fun p hp => ?_⟩ ha footer
      obtain ⟨a', ha', hid⟩ := h.2 hwr.1 p hp
      rw [ha] at ha'
      cases ha'
      exact hid

theorem Knows.congr (h : Knows s as) (hs : s.SameWrites s') : Knows s' as := by
  intro hc p hp
  obtain ⟨ha, hc', -⟩ := hs
  rw [ha]
  exact h (hc' ▸ hc) p hp

theorem LoneWith.poison (h : LoneWith Knows w) (e : Err) :
    LoneWith Knows { w with s := { w.s with failed := some e } } := h

theorem orPoison_lone {m : M Unit} (h : m.Wp Lone (Post (fun _ => P) fun _ => LoneWith Knows) w) :
    (orPoison m).Wp Lone (Post (fun _ => P) fun _ => LoneWith Knows) w := by
  refine (orPoison_spec h).post_mono fun r t ht => ?_
  cases r with
  | ok _ => exact ht
  | error e =>
    obtain ⟨u, hu, rfl⟩ := ht
    exact hu.poison _

theorem writeRecord_lone (h : LoneWith Knows w) (hwr : w.s.Writable) (ha : w.s.active = some a)
    (k : Key) (rec : Bytes) : (writeRecord a k rec).Wp Lone
      (Post (fun a' w' => LoneWith Knows w' ∧ w'.s.Writable ∧ w'.s.active = some a')
        fun _ => LoneWith Knows) w := by
  refine (silent_writeAt _ _ _ w h.1).bind (fun _ t ht => ?_) fun _ _ ht => ht.1.loneWith h
  simp only [wp_bind, wp_setStore, post_ok, wp_pure]
  refine ⟨⟨ht.lone h.1, fun _ p hp => ⟨_, rfl, ?_⟩⟩, ?_, trivial⟩
  · rw [ht.paths] at hp
    obtain ⟨a', ha', hid⟩ := h.2 hwr.1 p hp
    rw [ha] at ha'
    cases ha'
    exact hid
  · rw [Store.Writable, ht.store]
    exact hwr

theorem steady_lone (F : FuseLib) : Steady F Lone (LoneWith Knows) where
  point h := h.1
  store h hs := ⟨h.1, h.2.congr hs⟩
  idle h := ⟨h.1.tail, h.2⟩
  create := createActive_lone
  write h hwr ha := writeRecord_lone h hwr ha _ _
  fsync {w a} h ha := by
    refine orPoison_lone ((silent_fsync a.ino w h.1).post_mono fun r t ht => ?_)
    cases r with
    | error e => exact ht.1.loneWith h
    | ok _ => exact ⟨ht.loneWith h, ht.store⟩
  sealActive h hwr := Wp.const.mp (orPoison_lone (Wp.const.mpr (sealActiveLocked_lone h hwr F)))
  syncDir := silent_syncDir.keeps
  removeSealed := keeps_remove_sealed

/-! ## Wipe, Close and Open -/

/-- In a `Wipe` of a store with an active segment the unlink of its file, which is the second file
operation, does not fail. -/
def Unlinks (w : World) : Call → Prop
  | .wipe => w.s.active.isSome = true → w.ioFaults.tail.head?.join = none
  | _ => True

theorem wp_allThenFail_cons {m : M Unit} {ms : List (M Unit)} {I : World → Prop}
    {Q : Except Err Unit → World → Prop} {first : Option Err}
    (h : m.Wp I (fun _ t => ∀ first, (allThenFail.go first ms).Wp I Q t) w) :
    (allThenFail.go first (m :: ms)).Wp I Q w := by
  unfold allThenFail.go
  refine h.tries fun r t ht => ?_
  cases r with
  | error e => exact ht _
  | ok _ => exact ht _

theorem closeFile_tail (h : Lone { w with ioFaults := w.ioFaults.tail }) :
    closeFile.Wp Lone (fun _ t => t = { w with ioFaults := w.ioFaults.tail }) w := by
  unfold closeFile ioOp
  simp only [wp_bind, wp_read, post_ok]
  cases w.ioFaults.head?.join with
  | none => exact wp_step.mpr ⟨h, rfl⟩
  | some n =>
    simp only [wp_bind, wp_step, post_ok, wp_throw]
    exact ⟨h, trivial⟩

/-- A store that has forgotten its segments. -/
def World.forget (w : World) : World :=
  { w with s := { w.s with active := none, sealed := [], failed := none } }

theorem keeps_removeSealed (first : Option Err) (segs : List SealedSegment) (sync : Bool) :
    Keeps Lone (LoneWith R) (allThenFail.go first
      (segs.flatMap (fun g => [closeFile, remove (.sealed g.id)]) ++
        if sync then [syncDir] else [])) :=
  keeps_allThenFail_go (keeps_deletes none segs sync silent_idle.keeps
    keeps_remove_sealed silent_syncDir.keeps nofun) first

theorem wipe_lone (h : LoneWith Knows w) (hu : Unlinks w .wipe) :
    wipe.Wp Lone (fun _ => LoneWith Knows) w := by
  unfold wipe
  simp only [wp_bind, wp_getStore, post_ok]
  refine wp_ite (fun _ => .throw h) fun hc => ?_
  have hopen : w.s.closed = false := by simpa using hc
  simp only [wp_bind, wp_setStore, post_ok, allThenFail]
  cases ha : w.s.active with
  | none =>
    have hnil : LoneWith Nothing w.forget := by
      refine ⟨h.1, eq_nil_iff_forall_not_mem.mpr fun p hp => ?_⟩
      obtain ⟨a, ha', -⟩ := h.2 hopen p hp
      rw [ha] at ha'
      cases ha'
    exact (keeps_removeSealed none w.s.sealed w.s.cfg.sync _ hnil).post_mono
      fun _ _ h => h.knows_of_nil
  | some a =>
    have hsole : LoneWith (Sole a.id) { w.forget with ioFaults := w.ioFaults.tail } := by
      refine ⟨Lone.tail h.1, fun p hp => ?_⟩
      obtain ⟨a', ha', hid⟩ := h.2 hopen p hp
      rw [ha] at ha'
      cases ha'
      exact hid
    have hclose : closeFile.Wp Lone (fun _ t => t = { w.forget with ioFaults := w.ioFaults.tail })
        w.forget := closeFile_tail hsole.1
    refine wp_allThenFail_cons (hclose.post_mono ?_)
    rintro _ _ rfl first
    refine wp_allThenFail_cons ((remove_sole hsole (hu (by rw [ha]; rfl))).post_mono ?_)
    rintro _ t ⟨ht, -⟩ first
    exact (keeps_removeSealed first w.s.sealed w.s.cfg.sync t ht).post_mono
      fun _ _ h => h.knows_of_nil

theorem keeps_close : Keeps Lone (LoneWith Knows) close := fun _ h =>
  @keeps_close_of _ _ _ (LoneWith Knows) (fun _ => (silent_fsync _).keeps) silent_idle.keeps h
    ⟨h.1, nofun⟩ fun _ h => h

/-- The active segments of the directory are these. -/
def Listed (ps : List (Nat × Nat)) (_ : Store) (as : List (Nat × Nat)) : Prop := as = ps

theorem recoverActive_lone {id ino : Nat} (h : LoneWith (Listed [(id, ino)]) w) :
    (recoverActive id ino).Wp Lone (Post (fun _ => LoneWith Knows) fun _ => Lone) w := by
  have hsole : ∀ t, LoneWith (Listed [(id, ino)]) t → LoneWith (Sole id) t := by
    rintro t ⟨hl, hp⟩
    refine ⟨hl, fun p hp' => ?_⟩
    rw [hp] at hp'
    rw [mem_singleton.mp hp']
  have hknows : ∀ t s a, LoneWith (Listed [(id, ino)]) t → s.active = some a → a.id = id →
      LoneWith Knows { t with s := s } := by
    intro t s a ht ha hid
    exact ⟨ht.1, fun _ p hp => ⟨a, ha, ((hsole t ht).2 p hp).trans hid.symm⟩⟩
  unfold recoverActive
  refine (keeps_readFile _).wp_bind h (fun b t ht => ?_) fun _ _ h => h.1
  simp only [bumpNextID, wp_bind, wp_setStore, post_ok]
  have hb : LoneWith (Listed [(id, ino)]) { t with s := t.s.bump id } := ht
  refine wp_ite (fun _ => ?_) fun _ => ?_
  · simp only [addSealed]
    refine (rename_sole (hsole _ hb)).bind (fun _ u hu => ?_) fun _ _ hu => hu.1.1
    refine silent_syncDir.keeps.wp_bind hu.1 (fun _ u hu => ?_) fun _ _ h => h.1
    refine (keeps_openSealed id).wp_bind hu (fun g u hu => ?_) fun _ _ h => h.1
    exact wp_setStore.mpr (LoneWith.knows_of_nil (w := { u with s := _ }) hu)
  · refine silent_idle.keeps.wp_bind hb (fun _ u hu => ?_) fun _ _ h => h.1
    refine wp_ite (fun _ => ?_) fun _ => ?_
    · refine (silent_truncate _ _).keeps.wp_bind hu (fun _ u hu => ?_) fun _ _ h => h.1
      refine (silent_writeAt _ _ _).keeps.wp_bind hu (fun _ u hu => ?_) fun _ _ h => h.1
      exact wp_setStore.mpr (hknows u _ _ hu rfl rfl)
    · refine (silent_truncate _ _).keeps.wp_bind hu (fun _ u hu => ?_) fun _ _ h => h.1
      exact wp_setStore.mpr (hknows u _ _ hu rfl rfl)

theorem keeps_loadSealed (ids : List Nat) :
    Keeps Lone (LoneWith (Listed ps)) (Act.each loadSealed ids) := by
  induction ids with
  | nil => exact keeps_pure _
  | cons id ids ih =>
    refine Keeps.bind ((keeps_openSealed id).bind fun g => ?_) fun _ => ih
    intro w hw
    simp only [bumpNextID, wp_bind, wp_setStore, post_ok]
    exact hw

theorem activePaths_readDir (d : Directory Name) : (activePaths (readDir d)).Perm (activePaths d) :=
  (mergeSort_perm d _).filterMap _

theorem openStore_lone (cfg : Config) (h : Lone w) :
    (openStore cfg).Wp Lone (Post (fun _ => LoneWith Knows) fun _ => Lone) w := by
  unfold openStore load
  simp only [wp_bind, wp_setStore, post_ok, wp_read]
  have hl : LoneWith (Listed (activePaths w.fs.cur)) { w with s := .new cfg } := ⟨h, rfl⟩
  refine Wp.post_mono (keeps_loadSealed _ _ hl) fun r t ht => ?_
  cases r with
  | error e => exact ht.1
  | ok _ =>
    simp only [post_ok]
    have hperm := activePaths_readDir w.fs.cur
    cases hp : activePaths (readDir w.fs.cur) with
    | nil =>
      rw [hp] at hperm
      rw [hperm.nil_eq.symm] at ht
      exact .pure (LoneWith.knows_of_nil (w := { t with s := _ }) ht)
    | cons p ps =>
      cases ps with
      | nil =>
        rw [hp] at hperm
        rw [← singleton_perm.mp hperm] at ht
        exact recoverActive_lone (w := { t with s := _ }) ht
      | cons q ps =>
        -- the directory would hold two active segments
        have hlen := hperm.length_eq
        have := h.1
        rw [hp] at hlen
        simp only [length_cons] at hlen
        omega

/-! ## Why an Open fails -/

/-- The action does not fail because of the number of active segments. -/
def Uncounted (m : M α) : Prop := ∀ w n, (m w).result ≠ .error (.activeSegments n)

theorem uncounted_pure (a : α) : Uncounted (pure a : M α) := nofun

theorem Uncounted.bind {m : M α} {f : α → M β} (h : Uncounted m) (hf : ∀ a, Uncounted (f a)) :
    Uncounted (m >>= f) := by
  intro w n
  simp only [Bind.bind]
  cases hr : (m w).result with
  | error e =>
    intro he
    cases he
    exact h w n hr
  | ok a => exact hf a _ n

theorem Uncounted.wp {m : M α} (h : Uncounted m) (w : World) (n : Nat) :
    m.Gives (fun r _ => r ≠ .error (.activeSegments n)) w :=
  ⟨fun _ _ => trivial, h w n⟩

theorem uncounted_setStore (f : Store → Store) : Uncounted (setStore f) := nofun

theorem uncounted_ioOp (ok : FS Name → FS Name) (fail : Nat → FS Name → FS Name) :
    Uncounted (ioOp ok fail) := by
  refine Uncounted.bind (fun _ _ => nofun) fun w => ?_
  cases w.ioFaults.head?.join with
  | none => exact nofun
  | some n => exact Uncounted.bind (fun _ _ => nofun) fun _ => nofun

theorem uncounted_syncDir : Uncounted syncDir := by
  refine Uncounted.bind (fun _ _ => nofun) fun w => ?_
  cases w.syncFaults.head?.join with
  | none => exact nofun
  | some n => exact Uncounted.bind (fun _ _ => nofun) fun _ => nofun

theorem uncounted_readFile (n : Name) : Uncounted (readFile n) := by
  refine Uncounted.bind (fun _ _ => nofun) fun w => ?_
  cases FS.lookup w.fs.cur n with
  | none => exact nofun
  | some i => exact (uncounted_ioOp _ _).bind fun _ => uncounted_pure _

theorem uncounted_openSealed (id : Nat) : Uncounted (openSealed id) := by
  refine (uncounted_readFile _).bind fun mm => ?_
  split
  · exact nofun
  · cases parseFooter mm with
    | error e => exact nofun
    | ok fv => exact uncounted_pure _

theorem uncounted_recoverActive (id ino : Nat) : Uncounted (recoverActive id ino) := by
  refine (uncounted_readFile _).bind fun b => (uncounted_setStore _).bind fun _ => ?_
  split
  · refine Uncounted.bind (Uncounted.bind (fun _ _ => nofun) fun w => ?_) fun _ =>
      uncounted_syncDir.bind fun _ => (uncounted_openSealed id).bind fun _ => uncounted_setStore _
    cases FS.lookup w.fs.cur (.active id) with
    | none => exact nofun
    | some i => exact uncounted_ioOp _ _
  · refine (uncounted_ioOp _ _).bind fun _ => ?_
    split
    · exact (uncounted_ioOp _ _).bind fun _ => (uncounted_ioOp _ _).bind fun _ => uncounted_setStore _
    · exact (uncounted_ioOp _ _).bind fun _ => uncounted_setStore _

theorem uncounted_loadSealed (ids : List Nat) : Uncounted (Act.each loadSealed ids) := by
  induction ids with
  | nil => exact uncounted_pure _
  | cons id ids ih =>
    exact Uncounted.bind ((uncounted_openSealed id).bind fun g =>
      (uncounted_setStore _).bind fun _ => uncounted_setStore _) fun _ => ih

/-- `Open` counts the active segments of the directory, and nothing else fails that way. -/
theorem openStore_uncounted (cfg : Config) (h : (activePaths w.fs.cur).length ≤ 1) (n : Nat) :
    (openStore cfg w).result ≠ .error (.activeSegments n) := by
  have hwp : (openStore cfg).Gives (fun r _ => r ≠ .error (.activeSegments n)) w := by
    unfold openStore load
    simp only [wp_bind, wp_setStore, post_ok, wp_read]
    refine ((uncounted_loadSealed _).wp _ n).post_mono fun r t ht => ?_
    cases r with
    | error e => exact fun he => ht (by cases he; rfl)
    | ok _ =>
      simp only [post_ok]
      have hlen := (activePaths_readDir w.fs.cur).length_eq
      cases hp : activePaths (readDir w.fs.cur) with
      | nil => exact .pure (by simp)
      | cons p ps =>
        cases ps with
        | nil => exact (uncounted_recoverActive _ _).wp _ n
        | cons q ps =>
          rw [hp] at hlen
          simp only [length_cons] at hlen
          omega
  exact hwp.2

theorem openStore_refused (cfg : Config) (hs : sealedIDs w.fs.cur = [])
    (hp : 2 ≤ (activePaths w.fs.cur).length) :
    (openStore cfg w).result = .error (.activeSegments (activePaths w.fs.cur).length) := by
  have hsealed : sealedIDs (readDir w.fs.cur) = [] := by
    have hperm : (sealedIDs (readDir w.fs.cur)).Perm (sealedIDs w.fs.cur) :=
      (mergeSort_perm _ _).filterMap _
    rwa [hs, perm_nil] at hperm
  have hlen := (activePaths_readDir w.fs.cur).length_eq
  have hwp : (openStore cfg).Gives
      (fun r _ => r = .error (.activeSegments (activePaths w.fs.cur).length)) w := by
    unfold openStore load
    simp only [wp_bind, wp_setStore, post_ok, wp_read, hsealed, Act.each, wp_pure]
    rw [← hlen] at hp ⊢
    rcases hps : activePaths (readDir w.fs.cur) with _ | ⟨p, _ | ⟨q, ps⟩⟩
    · simp [hps] at hp
    · simp [hps] at hp
    · exact .throw rfl
  exact hwp.2

/-- As long as `Wipe` deletes the active segment and no more than one file operation fails, the
directory holds at most one active segment at every point of a run, and no `Open` is refused for
their number. -/
theorem lone_active (h : Sessions Z F H Lone Unlinks σ) :
    (activePaths σ.w.fs.cur).length ≤ 1 ∧
      ∀ cfg n, (openStore cfg σ.w).result ≠ .error (.activeSegments n) := by
  have hlone : Lone σ.w := ((steady_lone F).sessions (fun _ h0 => h0) (fun _ => wipe_lone) keeps_close
    (fun _ cfg hl _ => openStore_lone cfg hl) h).1
  exact ⟨hlone.1, fun cfg n => openStore_uncounted cfg hlone.1 n⟩

/-! ## A Wipe that leaves the file -/

/-- A directory in which the given file operations are going to fail. -/
def faultyWorld (io : List (Option Nat)) : World := { emptyWorld ⟨1000, true⟩ with ioFaults := io }

/-- Open the directory, put an object, wipe the store and put the object again. -/
def wipeCalls : List Call :=
  [.openDir ⟨1000, true⟩, .put helloObject.key helloObject.data, .wipe,
    .put helloObject.key helloObject.data]

/-- The session after these calls, in which the given file operations fail. -/
def wiped (io : List (Option Nat)) : Session :=
  wipeCalls.foldl (Session.call .stored .full noHash) ⟨faultyWorld io, false⟩

/-- The record of the second put is not written. -/
theorem lone_active_wiped :
    activePaths (wiped (List.replicate 7 none ++ [some 0])).w.fs.cur = [(2, 1)] ∧
      (wiped (List.replicate 7 none ++ [some 0])).w.faults = 0 ∧
      ∀ cfg n, (openStore cfg (wiped (List.replicate 7 none ++ [some 0])).w).result ≠
        .error (.activeSegments n) := by
  have hrun : Sessions .stored .full noHash Lone Unlinks (wiped (List.replicate 7 none ++ [some 0])) := by
    refine Sessions.calls (.start ⟨⟨by decide, by decide⟩, rfl⟩) ?_
    exact ⟨by decide +kernel, trivial, by decide +kernel, trivial, by decide +kernel,
      fun _ => by decide +kernel, by decide +kernel, trivial, trivial⟩
  exact ⟨by decide +kernel, by decide +kernel, (lone_active hrun).2⟩

/-- The active segment is not deleted, and the next write creates another one. -/
theorem wipe_bricks : ∃ σ, Sessions .stored .full noHash Lone (fun _ _ => True) σ ∧
    activePaths σ.w.fs.cur = [(1, 0), (2, 1)] ∧
    ∀ cfg, (openStore cfg σ.w).result = .error (.activeSegments 2) := by
  have hcur : (wiped [none, none, none, none, some 0]).w.fs.cur =
      [(.active 1, 0), (.active 2, 1)] := by decide +kernel
  refine ⟨wiped [none, none, none, none, some 0], ?_, by rw [hcur]; rfl, fun cfg => ?_⟩
  · refine Sessions.calls (.start ⟨⟨by decide, by decide⟩, rfl⟩) ?_
    exact ⟨by decide +kernel, trivial, by decide +kernel, trivial, by decide +kernel, trivial,
      by decide +kernel, trivial, trivial⟩
  · rw [openStore_refused cfg (by rw [hcur]; rfl) (by rw [hcur]; decide), hcur]
    rfl

end AmberStore.Packstore
