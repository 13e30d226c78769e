import AmberStore.Packstore.AppendSpec

/-!
# Opening what a crash left

The scan of a segment file that was cut short recovers every record that is whole, and `Open` on a
durable directory succeeds and finds every object whose record is whole.
-/

namespace AmberStore.Packstore
open Bytes Amberpack Act List Function

variable {Z : Zstd} {F : FuseLib} {clean : Prop} {P A : Object → Prop} {w : World} {G : Written}

/-! ## The scan -/

/-- The file ends inside the footer. -/
def FooterCut (Z : Zstd) (F : FuseLib) (c : Contents) (b : Bytes) : Prop :=
  ∃ n, 0 < n ∧ n < (footerOf Z F c).length ∧ b = bodyOf Z c.objs ++ (footerOf Z F c).take n

/-- A truncated footer does not pass for a whole one. -/
def CutFooterFails (Z : Zstd) (F : FuseLib) (c : Contents) (b : Bytes) : Prop :=
  FooterCut Z F c b → ∀ v, parseFooter b ≠ .ok v

/-- The contents the scan of a file recovers. -/
structure Recovered (Z : Zstd) (f : File) (c c' : Contents) (size : Nat) : Prop where
  objs : c'.objs <+: c.objs
  whole : ∀ done rest, c.objs = done ++ rest → (bodyOf Z done).length ≤ f.data.length →
    done <+: c'.objs
  file : size = 0 ∧ c'.objs = [] ∨ size = (bodyOf Z c'.objs).length ∧ bodyOf Z c'.objs <+: f.data

theorem buildFooter_head (h : buildFooter F n es = .ok foot) : ∃ t, foot = tagSeal :: t := by
  rw [buildFooter] at h
  split at h
  · cases h
  · split at h
    · cases h
    · cases h
      exact ⟨_, rfl⟩

theorem footerOf_head (h : footerOf Z F c ≠ []) : ∃ t, footerOf Z F c = tagSeal :: t := by
  unfold footerOf at h ⊢
  split
  · next foot hfoot => exact buildFooter_head hfoot
  · next hfoot =>
    rw [hfoot] at h
    exact absurd rfl h

theorem Sealable.length_lt (h : Sealable c) :
    (bodyOf Z c.objs).length < (sealedFile Z F c).length := by
  obtain ⟨t, ht⟩ := buildFooter_head (parseFooter_sealedFile (Z := Z) (F := F) h).1
  rw [sealedFile, ht, length_append, length_cons]
  omega

/-- Of two ways to cut a list, the one with the shorter body is the shorter. -/
theorem prefix_of_length_bodyOf {objs done rest done' rest' : List Object} {o : Object}
    (h : objs = done ++ rest) (h' : objs = done' ++ o :: rest')
    (hlt : (bodyOf Z done).length < (bodyOf Z (done' ++ [o])).length) : done <+: done' := by
  have hp : done <+: objs := ⟨rest, h.symm⟩
  have hp' : done' <+: objs := ⟨o :: rest', h'.symm⟩
  have hp'' : done' ++ [o] <+: objs := ⟨rest', by rw [h']; simp⟩
  rcases prefix_or_prefix_of_prefix hp hp'' with hd | hd
  · rcases Nat.lt_or_ge done'.length done.length with hl | hl
    · have : done.length ≤ done'.length + 1 := by simpa using hd.length_le
      have heq := hd.eq_of_length (by simp; omega)
      rw [heq] at hlt
      exact absurd hlt (Nat.lt_irrefl _)
    · exact prefix_of_prefix_length_le hp hp' hl
  · obtain ⟨t, ht⟩ := hd
    have := (bodyOf_prefix_append Z (done' ++ [o]) t).length_le
    rw [ht] at this
    omega

theorem scanActive_short {b : Bytes} (h : b.length < magicHeader.length) :
    scanActive b = ⟨0, ∅, false⟩ := by
  rw [scanActive, if_pos (.inl h)]

/-- The scan of a segment file finds a complete seal, or exactly the whole records. -/
theorem scanActive_spec {f : File} {c : Contents} (hf : FileOk Z F f c)
    (hcut : CutFooterFails Z F c f.data) :
    (∃ index, scanActive f.data = ⟨f.data.length, index, true⟩ ∧ Sealable c ∧
      f.data = sealedFile Z F c) ∨
    ∃ c' index size, scanActive f.data = ⟨size, index, false⟩ ∧ IndexOk Z index c'.objs ∧
      Recovered Z f c c' size := by
  have hcases := cut_of_prefix hf.data
  generalize hdata : f.data = data at hcases
  cases hcases with
  | header _ hlt =>
    refine .inr ⟨.empty, ∅, 0, scanActive_short hlt, .nil, nil_prefix, ?_, .inl ⟨rfl, rfl⟩⟩
    intro done rest _ hle
    rw [hdata] at hle
    have := (magicHeader_prefix_bodyOf Z done).length_le
    omega
  | @record done o rest n hobjs hn =>
    have hsub : ∀ x ∈ done, x ∈ c.objs := fun x hx => by rw [hobjs]; exact mem_append_left _ hx
    have htake : (c.take done.length).objs = done := by
      change c.objs.take done.length = done
      rw [hobjs, take_left]
    have hnd : (done.map Object.key).Nodup := htake ▸ (c.take done.length).nodup
    obtain ⟨index, hi, hscan⟩ := scanActive_body (Z := Z) (x := (objectRecord Z o).take n) hnd
      fun x hx => c.fits x (hsub x hx)
    have ho : o ∈ c.objs := by rw [hobjs]; simp
    rw [scanFrom_cut (c.fits o ho).2 hn drop_left] at hscan
    refine .inr ⟨c.take done.length, index, _, hscan, by rw [htake]; exact hi, ?_, ?_, ?_⟩
    · exact take_prefix ..
    · intro done' rest' hobjs' hle
      rw [htake]
      refine prefix_of_length_bodyOf (Z := Z) hobjs' hobjs ?_
      rw [hdata, length_append, length_take] at hle
      rw [bodyOf_snoc, length_append]
      omega
    · rw [htake, hdata]
      exact .inr ⟨rfl, prefix_append ..⟩
  | footer n =>
    obtain ⟨index, hi, hscan⟩ := scanActive_body (Z := Z) (x := (footerOf Z F c).take n) c.nodup c.fits
    have hrec : Recovered Z f c c (bodyOf Z c.objs).length :=
      ⟨prefix_rfl, fun done rest h _ => ⟨rest, h.symm⟩, .inr ⟨rfl, hdata ▸ prefix_append ..⟩⟩
    cases hfoot : (footerOf Z F c).take n with
    | nil =>
      rw [hfoot] at hscan
      rw [append_nil] at hscan ⊢
      rw [scanFrom_end (Nat.le_refl _)] at hscan
      exact .inr ⟨c, index, _, hscan, hi, hrec⟩
    | cons x t =>
      have hne : footerOf Z F c ≠ [] := fun h => by rw [h] at hfoot; simp at hfoot
      obtain ⟨t', ht'⟩ := footerOf_head hne
      have hx : x = tagSeal := by
        cases n with
        | zero => simp at hfoot
        | succ n =>
          rw [ht', take_succ_cons] at hfoot
          exact (List.cons.inj hfoot).1.symm
      subst hx
      rw [hfoot, scanFrom_seal drop_left] at hscan
      cases hparse : parseFooter (bodyOf Z c.objs ++ tagSeal :: t) with
      | error e =>
        rw [hparse] at hscan
        exact .inr ⟨c, index, _, hscan, hi, hrec⟩
      | ok v =>
        rw [hparse] at hscan
        have hseal : Sealable c := hf.sealable (by rw [hdata, hfoot]; simp)
        refine .inl ⟨index, hscan, hseal, ?_⟩
        -- a proper part of the footer would not have parsed
        have hlen : (footerOf Z F c).length ≤ n := by
          refine Nat.le_of_not_lt fun hlt => ?_
          refine hcut ⟨n, ?_, hlt, hdata⟩ v (by rw [hdata, hfoot]; exact hparse)
          refine Nat.pos_of_ne_zero fun h0 => ?_
          rw [h0] at hfoot
          cases hfoot
        rw [← hfoot, take_of_length_le hlen]
        rfl

/-! ## Recovering the active segment -/

/-- A directory that a store can be opened on. -/
structure Openable (Z : Zstd) (F : FuseLib) (fs : FS Name) (G : Written) : Prop where
  kept : ∀ d ∈ fs.dirs, ∀ e ∈ fs.cur, e ∈ d
  torn : ∀ id i, (Name.active id, i) ∈ fs.cur → (fs.files i).torn = false
  cut : ∀ id i, (Name.active id, i) ∈ fs.cur → CutFooterFails Z F (G i) (fs.files i).data
  synced : ∀ id i, (Name.active id, i) ∈ fs.cur →
    (bodyOf Z (G i).objs).length < (fs.files i).data.length →
    (fs.files i).synced = (fs.files i).data.length

/-- The sealed segments of the directory are loaded. -/
structure Loaded (Z : Zstd) (F : FuseLib) (fs : FS Name) (s : Store) (G : Written) : Prop
    extends SealedOk Z F fs s G where
  failed : s.failed = none
  active : s.active = none
  next : ∀ id i, (.sealed id, i) ∈ fs.cur → id < s.nextID

/-- Every record that is whole in a file of the directory is on the new disk. -/
def KeepsWhole (Z : Zstd) (fs : FS Name) (G : Written) (fs' : FS Name) (G' : Written) : Prop :=
  ∀ e ∈ fs.cur, ∀ done rest, (G e.2).objs = done ++ rest →
    (bodyOf Z done).length ≤ (fs.files e.2).data.length → ∀ o ∈ done, OnDisk fs' G' o

/-- The outcome of a successful `Open`. -/
def Opened (Z : Zstd) (F : FuseLib) (clean : Prop) (P A : Object → Prop) (cfg : Config) (fs : FS Name)
    (G : Written) (w' : World) : Prop :=
  ∃ G', Good Z F clean P A w' G' ∧ w'.s.failed = none ∧ w'.s.cfg = cfg ∧
    (∀ o, OnDisk w'.fs G' o → OnDisk fs G o) ∧ KeepsWhole Z fs G w'.fs G'

theorem Store.lt_bump (s : Store) (id : Nat) : id < (s.bump id).nextID ∧
    ∀ n, n < s.nextID → n < (s.bump id).nextID := by
  simp only [Store.bump]
  split
  · exact ⟨Nat.lt_succ_self _, fun n hn => by omega⟩
  · exact ⟨by omega, fun n hn => hn⟩

section Resume
variable {fs : FS Name} {s : Store} {id i : Nat} {f : File} {c : Contents}
  {index : AList fun _ : Key => ActiveLoc}

theorem Loaded.resume (h : Loaded Z F fs s G) (hd : Durable Z F P A fs G) (ho : Openable Z F fs G)
    (hmem : (Name.active id, i) ∈ fs.cur) (hdata : f.data = bodyOf Z c.objs)
    (htorn : f.torn = false) (hi : IndexOk Z index c.objs) (hn : ∀ n, n < s.nextID → n < nextID)
    (hid : id < nextID) : Mounted Z F (fs.setFile i f) { s with
      active := some ⟨id, i, (bodyOf Z c.objs).length, index⟩, nextID := nextID }
      (update G i c) where
  closed := h.closed
  ids := h.ids
  sealed := by
    intro g hg
    obtain ⟨j, hj, hrep⟩ := h.sealed g hg
    refine ⟨j, hj, ?_⟩
    rwa [update_of_ne]
    rintro rfl
    exact nomatch hd.cur.ino_inj hj hmem rfl
  listed := h.listed
  active := by
    intro a ha
    cases ha
    refine ⟨hmem, ?_, ?_, ?_, ?_⟩
    · rw [FS.setFile_self, update_self, hdata]
    · rw [FS.setFile_self, htorn]
    · rw [update_self]
    · rw [update_self]
      exact hi
  idle := nofun
  kept := ho.kept
  next := by
    rintro ⟨n, j⟩ he
    cases n with
    | sealed id' => exact hn _ (h.next id' j he)
    | active id' => exact (hd.cur.one _ _ _ _ he hmem).symm ▸ hid

theorem not_sealed_of_kept (hd : Durable Z F P A fs G) (hk : ∀ d ∈ fs.dirs, ∀ e ∈ fs.cur, e ∈ d)
    (hmem : (Name.active id, i) ∈ fs.cur) : ∀ d ∈ fs.dirs, ∀ id', (Name.sealed id', i) ∉ d := by
  intro d hdd id' hs
  exact nomatch (hd.dirOk hdd).ino_inj hs (hk d hdd _ hmem) rfl

/-- Whole records stay covered when the file is cut to its recovered contents. -/
theorem Recovered.covered {c' : Contents} (h : Recovered Z (fs.files i) c c' size)
    (hf : FileOk Z F (fs.files i) c) (hs : ∀ n, n ≤ (fs.files i).synced →
      n ≤ (bodyOf Z c'.objs).length → n ≤ f.synced) (hx : Covered Z (fs.files i) c x) :
    Covered Z f c' x := by
  obtain ⟨done, rest, hobjs, hxd, hlen⟩ := hx
  obtain ⟨t, ht⟩ := h.whole done rest hobjs (Nat.le_trans hlen hf.synced)
  refine ⟨done, t, ht.symm, hxd, hs _ hlen ?_⟩
  rw [← ht]
  exact (bodyOf_prefix_append Z done t).length_le

theorem keepsWhole_update {c' : Contents} (h : Recovered Z (fs.files i) (G i) c' size)
    (hmem : (Name.active id, i) ∈ fs.cur) :
    KeepsWhole Z fs G (fs.setFile i f) (update G i c') := by
  intro e he done rest hobjs hlen o ho
  by_cases hei : e.2 = i
  · rw [hei] at hobjs hlen
    refine ⟨_, hmem, ?_⟩
    rw [update_self]
    exact (h.whole done rest hobjs hlen).subset ho
  · refine ⟨e, he, ?_⟩
    rw [update_of_ne hei, hobjs]
    exact mem_append_left _ ho

theorem onDisk_of_update {c' : Contents} (h : c'.objs <+: (G i).objs)
    (hmem : (Name.active id, i) ∈ fs.cur) (ho : OnDisk (fs.setFile i f) (update G i c') o) :
    OnDisk fs G o := by
  have hmem' : (Name.active id, i) ∈ (fs.setFile i f).cur := hmem
  rcases (onDisk_update hmem' c' o).mp ho with ho | ⟨e, he, -, ho⟩
  · exact ⟨_, hmem, h.subset ho⟩
  · exact ⟨e, he, ho⟩

theorem Recovered.not_covered {c' : Contents} (h : Recovered Z f c c' size) (hf : FileOk Z F f c)
    (hnil : c'.objs = []) (hx : Covered Z f c x) : False := by
  obtain ⟨done, rest, hobjs, hxd, hlen⟩ := hx
  have hp := h.whole done rest hobjs (Nat.le_trans hlen hf.synced)
  rw [hnil] at hp
  rw [prefix_nil.mp hp] at hxd
  cases hxd

theorem Loaded.seal {seg : SealedSegment} {l : List SealedSegment} (h : Loaded Z F fs s G)
    (hd : Durable Z F P A fs G) (hmem : (Name.active id, i) ∈ fs.cur) (hid : seg.id = id)
    (hrep : SegRep Z F seg (G i)) (hl : l.Perm (s.sealed ++ [seg])) :
    Mounted Z F (fs.rename (.active id) (.sealed id)).syncDir { s.bump id with sealed := l } G := by
  have hok := h.toSealedOk.seal hd.cur hmem hid hrep hl { s.bump id with sealed := l } rfl h.closed
  obtain ⟨hlt, hmono⟩ := s.lt_bump id
  exact {
    closed := h.closed
    ids := hok.ids
    sealed := hok.sealed
    listed := hok.listed
    active := fun a ha => nomatch h.active.symm.trans ha
    idle := fun _ => sealed_idle hd.cur hmem
    kept := kept_syncDir _
    next := by
      refine sealed_next hd.cur hmem ?_
      rintro ⟨n, j⟩ he
      cases n with
      | sealed id' => exact hmono _ (h.next id' j he)
      | active id' => exact (hd.cur.one _ _ _ _ he hmem).symm ▸ hlt }

end Resume

/-- Recovery of the active segment keeps the whole records of its file and completes a crashed
seal. -/
theorem recoverActive_spec {id i : Nat} (hio : w.ioFaults = []) (hsync : clean → w.syncFaults = [])
    (hd : Durable Z F P A w.fs G) (ho : Openable Z F w.fs G) (hl : Loaded Z F w.fs w.s G)
    (hmem : (Name.active id, i) ∈ w.fs.cur) :
    (recoverActive id i).Wp (Safe Z F P A) (Post
      (fun _ w' => Opened Z F clean P A w.s.cfg w.fs G w') (fun _ w' => ¬clean ∧ Safe Z F P A w')) w := by
  have hfile := hd.cur.active _ _ hmem
  have hns := not_sealed_of_kept hd ho.kept hmem
  unfold recoverActive
  simp only [wp_bind]
  refine wp_readFile hio (hd.cur.lookup hmem) ⟨G, hd⟩ ?_
  simp only [post_ok, bumpNextID, wp_setStore]
  rcases scanActive_spec hfile (ho.cut _ _ hmem) with
    ⟨index, hscan, hseal, hdata⟩ | ⟨c', index, size, hscan, hi, hrec⟩
  · rw [hscan]
    have hlt : (bodyOf Z (G i).objs).length < (w.fs.files i).data.length := by
      rw [hdata]
      exact hseal.length_lt
    have hdone : FileSealed Z F (w.fs.files i) (G i) := ⟨hseal, hdata, ho.synced _ _ hmem hlt⟩
    have hd' := hd.seal hmem hdone
    simp only [if_true, wp_bind]
    refine wp_rename (by exact hio) (hd.cur.lookup hmem) ⟨G, hd'⟩ (wp_syncOp ?_ ?_)
    · intro sf hsf
      refine ⟨⟨G, hd'.syncDir⟩, post_ok.mpr (Wp.post_mono (openSealed_spec (c := G i) (by exact hio)
        (by exact lookup_sealed hd.cur hmem) (by exact hdone) ⟨G, hd'.syncDir⟩) ?_)⟩
      rintro (e | seg) t ht
      · exact ht.elim
      obtain ⟨rfl, hid, hrep⟩ := ht
      simp only [post_ok, addSealed, wp_setStore]
      have hm := hl.seal hd hmem hid hrep (mergeSort_perm _ leId)
      refine ⟨G, ⟨hio, fun hc => hsf (hsync hc), hd'.syncDir, fun _ => hm⟩, hl.failed, rfl, ?_, ?_⟩
      · exact fun o ho => (onDisk_seal hd.cur hmem).mp ho
      · intro e he done rest hobjs _ o hod
        refine (onDisk_seal hd.cur hmem).mpr ⟨e, he, ?_⟩
        rw [hobjs]
        exact mem_append_left _ hod
    · intro hne n sf
      exact ⟨⟨G, hd'⟩, fun hc => hne (hsync hc), G, hd'⟩
  · rw [hscan]
    have hP' : ∀ o ∈ c'.objs, P o := fun o ho => hd.objs i o (hrec.objs.subset ho)
    have hopened : ∀ f, f.data = bodyOf Z c'.objs → f.torn = false → f.synced ≤ f.data.length →
        (∀ x, Covered Z (w.fs.files i) (G i) x → Covered Z f c' x) →
        Safe Z F P A { w with fs := w.fs.setFile i f, s := w.s.bump id } ∧
        Opened Z F clean P A w.s.cfg w.fs G { w with
          fs := w.fs.setFile i f
          s := { w.s.bump id with active := some ⟨id, i, (bodyOf Z c'.objs).length, index⟩ } } := by
      intro f hfd htorn hfs hcov
      have hd' := hd.setFile hns (.of_body hfs (hfd ▸ prefix_rfl)) hP' hcov
      obtain ⟨hlt, hmono⟩ := w.s.lt_bump id
      exact ⟨⟨_, hd'⟩, _, ⟨hio, hsync, hd', fun _ => hl.resume hd ho hmem hfd htorn hi hmono hlt⟩,
        hl.failed, rfl, fun o => onDisk_of_update hrec.objs hmem, keepsWhole_update hrec hmem⟩
    simp only [Bool.false_eq_true, if_false, wp_bind]
    refine wp_openFile (by exact hio) ⟨G, hd⟩ (post_ok.mpr ?_)
    rcases hrec.file with ⟨rfl, hnil⟩ | ⟨rfl, hpre⟩
    · -- the header itself is missing
      rw [if_pos (by decide)]
      have hcov : ∀ f x, Covered Z (w.fs.files i) (G i) x → Covered Z f c' x :=
        fun _ _ hx => (hrec.not_covered hfile hnil hx).elim
      have htrunc : (w.fs.files i).truncate 0 = .empty := by
        simp [File.truncate, File.empty, ho.torn _ _ hmem]
      simp only [wp_bind]
      refine wp_truncate (by exact hio) ?_ ?_ <;> rw [htrunc]
      · exact ⟨_, hd.setFile hns (c := c') (.of_body (Nat.le_refl _) nil_prefix) hP'
          (hcov _)⟩
      obtain ⟨hsafe, hop⟩ := hopened headerFile (by rw [hnil, bodyOf_nil]; rfl) rfl (Nat.zero_le _)
        (hcov _)
      refine wp_writeAt (by exact hio) ?_ ?_ <;>
        rw [FS.setFile_self, FS.setFile_setFile, empty_writeAt_header]
      · exact hsafe
      · simp only [post_ok, wp_setStore]
        rw [hnil, bodyOf_nil] at hop
        exact hop
    · rw [if_neg (Nat.not_lt.mpr (magicHeader_prefix_bodyOf Z _).length_le)]
      simp only [wp_bind]
      have hdata : ((w.fs.files i).truncate (bodyOf Z c'.objs).length).data = bodyOf Z c'.objs :=
        prefix_iff_eq_take.mp hpre |>.symm
      obtain ⟨hsafe, hop⟩ := hopened ((w.fs.files i).truncate (bodyOf Z c'.objs).length) hdata
        (ho.torn _ _ hmem) (by rw [hdata]; exact Nat.min_le_right ..)
        fun x => hrec.covered hfile fun n hn hn' => Nat.le_min.mpr ⟨hn, hn'⟩
      exact wp_truncate (by exact hio) hsafe (wp_setStore.mpr hop)

/-! ## Loading the directory -/

theorem mem_readDir {d : Directory Name} : e ∈ readDir d ↔ e ∈ d := mem_mergeSort

theorem mem_sealedIDs {es : List (Name × Nat)} {id : Nat} :
    id ∈ sealedIDs es ↔ ∃ i, (.sealed id, i) ∈ es := by
  simp only [sealedIDs, mem_filterMap]
  constructor
  · rintro ⟨⟨n, i⟩, he, hid⟩
    cases n <;> cases hid
    exact ⟨i, he⟩
  · rintro ⟨i, hi⟩
    exact ⟨_, hi, rfl⟩

theorem mem_activePaths {es : List (Name × Nat)} {p : Nat × Nat} :
    p ∈ activePaths es ↔ (.active p.1, p.2) ∈ es := by
  simp only [activePaths, mem_filterMap]
  constructor
  · rintro ⟨⟨n, i⟩, he, hp⟩
    cases n <;> cases hp
    exact he
  · exact fun h => ⟨_, h, rfl⟩

section Load
variable {fs : FS Name} {d : Directory Name}

theorem DirOk.nodup_readDir (h : DirOk Z F fs G d) : ((readDir d).map Prod.fst).Nodup :=
  ((mergeSort_perm d _).map _).nodup_iff.mpr h.names

theorem nodup_sealedIDs {es : List (Name × Nat)} (h : (es.map Prod.fst).Nodup) : (sealedIDs es).Nodup := by
  refine (pairwise_map.mp h).filterMap _ ?_
  rintro ⟨a | a, i⟩ ⟨b | b, j⟩ hne x hx y hy <;> cases hx <;> cases hy
  exact fun heq => hne (congrArg Name.sealed heq)

theorem DirOk.nodup_activePaths (h : DirOk Z F fs G d) : (activePaths (readDir d)).Nodup := by
  refine h.nodup_readDir.of_map.filterMap ?_
  rintro ⟨a, i⟩ ⟨b, j⟩ p ha hb
  cases a <;> cases ha
  cases b <;> cases hb
  rfl

theorem DirOk.activePaths_cases (h : DirOk Z F fs G d) : activePaths (readDir d) = [] ∨
    ∃ p, activePaths (readDir d) = [p] := by
  have hnd := h.nodup_activePaths
  have hmem : ∀ p ∈ activePaths (readDir d), (Name.active p.1, p.2) ∈ d :=
    fun p hp => mem_readDir.mp (mem_activePaths.mp hp)
  match activePaths (readDir d), hnd, hmem with
  | [], _, _ => exact .inl rfl
  | [p], _, _ => exact .inr ⟨p, rfl⟩
  | p :: q :: ps, hnd, hmem =>
    have hp := hmem p mem_cons_self
    have hq := hmem q (mem_cons_of_mem _ mem_cons_self)
    have := h.name_inj hp hq (h.one _ _ _ _ hp hq)
    cases p
    cases q
    cases this
    exact absurd mem_cons_self (nodup_cons.mp hnd).1

end Load

/-- The store while the sealed segments `ids` are still to be loaded. -/
structure Loading (Z : Zstd) (F : FuseLib) (fs : FS Name) (s : Store) (G : Written)
    (ids : List Nat) : Prop where
  closed : s.closed = false
  failed : s.failed = none
  active : s.active = none
  nodup : (s.sealed.map SealedSegment.id ++ ids).Nodup
  sealed : ∀ g ∈ s.sealed, g.id < s.nextID ∧ ∃ i, (.sealed g.id, i) ∈ fs.cur ∧ SegRep Z F g (G i)
  todo : ∀ id ∈ ids, ∃ i, (Name.sealed id, i) ∈ fs.cur
  listed : ∀ id i, (.sealed id, i) ∈ fs.cur → id ∈ ids ∨ ∃ g ∈ s.sealed, g.id = id

theorem Loading.loaded {fs : FS Name} {s : Store} (h : Loading Z F fs s G []) :
    Loaded Z F fs { s with sealed := s.sealed.mergeSort leId } G where
  closed := h.closed
  failed := h.failed
  active := h.active
  ids := by
    have := h.nodup
    rw [append_nil] at this
    exact ((mergeSort_perm s.sealed leId).map _).nodup_iff.mpr this
  sealed := fun g hg => (h.sealed g (mem_mergeSort.mp hg)).2
  listed := by
    intro id i hi
    obtain ⟨g, hg, hid⟩ := (h.listed id i hi).resolve_left not_mem_nil
    exact ⟨g, mem_mergeSort.mpr hg, hid⟩
  next := by
    intro id i hi
    obtain ⟨g, hg, rfl⟩ := (h.listed id i hi).resolve_left not_mem_nil
    exact (h.sealed g hg).1

theorem Loading.step {fs : FS Name} {s : Store} {g : SealedSegment} {ids : List Nat}
    (h : Loading Z F fs s G (g.id :: ids)) (hi : (Name.sealed g.id, i) ∈ fs.cur)
    (hrep : SegRep Z F g (G i)) :
    Loading Z F fs ({ s with sealed := s.sealed ++ [g] }.bump g.id) G ids := by
  obtain ⟨hlt, hmono⟩ := s.lt_bump g.id
  refine ⟨h.closed, h.failed, h.active, ?_, ?_, ?_, ?_⟩
  · have := h.nodup
    rwa [Store.bump, map_append, append_assoc]
  · intro x hx
    rcases mem_append.mp hx with hx | hx
    · obtain ⟨hn, hrest⟩ := h.sealed x hx
      exact ⟨hmono _ hn, hrest⟩
    · obtain rfl := mem_singleton.mp hx
      exact ⟨hlt, i, hi, hrep⟩
  · exact fun id hid => h.todo id (mem_cons_of_mem _ hid)
  · intro id j hj
    rcases h.listed id j hj with hid | ⟨x, hx, hid⟩
    · rcases mem_cons.mp hid with rfl | hid
      · exact .inr ⟨g, mem_append_right _ mem_cons_self, rfl⟩
      · exact .inl hid
    · exact .inr ⟨x, mem_append_left _ hx, hid⟩

theorem loadSealed_spec {id : Nat} {ids : List Nat} (hio : w.ioFaults = [])
    (hd : Durable Z F P A w.fs G) (hl : Loading Z F w.fs w.s G (id :: ids)) :
    (loadSealed id).Wp (Safe Z F P A) (Post (fun _ w' => w' = { w with s := w'.s } ∧
      w'.s.cfg = w.s.cfg ∧ Loading Z F w.fs w'.s G ids) (fun _ _ => False)) w := by
  obtain ⟨i, hi⟩ := hl.todo id mem_cons_self
  unfold loadSealed
  refine Wp.seq (openSealed_spec hio (hd.cur.lookup hi) (hd.cur.sealed _ _ hi)
    ⟨G, hd⟩) ?_
  rintro (e | seg) t ht
  · exact ht.elim
  obtain ⟨rfl, rfl, hrep⟩ := ht
  simp only [post_ok, bumpNextID, wp_bind, wp_setStore]
  exact ⟨trivial, rfl, hl.step hi hrep⟩

theorem Loaded.mounted {fs : FS Name} {s : Store} (h : Loaded Z F fs s G)
    (hk : ∀ d ∈ fs.dirs, ∀ e ∈ fs.cur, e ∈ d) (hidle : ∀ id i, (Name.active id, i) ∉ fs.cur) :
    Mounted Z F fs s G where
  closed := h.closed
  ids := h.ids
  sealed := h.sealed
  listed := h.listed
  active := fun a ha => nomatch h.active.symm.trans ha
  idle := fun _ => hidle
  kept := hk
  next := by
    rintro ⟨n, i⟩ he
    cases n with
    | sealed id => exact h.next id i he
    | active id => exact absurd he (hidle id i)

/-- `Open` on a durable directory succeeds unless an fsync fails, finds every object whose record
is whole, and nothing else. -/
theorem openStore_spec (clean : Prop) (cfg : Config) (hio : w.ioFaults = []) (hsync : clean → w.syncFaults = [])
    (hd : Durable Z F P A w.fs G) (ho : Openable Z F w.fs G) :
    (openStore cfg).Wp (Safe Z F P A) (Post
      (fun _ w' => Opened Z F clean P A cfg w.fs G w') (fun _ w' => ¬clean ∧ Safe Z F P A w')) w := by
  unfold openStore load
  simp only [wp_bind, wp_setStore, post_ok, wp_read]
  have hstart : Loading Z F w.fs (.new cfg) G (sealedIDs (readDir w.fs.cur)) :=
    ⟨rfl, rfl, rfl, nodup_sealedIDs hd.cur.nodup_readDir, by simp [Store.new], fun id hid => by
      obtain ⟨i, hi⟩ := mem_sealedIDs.mp hid
      exact ⟨i, mem_readDir.mp hi⟩, fun id i hi => .inl (mem_sealedIDs.mpr ⟨i, mem_readDir.mpr hi⟩)⟩
  refine Wp.post_mono (Wp.each (E := fun _ _ => False) (P := fun ids (w' : World) =>
    w' = { w with s := w'.s } ∧ w'.s.cfg = cfg ∧ Loading Z F w.fs w'.s G ids) ?_ ?_) ?_
  · exact ⟨rfl, rfl, hstart⟩
  · rintro id ids t ⟨ht, hcfg, hl⟩
    obtain ⟨fs, s, io, sf⟩ := t
    cases ht
    refine (loadSealed_spec (w := { w with s }) hio hd hl).post_mono ?_
    rintro (e | ⟨⟩) u hu
    · exact hu
    · exact ⟨hu.1, hu.2.1.trans hcfg, hu.2.2⟩
  rintro (e | ⟨⟩) t ht
  · exact ht.elim
  obtain ⟨ht, hcfg, hl⟩ := ht
  simp only [post_ok]
  obtain ⟨fs, s, io, sf⟩ := t
  cases ht
  have hloaded := hl.loaded
  rcases hd.cur.activePaths_cases with hnil | ⟨⟨id, i⟩, hone⟩
  · rw [hnil]
    have hidle : ∀ id i, (Name.active id, i) ∉ w.fs.cur := by
      intro id i hi
      have : (id, i) ∈ activePaths (readDir w.fs.cur) := mem_activePaths.mpr (mem_readDir.mpr hi)
      rw [hnil] at this
      cases this
    refine .pure ⟨G, ⟨hio, hsync, hd, fun _ => hloaded.mounted ho.kept hidle⟩, hl.failed, hcfg,
      fun _ h => h, ?_⟩
    intro e he done rest hobjs _ o hod
    exact ⟨e, he, by rw [hobjs]; exact mem_append_left _ hod⟩
  · rw [hone]
    have hmem : (Name.active id, i) ∈ w.fs.cur :=
      mem_readDir.mp (mem_activePaths.mp (by rw [hone]; exact mem_cons_self))
    refine (recoverActive_spec (by exact hio) (by exact hsync) (by exact hd) (by exact ho)
      (by exact hloaded) (by exact hmem)).post_mono ?_
    rintro (e | ⟨⟩) u hu
    · exact hu
    · subst hcfg
      exact hu

/-! ## Crashes -/

section Crash
variable {f g : File} {c : Contents} {fs fs' : FS Name}

theorem FileOk.survive (h : FileOk Z F f c) (hs : f.Survives g) : FileOk Z F g c := by
  obtain ⟨n, -, rfl⟩ := hs
  refine ⟨Nat.le_refl _, ( take_prefix ..).trans h.data, fun hlt => h.sealable ?_⟩
  exact Nat.lt_of_lt_of_le hlt ( take_prefix ..).length_le

theorem FileSealed.survive (h : FileSealed Z F f c) (hs : f.Survives g) : FileSealed Z F g c := by
  obtain ⟨n, hn, rfl⟩ := hs
  rw [h.synced] at hn
  exact ⟨h.sealable, by rw [take_of_length_le hn, h.data], rfl⟩

theorem Covered.survive (h : Covered Z f c o) (hf : FileOk Z F f c) (hs : f.Survives g) :
    Covered Z g c o := by
  obtain ⟨n, hn, rfl⟩ := hs
  refine h.mono prefix_rfl ?_
  rw [length_take]
  exact Nat.le_min.mpr ⟨hn, hf.synced⟩

theorem DirOk.crash {d : Directory Name} (h : DirOk Z F fs G d) (hc : FS.Crash fs fs') :
    DirOk Z F fs' G d where
  ids := h.ids
  inos := h.inos
  lt := fun e he => hc.next ▸ h.lt e he
  sealed := fun id i hi => (h.sealed id i hi).survive (hc.files i)
  active := fun id i hi => (h.active id i hi).survive (hc.files i)
  one := h.one

theorem Durable.crash (h : Durable Z F P A fs G) (hc : FS.Crash fs fs') : Durable Z F P A fs' G := by
  refine ⟨h.objs, fun d hd => ?_⟩
  rw [FS.dirs, hc.past, mem_singleton] at hd
  subst hd
  obtain ⟨hok, hA⟩ := h.dirs _ hc.dir
  refine ⟨hok.crash hc, fun o ho => ?_⟩
  obtain ⟨e, he, hcov⟩ := hA o ho
  exact ⟨e, he, hcov.survive (hok.fileOk he) (hc.files _)⟩

/-- It can be opened unless a truncated footer passes for a whole one. -/
theorem Openable.crash (hc : FS.Crash fs fs')
    (hcut : ∀ id i, (Name.active id, i) ∈ fs'.cur → CutFooterFails Z F (G i) (fs'.files i).data) :
    Openable Z F fs' G := by
  refine ⟨?_, ?_, hcut, ?_⟩
  · intro d hd e he
    rw [FS.dirs, hc.past, mem_singleton] at hd
    rwa [hd]
  · intro id i _
    obtain ⟨n, -, hf⟩ := hc.files i
    rw [hf]
  · intro id i _ _
    obtain ⟨n, -, hf⟩ := hc.files i
    rw [hf]

end Crash
end AmberStore.Packstore
