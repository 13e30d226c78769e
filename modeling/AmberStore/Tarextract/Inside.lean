import AmberStore.Tarextract.Extract

/-!
# Extraction stays inside

Before a member is made, everything on the way to it that exists is a directory, and extraction adds
files but never replaces one. So every path that is used leads through directories below the
destination, also when the attributes of the directories are set at the end.
-/

namespace AmberStore.Tarextract
open FileTree Path Act List

/-- What exists on the way, and at its end, is a directory. -/
def AllDirs (fs : FS) (d : Ino) (names : List Bytes) : Prop :=
  ∀ q j, q <+: names → fs.descend d q = some j → fs.IsDir j

/-- All that was changed is below the destination, reached by names through directories. -/
structure Inside (fs₀ : FS) (dest : Bytes) (d : Ino) (w : World) : Prop where
  wf : WF w.fs
  anchor : Anchor w.fs dest d
  touched : ∀ t ∈ w.touched, ∃ names, (∀ n ∈ names, Proper n) ∧ t.via = parts dest ++ names ∧
    w.fs.descend d names = some t.ino
  changed : ∀ i, w.fs.node i ≠ fs₀.node i → ∃ t ∈ w.touched, t.ino = i

section Steps
variable {fs₀ : FS} {dest : Bytes} {d : Ino} {w w' : World} {names : List Bytes}

theorem AllDirs.clear (h : AllDirs w.fs d names) : Clear w.fs d names := fun q j hq _ hj => h q j hq hj

theorem Inside.touch (h : Inside fs₀ dest d w) (hwf : WF w'.fs) (hg : Grows w.fs w'.fs)
    (hts : w'.touched = w.touched ++ ts)
    (hinside : ∀ t ∈ ts, ∃ names, (∀ n ∈ names, Proper n) ∧ t.via = parts dest ++ names ∧
      w'.fs.descend d names = some t.ino)
    (hnode : ∀ i, w'.fs.node i ≠ w.fs.node i → ∃ t ∈ ts, t.ino = i) : Inside fs₀ dest d w' := by
  refine ⟨hwf, h.anchor.grows hg, fun t ht => ?_, fun i hi => ?_⟩
  · rw [hts] at ht
    rcases mem_append.mp ht with ht | ht
    · obtain ⟨names, hproper, hvia, hd⟩ := h.touched t ht
      exact ⟨names, hproper, hvia, hg.descend hd⟩
    · exact hinside t ht
  · rw [hts]
    by_cases hold : w'.fs.node i = w.fs.node i
    · obtain ⟨t, ht, hti⟩ := h.changed i (hold ▸ hi)
      exact ⟨t, mem_append_left _ ht, hti⟩
    · obtain ⟨t, ht, hti⟩ := hnode i hold
      exact ⟨t, mem_append_right _ ht, hti⟩

/-- What a call or a sequence of calls leaves. The directories stay a tree, and keep their modes while
only members are made. -/
structure Goes (keep : Bool) (fs₀ : FS) (dest : Bytes) (d : Ino) (w w' : World) : Prop where
  inside : Inside fs₀ dest d w'
  grows : Grows w.fs w'.fs
  tree : DirTree w.fs d → DirTree w'.fs d
  modes : keep = true → ∀ i m, w.fs.dirMode i = some m → w'.fs.dirMode i = some m

theorem Goes.refl (h : Inside fs₀ dest d w) : Goes keep fs₀ dest d w w :=
  ⟨h, .refl _, id, fun _ _ _ hm => hm⟩

theorem Goes.trans (h : Goes keep fs₀ dest d w w') (h' : Goes keep fs₀ dest d w' w'') :
    Goes keep fs₀ dest d w w'' :=
  ⟨h'.inside, h.grows.trans h'.grows, fun ht => h'.tree (h.tree ht),
    fun hk i m hm => h'.modes hk i m (h.modes hk i m hm)⟩

/-! ## Calls -/

variable (sys : Sys)

/-- A call that may be refused. -/
theorem gives_allow {c : Call} {f : Unit → M α} {Q : Except ExtractError α → World → Prop}
    (hdenied : ∀ e, e.isNotExist = false → Q (.error e) w)
    (hallowed : sys.deny w.fs c = none → (f ()).Gives Q w) : (allow sys c >>= f).Gives Q w := by
  refine wp_bind.mpr (wp_bind.mpr (wp_read.mpr ?_))
  dsimp only [Post]
  cases hdeny : sys.deny w.fs c with
  | none => exact .pure (hallowed hdeny)
  | some r => exact .throw (hdenied _ rfl)

/-- The state is read. -/
theorem gives_read {f : World → M α} {Q : Except ExtractError α → World → Prop} (h : (f w).Gives Q w) :
    (read >>= f).Gives Q w := wp_bind.mpr (wp_read.mpr h)

/-- The state is as before, and a result is that of the resolution. -/
theorem statWith_spec (c : Call) (follow : Bool) (w : World) : (statWith sys c follow).Gives
    (fun r t => t = w ∧
      (∀ k, r = .ok k → (∃ i, w.fs.resolve c.path follow = .ok i ∧ w.fs.kind i = some k) ∧
        sys.deny w.fs c = none) ∧
      ∀ e, r = .error e → e.isNotExist → ∀ i, w.fs.resolve c.path follow = .ok i → w.fs.kind i = none) w := by
  refine gives_allow sys (fun e he => ⟨rfl, nofun, fun e' heq hno => ?_⟩) fun hallowed => gives_read ?_
  · cases heq
    rw [he] at hno
    cases hno
  cases hres : w.fs.resolve c.path follow with
  | error e => exact .throw ⟨rfl, nofun, fun _ _ _ _ hi => nomatch hi⟩
  | ok i =>
    dsimp only
    cases hkind : w.fs.kind i with
    | none =>
      refine .throw ⟨rfl, nofun, fun _ _ _ j hj => ?_⟩
      cases hj
      exact hkind
    | some k =>
      refine .pure ⟨rfl, fun k' hk' => ?_, nofun⟩
      cases hk'
      exact ⟨⟨i, rfl, hkind⟩, hallowed⟩

theorem makeEntry_spec (c : Call) (mode : Nat) (kind : Ino → Kind)
    (hkind : ∀ i p es, kind i = .dir p es → ∀ x, es x = none) (h : Inside fs₀ dest d w)
    (hproper : ∀ m ∈ names ++ [n], Proper m) (hdirs : AllDirs w.fs d (names ++ [n]))
    (hstart : w.fs.start c.path = w.fs.start dest)
    (hparts : FS.newParts c.path = parts dest ++ names ++ [n]) :
    (makeEntry sys c mode kind).Gives (fun r t => Goes true fs₀ dest d w t ∧
      (∀ e, r = .error e → t = w) ∧
      ∀ i, r = .ok i → t.fs.descend d (names ++ [n]) = some i ∧ (∃ j, t.fs.kind i = some (kind j)) ∧
        (∀ q j, t.fs.descend d q = some j → w.fs.descend d q = some j ∨ j = i) ∧
        sys.deny w.fs c = none ∧ ∃ j, w.fs.descend d names = some j ∧ w.fs.IsDir j) w := by
  refine gives_allow sys (fun e _ => ⟨.refl h, fun _ _ => rfl, nofun⟩) fun hallowed => gives_read ?_
  have hlocate := h.anchor.locate h.wf hproper hdirs.clear hstart hparts
  cases hd : w.fs.descend d names with
  | none =>
    rw [hd] at hlocate
    rw [hlocate]
    exact .throw ⟨.refl h, fun _ _ => rfl, nofun⟩
  | some i =>
    rw [hd] at hlocate
    dsimp only at hlocate
    cases hchild : w.fs.child i n with
    | some j =>
      rw [hlocate, hchild]
      exact .throw ⟨.refl h, fun _ _ => rfl, nofun⟩
    | none =>
      rw [hchild] at hlocate
      rw [hlocate]
      dsimp only [Option.isSome_none, Bool.false_eq_true, if_false]
      obtain ⟨parent, entries, hi⟩ := hdirs names i (prefix_append _ _) hd
      rw [child_eq hi] at hchild
      have hnew : ∀ p es, (Node.mk (kind i) (sys.fresh w.fs i mode)).kind = .dir p es → ∀ x, es x = none :=
        hkind i
      have hgrows : Grows w.fs (w.fs.add i n ⟨kind i, sys.fresh w.fs i mode⟩ (sys.now w.fs)) :=
        .add h.wf hi hchild
      have hend : (w.fs.add i n ⟨kind i, sys.fresh w.fs i mode⟩ (sys.now w.fs)).descend d (names ++ [n]) =
          some w.fs.next := descend_concat_of (hgrows.descend hd) (child_add_same h.wf hi)
      refine wp_bind.mpr (wp_modify.mpr (post_ok.mpr (wp_pure.mpr
        ⟨⟨?_, hgrows, fun ht => ht.add h.wf h.anchor.isDir hi hnew, fun _ _ _ => dirMode_add h.wf⟩, nofun,
          fun j hj => ?_⟩)))
      · refine h.touch (h.wf.add hi hnew) hgrows rfl (fun x hx => ?_) fun j hj => ?_
        · rw [hparts] at hx
          rcases mem_pair.mp hx with rfl | rfl
          · refine ⟨names, fun m hm => hproper m (mem_append_left _ hm), ?_, hgrows.descend hd⟩
            rw [dropLast_concat]
          · exact ⟨names ++ [n], hproper, append_assoc _ _ _, hend⟩
        · by_contra hno
          refine hj (add_other (fun heq => hno ?_) fun heq => hno ?_)
          · exact ⟨_, mem_cons_self, heq.symm⟩
          · exact ⟨_, mem_cons_of_mem _ (mem_singleton_self _), heq.symm⟩
      · cases hj
        refine ⟨hend, ⟨i, ?_⟩, fun q j hj => ?_, hallowed, i, rfl, parent, entries, hi⟩
        · rw [kind_add hi, if_pos rfl]
        · exact descend_add hi hnew hj (h.wf.ne_next h.anchor.isDir)

theorem makeEntry_exists (c : Call) (mode : Nat) (kind : Ino → Kind)
    (h : w.fs.resolve c.path follow = .ok i) : (makeEntry sys c mode kind).Gives
      (fun r t => t = w ∧ ∃ e, r = .error e) w := by
  obtain ⟨e, he⟩ := locate_exists h
  refine gives_allow sys (fun e _ => ⟨rfl, e, rfl⟩) fun _ => gives_read ?_
  rw [he]
  exact .throw ⟨rfl, _, rfl⟩

theorem inside_modifyAttrs (h : Inside fs₀ dest d w) (hproper : ∀ n ∈ names, Proper n)
    (hd : w.fs.descend d names = some i) (f : Node → Attrs) :
    Inside fs₀ dest d ⟨w.fs.modifyAttrs i f, w.touched ++ [⟨parts dest ++ names, i⟩]⟩ := by
  refine h.touch (h.wf.modifyAttrs i f) (.modifyAttrs w.fs i f) rfl (fun t ht => ?_) fun j hj => ?_
  · cases mem_singleton.mp ht
    exact ⟨names, hproper, rfl, (Grows.modifyAttrs w.fs i f).descend hd⟩
  · refine ⟨_, mem_singleton_self _, ?_⟩
    by_contra hne
    exact hj (modifyAttrs_other f fun heq => hne heq.symm)

/-- The files are the same, up to their attributes. -/
structure Tuned (keep : Bool) (fs₀ : FS) (dest : Bytes) (d : Ino) (w w' : World) : Prop where
  goes : Goes keep fs₀ dest d w w'
  kind : w'.fs.kind = w.fs.kind

theorem Tuned.refl (h : Inside fs₀ dest d w) : Tuned keep fs₀ dest d w w := ⟨.refl h, rfl⟩

theorem Tuned.trans (h : Tuned keep fs₀ dest d w w') (h' : Tuned keep fs₀ dest d w' w'') : Tuned keep fs₀ dest d w w'' :=
  ⟨h.goes.trans h'.goes, h'.kind.trans h.kind⟩

theorem Tuned.descend (h : Tuned keep fs₀ dest d w w') (hd : w.fs.descend d names = some i) :
    w'.fs.descend d names = some i := by rwa [descend_congr h.kind]

theorem Tuned.not_symlink (h : Tuned keep fs₀ dest d w w') (hi : ¬w.fs.IsSymlink i) : ¬w'.fs.IsSymlink i := by
  rwa [FS.IsSymlink, h.kind]

theorem Tuned.keeps (h : Tuned keep fs₀ dest d w w') (hk : keep = true → ¬w.fs.IsDir i) :
    keep = true → ¬w'.fs.IsDir i := by rwa [FS.IsDir, h.kind]

theorem Tuned.seq {m : M Unit} {m' : M Unit}
    (hm : m.Gives (fun _ t => Tuned keep fs₀ dest d w t) w)
    (hm' : ∀ t, Tuned keep fs₀ dest d w t → m'.Gives (fun _ u => Tuned keep fs₀ dest d t u) t) :
    (do m; m').Gives (fun _ t => Tuned keep fs₀ dest d w t) w := by
  refine hm.seq fun r t ht => ?_
  cases r with
  | error e => exact ht
  | ok u => exact (hm' t ht).post_mono fun _ _ hu => ht.trans hu

/-- A change of the attributes of a file below the destination. -/
theorem setAttrs_spec (c : Call) (follow : Bool) (f : Node → Attrs) (h : Inside fs₀ dest d w)
    (hpath : c.path = under dest names) (hproper : ∀ n ∈ names, Proper n)
    (hd : w.fs.descend d names = some i) (hlink : follow = true → ¬w.fs.IsSymlink i)
    (hkeep : keep = true → ¬w.fs.IsDir i) :
    (setAttrs sys c follow f).Gives (fun _ t => Tuned keep fs₀ dest d w t) w := by
  have hres : w.fs.resolve c.path follow = .ok i := by
    rw [hpath, h.anchor.resolve h.wf hproper (clear_of_descend hd), hd]
    intro hfollow j hj
    rw [hd] at hj
    cases hj
    exact hlink hfollow
  refine gives_allow sys (fun e _ => .refl h) fun _ => gives_read ?_
  rw [hres]
  refine wp_modify.mpr ⟨⟨?_, .modifyAttrs w.fs i f, fun ht => ht.modifyAttrs i f, fun hk j m hm => ?_⟩,
    modifyAttrs_kind w.fs i f⟩
  · rw [hpath, parts_under fun n hn => (hproper n hn).no_slash]
    exact inside_modifyAttrs h hproper hd f
  · refine (dirMode_modifyAttrs_of_ne f fun heq => hkeep hk ?_).trans hm
    exact heq ▸ isDir_of_dirMode hm

theorem write_spec (path data : Bytes) (h : Inside fs₀ dest d w) (hproper : ∀ n ∈ names, Proper n)
    (hd : w.fs.descend d names = some i) (hparts : FS.newParts path = parts dest ++ names) :
    (write sys path i data).Gives (fun _ t => Goes true fs₀ dest d w t) w := by
  refine gives_allow sys (fun e _ => .refl h) fun _ => wp_modify.mpr ?_
  split
  · next old attrs hnode =>
    have hkind : w.fs.kind i = some (.file old) := by rw [FS.kind, hnode, Option.map_some]
    have hgrows : Grows w.fs
        (w.fs.setNode i ⟨.file (old ++ data), { attrs with mtime := sys.now w.fs }⟩) :=
      .setNode hkind .file
    have hfile : ¬w.fs.IsDir i := by
      rintro ⟨parent, entries, hdir⟩
      rw [hkind] at hdir
      cases hdir
    refine ⟨h.touch (h.wf.setNode hkind (by simp)) hgrows rfl (fun x hx => ?_) fun j hj => ?_, hgrows,
      fun ht => ht.setNode hfile (by simp), fun _ j m hm => ?_⟩
    · cases mem_singleton.mp hx
      exact ⟨names, hproper, hparts, hgrows.descend hd⟩
    · refine ⟨_, mem_singleton_self _, ?_⟩
      by_contra hne
      exact hj (Function.update_of_ne (fun heq => hne heq.symm) _ _)
    · have hne : j ≠ i := fun heq => hfile (heq ▸ isDir_of_dirMode hm)
      exact (dirMode_congr (Function.update_of_ne hne _ _)).trans hm
  · exact .refl h

/-! ## The check of the components -/

theorem iterate_dir (hclean : clean dest = dest) (hne : cleanParts (rooted dest) (parts dest) ≠ [])
    (hdest : dest ≠ []) (hproper : ∀ n ∈ names, Proper n) (hq : q <+: names) (hqne : q ≠ [])
    (hk : names.length ≤ k) :
    under dest q ∈ (List.iterate dir (under dest names) k).takeWhile fun p => dest ++ [slash] <+: p := by
  induction names using List.reverseRecOn generalizing k with
  | nil => exact absurd (prefix_nil.mp hq) hqne
  | append_singleton ns n ih =>
    rw [length_append, length_singleton] at hk
    obtain ⟨k, rfl⟩ : ∃ m, k = m + 1 := ⟨k - 1, by omega⟩
    have hns : ∀ m ∈ ns, Proper m := fun m hm => hproper m (mem_append_left _ hm)
    have hn := hproper n (mem_append_right _ (mem_singleton_self n))
    have hbelow : dest ++ [slash] <+: under dest (ns ++ [n]) := by
      cases ns with
      | nil => exact ⟨n, by simp [under]⟩
      | cons m ns => exact ⟨m ++ (ns ++ [n]).flatMap (slash :: ·), by simp [under]⟩
    rw [List.iterate, takeWhile_cons_of_pos (by simpa using hbelow), dir_under hclean hne hdest hns hn]
    rcases prefix_concat_iff.mp hq with rfl | hq
    · exact mem_cons_self
    · exact mem_cons_of_mem _ (ih hns hq (by omega))

theorem length_le_under (dest : Bytes) (names : List Bytes) : names.length ≤ (under dest names).length := by
  induction names using List.reverseRecOn with
  | nil => exact Nat.zero_le _
  | append_singleton ns n ih =>
    rw [under_concat, length_append, length_append, length_singleton, length_cons]
    omega

/-- A component passes if it does not exist, or is a directory. -/
theorem rejectNonDirectory_spec (p : Bytes) (w : World) : (rejectNonDirectory sys p).Gives
    (fun r t => t = w ∧ (r = .ok () → ∀ i, w.fs.resolve p false = .ok i → (w.fs.kind i).isSome →
      w.fs.IsDir i)) w := by
  refine wp_bind.mpr (wp_attempt.mpr ?_)
  refine (statWith_spec sys ⟨.lstat, p⟩ false w).post_mono fun r t ht => ?_
  obtain ⟨rfl, hok, hno⟩ := ht
  refine post_ok.mpr ?_
  cases r with
  | error e =>
    refine wp_ite (fun he => ?_) fun _ => .throw ⟨rfl, nofun⟩
    refine .pure ⟨rfl, fun _ i hi hsome => ?_⟩
    rw [hno e rfl he i hi] at hsome
    cases hsome
  | ok k =>
    obtain ⟨⟨i, hi, hk⟩, -⟩ := hok k rfl
    cases k with
    | dir parent entries =>
      refine .pure ⟨rfl, fun _ j hj _ => ?_⟩
      have heq : Except.ok i = Except.ok j := hi.symm.trans hj
      cases heq
      exact ⟨parent, entries, hk⟩
    | file => exact .throw ⟨rfl, nofun⟩
    | symlink => exact .throw ⟨rfl, nofun⟩
    | fifo => exact .throw ⟨rfl, nofun⟩
    | char => exact .throw ⟨rfl, nofun⟩
    | block => exact .throw ⟨rfl, nofun⟩

theorem rejectSymlinkComponents_spec (dest path : Bytes) (w : World) :
    (rejectSymlinkComponents sys dest path).Gives (fun r t => t = w ∧
      (r = .ok () → ∀ p ∈ componentsBelow dest path, ∀ i, w.fs.resolve p false = .ok i →
        (w.fs.kind i).isSome → w.fs.IsDir i)) w := by
  unfold rejectSymlinkComponents
  generalize componentsBelow dest path = ps
  induction ps with
  | nil => exact .pure ⟨rfl, fun _ => nofun⟩
  | cons p ps ih =>
    refine (rejectNonDirectory_spec sys p w).seq fun r t ht => ?_
    obtain ⟨rfl, hp⟩ := ht
    cases r with
    | error e => exact ⟨rfl, nofun⟩
    | ok u =>
      refine post_ok.mpr (ih.post_mono fun r t' ht => ⟨ht.1, fun hr x hx => ?_⟩)
      rcases mem_cons.mp hx with rfl | hx
      · exact hp rfl
      · exact ht.2 hr x hx

/-- What was checked one by one is a directory all along the way. -/
theorem allDirs_of_checked (h : Inside fs₀ dest d w) (hproper : ∀ n ∈ names, Proper n)
    (hchecked : ∀ q, q <+: names → q ≠ [] → ∀ i, w.fs.resolve (under dest q) false = .ok i →
      (w.fs.kind i).isSome → w.fs.IsDir i) : AllDirs w.fs d names := by
  have hall : ∀ q, q <+: names → AllDirs w.fs d q := by
    intro q hq
    induction q using List.reverseRecOn with
    | nil =>
      intro p j hp hj
      rw [prefix_nil.mp hp] at hj
      cases hj
      exact h.anchor.isDir
    | append_singleton q n ih =>
      have hdirs := ih ((prefix_append _ _).trans hq)
      intro p j hp hj
      rcases prefix_concat_iff.mp hp with rfl | hp
      · obtain ⟨i, -, hchild⟩ := descend_concat hj
        refine hchecked _ hq (by simp) j ?_ (h.wf.entry i n j hchild)
        rw [h.anchor.resolve h.wf (fun m hm => hproper m (hq.subset hm)) (clear_of_descend hj)
          fun hfollow => Bool.noConfusion hfollow, hj]
      · exact hdirs p j hp hj
  exact hall names prefix_rfl

theorem safeJoin_under (hdest : dest ≠ []) (h : safeJoin dest name = .ok target) :
    ∃ names, (∀ n ∈ names, Proper n) ∧ target = under dest names ∧
      ∀ q, q <+: names → q ≠ [] → under dest q ∈ componentsBelow dest target := by
  unfold safeJoin at h
  split at h
  · cases h
  · next hup =>
    dsimp only at h
    split at h
    · cases h
    · next hstay =>
      cases h
      by_cases heq : join dest (clean (slash :: name)) = dest
      · refine ⟨[], nofun, by rw [heq, under_nil], fun q hq hne => ?_⟩
        exact absurd (prefix_nil.mp hq) hne
      · have hbelow : dest ++ [slash] <+: join dest (clean (slash :: name)) := by
          by_contra hno
          exact hstay ⟨heq, hno⟩
        obtain ⟨rest, hrest⟩ := hbelow
        rw [append_assoc, singleton_append] at hrest
        obtain ⟨hclean, hne, hunder⟩ := join_below hdest hup hrest.symm
        have hproper := cleanParts_proper true hup
        refine ⟨_, hproper, hrest.symm.trans hunder, fun q hq hqne => ?_⟩
        rw [hrest.symm.trans hunder]
        exact iterate_dir hclean hne hdest hproper hq hqne
          (Nat.le_succ_of_le (length_le_under dest _))

/-! ## Directories -/

theorem mkdirAllFrom_exists (perm k : Nat) (h : w.fs.resolve p true = .ok i) :
    (mkdirAllFrom sys perm k p).Gives (fun _ t => t = w) w := by
  have hone : ∀ (parents : Bytes → M Unit) p i, w.fs.resolve p true = .ok i →
      (parentOf p ≠ [] → (parents (parentOf p)).Gives (fun _ t => t = w) w) →
      (mkdirAllWith sys parents perm p).Gives (fun _ t => t = w) w := by
    intro parents p i h hparents
    refine wp_bind.mpr (wp_attempt.mpr ?_)
    refine (statWith_spec sys ⟨.stat, p⟩ true w).post_mono fun r t ht => ?_
    obtain ⟨rfl, -, -⟩ := ht
    refine post_ok.mpr ?_
    have hfind : (mkdirOrFind sys p perm).Gives (fun _ t' => t' = t) t := by
      refine wp_bind.mpr (wp_attempt.mpr ?_)
      refine (makeEntry_exists sys ⟨.mkdir, p⟩ perm _ h).post_mono fun r t' ht => ?_
      obtain ⟨rfl, e, rfl⟩ := ht
      refine post_ok.mpr (wp_bind.mpr (wp_attempt.mpr ?_))
      refine (statWith_spec sys ⟨.lstat, p⟩ false t').post_mono fun r t ht => ?_
      refine post_ok.mpr ?_
      split
      · exact .pure ht.1
      · exact .throw ht.1
    split
    · exact .pure rfl
    · exact .throw rfl
    · refine wp_bind.mpr ?_
      have hup : (if parentOf p ≠ [] then parents (parentOf p) else pure () : M Unit).Gives
          (fun _ t' => t' = t) t := wp_ite hparents fun _ => .pure rfl
      refine hup.post_mono fun r t' ht => ?_
      cases ht
      cases r with
      | error e => exact rfl
      | ok u => exact hfind
  induction k generalizing p i with
  | zero => exact hone _ p i h fun _ => .pure rfl
  | succ k ih =>
    refine hone _ p i h fun hp => ?_
    obtain ⟨j, hj, -⟩ := resolve_parentOf h hp
    exact ih hj

/-- What is reached anew is a directory. -/
def OnlyDirs (d : Ino) (w w' : World) : Prop :=
  ∀ q j, w'.fs.descend d q = some j → w.fs.descend d q = some j ∨ w'.fs.IsDir j

theorem OnlyDirs.trans (h : OnlyDirs d w w') (h' : OnlyDirs d w' w'') (hg : Grows w'.fs w''.fs) :
    OnlyDirs d w w'' := by
  intro q j hj
  rcases h' q j hj with hj | hj
  · exact (h q j hj).imp_right hg.isDir
  · exact .inr hj

theorem AllDirs.onlyDirs (h : AllDirs w.fs d names) (ho : OnlyDirs d w w') (hg : Grows w.fs w'.fs) :
    AllDirs w'.fs d names := by
  intro q j hq hj
  rcases ho q j hj with hold | hdir
  · exact hg.isDir (h q j hq hold)
  · exact hdir

/-- A call on a path was allowed when the directories on the way were there, with the modes that they
have now. -/
def Reached (d : Ino) (names : List Bytes) (p : Bytes) (w : World) : Prop :=
  ∃ (fs : FS) (op : Op), sys.deny fs ⟨op, p⟩ = none ∧
    (∃ j, fs.descend d names.dropLast = some j ∧ fs.IsDir j) ∧ Grows fs w.fs ∧ ∀ i m, fs.dirMode i = some m → w.fs.dirMode i = some m

variable {sys} in
theorem Reached.goes (h : Reached sys d names p w) (hg : Goes true fs₀ dest d w w') :
    Reached sys d names p w' := by
  obtain ⟨fs, op, hdeny, hd, hgrows, hmodes⟩ := h
  exact ⟨fs, op, hdeny, hd, hgrows.trans hg.grows, fun i m hm => hg.modes rfl i m (hmodes i m hm)⟩

/-- A directory that is there was reached by a call. -/
def Found (d : Ino) (names : List Bytes) (p : Bytes) (w : World) : Prop :=
  ∃ i, w.fs.descend d names = some i ∧ w.fs.IsDir i ∧ (names ≠ [] → Reached sys d names p w)

/-- What making a directory leaves. -/
structure Made (fs₀ : FS) (dest : Bytes) (d : Ino) (names : List Bytes) (p : Bytes) (w : World)
    (r : Except ExtractError Unit) (w' : World) : Prop where
  goes : Goes true fs₀ dest d w w'
  onlyDirs : OnlyDirs d w w'
  found : r = .ok () → Found sys d names p w'

/-- A path below the destination, with or without a slash at its end. -/
def PathTo (dest : Bytes) (names : List Bytes) (p : Bytes) : Prop :=
  p = under dest names ∨ p = under dest names ++ [slash]

theorem PathTo.resolve (hp : PathTo dest names p) (h : Inside fs₀ dest d w)
    (hproper : ∀ n ∈ names, Proper n) (hdirs : AllDirs w.fs d names) (follow : Bool) :
    w.fs.resolve p follow =
      match w.fs.descend d names with
      | some j => .ok j
      | none => .error .noent := by
  have hend : ∀ j, w.fs.descend d names = some j → w.fs.IsDir j := fun j hj => hdirs names j prefix_rfl hj
  rcases hp with rfl | rfl
  · exact h.anchor.resolve h.wf hproper hdirs.clear fun _ j hj => not_symlink_of_isDir (hend j hj)
  · exact h.anchor.resolve_slash h.wf hproper hdirs.clear hend

theorem PathTo.found (hp : PathTo dest names p) (h : Inside fs₀ dest d w)
    (hproper : ∀ n ∈ names, Proper n) (hdirs : AllDirs w.fs d names)
    (hallowed : sys.deny w.fs ⟨op, p⟩ = none) (hi : w.fs.resolve p follow = .ok i)
    (hkind : w.fs.kind i = some (.dir parent entries)) : Found sys d names p w := by
  rw [hp.resolve h hproper hdirs] at hi
  cases hd : w.fs.descend d names with
  | none =>
    rw [hd] at hi
    cases hi
  | some j =>
    rw [hd] at hi
    cases hi
    refine ⟨i, hd, ⟨_, _, hkind⟩, fun hne => ⟨w.fs, op, hallowed, ?_, .refl _, fun _ _ hm => hm⟩⟩
    obtain ⟨ns, n, rfl⟩ := (eq_nil_or_concat' names).resolve_left hne
    obtain ⟨j, hj, hchild⟩ := descend_concat hd
    exact ⟨j, by rwa [dropLast_concat], isDir_of_child hchild⟩

variable {sys} in
theorem Made.refl (h : Inside fs₀ dest d w) (hr : r = .ok () → Found sys d names p w) :
    Made sys fs₀ dest d names p w r w := ⟨.refl h, fun _ _ hj => .inl hj, hr⟩

theorem mkdirOrFind_spec (perm : Nat) (hp : PathTo dest (names ++ [n]) p) (h : Inside fs₀ dest d w)
    (hproper : ∀ m ∈ names ++ [n], Proper m) (hdirs : AllDirs w.fs d (names ++ [n])) :
    (mkdirOrFind sys p perm).Gives (Made sys fs₀ dest d (names ++ [n]) p w) w := by
  have hstart : w.fs.start p = w.fs.start dest := by
    rcases hp with rfl | rfl
    · exact start_append h.anchor.ne_nil _
    · rw [under, append_assoc]
      exact start_append h.anchor.ne_nil _
  have hparts : FS.newParts p = parts dest ++ names ++ [n] := by
    rcases hp with rfl | rfl
    · exact newParts_under hproper
    · exact newParts_under_slash hproper
  have hempty : ∀ (i p : Ino) es, Kind.dir i (fun _ => none) = .dir p es → ∀ x, es x = none := by
    intro i p es heq x
    cases heq
    rfl
  refine wp_bind.mpr (wp_attempt.mpr ?_)
  refine (makeEntry_spec sys ⟨.mkdir, p⟩ perm (fun i => .dir i fun _ => none) hempty h hproper hdirs hstart
    hparts).post_mono fun r t ht => ?_
  obtain ⟨hgoes, herr, hok⟩ := ht
  refine post_ok.mpr ?_
  cases r with
  | ok i =>
    obtain ⟨hd, ⟨j, hkind⟩, honly, hallowed, hparent⟩ := hok i rfl
    have hi : t.fs.IsDir i := ⟨_, _, hkind⟩
    have hreached : Reached sys d (names ++ [n]) p t := by
      refine ⟨w.fs, .mkdir, hallowed, ?_, hgoes.grows, hgoes.modes rfl⟩
      rwa [dropLast_concat]
    refine .pure ⟨hgoes, fun q x hx => ?_, fun _ => ⟨i, hd, hi, fun _ => hreached⟩⟩
    rcases honly q x hx with hold | rfl
    · exact .inl hold
    · exact .inr hi
  | error e =>
    cases herr e rfl
    refine wp_bind.mpr (wp_attempt.mpr ?_)
    refine (statWith_spec sys ⟨.lstat, p⟩ false w).post_mono fun r t ht => ?_
    obtain ⟨rfl, hstat, -⟩ := ht
    refine post_ok.mpr ?_
    split
    · next parent entries hr =>
      refine .pure (.refl h fun _ => ?_)
      obtain ⟨⟨i, hi, hkind⟩, hallowed⟩ := hstat _ rfl
      exact hp.found sys h hproper hdirs hallowed hi hkind
    · exact .throw (.refl h (by simp))

theorem mkdirAllFrom_spec (perm k : Nat) (hp : PathTo dest names p) (h : Inside fs₀ dest d w)
    (hproper : ∀ n ∈ names, Proper n) (hdirs : AllDirs w.fs d names) :
    (mkdirAllFrom sys perm k p).Gives (Made sys fs₀ dest d names p w) w := by
  induction names using List.reverseRecOn generalizing k p with
  | nil =>
    have hres := hp.resolve h hproper hdirs true
    refine (mkdirAllFrom_exists sys perm k hres).post_mono fun r t ht => ?_
    cases ht
    exact .refl h fun _ => ⟨d, rfl, h.anchor.isDir, fun hne => absurd rfl hne⟩
  | append_singleton ns n ih =>
    have hns : ∀ m ∈ ns, Proper m := fun m hm => hproper m (mem_append_left _ hm)
    have hn := hproper n (mem_append_right _ (mem_singleton_self n))
    have hparent : parentOf p = under dest ns ++ [slash] := by
      rcases hp with rfl | rfl
      · have heq := parentOf_eq hn.ne_nil hn.no_slash (under dest ns) 0
        rwa [replicate_zero, append_nil, ← under_concat] at heq
      · have heq := parentOf_eq hn.ne_nil hn.no_slash (under dest ns) 1
        rwa [replicate_one, ← under_concat] at heq
    -- the parent is made first; whatever that leaves, the way is still one of directories
    have hone : ∀ parents : Bytes → M Unit,
        (parents (parentOf p)).Gives (fun _ t => Goes true fs₀ dest d w t ∧ OnlyDirs d w t) w →
        (mkdirAllWith sys parents perm p).Gives (Made sys fs₀ dest d (ns ++ [n]) p w) w := by
      intro parents hparents
      refine wp_bind.mpr (wp_attempt.mpr ?_)
      refine (statWith_spec sys ⟨.stat, p⟩ true w).post_mono fun r t ht => ?_
      obtain ⟨rfl, hstat, -⟩ := ht
      refine post_ok.mpr ?_
      split
      · next parent entries =>
        refine .pure (.refl h fun _ => ?_)
        obtain ⟨⟨i, hi, hkind⟩, hallowed⟩ := hstat _ rfl
        exact hp.found sys h hproper hdirs hallowed hi hkind
      · exact .throw (.refl h (by simp))
      · refine wp_bind.mpr ?_
        rw [if_pos (by rw [hparent]; simp)]
        refine hparents.post_mono fun r t' ht => ?_
        cases r with
        | error e => exact ⟨ht.1, ht.2, nofun⟩
        | ok u =>
          have hdirs' := hdirs.onlyDirs ht.2 ht.1.grows
          refine post_ok.mpr ?_
          refine (mkdirOrFind_spec sys perm hp ht.1.inside hproper hdirs').post_mono fun r t'' ht' => ?_
          exact ⟨ht.1.trans ht'.goes, ht.2.trans ht'.onlyDirs ht'.goes.grows, ht'.found⟩
    have hdirs' : AllDirs w.fs d ns := fun q j hq hj => hdirs q j (hq.trans (prefix_append _ _)) hj
    cases k with
    | zero => exact hone _ (.pure ⟨.refl h, fun _ _ hj => .inl hj⟩)
    | succ k =>
      exact hone _ ((ih k (.inr hparent) hns hdirs').post_mono fun _ _ ht => ⟨ht.goes, ht.onlyDirs⟩)

/-! ## Attributes -/

theorem setXattrs_spec (records : List (Bytes × Bytes)) (h : Inside fs₀ dest d w)
    (hproper : ∀ n ∈ names, Proper n) (hd : w.fs.descend d names = some i)
    (hkeep : keep = true → ¬w.fs.IsDir i) :
    (setXattrs sys (under dest names) records).Gives (fun _ t => Tuned keep fs₀ dest d w t) w := by
  induction records generalizing w with
  | nil => exact .pure (.refl h)
  | cons kv records ih =>
    refine Tuned.seq ?_ fun t ht => ih ht.goes.inside (ht.descend hd) (ht.keeps hkeep)
    refine wp_ite (fun _ => ?_) fun _ => .pure (.refl h)
    refine wp_bind.mpr (wp_attempt.mpr ?_)
    refine (setAttrs_spec sys ⟨.lsetxattr, under dest names⟩ false _ h rfl hproper hd
      (fun hf => Bool.noConfusion hf) hkeep).post_mono fun r t ht => ?_
    refine post_ok.mpr ?_
    cases r with
    | ok u => exact .pure ht
    | error e => exact wp_ite (fun _ => .pure ht) fun _ => .throw ht

/-- The attributes of a file are set on the file that the names lead to. -/
theorem applyMeta_spec (header : Header) (isSymlink : Bool) (h : Inside fs₀ dest d w)
    (hproper : ∀ n ∈ names, Proper n) (hd : w.fs.descend d names = some i)
    (hlink : isSymlink = false → ¬w.fs.IsSymlink i) (hkeep : keep = true → ¬w.fs.IsDir i) :
    (applyMeta sys (under dest names) header isSymlink).Gives
      (fun _ t => Tuned keep fs₀ dest d w t) w := by
  refine Tuned.seq ?_ fun t ht => Tuned.seq ?_ fun u hu => ?_
  · refine wp_ite (fun _ => ?_) fun _ => .pure (.refl h)
    exact setAttrs_spec sys ⟨.lchown, under dest names⟩ false _ h rfl hproper hd
      (fun hf => Bool.noConfusion hf) hkeep
  · cases isSymlink with
    | true => exact .pure (.refl ht.goes.inside)
    | false =>
      refine Tuned.seq ?_ fun u hu => setXattrs_spec sys _ hu.goes.inside hproper
        (hu.descend (ht.descend hd)) (hu.keeps (ht.keeps hkeep))
      exact setAttrs_spec sys ⟨.chmod, under dest names⟩ true _ ht.goes.inside rfl hproper (ht.descend hd)
        (fun _ => ht.not_symlink (hlink rfl)) (ht.keeps hkeep)
  · refine setAttrs_spec sys ⟨.utimes, under dest names⟩ (!isSymlink) _ hu.goes.inside rfl hproper
      (hu.descend (ht.descend hd)) (fun hf => hu.not_symlink (ht.not_symlink (hlink ?_)))
      (hu.keeps (ht.keeps hkeep))
    simpa using hf

/-! ## Members -/

theorem makeEntry_under (c : Call) (mode : Nat) (kind : Ino → Kind)
    (hkind : ∀ i p es, kind i ≠ .dir p es) (h : Inside fs₀ dest d w) (hpath : c.path = under dest names)
    (hproper : ∀ n ∈ names, Proper n) (hdirs : AllDirs w.fs d names) :
    (makeEntry sys c mode kind).Gives (fun r t => Goes true fs₀ dest d w t ∧
      (∀ e, r = .error e → t = w) ∧
      ∀ i, r = .ok i → names ≠ [] ∧ t.fs.descend d names = some i ∧ ∃ j, t.fs.kind i = some (kind j)) w := by
  rcases eq_nil_or_concat' names with rfl | ⟨ns, n, rfl⟩
  · have hres : w.fs.resolve c.path true = .ok d := by
      rw [hpath, h.anchor.resolve h.wf hproper hdirs.clear]
      · rfl
      · intro _ j hj
        cases hj
        exact not_symlink_of_isDir h.anchor.isDir
    refine (makeEntry_exists sys c mode kind hres).post_mono fun r t ht => ?_
    obtain ⟨rfl, e, rfl⟩ := ht
    exact ⟨.refl h, fun _ _ => rfl, nofun⟩
  · have hstart : w.fs.start c.path = w.fs.start dest := by
      rw [hpath]
      exact start_append h.anchor.ne_nil _
    have hparts : FS.newParts c.path = parts dest ++ ns ++ [n] := by
      rw [hpath]
      exact newParts_under hproper
    refine (makeEntry_spec sys c mode kind (fun i p es heq => absurd heq (hkind i p es)) h hproper hdirs
      hstart hparts).post_mono fun r t ht => ?_
    refine ⟨ht.1, ht.2.1, fun i hi => ?_⟩
    exact ⟨by simp, (ht.2.2 i hi).1, (ht.2.2 i hi).2.1⟩

theorem makeAndTune {α : Type} {make : M α} {tune : α → M Unit} {P : World → Ino → Prop}
    (hmake : make.Gives (fun r t => Goes true fs₀ dest d w t ∧ ∀ a, r = .ok a →
      ∃ i, t.fs.descend d names = some i ∧ P t i) w)
    (htune : ∀ a t i, Inside fs₀ dest d t → t.fs.descend d names = some i → P t i →
      (tune a).Gives (fun _ u => Goes true fs₀ dest d t u) t) :
    (make >>= tune).Gives (fun _ t => Goes true fs₀ dest d w t) w := by
  refine hmake.seq fun r t ht => ?_
  cases r with
  | error e => exact ht.1
  | ok a =>
    obtain ⟨i, hd, hP⟩ := ht.2 a rfl
    exact (htune a t i ht.1.inside hd hP).post_mono fun _ _ hu => ht.1.trans hu

theorem not_symlink_of_kind {fs : FS} (h : fs.kind i = some k) (hk : ∀ target, k ≠ .symlink target) :
    ¬fs.IsSymlink i := by
  intro ⟨target, ht⟩
  rw [h] at ht
  exact hk target (Option.some.inj ht)

theorem not_isDir_of_kind {fs : FS} (h : fs.kind i = some k) (hk : ∀ p es, k ≠ .dir p es) :
    ¬fs.IsDir i := by
  intro ⟨p, es, hdir⟩
  rw [h] at hdir
  exact hk p es (Option.some.inj hdir)

theorem writeRegular_spec (m : Member) (h : Inside fs₀ dest d w) (hproper : ∀ n ∈ names, Proper n)
    (hdirs : AllDirs w.fs d names) :
    (writeRegular sys (under dest names) m).Gives (fun r t => Goes true fs₀ dest d w t ∧
      ∀ a, r = .ok a → ∃ i, t.fs.descend d names = some i ∧ ¬t.fs.IsSymlink i ∧ ¬t.fs.IsDir i) w := by
  refine wp_bind.mpr ?_
  refine (makeEntry_under sys ⟨.openFile, under dest names⟩ 0o600 (fun _ => .file []) nofun h rfl hproper
    hdirs).post_mono fun r t ht => ?_
  obtain ⟨hgoes, herr, hok⟩ := ht
  cases r with
  | error e => exact ⟨hgoes, nofun⟩
  | ok i =>
    obtain ⟨hne, hd, j, hkind⟩ := hok i rfl
    have hparts : FS.newParts (under dest names) = parts dest ++ names := by
      obtain ⟨ns, n, rfl⟩ := (eq_nil_or_concat' names).resolve_left hne
      rw [newParts_under hproper, append_assoc]
    refine post_ok.mpr (wp_bind.mpr ?_)
    refine (write_spec sys (under dest names) m.body hgoes.inside hproper hd hparts).post_mono
      fun r u hu => ?_
    have hall := hgoes.trans hu
    cases r with
    | error e => exact ⟨hall, nofun⟩
    | ok v =>
      have hfile : ¬u.fs.IsSymlink i ∧ ¬u.fs.IsDir i := by
        obtain ⟨k, hk, hle⟩ := hu.grows.kind i _ hkind
        refine ⟨not_symlink_of_kind hk fun target heq => ?_, not_isDir_of_kind hk fun p es heq => ?_⟩
        · subst heq
          cases hle
        · subst heq
          cases hle
      refine post_ok.mpr (wp_ite (fun _ => .throw ⟨hall, nofun⟩) fun _ => ?_)
      exact .pure ⟨hall, fun _ _ => ⟨i, hu.grows.descend hd, hfile⟩⟩

theorem makeEntry_tune (c : Call) (mode : Nat) (kind : Ino → Kind) (header : Header) (isSymlink : Bool)
    (hkind : ∀ i p es, kind i ≠ .dir p es)
    (hlink : isSymlink = false → ∀ i target, kind i ≠ .symlink target) (h : Inside fs₀ dest d w)
    (hpath : c.path = under dest names) (hproper : ∀ n ∈ names, Proper n) (hdirs : AllDirs w.fs d names) :
    (makeEntry sys c mode kind >>= fun _ => applyMeta sys (under dest names) header isSymlink).Wp
      (fun _ => True) (fun _ t => Goes true fs₀ dest d w t) w := by
  have hmake : (makeEntry sys c mode kind).Gives (fun r t => Goes true fs₀ dest d w t ∧
      ∀ a, r = .ok a → ∃ i, t.fs.descend d names = some i ∧ ∃ j, t.fs.kind i = some (kind j)) w := by
    refine (makeEntry_under sys c mode kind hkind h hpath hproper hdirs).post_mono fun r t ht => ?_
    refine ⟨ht.1, fun i hi => ?_⟩
    obtain ⟨-, hd, hk⟩ := ht.2.2 i hi
    exact ⟨i, hd, hk⟩
  refine makeAndTune hmake fun a t i hin hd hk => ?_
  obtain ⟨j, hk⟩ := hk
  exact (applyMeta_spec sys header isSymlink hin hproper hd
    (fun hf => not_symlink_of_kind hk (hlink hf j)) fun _ => not_isDir_of_kind hk (hkind j)).post_mono
    fun _ _ hu => hu.goes

theorem makeDevice_spec (header : Header) (block : Bool) (h : Inside fs₀ dest d w)
    (hproper : ∀ n ∈ names, Proper n) (hdirs : AllDirs w.fs d names) :
    (makeDevice sys (under dest names) header block).Gives
      (fun _ t => Goes true fs₀ dest d w t) w := by
  have hdir : ∀ dev p es, deviceKind block dev ≠ .dir p es := by cases block <;> exact nofun
  have hlink : ∀ dev target, deviceKind block dev ≠ .symlink target := by cases block <;> exact nofun
  refine wp_bind.mpr (wp_attempt.mpr ?_)
  refine (makeEntry_under sys ⟨.mknod, under dest names⟩ (perm header.mode) _ (fun _ => hdir _) h rfl hproper
    hdirs).post_mono fun r t ht => ?_
  obtain ⟨hgoes, -, hok⟩ := ht
  refine post_ok.mpr ?_
  cases r with
  | error e => exact wp_ite (fun _ => .pure hgoes) fun _ => .throw hgoes
  | ok i =>
    obtain ⟨-, hd, j, hk⟩ := hok i rfl
    exact (applyMeta_spec sys header false hgoes.inside hproper hd
      (fun _ => not_symlink_of_kind hk (hlink _)) fun _ => not_isDir_of_kind hk (hdir _)).post_mono
      fun _ _ hu => hgoes.trans hu.goes

/-- A member leaves files below the destination. One that is a directory is there at the end. -/
theorem makeMember_spec (m : Member) (h : Inside fs₀ dest d w) (hproper : ∀ n ∈ names, Proper n)
    (hdirs : AllDirs w.fs d names) :
    (makeMember sys (under dest names) m).Gives (fun r t => Goes true fs₀ dest d w t ∧
      (r = .ok () → m.header.typeflag = .dir → Found sys d names (under dest names) t)) w := by
  unfold makeMember
  cases hflag : m.header.typeflag with
  | dir =>
    exact (mkdirAllFrom_spec sys 0o700 _ (.inl rfl) h hproper hdirs).post_mono
      fun r t ht => ⟨ht.goes, fun hr _ => ht.found hr⟩
  | reg =>
    refine (makeAndTune (writeRegular_spec sys m h hproper hdirs) fun a t i hin hd hlink => ?_).post_mono
      fun r t ht => ⟨ht, nofun⟩
    exact (applyMeta_spec sys _ false hin hproper hd (fun _ => hlink.1) fun _ => hlink.2).post_mono
      fun _ _ hu => hu.goes
  | symlink =>
    dsimp only [symlink]
    split
    · exact wp_bind.mpr (.throw ⟨.refl h, nofun⟩)
    · exact (makeEntry_tune sys ⟨.symlink, under dest names⟩ _ (fun _ => .symlink m.header.linkname) _ true
        nofun (fun hf => Bool.noConfusion hf) h rfl hproper hdirs).post_mono fun r t ht => ⟨ht, nofun⟩
  | fifo =>
    exact (makeEntry_tune sys ⟨.mkfifo, under dest names⟩ _ (fun _ => .fifo) _ false nofun (fun _ => nofun)
      h rfl hproper hdirs).post_mono fun r t ht => ⟨ht, nofun⟩
  | char => exact (makeDevice_spec sys _ false h hproper hdirs).post_mono fun r t ht => ⟨ht, nofun⟩
  | block => exact (makeDevice_spec sys _ true h hproper hdirs).post_mono fun r t ht => ⟨ht, nofun⟩
  | other flag => exact .throw ⟨.refl h, nofun⟩

/-- A directory whose attributes are still to be set. -/
def Deferred (dest : Bytes) (d : Ino) (w : World) (header : Header) : Prop :=
  ∃ names i, (∀ n ∈ names, Proper n) ∧ safeJoin dest header.name = .ok (under dest names) ∧
    w.fs.descend d names = some i ∧ w.fs.IsDir i

theorem Deferred.grows (h : Deferred dest d w header) (hg : Grows w.fs w'.fs) : Deferred dest d w' header := by
  obtain ⟨names, i, hproper, hjoin, hd, hi⟩ := h
  exact ⟨names, i, hproper, hjoin, hg.descend hd, hg.isDir hi⟩

/-- A directory whose attributes are still to be set, as it was made. -/
def Entered (dest : Bytes) (d : Ino) (w : World) (header : Header) : Prop :=
  ∃ names, (∀ n ∈ names, Proper n) ∧ safeJoin dest header.name = .ok (under dest names) ∧
    Found sys d names (under dest names) w

variable {sys} in
theorem Entered.deferred (h : Entered sys dest d w header) : Deferred dest d w header := by
  obtain ⟨names, hproper, hjoin, i, hd, hi, -⟩ := h
  exact ⟨names, i, hproper, hjoin, hd, hi⟩

variable {sys} in
theorem Entered.goes (h : Entered sys dest d w header) (hg : Goes true fs₀ dest d w w') :
    Entered sys dest d w' header := by
  obtain ⟨names, hproper, hjoin, i, hd, hi, hreached⟩ := h
  exact ⟨names, hproper, hjoin, i, hg.grows.descend hd, hg.grows.isDir hi, fun hne => (hreached hne).goes hg⟩

theorem extractMember_spec (m : Member) (h : Inside fs₀ dest d w) :
    (extractMember sys dest m).Gives (fun r t => Goes true fs₀ dest d w t ∧
      (r = .ok () → m.header.typeflag = .dir → Entered sys dest d t m.header)) w := by
  unfold extractMember
  cases hjoin : safeJoin dest m.header.name with
  | error e => exact wp_bind.mpr (.throw ⟨.refl h, nofun⟩)
  | ok target =>
    obtain ⟨names, hproper, rfl, hbelow⟩ := safeJoin_under h.anchor.ne_nil hjoin
    refine wp_bind.mpr (.pure (post_ok.mpr (wp_bind.mpr ?_)))
    refine (rejectSymlinkComponents_spec sys dest (under dest names) w).post_mono fun r t ht => ?_
    obtain ⟨rfl, hchecked⟩ := ht
    cases r with
    | error e => exact ⟨.refl h, nofun⟩
    | ok u =>
      have hdirs : AllDirs t.fs d names := allDirs_of_checked h hproper
        fun q hq hne => hchecked rfl _ (hbelow q hq hne)
      refine post_ok.mpr ((makeMember_spec sys m h hproper hdirs).post_mono fun r t' ht => ⟨ht.1, ?_⟩)
      exact fun hr hflag => ⟨names, hproper, hjoin, ht.2 hr hflag⟩

theorem mem_directories (hm : h ∈ directories (done ++ [m])) :
    h ∈ directories done ∨ (m.header = h ∧ m.header.typeflag = .dir) := by
  rw [directories, map_append, filter_append, mem_append] at hm
  refine hm.imp_right fun hm => ?_
  obtain ⟨hm, hflag⟩ := mem_filter.mp hm
  cases mem_singleton.mp hm
  exact ⟨rfl, of_decide_eq_true hflag⟩

theorem extractMembers_spec (ms : List Member) (h : Inside fs₀ dest d w) :
    (Act.each (extractMember sys dest) ms).Gives
      (Post (fun _ t => Goes true fs₀ dest d w t ∧ ∀ hd ∈ directories ms, Entered sys dest d t hd)
        fun _ t => Goes true fs₀ dest d w t) w := by
  refine (Wp.each (E := fun _ t => Goes true fs₀ dest d w t) (P := fun rest t => Goes true fs₀ dest d w t ∧
    ∃ done, done ++ rest = ms ∧ ∀ hd ∈ directories done, Entered sys dest d t hd) ⟨.refl h, [], rfl, nofun⟩
    fun m rest t ht => ?_).post_mono fun r t ht => ?_
  · obtain ⟨hgoes, done, hdone, hdirs⟩ := ht
    refine (extractMember_spec sys m hgoes.inside).post_mono fun r u hu => ?_
    cases r with
    | error e => exact hgoes.trans hu.1
    | ok v =>
      refine ⟨hgoes.trans hu.1, done ++ [m], by rw [append_assoc, ← hdone]; rfl, fun hd hmem => ?_⟩
      rcases mem_directories hmem with hold | ⟨rfl, hflag⟩
      · exact (hdirs hd hold).goes hu.1
      · exact hu.2 rfl hflag
  · cases r with
    | error e => exact ht
    | ok v =>
      obtain ⟨hgoes, done, hdone, hdirs⟩ := ht
      rw [append_nil] at hdone
      subst hdone
      exact ⟨hgoes, hdirs⟩

end Steps

def plainAttrs : Attrs := ⟨0o755, 0, 0, ⟨0, 0⟩, fun _ => none⟩

/-- The directory `/d` with a link `l` to `/`. -/
def linkTree : FS where
  node
    | 0 => some ⟨.dir 0 fun c => if c = [100] then some 1 else none, plainAttrs⟩
    | 1 => some ⟨.dir 0 fun c => if c = [108] then some 2 else none, plainAttrs⟩
    | 2 => some ⟨.symlink [slash], plainAttrs⟩
    | _ => none
  next := 3
  root := 0
  cwd := 0

theorem linkTree_wf : WF linkTree := by
  refine ⟨fun i c j h => ?_, fun i hi => ?_⟩
  · match i with
    | 0 =>
      change (if c = [100] then some 1 else none) = some j at h
      split at h
      · cases h
        rfl
      · cases h
    | 1 =>
      change (if c = [108] then some 2 else none) = some j at h
      split at h
      · cases h
        rfl
      · cases h
    | 2 => cases h
    | n + 3 => cases h
  · obtain ⟨n, rfl⟩ := Nat.exists_eq_add_of_le hi
    rw [show linkTree.next + n = n + 3 from Nat.add_comm 3 n]
    rfl

end AmberStore.Tarextract
