import AmberStore.Tarextract.Inside
import AmberStore.Tarextract.Spellings

/-!
# The attributes of directories

The directories of an archive get their attributes in the order of the archive, once all members are there.
For a process that is not root, the mode of a directory then decides whether the directories below it can
still be reached.
-/

namespace AmberStore.Tarextract
open FileTree Path List Function

/-! ## Permission to search -/

/-- The owner may search what the names lead to. -/
def opens (fs : FS) (d : Ino) (q : List Bytes) : Bool := ((fs.descend d q).bind fs.dirMode).all (·.testBit 6)

/-- The owner may search each directory on the way from the destination to a path. -/
def searches (fs : FS) (dest : Bytes) (d : Ino) (p : Bytes) : Bool :=
  ((FS.newParts p).drop (parts dest).length).dropLast.inits.all fun q => q = [] ∨ opens fs d q = true

/-- A process that is not root and owns all files below the destination. -/
def ownerSys (dest : Bytes) (d : Ino) (fresh : FS → Ino → Nat → Attrs) (now : FS → Timespec) : Sys where
  isRoot := false
  deny fs c := if searches fs dest d c.path then none else some .acces
  fresh := fresh
  now := now

/-- The components of the name of a member. -/
def memberNames (h : Header) : List Bytes := cleanParts true (parts h.name)

section Pass
variable {fs fs' fs₀ : FS} {dest : Bytes} {d i : Ino} {w w' : World} {names : List Bytes} {header : Header}
  {fresh : FS → Ino → Nat → Attrs} {now : FS → Timespec}

theorem proper_prefix_iff {ns : List Bytes} {n : Bytes} {q : List Bytes} :
    q <+: ns ↔ q <+: ns ++ [n] ∧ q ≠ ns ++ [n] := by
  constructor
  · intro hq
    refine ⟨hq.trans (prefix_append _ _), fun heq => ?_⟩
    have hlen := hq.length_le
    rw [heq, length_append, length_singleton] at hlen
    omega
  · rintro ⟨hq, hne⟩
    exact (prefix_concat_iff.mp hq).resolve_left hne

theorem searches_under (hproper : ∀ n ∈ names, Proper n) :
    searches fs dest d (under dest names) = true ↔
      ∀ q, q <+: names → q ≠ [] → q ≠ names → opens fs d q = true := by
  unfold searches
  rw [all_eq_true]
  simp only [mem_inits, decide_eq_true_eq]
  rcases eq_nil_or_concat' names with rfl | ⟨ns, n, rfl⟩
  · have hdrop : (FS.newParts (under dest [])).drop (parts dest).length = [] := by
      rw [drop_eq_nil_iff, under_nil, FS.newParts, length_reverse]
      exact (dropWhile_suffix _).length_le.trans_eq length_reverse
    rw [hdrop]
    exact ⟨fun _ q hq hne => absurd (prefix_nil.mp hq) hne, fun _ q hq => .inl (prefix_nil.mp hq)⟩
  · rw [newParts_under hproper, append_assoc, drop_left, dropLast_concat]
    constructor
    · intro h q hq hne hself
      exact (h q (proper_prefix_iff.mpr ⟨hq, hself⟩)).resolve_left hne
    · intro h q hq
      obtain ⟨hq, hself⟩ := proper_prefix_iff.mp hq
      by_cases hne : q = []
      · exact .inl hne
      · exact .inr (h q hq hne hself)

theorem under_inj {ns ns' : List Bytes} (h : ∀ n ∈ ns, Proper n) (h' : ∀ n ∈ ns', Proper n)
    (heq : under dest ns = under dest ns') : ns = ns' := by
  have hparts := congrArg parts heq
  rw [parts_under fun n hn => (h n hn).no_slash, parts_under fun n hn => (h' n hn).no_slash] at hparts
  exact append_cancel_left hparts

/-- The names by which a member was joined are those of its header. -/
theorem memberNames_eq (hdest : dest ≠ []) (hproper : ∀ n ∈ names, Proper n)
    (hjoin : safeJoin dest header.name = .ok (under dest names)) : memberNames header = names := by
  obtain ⟨hup, hunder⟩ := safeJoin_names hdest hjoin
  exact under_inj (cleanParts_proper true hup) hproper hunder.symm

/-- After all members, the way to a directory of the archive can be searched: it could be when the directory
was made, and the modes on the way are still the same. -/
theorem Entered.searches (h : Entered (ownerSys dest d fresh now) dest d w header) (hdest : dest ≠ []) :
    ∀ q, q <+: memberNames header → q ≠ [] → q ≠ memberNames header → opens w.fs d q = true := by
  obtain ⟨names, hproper, hjoin, i, hd, -, hreached⟩ := h
  rw [memberNames_eq hdest hproper hjoin]
  intro q hq hne hself
  have hnil : names ≠ [] := by
    rintro rfl
    exact hne (prefix_nil.mp hq)
  obtain ⟨fs, op, hdeny, ⟨j, hj, hdir⟩, hgrows, hmodes⟩ := hreached hnil
  obtain ⟨ns, n, rfl⟩ := (eq_nil_or_concat' names).resolve_left hnil
  rw [dropLast_concat] at hj
  have hsearch : Tarextract.searches fs dest d (under dest (ns ++ [n])) = true := by
    by_contra hno
    have hacces : (if Tarextract.searches fs dest d (under dest (ns ++ [n])) then none else some Refusal.acces) =
        none := hdeny
    rw [if_neg hno] at hacces
    cases hacces
  have hopen := (searches_under hproper).mp hsearch q hq hne hself
  obtain ⟨rest, rfl⟩ := proper_prefix_iff.mpr ⟨hq, hself⟩
  obtain ⟨k, hk, hkdir⟩ : ∃ k, fs.descend d q = some k ∧ fs.IsDir k := by
    rw [descend_append] at hj
    obtain ⟨k, hk, hrest⟩ := Option.bind_eq_some_iff.mp hj
    refine ⟨k, hk, ?_⟩
    cases rest with
    | nil =>
      cases hrest
      exact hdir
    | cons c rest =>
      obtain ⟨x, hx, -⟩ := Option.bind_eq_some_iff.mp hrest
      exact isDir_of_child hx
  obtain ⟨m, hm⟩ := exists_dirMode hkdir
  rw [opens, hk, Option.bind_some, hm] at hopen
  rw [opens, hgrows.descend hk, Option.bind_some, hmodes k m hm]
  exact hopen

/-! ## One directory -/

/-- Only the attributes of one file differ. -/
structure OnlyAt (i : Ino) (fs fs' : FS) : Prop where
  kind : fs'.kind = fs.kind
  other : ∀ j, j ≠ i → fs'.node j = fs.node j
  grows : Grows fs fs'

theorem OnlyAt.refl (i : Ino) (fs : FS) : OnlyAt i fs fs := ⟨rfl, fun _ _ => rfl, .refl fs⟩

theorem OnlyAt.trans {fs'' : FS} (h : OnlyAt i fs fs') (h' : OnlyAt i fs' fs'') : OnlyAt i fs fs'' :=
  ⟨h'.kind.trans h.kind, fun j hj => (h'.other j hj).trans (h.other j hj), h.grows.trans h'.grows⟩

theorem OnlyAt.modifyAttrs (i : Ino) (fs : FS) (f : Node → Attrs) : OnlyAt i fs (fs.modifyAttrs i f) :=
  ⟨modifyAttrs_kind fs i f, fun _ hj => modifyAttrs_other f hj, .modifyAttrs fs i f⟩

/-- Names that lead to a directory, in a tree of directories. -/
structure LeadsTo (fs₀ : FS) (dest : Bytes) (d : Ino) (names : List Bytes) (i : Ino) (w : World) : Prop where
  inside : Inside fs₀ dest d w
  tree : DirTree w.fs d
  proper : ∀ n ∈ names, Proper n
  descend : w.fs.descend d names = some i
  isDir : w.fs.IsDir i

theorem LeadsTo.opens_of_ne (h : LeadsTo fs₀ dest d names i w) (ho : OnlyAt i w.fs fs') {q : List Bytes}
    (hq : q ≠ names) : opens fs' d q = opens w.fs d q := by
  rw [opens, opens, descend_congr ho.kind]
  cases hj : w.fs.descend d q with
  | none => rfl
  | some j =>
    have hji : j ≠ i := by
      rintro rfl
      exact hq (h.tree q names j h.isDir hj h.descend)
    rw [Option.bind_some, Option.bind_some, dirMode_congr (ho.other j hji)]

theorem LeadsTo.searches_iff (h : LeadsTo fs₀ dest d names i w) (ho : OnlyAt i w.fs fs') :
    searches fs' dest d (under dest names) = searches w.fs dest d (under dest names) := by
  rw [Bool.eq_iff_iff, searches_under h.proper, searches_under h.proper]
  refine forall_congr' fun q => forall_congr' fun _ => forall_congr' fun _ => forall_congr' fun hself => ?_
  rw [h.opens_of_ne ho hself]

theorem node_modifyAttrs (hn : fs.node i = some n) (f : Node → Attrs) :
    (fs.modifyAttrs i f).node i = some ⟨n.kind, f n⟩ := by
  rw [FS.modifyAttrs, hn]
  exact update_self i _ fs.node

/-- A call that changes the attributes of the directory: what it needs and what it leaves. -/
theorem LeadsTo.setAttrs (h : LeadsTo fs₀ dest d names i w) (op : Op) (follow : Bool) (f : Node → Attrs)
    (hsearch : searches w.fs dest d (under dest names) = true) :
    (setAttrs (ownerSys dest d fresh now) ⟨op, under dest names⟩ follow f).Gives
      (fun r t => r = .ok () ∧ LeadsTo fs₀ dest d names i t ∧ OnlyAt i w.fs t.fs ∧
        ∀ n, w.fs.node i = some n → t.fs.node i = some ⟨n.kind, f n⟩) w := by
  have hres : w.fs.resolve (under dest names) follow = .ok i := by
    rw [h.inside.anchor.resolve h.inside.wf h.proper (clear_of_descend h.descend), h.descend]
    intro _ j hj
    rw [h.descend] at hj
    cases hj
    exact not_symlink_of_isDir h.isDir
  refine Act.wp_bind.mpr (Act.wp_bind.mpr (Act.wp_read.mpr ?_))
  dsimp only [Act.Post, ownerSys]
  rw [if_pos hsearch]
  refine .pure (Act.post_ok.mpr (Act.wp_bind.mpr (Act.wp_read.mpr ?_)))
  dsimp only [Act.Post]
  rw [hres]
  refine Act.wp_modify.mpr ⟨rfl, ⟨?_, h.tree.modifyAttrs i f, h.proper, ?_, ?_⟩, .modifyAttrs i w.fs f,
    fun n hn => node_modifyAttrs hn f⟩
  · rw [parts_under fun n hn => (h.proper n hn).no_slash]
    exact inside_modifyAttrs h.inside h.proper h.descend f
  · exact (descend_congr (modifyAttrs_kind w.fs i f) d names).trans h.descend
  · rw [FS.IsDir, modifyAttrs_kind]
    exact h.isDir

theorem dirMode_eq (h : fs.IsDir i) (hn : fs.node i = some n) : fs.dirMode i = some n.attrs.mode := by
  obtain ⟨parent, entries, hkind⟩ := h
  rw [FS.kind, hn] at hkind
  obtain ⟨kind, attrs⟩ := n
  cases hkind
  rw [FS.dirMode, hn]

theorem LeadsTo.setXattrs (h : LeadsTo fs₀ dest d names i w) (records : List (Bytes × Bytes))
    (hsearch : searches w.fs dest d (under dest names) = true)
    (hmode : ∃ n, w.fs.node i = some n ∧ n.attrs.mode = m) :
    (setXattrs (ownerSys dest d fresh now) (under dest names) records).Gives
      (fun r t => r = .ok () ∧ LeadsTo fs₀ dest d names i t ∧ OnlyAt i w.fs t.fs ∧
        ∃ n, t.fs.node i = some n ∧ n.attrs.mode = m) w := by
  induction records generalizing w with
  | nil => exact .pure ⟨rfl, h, .refl i w.fs, hmode⟩
  | cons record records ih =>
    have hone : (setXattr (ownerSys dest d fresh now) (under dest names) record).Gives
        (fun r t => r = .ok () ∧ LeadsTo fs₀ dest d names i t ∧ OnlyAt i w.fs t.fs ∧
          ∃ n, t.fs.node i = some n ∧ n.attrs.mode = m) w := by
      refine Act.wp_ite (fun _ => ?_) fun _ => .pure ⟨rfl, h, .refl i w.fs, hmode⟩
      refine Act.wp_bind.mpr (Act.wp_attempt.mpr ?_)
      refine (h.setAttrs .lsetxattr false _ hsearch).post_mono fun r t ht => ?_
      obtain ⟨rfl, ht, ho, hnode⟩ := ht
      obtain ⟨n, hn, hm⟩ := hmode
      exact Act.post_ok.mpr (.pure ⟨rfl, ht, ho, _, hnode n hn, hm⟩)
    refine hone.seq fun r t ht => ?_
    obtain ⟨rfl, ht, ho, hm⟩ := ht
    refine Act.post_ok.mpr ((ih ht ((h.searches_iff ho).trans hsearch) hm).post_mono fun r u hu => ?_)
    exact ⟨hu.1, hu.2.1, ho.trans hu.2.2.1, hu.2.2.2⟩

/-- The attributes that a header gives. -/
def HasMeta (fs : FS) (i : Ino) (header : Header) : Prop :=
  ∃ n, fs.node i = some n ∧ n.attrs.mode = perm header.mode ∧ n.attrs.mtime = nsecToTimespec header.modTime

theorem LeadsTo.applyMeta (h : LeadsTo fs₀ dest d names i w) (header : Header)
    (hsearch : searches w.fs dest d (under dest names) = true) :
    (applyMeta (ownerSys dest d fresh now) (under dest names) header false).Gives
      (fun r t => r = .ok () ∧ LeadsTo fs₀ dest d names i t ∧ OnlyAt i w.fs t.fs ∧
        HasMeta t.fs i header) w := by
  obtain ⟨n, hn⟩ : ∃ n, w.fs.node i = some n := by
    obtain ⟨parent, entries, hkind⟩ := h.isDir
    obtain ⟨n, hn, -⟩ := Option.map_eq_some_iff.mp hkind
    exact ⟨n, hn⟩
  refine Act.wp_bind.mpr (.pure (Act.post_ok.mpr (Act.wp_bind.mpr (Act.wp_bind.mpr ?_))))
  refine (h.setAttrs .chmod true _ hsearch).post_mono fun r t ht => ?_
  obtain ⟨rfl, ht, ho, hnode⟩ := ht
  have hmode : ∃ n', t.fs.node i = some n' ∧ n'.attrs.mode = perm header.mode := ⟨_, hnode n hn, rfl⟩
  have hsearch' := (h.searches_iff ho).trans hsearch
  refine Act.post_ok.mpr ((ht.setXattrs header.paxRecords hsearch' hmode).post_mono fun r u hu => ?_)
  obtain ⟨rfl, hu, ho', n', hn', hm⟩ := hu
  refine Act.post_ok.mpr ?_
  refine (hu.setAttrs .utimes true _ ((ht.searches_iff ho').trans hsearch')).post_mono fun r v hv => ?_
  obtain ⟨rfl, hv, ho'', hnode'⟩ := hv
  exact ⟨rfl, hv, (ho.trans ho').trans ho'', _, hnode' n' hn', hm, rfl⟩

theorem applyMeta_refused (header : Header) (hsearch : searches w.fs dest d (under dest names) = false) :
    (applyMeta (ownerSys dest d fresh now) (under dest names) header false).Gives
      (fun r _ => r ≠ .ok ()) w := by
  refine Act.wp_bind.mpr (.pure (Act.post_ok.mpr (Act.wp_bind.mpr (Act.wp_bind.mpr ?_))))
  refine Act.wp_bind.mpr (Act.wp_bind.mpr (Act.wp_read.mpr ?_))
  dsimp only [Act.Post, ownerSys]
  rw [hsearch]
  exact .throw nofun

theorem Deferred.leadsTo (h : Deferred dest d w header) (hin : Inside fs₀ dest d w) (ht : DirTree w.fs d) :
    safeJoin dest header.name = .ok (under dest (memberNames header)) ∧
      ∃ i, LeadsTo fs₀ dest d (memberNames header) i w := by
  obtain ⟨names, i, hproper, hjoin, hd, hi⟩ := h
  rw [memberNames_eq hin.anchor.ne_nil hproper hjoin]
  exact ⟨hjoin, i, hin, ht, hproper, hd, hi⟩

/-! ## All directories -/

/-- Which directories can be searched after one of them has got its mode. -/
def setOpen (s : List Bytes → Bool) (header : Header) : List Bytes → Bool :=
  update s (memberNames header) ((perm header.mode).testBit 6)

/-- The directories on the way to each header can be searched when its turn comes. -/
def Passes : (List Bytes → Bool) → List Header → Prop
  | _, [] => True
  | s, header :: hs =>
    (∀ q, q <+: memberNames header → q ≠ [] → q ≠ memberNames header → s q = true) ∧
      Passes (setOpen s header) hs

theorem LeadsTo.opens_eq (h : LeadsTo fs₀ dest d (memberNames header) i w) (ho : OnlyAt i w.fs fs')
    (hmeta : HasMeta fs' i header) : opens fs' d = setOpen (opens w.fs d) header := by
  funext q
  by_cases hq : q = memberNames header
  · obtain ⟨n, hn, hmode, -⟩ := hmeta
    have hdir : fs'.IsDir i := by
      rw [FS.IsDir, ho.kind]
      exact h.isDir
    rw [hq, setOpen, update_self, opens, descend_congr ho.kind, h.descend, Option.bind_some,
      dirMode_eq hdir hn, hmode]
    rfl
  · rw [setOpen, update_of_ne hq, h.opens_of_ne ho hq]

/-- What the pass over some headers leaves: the attributes of the last header of each directory, and every
other directory as it was. -/
structure Applied (d : Ino) (hs : List Header) (fs fs' : FS) : Prop where
  last : ∀ before header after, hs = before ++ header :: after →
    (∀ x ∈ after, memberNames x ≠ memberNames header) →
    ∃ i, fs'.descend d (memberNames header) = some i ∧ HasMeta fs' i header
  other : ∀ q i, (∀ x ∈ hs, memberNames x ≠ q) → fs.descend d q = some i → fs.IsDir i →
    fs'.node i = fs.node i

theorem Applied.cons (h : LeadsTo fs₀ dest d (memberNames header) i w) (ho : OnlyAt i w.fs fs)
    (hmeta : HasMeta fs i header) (hd : fs'.descend d (memberNames header) = some i) (ha : Applied d hs fs fs') :
    Applied d (header :: hs) w.fs fs' := by
  have hdescend : ∀ q, fs.descend d q = w.fs.descend d q := descend_congr ho.kind d
  have hdir : ∀ j, w.fs.IsDir j → fs.IsDir j := by
    intro j hj
    rwa [FS.IsDir, ho.kind]
  refine ⟨fun before x after heq hlast => ?_, fun q j hq hj hjdir => ?_⟩
  · cases before with
    | nil =>
      obtain ⟨rfl, rfl⟩ := List.cons.inj heq
      obtain ⟨n, hn, hattrs⟩ := hmeta
      refine ⟨i, hd, n, ?_, hattrs⟩
      rw [ha.other _ i hlast ((hdescend _).trans h.descend) (hdir i h.isDir), hn]
    | cons y before =>
      exact ha.last before x after (List.cons.inj heq).2 hlast
  · have hji : j ≠ i := by
      rintro rfl
      exact hq header mem_cons_self (h.tree _ q j h.isDir h.descend hj)
    rw [ha.other q j (fun x hx => hq x (mem_cons_of_mem _ hx)) ((hdescend q).trans hj) (hdir j hjdir),
      ho.other j hji]

variable (fresh now) in
/-- The pass goes through exactly if each directory can be reached when its turn comes. -/
theorem applyDirMetas_run (hs : List Header) (hin : Inside fs₀ dest d w) (htree : DirTree w.fs d)
    (hdirs : ∀ x ∈ hs, Deferred dest d w x) :
    (Act.each (applyDirMeta (ownerSys dest d fresh now) dest) hs).Gives
      (fun r t => (r = .ok () ↔ Passes (opens w.fs d) hs) ∧ (r = .ok () → Applied d hs w.fs t.fs ∧
        Grows w.fs t.fs)) w := by
  induction hs generalizing w with
  | nil =>
    refine .pure ⟨iff_of_true rfl trivial, fun _ => ⟨⟨?_, fun _ _ _ _ _ => rfl⟩, .refl _⟩⟩
    intro before header after heq
    exact absurd heq (by simp)
  | cons header hs ih =>
    obtain ⟨hjoin, i, hlead⟩ := (hdirs header mem_cons_self).leadsTo hin htree
    refine Act.wp_bind.mpr ?_
    rw [applyDirMeta, hjoin]
    refine Act.wp_bind.mpr (.pure (Act.post_ok.mpr ?_))
    cases hsearch : searches w.fs dest d (under dest (memberNames header)) with
    | false =>
      refine (applyMeta_refused header hsearch).post_mono fun r t hr => ?_
      cases r with
      | ok u => exact absurd rfl hr
      | error e =>
        refine ⟨iff_of_false (by simp) fun hpass => ?_, by simp⟩
        rw [(searches_under hlead.proper).mpr hpass.1] at hsearch
        cases hsearch
    | true =>
      refine (hlead.applyMeta header hsearch).post_mono fun r t ht => ?_
      obtain ⟨rfl, ht, ho, hmeta⟩ := ht
      refine Act.post_ok.mpr ((ih ht.inside ht.tree fun x hx =>
        (hdirs x (mem_cons_of_mem _ hx)).grows ho.grows).post_mono fun r u hu => ?_)
      obtain ⟨hiff, hok⟩ := hu
      rw [hlead.opens_eq ho hmeta] at hiff
      refine ⟨hiff.trans ⟨fun hpass => ⟨(searches_under hlead.proper).mp hsearch, hpass⟩, And.right⟩,
        fun hr => ?_⟩
      obtain ⟨happlied, hgrows⟩ := hok hr
      exact ⟨.cons hlead ho hmeta (hgrows.descend ht.descend) happlied, ho.grows.trans hgrows⟩

/-! ## The order of the archive -/

/-- A directory that comes before one of its descendants, and is not listed again in between, lets its owner
search it. -/
def ParentsOpen (hs : List Header) : Prop :=
  ∀ before parent between header after, hs = before ++ parent :: between ++ header :: after →
    memberNames parent <+: memberNames header → memberNames parent ≠ [] →
    memberNames parent ≠ memberNames header →
    (∀ x ∈ between, memberNames x ≠ memberNames parent) → (perm parent.mode).testBit 6 = true

theorem passes_iff_foldl (s : List Bytes → Bool) (hs : List Header) :
    Passes s hs ↔ ∀ before header after, hs = before ++ header :: after →
      ∀ q, q <+: memberNames header → q ≠ [] → q ≠ memberNames header →
        before.foldl setOpen s q = true := by
  induction hs generalizing s with
  | nil => exact iff_of_true trivial fun before header after heq => absurd heq (by simp)
  | cons x hs ih =>
    rw [Passes, ih]
    constructor
    · rintro ⟨hx, hrest⟩ before header after heq
      cases before with
      | nil =>
        obtain ⟨rfl, rfl⟩ := List.cons.inj heq
        exact hx
      | cons y before =>
        obtain ⟨rfl, htail⟩ := List.cons.inj heq
        exact hrest before header after htail
    · intro h
      exact ⟨h [] x hs rfl, fun before header after heq => h (x :: before) header after (congrArg _ heq)⟩

/-- An element of a list is its last one, or comes before it. -/
theorem concat_split {α : Type} {xs before after : List α} {x y : α} (h : xs ++ [x] = before ++ y :: after) :
    (y = x ∧ after = []) ∨ ∃ rest, after = rest ++ [x] ∧ xs = before ++ y :: rest := by
  rcases eq_nil_or_concat' after with rfl | ⟨rest, z, rfl⟩
  · exact .inl ⟨(List.cons.inj (append_inj' h rfl).2).1.symm, rfl⟩
  · rw [← cons_append, ← append_assoc] at h
    obtain ⟨hxs, hz⟩ := append_inj' h rfl
    cases hz
    exact .inr ⟨rest, rfl, hxs⟩

/-- After some headers a directory can be searched if the last one with its names says so. -/
theorem foldl_setOpen_iff {s : List Bytes → Bool} {q : List Bytes} (hq : s q = true) (hs : List Header) :
    hs.foldl setOpen s q = true ↔ ∀ before header after, hs = before ++ header :: after →
      memberNames header = q → (∀ x ∈ after, memberNames x ≠ q) → (perm header.mode).testBit 6 = true := by
  induction hs using List.reverseRecOn with
  | nil => exact iff_of_true hq fun before header after heq => absurd heq (by simp)
  | append_singleton hs x ih =>
    rw [foldl_concat, setOpen]
    by_cases hx : memberNames x = q
    · rw [hx, update_self]
      constructor
      · intro hbit before header after heq _ hlast
        rcases concat_split heq with ⟨rfl, -⟩ | ⟨rest, rfl, -⟩
        · exact hbit
        · exact absurd hx (hlast x (mem_append_right _ (mem_singleton_self x)))
      · exact fun h => h hs x [] rfl hx nofun
    · rw [update_of_ne (Ne.symm hx), ih]
      constructor
      · intro h before header after heq hname hlast
        rcases concat_split heq with ⟨rfl, -⟩ | ⟨rest, rfl, hrest⟩
        · exact absurd hname hx
        · exact h before header rest hrest hname fun z hz => hlast z (mem_append_left _ hz)
      · intro h before header after heq hname hlast
        refine h before header (after ++ [x]) (by rw [heq]; simp) hname fun z hz => ?_
        rcases mem_append.mp hz with hz | hz
        · exact hlast z hz
        · rw [mem_singleton.mp hz]
          exact hx

/-- Where everything can be searched at first, only the order of the headers counts. -/
theorem passes_iff {s : List Bytes → Bool} {hs : List Header}
    (hstart : ∀ header ∈ hs, ∀ q, q <+: memberNames header → q ≠ [] → q ≠ memberNames header → s q = true) :
    Passes s hs ↔ ParentsOpen hs := by
  rw [passes_iff_foldl]
  constructor
  · intro h before parent between header after heq hle hne hself hlast
    have hmem : header ∈ hs := heq ▸ mem_append_right _ mem_cons_self
    have hfold := h (before ++ parent :: between) header after heq _ hle hne hself
    exact (foldl_setOpen_iff (hstart header hmem _ hle hne hself) _).mp hfold before parent between rfl rfl hlast
  · intro h before header after heq q hle hne hself
    have hmem : header ∈ hs := heq ▸ mem_append_right _ mem_cons_self
    refine (foldl_setOpen_iff (hstart header hmem q hle hne hself) _).mpr ?_
    intro before' parent between hbefore hname hlast
    subst hname
    refine h before' parent between header after ?_ hle hne hself hlast
    rw [heq, hbefore]

end Pass

/-- The pass over the directories goes through, and leaves each of them with the mode and the time of its last
header. -/
def DirsApplied (sys : Sys) (dest : Bytes) (d : Ino) (ms : List Member) (w : World) : Prop :=
  let run := Act.each (applyDirMeta sys dest) (directories ms) w
  run.result = .ok () ∧ ∀ before header after, directories ms = before ++ header :: after →
    (∀ x ∈ after, memberNames x ≠ memberNames header) →
    ∃ i, run.final.fs.descend d (memberNames header) = some i ∧ HasMeta run.final.fs i header

/-- Once all members are there, a process that is not root can set the attributes of all directories exactly if
no directory loses its owner's permission to search before the turn of a directory below it. -/
theorem dirPass_iff (dest : Bytes) (d : Ino) (fresh : FS → Ino → Nat → Attrs) (now : FS → Timespec)
    (ms : List Member) (fs : FS) (hwf : WF fs) (hdest : fs.resolve dest false = .ok d) (hd : fs.IsDir d)
    (htree : DirTree fs d)
    (hmembers : (Act.each (extractMember (ownerSys dest d fresh now) dest) ms ⟨fs, []⟩).result = .ok ()) :
    DirsApplied (ownerSys dest d fresh now) dest d ms
        (Act.each (extractMember (ownerSys dest d fresh now) dest) ms ⟨fs, []⟩).final ↔
      ParentsOpen (directories ms) := by
  have hstart : Inside fs dest d ⟨fs, []⟩ :=
    ⟨hwf, anchor_of_resolve hdest hd, nofun, fun i hi => absurd rfl hi⟩
  have hdone := (extractMembers_spec (ownerSys dest d fresh now) ms hstart).2
  generalize Act.each (extractMember (ownerSys dest d fresh now) dest) ms ⟨fs, []⟩ = run at hmembers hdone
  rw [hmembers] at hdone
  obtain ⟨hgoes, hentered⟩ := hdone
  have hrun := (applyDirMetas_run fresh now (directories ms) hgoes.inside (hgoes.tree htree)
    fun x hx => (hentered x hx).deferred).2
  have hopen := passes_iff fun x hx => (hentered x hx).searches hgoes.inside.anchor.ne_nil
  rw [← hopen, ← hrun.1, DirsApplied]
  exact ⟨And.left, fun hr => ⟨hr, (hrun.2 hr).1.last⟩⟩

/-! ## A directory without permissions -/

/-- A directory with this name and mode. -/
def dirMember (name : Bytes) (mode : Int) : Member := ⟨⟨name, .dir, mode, 0, 0, 0, [], 0, 0, []⟩, [], false⟩

/-- The owner of what is extracted to `/d`. -/
def plainOwner : Sys := ownerSys [47, 100] 1 (fun _ _ mode => { plainAttrs with mode }) fun _ => ⟨1, 0⟩

theorem linkTree_tree : DirTree linkTree 1 := by
  have hend : ∀ q j, linkTree.IsDir j → linkTree.descend 1 q = some j → q = [] := by
    intro q j hj hq
    cases q with
    | nil => rfl
    | cons c q =>
      obtain ⟨k, hk, hq⟩ := Option.bind_eq_some_iff.mp hq
      change (if c = [108] then some 2 else none) = some k at hk
      split at hk
      · cases hk
        cases q with
        | nil =>
          cases hq
          obtain ⟨parent, entries, hkind⟩ := hj
          cases hkind
        | cons c' q => cases hq
      · cases hk
  intro q q' j hj hq hq'
  rw [hend q j hj hq, hend q' j hj hq']

/-- The directories `a` and `a/b`, of which the inner one has no permissions. -/
theorem dirPass_iff_inner :
    DirsApplied plainOwner [47, 100] 1 [dirMember [97, 47] 0o755, dirMember [97, 47, 98, 47] 0]
        (Act.each (extractMember plainOwner [47, 100])
          [dirMember [97, 47] 0o755, dirMember [97, 47, 98, 47] 0] ⟨linkTree, []⟩).final ↔
      ParentsOpen (directories [dirMember [97, 47] 0o755, dirMember [97, 47, 98, 47] 0]) :=
  dirPass_iff [47, 100] 1 _ _ _ linkTree linkTree_wf rfl ⟨0, _, rfl⟩ linkTree_tree (by decide +kernel)

/-- The directories `a` and `a/b`, of which the outer one has no permissions: all members are made, and then
the mode of the inner directory cannot be set. -/
theorem dirPass_refused :
    (Act.each (extractMember plainOwner [47, 100])
      [dirMember [97, 47] 0, dirMember [97, 47, 98, 47] 0o755] ⟨linkTree, []⟩).result = .ok () ∧
    (Act.each (applyDirMeta plainOwner [47, 100])
      (directories [dirMember [97, 47] 0, dirMember [97, 47, 98, 47] 0o755])
      (Act.each (extractMember plainOwner [47, 100])
        [dirMember [97, 47] 0, dirMember [97, 47, 98, 47] 0o755] ⟨linkTree, []⟩).final).result =
      .error (.call ⟨.chmod, [47, 100, 47, 97, 47, 98]⟩ (.refused .acces)) := by
  decide +kernel

end AmberStore.Tarextract
