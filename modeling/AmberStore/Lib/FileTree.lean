import AmberStore.Lib.Path

/-!
# A tree of files

Files as inodes, directories as maps from names to inodes, and the resolution of paths through
directories and symbolic links. Files are only ever added here, and entries are never replaced, so what
a path leads to stays the same.
-/

namespace FileTree
open Path List Function

abbrev Ino := Nat

structure Timespec where
  sec : Int
  nsec : Int
  deriving DecidableEq

structure Attrs where
  mode : Nat
  uid : Nat
  gid : Nat
  mtime : Timespec
  xattrs : Bytes → Option Bytes

inductive Kind where
  | dir (parent : Ino) (entries : Bytes → Option Ino)
  | file (data : Bytes)
  | symlink (target : Bytes)
  | fifo
  | char (major minor : Nat)
  | block (major minor : Nat)

structure Node where
  kind : Kind
  attrs : Attrs

structure FS where
  node : Ino → Option Node
  /-- the next inode that is not in use -/
  next : Ino
  root : Ino
  cwd : Ino

inductive Errno where
  | noent
  | notdir
  | loop
  | exist
  deriving DecidableEq

namespace FS

def kind (fs : FS) (i : Ino) : Option Kind := (fs.node i).map Node.kind

def IsDir (fs : FS) (i : Ino) : Prop := ∃ parent entries, fs.kind i = some (.dir parent entries)

def IsSymlink (fs : FS) (i : Ino) : Prop := ∃ target, fs.kind i = some (.symlink target)

/-! ## Resolution -/

/-- Go through the components of a path. A symbolic link is followed unless it is the last component
and `follow` is off; `again` starts over with its target. -/
def steps (fs : FS) (follow : Bool) (again : Ino → List Bytes → Except Errno (Ino × Nat)) (links : Nat) :
    Ino → List Bytes → Except Errno (Ino × Nat)
  | i, [] => .ok (i, links)
  | i, c :: cs =>
    match fs.kind i with
    | some (.dir parent entries) =>
      if c = [] ∨ c = dot then steps fs follow again links i cs
      else if c = dotdot then steps fs follow again links parent cs
      else
        match entries c with
        | none => .error .noent
        | some j =>
          match fs.kind j with
          | none => .error .noent
          | some (.symlink target) =>
            if cs = [] ∧ follow = false then .ok (j, links)
            else again (if rooted target then fs.root else i) (parts target ++ cs)
          | some _ => steps fs follow again links j cs
    | _ => .error .notdir

/-- Resolve the components of a path from a directory, through at most so many links. What is left of
their number is part of the result. -/
def walk (fs : FS) (follow : Bool) : Nat → Ino → List Bytes → Except Errno (Ino × Nat)
  | 0 => steps fs follow (fun _ _ => .error .loop) 0
  | n + 1 => steps fs follow (walk fs follow n) (n + 1)

/-- The number of links that a resolution may follow. -/
def maxLinks : Nat := 40

def start (fs : FS) (p : Bytes) : Ino := if rooted p then fs.root else fs.cwd

def resolve (fs : FS) (p : Bytes) (follow : Bool) : Except Errno Ino :=
  if p = [] then .error .noent else (fs.walk follow maxLinks (fs.start p) (parts p)).map Prod.fst

/-- The components of a path without slashes at its end. -/
def newParts (p : Bytes) : List Bytes := ((parts p).reverse.dropWhile (· = [])).reverse

/-- The directory and the name of an entry that is to be made. -/
def locate (fs : FS) (p : Bytes) : Except Errno (Ino × Bytes) :=
  match (newParts p).getLast? with
  | none => .error (if p = [] then .noent else .exist)
  | some c =>
    if c = dot ∨ c = dotdot then .error .exist
    else
      match fs.walk true maxLinks (fs.start p) (newParts p).dropLast with
      | .error e => .error e
      | .ok (i, _) =>
        match fs.kind i with
        | some (.dir _ entries) => if (entries c).isSome then .error .exist else .ok (i, c)
        | _ => .error .notdir

/-! ## Changes -/

def setNode (fs : FS) (i : Ino) (n : Node) : FS := { fs with node := update fs.node i (some n) }

/-- Add an entry for a new file to a directory, whose time of modification changes. -/
def add (fs : FS) (i : Ino) (c : Bytes) (n : Node) (now : Timespec) : FS :=
  match fs.node i with
  | some ⟨.dir parent entries, attrs⟩ =>
    { (fs.setNode i ⟨.dir parent (update entries c (some fs.next)), { attrs with mtime := now }⟩).setNode
        fs.next n with next := fs.next + 1 }
  | _ => fs

def modifyAttrs (fs : FS) (i : Ino) (f : Node → Attrs) : FS :=
  match fs.node i with
  | some n => fs.setNode i ⟨n.kind, f n⟩
  | none => fs

/-! ## Names from a directory on -/

/-- The entry of a directory. -/
def child (fs : FS) (i : Ino) (c : Bytes) : Option Ino :=
  match fs.kind i with
  | some (.dir _ entries) => entries c
  | _ => none

/-- Follow names through directories, and through no link. -/
def descend (fs : FS) : Ino → List Bytes → Option Ino
  | i, [] => some i
  | i, c :: cs => (fs.child i c).bind fun j => descend fs j cs

/-- The mode of a directory. -/
def dirMode (fs : FS) (i : Ino) : Option Nat :=
  match fs.node i with
  | some ⟨.dir _ _, attrs⟩ => some attrs.mode
  | _ => none

end FS

section Resolution
variable {fs : FS}

theorem child_eq (h : fs.kind i = some (.dir parent entries)) (c : Bytes) : fs.child i c = entries c := by
  rw [FS.child, h]

theorem isDir_of_child (h : fs.child i c = some j) : fs.IsDir i := by
  unfold FS.child at h
  split at h
  · next parent entries hkind => exact ⟨parent, entries, hkind⟩
  · cases h

theorem not_symlink_of_isDir (h : fs.IsDir i) : ¬fs.IsSymlink i := by
  obtain ⟨parent, entries, hdir⟩ := h
  intro ⟨target, hlink⟩
  rw [hdir] at hlink
  cases hlink

theorem descend_append (i : Ino) (cs ds : List Bytes) :
    fs.descend i (cs ++ ds) = (fs.descend i cs).bind fun j => fs.descend j ds := by
  induction cs generalizing i with
  | nil => rfl
  | cons c cs ih =>
    rw [cons_append, FS.descend, FS.descend, Option.bind_assoc]
    exact congrArg _ (funext ih)

theorem descend_singleton (i : Ino) (c : Bytes) : fs.descend i [c] = fs.child i c := by
  rw [FS.descend]
  exact Option.bind_fun_some _

/-- What is on the way to the names is a directory, as far as it exists. -/
def Clear (fs : FS) (i : Ino) (names : List Bytes) : Prop :=
  ∀ q j, q <+: names → q ≠ names → fs.descend i q = some j → fs.IsDir j

theorem Clear.tail (h : Clear fs i (c :: cs)) (hc : fs.child i c = some j) : Clear fs j cs := by
  intro q k hq hne hk
  refine h (c :: q) k (cons_prefix_cons.mpr ⟨rfl, hq⟩) (fun heq => hne (List.cons.inj heq).2) ?_
  rw [FS.descend, hc]
  exact hk

theorem descend_concat (h : fs.descend i (cs ++ [c]) = some k) :
    ∃ j, fs.descend i cs = some j ∧ fs.child j c = some k := by
  rw [descend_append] at h
  obtain ⟨j, hj, hk⟩ := Option.bind_eq_some_iff.mp h
  rw [descend_singleton] at hk
  exact ⟨j, hj, hk⟩

theorem descend_concat_of (h : fs.descend i cs = some j) (hc : fs.child j c = some k) :
    fs.descend i (cs ++ [c]) = some k := by
  rw [descend_append, h, Option.bind_some, descend_singleton, hc]

/-- The way to a file that exists goes through directories. -/
theorem clear_of_descend (h : fs.descend i names = some k) : Clear fs i names := by
  intro q j hq hne hj
  obtain ⟨rest, rfl⟩ := hq
  cases rest with
  | nil => exact absurd (append_nil q).symm hne
  | cons c rest =>
    rw [descend_append, hj, Option.bind_some, FS.descend] at h
    obtain ⟨x, hx, -⟩ := Option.bind_eq_some_iff.mp h
    exact isDir_of_child hx

theorem descend_congr {fs' : FS} (h : fs'.kind = fs.kind) (i : Ino) (cs : List Bytes) :
    fs'.descend i cs = fs.descend i cs := by
  induction cs generalizing i with
  | nil => rfl
  | cons c cs ih =>
    have hchild : fs'.child i c = fs.child i c := by rw [FS.child, FS.child, h]
    rw [FS.descend, FS.descend, hchild]
    exact congrArg _ (funext ih)

/-- Every entry leads to a file, and the inodes from `next` on are not in use. -/
structure WF (fs : FS) : Prop where
  entry : ∀ i c j, fs.child i c = some j → (fs.kind j).isSome
  fresh : ∀ i, fs.next ≤ i → fs.node i = none

section Steps
variable {follow : Bool} {again : Ino → List Bytes → Except Errno (Ino × Nat)}

theorem steps_missing (hi : fs.IsDir i) (hc : Proper c) (hchild : fs.child i c = none) :
    fs.steps follow again n i (c :: cs) = .error .noent := by
  obtain ⟨parent, entries, hkind⟩ := hi
  rw [child_eq hkind] at hchild
  rw [FS.steps, hkind]
  dsimp only
  rw [if_neg (by simp [hc.ne_nil, hc.ne_dot]), if_neg hc.ne_dotdot, hchild]

theorem steps_entry (hc : Proper c) (hchild : fs.child i c = some j) (hj : (fs.kind j).isSome)
    (hlink : ¬fs.IsSymlink j) : fs.steps follow again n i (c :: cs) = fs.steps follow again n j cs := by
  obtain ⟨parent, entries, hkind⟩ := isDir_of_child hchild
  rw [child_eq hkind] at hchild
  obtain ⟨k, hk⟩ := Option.isSome_iff_exists.mp hj
  rw [FS.steps, hkind]
  dsimp only
  rw [if_neg (by simp [hc.ne_nil, hc.ne_dot]), if_neg hc.ne_dotdot, hchild]
  dsimp only
  rw [hk]
  cases k with
  | symlink target => exact absurd ⟨target, hk⟩ hlink
  | dir => rfl
  | file => rfl
  | fifo => rfl
  | char => rfl
  | block => rfl

theorem steps_link (hc : Proper c) (hchild : fs.child i c = some j) (hlink : fs.IsSymlink j) :
    fs.steps false again n i [c] = .ok (j, n) := by
  obtain ⟨parent, entries, hkind⟩ := isDir_of_child hchild
  obtain ⟨target, hk⟩ := hlink
  rw [child_eq hkind] at hchild
  rw [FS.steps, hkind]
  dsimp only
  rw [if_neg (by simp [hc.ne_nil, hc.ne_dot]), if_neg hc.ne_dotdot, hchild]
  dsimp only
  rw [hk]
  exact if_pos ⟨rfl, rfl⟩

/-- Without links on the way, resolution follows the names. -/
theorem steps_clear (hwf : WF fs) (hi : fs.IsDir i) (hproper : ∀ n ∈ names, Proper n)
    (hclear : Clear fs i names)
    (hlast : follow = true → ∀ j, fs.descend i names = some j → ¬fs.IsSymlink j) :
    fs.steps follow again n i names =
      match fs.descend i names with
      | some j => .ok (j, n)
      | none => .error .noent := by
  induction names generalizing i with
  | nil => rfl
  | cons c cs ih =>
    have hc := hproper c mem_cons_self
    cases hchild : fs.child i c with
    | none => rw [steps_missing hi hc hchild, FS.descend, hchild, Option.bind_none]
    | some j =>
      have hrest : fs.descend i (c :: cs) = fs.descend j cs := by
        rw [FS.descend, hchild, Option.bind_some]
      have hj := hwf.entry i c j hchild
      rw [hrest]
      by_cases hnil : cs = []
      · subst hnil
        by_cases hlink : fs.IsSymlink j
        · cases follow with
          | true => exact absurd hlink (hlast rfl j hrest)
          | false => exact steps_link hc hchild hlink
        · exact steps_entry hc hchild hj hlink
      · have hdir : fs.IsDir j := by
          refine hclear [c] j ⟨cs, rfl⟩ (fun heq => hnil (List.cons.inj heq).2.symm) ?_
          rw [descend_singleton, hchild]
        rw [steps_entry hc hchild hj (not_symlink_of_isDir hdir)]
        exact ih hdir (fun m hm => hproper m (mem_cons_of_mem _ hm)) (hclear.tail hchild)
          fun hfollow x hx => hlast hfollow x (by rw [hrest, hx])

end Steps

theorem walk_clear (hwf : WF fs) (hi : fs.IsDir i) (hproper : ∀ n ∈ names, Proper n)
    (hclear : Clear fs i names)
    (hlast : follow = true → ∀ j, fs.descend i names = some j → ¬fs.IsSymlink j) (n : Nat) :
    fs.walk follow n i names =
      match fs.descend i names with
      | some j => .ok (j, n)
      | none => .error .noent := by
  cases n with
  | zero => exact steps_clear hwf hi hproper hclear hlast
  | succ n => exact steps_clear hwf hi hproper hclear hlast

/-- A resolution goes on where the one of the first components ends. -/
theorem steps_append {again again' : Ino → List Bytes → Except Errno (Ino × Nat)}
    (hds : ds ≠ [] ∨ follow = true)
    (hagain : ∀ i cs, again i (cs ++ ds) = again' i cs >>= fun r => fs.walk follow r.2 r.1 ds)
    (hhere : ∀ i, fs.steps follow again n i ds = fs.walk follow n i ds) (i : Ino) (cs : List Bytes) :
    fs.steps follow again n i (cs ++ ds) =
      fs.steps true again' n i cs >>= fun r => fs.walk follow r.2 r.1 ds := by
  induction cs generalizing i with
  | nil => exact hhere i
  | cons c cs ih =>
    rw [cons_append, FS.steps, FS.steps]
    cases hkind : fs.kind i with
    | none => rfl
    | some k =>
      cases k with
      | dir parent entries =>
        dsimp only
        split
        · exact ih i
        split
        · exact ih parent
        · cases hentry : entries c with
          | none => rfl
          | some j =>
            dsimp only
            cases hj : fs.kind j with
            | none => rfl
            | some k =>
              cases k with
              | symlink target =>
                have hrest : ¬(cs ++ ds = [] ∧ follow = false) := by
                  intro ⟨hnil, hfollow⟩
                  rcases hds with hds | hds
                  · exact hds (append_eq_nil_iff.mp hnil).2
                  · rw [hfollow] at hds
                    cases hds
                have htrue : ¬(cs = [] ∧ true = false) := fun h => Bool.noConfusion h.2
                dsimp only
                rw [if_neg hrest, if_neg htrue, ← append_assoc]
                exact hagain _ _
              | dir => exact ih j
              | file => exact ih j
              | fifo => exact ih j
              | char => exact ih j
              | block => exact ih j
      | symlink => rfl
      | file => rfl
      | fifo => rfl
      | char => rfl
      | block => rfl

theorem walk_append (hds : ds ≠ [] ∨ follow = true) (n : Nat) (i : Ino) (cs : List Bytes) :
    fs.walk follow n i (cs ++ ds) = fs.walk true n i cs >>= fun r => fs.walk follow r.2 r.1 ds := by
  induction n generalizing i cs with
  | zero => exact steps_append hds (fun _ _ => rfl) (fun _ => rfl) i cs
  | succ n ih => exact steps_append hds ih (fun _ => rfl) i cs

/-! ## Resolutions that succeed -/

/-- The resolution of some components leads to an inode, with so many links left. -/
inductive Leads (fs : FS) (follow : Bool) : Nat → Ino → List Bytes → Ino × Nat → Prop
  | done : Leads fs follow n i [] (i, n)
  | skip : fs.kind i = some (.dir parent entries) → c = [] ∨ c = dot → Leads fs follow n i cs r →
    Leads fs follow n i (c :: cs) r
  | up : fs.kind i = some (.dir parent entries) → c ≠ [] → c ≠ dot → c = dotdot →
    Leads fs follow n parent cs r → Leads fs follow n i (c :: cs) r
  | entry : fs.kind i = some (.dir parent entries) → c ≠ [] → c ≠ dot → c ≠ dotdot →
    entries c = some j → fs.kind j = some k → (∀ target, k ≠ .symlink target) →
    Leads fs follow n j cs r → Leads fs follow n i (c :: cs) r
  | stop : fs.kind i = some (.dir parent entries) → c ≠ [] → c ≠ dot → c ≠ dotdot →
    entries c = some j → fs.kind j = some (.symlink target) → follow = false →
    Leads fs follow n i [c] (j, n)
  | link : fs.kind i = some (.dir parent entries) → c ≠ [] → c ≠ dot → c ≠ dotdot →
    entries c = some j → fs.kind j = some (.symlink target) → cs ≠ [] ∨ follow = true →
    Leads fs follow n (if rooted target then fs.root else i) (parts target ++ cs) r →
    Leads fs follow (n + 1) i (c :: cs) r

theorem leads_of_steps {again : Ino → List Bytes → Except Errno (Ino × Nat)}
    (hagain : ∀ i cs, again i cs = .ok r → ∃ m, n = m + 1 ∧ Leads fs follow m i cs r)
    (h : fs.steps follow again n i cs = .ok r) : Leads fs follow n i cs r := by
  induction cs generalizing i with
  | nil =>
    cases h
    exact .done
  | cons c cs ih =>
    rw [FS.steps] at h
    split at h
    · next parent entries hkind =>
      split at h
      · next hc => exact .skip hkind hc (ih h)
      · next hc =>
        obtain ⟨hnil, hdot⟩ := not_or.mp hc
        split at h
        · next hup => exact .up hkind hnil hdot hup (ih h)
        · next hup =>
          split at h
          · cases h
          · next j hentry =>
            split at h
            · cases h
            · next target hj =>
              split at h
              · next hstop =>
                cases h
                obtain ⟨rfl, hfollow⟩ := hstop
                exact .stop hkind hnil hdot hup hentry hj hfollow
              · next hstop =>
                obtain ⟨m, rfl, hrest⟩ := hagain _ _ h
                refine .link hkind hnil hdot hup hentry hj ?_ hrest
                by_cases hcs : cs = []
                · exact .inr (by simpa [hcs] using hstop)
                · exact .inl hcs
            · next k hne hj => exact .entry hkind hnil hdot hup hentry hj (fun t heq => hne t heq) (ih h)
    · cases h

theorem leads_of_walk (h : fs.walk follow n i cs = .ok r) : Leads fs follow n i cs r := by
  induction n generalizing i cs with
  | zero =>
    have hnone : ∀ (i : Ino) (cs : List Bytes), (Except.error Errno.loop : Except Errno (Ino × Nat)) = .ok r →
        ∃ m, 0 = m + 1 ∧ Leads fs follow m i cs r := nofun
    exact leads_of_steps hnone h
  | succ n ih => exact leads_of_steps (fun i cs h => ⟨n, rfl, ih h⟩) h

/-- The components of a resolution are gone through with the links that are left. -/
theorem walk_eq_steps (fs : FS) (follow : Bool) (n : Nat) :
    ∃ again, fs.walk follow n = fs.steps follow again n := by
  cases n with
  | zero => exact ⟨_, rfl⟩
  | succ n => exact ⟨_, rfl⟩

theorem Leads.walk (h : Leads fs follow n i cs r) : fs.walk follow n i cs = .ok r := by
  induction h with
  | @done n i =>
    obtain ⟨again, heq⟩ := walk_eq_steps fs follow n
    rw [heq]
    rfl
  | @skip i parent entries c n cs r hkind hc _ ih =>
    obtain ⟨again, heq⟩ := walk_eq_steps fs follow n
    rw [heq] at ih ⊢
    rw [FS.steps, hkind]
    exact (if_pos hc).trans ih
  | @up i parent entries c n cs r hkind hnil hdot hup _ ih =>
    obtain ⟨again, heq⟩ := walk_eq_steps fs follow n
    rw [heq] at ih ⊢
    rw [FS.steps, hkind]
    exact (if_neg (not_or.mpr ⟨hnil, hdot⟩)).trans ((if_pos hup).trans ih)
  | @entry i parent entries c j k n cs r hkind hnil hdot hup hentry hj hne _ ih =>
    obtain ⟨again, heq⟩ := walk_eq_steps fs follow n
    rw [heq] at ih ⊢
    rw [FS.steps, hkind]
    dsimp only
    rw [if_neg (not_or.mpr ⟨hnil, hdot⟩), if_neg hup, hentry]
    dsimp only
    rw [hj]
    cases k with
    | symlink target => exact absurd rfl (hne target)
    | dir => exact ih
    | file => exact ih
    | fifo => exact ih
    | char => exact ih
    | block => exact ih
  | @stop i parent entries c j target n hkind hnil hdot hup hentry hj hfollow =>
    obtain ⟨again, heq⟩ := walk_eq_steps fs follow n
    rw [heq, FS.steps, hkind]
    dsimp only
    rw [if_neg (not_or.mpr ⟨hnil, hdot⟩), if_neg hup, hentry]
    dsimp only
    rw [hj]
    exact if_pos ⟨rfl, hfollow⟩
  | @link i parent entries c j target cs n r hkind hnil hdot hup hentry hj hrest _ ih =>
    rw [FS.walk, FS.steps, hkind]
    dsimp only
    rw [if_neg (not_or.mpr ⟨hnil, hdot⟩), if_neg hup, hentry]
    dsimp only
    rw [hj]
    refine (if_neg fun hstop => ?_).trans ih
    rcases hrest with hcs | hfollow
    · exact hcs hstop.1
    · rw [hfollow] at hstop
      exact Bool.noConfusion hstop.2

/-- A resolution that does not end at a link is the same when links are followed. -/
theorem Leads.of_not_symlink (h : Leads fs follow n i cs r) (hr : ¬fs.IsSymlink r.1) :
    Leads fs true n i cs r := by
  induction h with
  | done => exact .done
  | skip hkind hc _ ih => exact .skip hkind hc (ih hr)
  | up hkind hnil hdot hup _ ih => exact .up hkind hnil hdot hup (ih hr)
  | entry hkind hnil hdot hup hentry hj hne _ ih => exact .entry hkind hnil hdot hup hentry hj hne (ih hr)
  | stop hkind hnil hdot hup hentry hj hfollow => exact absurd ⟨_, hj⟩ hr
  | link hkind hnil hdot hup hentry hj hrest _ ih =>
    exact .link hkind hnil hdot hup hentry hj (.inr rfl) (ih hr)

end Resolution

/-! ## Growth -/

/-- How the kind of a file may change: a directory gets more entries, a file gets data. -/
inductive Kind.Grows : Kind → Kind → Prop
  | dir : (∀ c j, entries c = some j → entries' c = some j) → Grows (.dir parent entries) (.dir parent entries')
  | file : Grows (.file data) (.file data')
  | same : Grows k k

theorem Kind.Grows.trans (h : Kind.Grows k l) (h' : Kind.Grows l m) : Kind.Grows k m := by
  cases h with
  | dir hle =>
    cases h' with
    | dir hle' => exact .dir fun c j hj => hle' c j (hle c j hj)
    | same => exact .dir hle
  | file =>
    cases h' with
    | file => exact .file
    | same => exact .file
  | same => exact h'

/-- Files are added and changed, but stay what they are and where they are. -/
structure Grows (fs fs' : FS) : Prop where
  kind : ∀ i k, fs.kind i = some k → ∃ k', fs'.kind i = some k' ∧ Kind.Grows k k'
  root : fs'.root = fs.root
  cwd : fs'.cwd = fs.cwd

section Growth
variable {fs fs' fs'' : FS}

theorem Grows.refl (fs : FS) : Grows fs fs := ⟨fun _ k hk => ⟨k, hk, .same⟩, rfl, rfl⟩

section
variable (h : Grows fs fs')
include h

theorem Grows.trans (h' : Grows fs' fs'') : Grows fs fs'' := by
  refine ⟨fun i k hk => ?_, h'.root.trans h.root, h'.cwd.trans h.cwd⟩
  obtain ⟨k', hk', hle⟩ := h.kind i k hk
  obtain ⟨k'', hk'', hle'⟩ := h'.kind i k' hk'
  exact ⟨k'', hk'', hle.trans hle'⟩

theorem Grows.dir (hi : fs.kind i = some (.dir parent entries)) :
    ∃ entries', fs'.kind i = some (.dir parent entries') ∧ ∀ c j, entries c = some j → entries' c = some j := by
  obtain ⟨k, hk, hle⟩ := h.kind i _ hi
  cases hle with
  | dir hle => exact ⟨_, hk, hle⟩
  | same => exact ⟨_, hk, fun _ _ h => h⟩

theorem Grows.isDir (hi : fs.IsDir i) : fs'.IsDir i := by
  obtain ⟨parent, entries, hkind⟩ := hi
  obtain ⟨entries', hkind', -⟩ := h.dir hkind
  exact ⟨parent, entries', hkind'⟩

theorem Grows.symlink (hi : fs.kind i = some (.symlink target)) :
    fs'.kind i = some (.symlink target) := by
  obtain ⟨k, hk, hle⟩ := h.kind i _ hi
  cases hle
  exact hk

theorem Grows.leads (hl : Leads fs follow n i cs r) : Leads fs' follow n i cs r := by
  induction hl with
  | done => exact .done
  | skip hkind hc _ ih =>
    obtain ⟨entries', hkind', -⟩ := h.dir hkind
    exact .skip hkind' hc ih
  | up hkind hnil hdot hup _ ih =>
    obtain ⟨entries', hkind', -⟩ := h.dir hkind
    exact .up hkind' hnil hdot hup ih
  | entry hkind hnil hdot hup hentry hj hne _ ih =>
    obtain ⟨entries', hkind', hle⟩ := h.dir hkind
    obtain ⟨k', hj', hk⟩ := h.kind _ _ hj
    refine .entry hkind' hnil hdot hup (hle _ _ hentry) hj' (fun target heq => ?_) ih
    subst heq
    cases hk
    exact hne target rfl
  | stop hkind hnil hdot hup hentry hj hfollow =>
    obtain ⟨entries', hkind', hle⟩ := h.dir hkind
    exact .stop hkind' hnil hdot hup (hle _ _ hentry) (h.symlink hj) hfollow
  | link hkind hnil hdot hup hentry hj hrest _ ih =>
    obtain ⟨entries', hkind', hle⟩ := h.dir hkind
    rw [← h.root] at ih
    exact .link hkind' hnil hdot hup (hle _ _ hentry) (h.symlink hj) hrest ih

theorem Grows.child (hc : fs.child i c = some j) : fs'.child i c = some j := by
  obtain ⟨parent, entries, hkind⟩ := isDir_of_child hc
  obtain ⟨entries', hkind', hle⟩ := h.dir hkind
  rw [child_eq hkind] at hc
  rw [child_eq hkind']
  exact hle c j hc

theorem Grows.descend (hd : fs.descend i cs = some j) : fs'.descend i cs = some j := by
  induction cs generalizing i with
  | nil => exact hd
  | cons c cs ih =>
    rw [FS.descend] at hd ⊢
    obtain ⟨k, hk, hrest⟩ := Option.bind_eq_some_iff.mp hd
    rw [h.child hk]
    exact ih hrest

end

/-! ## Changes -/

theorem kind_setNode (fs : FS) (i : Ino) (n : Node) (j : Ino) :
    (fs.setNode i n).kind j = if j = i then some n.kind else fs.kind j := by
  unfold FS.kind FS.setNode
  dsimp only
  rw [update_apply]
  split
  · rfl
  · rfl

theorem node_eq_none_iff : fs.node i = none ↔ fs.kind i = none := by
  rw [FS.kind, Option.map_eq_none_iff]

theorem Grows.setNode (hi : fs.kind i = some k) (hk : Kind.Grows k n.kind) : Grows fs (fs.setNode i n) := by
  refine ⟨fun j l hl => ?_, rfl, rfl⟩
  rw [kind_setNode]
  split
  · next heq =>
    subst heq
    rw [hi] at hl
    cases hl
    exact ⟨_, rfl, hk⟩
  · exact ⟨l, hl, .same⟩

theorem WF.setNode (h : WF fs) (hi : fs.kind i = some k) (hn : ∀ p es, n.kind ≠ .dir p es) :
    WF (fs.setNode i n) := by
  refine ⟨fun j c l hl => ?_, fun j hj => ?_⟩
  · have hold : fs.child j c = some l := by
      unfold FS.child at hl
      rw [kind_setNode] at hl
      by_cases hji : j = i
      · rw [if_pos hji] at hl
        split at hl
        · next heq => exact absurd (Option.some.inj heq) (hn _ _)
        · cases hl
      · rwa [if_neg hji] at hl
    rw [kind_setNode]
    split
    · rfl
    · exact h.entry j c l hold
  · have hnone := h.fresh j hj
    have hne : j ≠ i := by
      rintro rfl
      rw [node_eq_none_iff.mp hnone] at hi
      cases hi
    exact (update_of_ne hne _ _).trans hnone

theorem modifyAttrs_kind (fs : FS) (i : Ino) (f : Node → Attrs) : (fs.modifyAttrs i f).kind = fs.kind := by
  funext j
  unfold FS.modifyAttrs
  split
  · next n hn =>
    rw [kind_setNode]
    split
    · next heq => rw [heq, FS.kind, hn, Option.map_some]
    · rfl
  · rfl

theorem modifyAttrs_next (fs : FS) (i : Ino) (f : Node → Attrs) :
    (fs.modifyAttrs i f).next = fs.next ∧ (fs.modifyAttrs i f).root = fs.root ∧
      (fs.modifyAttrs i f).cwd = fs.cwd := by
  unfold FS.modifyAttrs
  split
  · exact ⟨rfl, rfl, rfl⟩
  · exact ⟨rfl, rfl, rfl⟩

theorem modifyAttrs_other (f : Node → Attrs) (h : j ≠ i) : (fs.modifyAttrs i f).node j = fs.node j := by
  unfold FS.modifyAttrs
  split
  · exact update_of_ne h _ _
  · rfl

theorem child_congr (h : fs'.kind = fs.kind) (i : Ino) (c : Bytes) : fs'.child i c = fs.child i c := by
  rw [FS.child, FS.child, h]

theorem Grows.modifyAttrs (fs : FS) (i : Ino) (f : Node → Attrs) : Grows fs (fs.modifyAttrs i f) := by
  refine ⟨fun j k hk => ⟨k, ?_, .same⟩, (modifyAttrs_next fs i f).2.1, (modifyAttrs_next fs i f).2.2⟩
  rwa [modifyAttrs_kind]

theorem WF.modifyAttrs (h : WF fs) (i : Ino) (f : Node → Attrs) : WF (fs.modifyAttrs i f) := by
  refine ⟨fun j c k hk => ?_, fun j hj => ?_⟩
  · rw [modifyAttrs_kind]
    exact h.entry j c k (child_congr (modifyAttrs_kind fs i f) j c ▸ hk)
  · rw [(modifyAttrs_next fs i f).1] at hj
    rw [node_eq_none_iff, modifyAttrs_kind, ← node_eq_none_iff]
    exact h.fresh j hj

theorem kind_add (hi : fs.kind i = some (.dir parent entries)) (j : Ino) :
    (fs.add i c n now).kind j = if j = fs.next then some n.kind
      else if j = i then some (.dir parent (update entries c (some fs.next)))
      else fs.kind j := by
  obtain ⟨⟨k, attrs⟩, hn, hk⟩ := Option.map_eq_some_iff.mp hi
  cases hk
  rw [FS.add, hn]
  change ((fs.setNode i _).setNode fs.next n).kind j = _
  rw [kind_setNode, kind_setNode]

theorem add_next (hi : fs.kind i = some (.dir parent entries)) :
    (fs.add i c n now).next = fs.next + 1 ∧ (fs.add i c n now).root = fs.root ∧
      (fs.add i c n now).cwd = fs.cwd := by
  obtain ⟨⟨k, attrs⟩, hn, hk⟩ := Option.map_eq_some_iff.mp hi
  cases hk
  rw [FS.add, hn]
  exact ⟨rfl, rfl, rfl⟩

theorem add_other (hj : j ≠ i) (hj' : j ≠ fs.next) : (fs.add i c n now).node j = fs.node j := by
  unfold FS.add
  split
  · exact (update_of_ne hj' _ _).trans (update_of_ne hj _ _)
  · rfl

theorem WF.ne_next (h : WF fs) (hi : fs.IsDir i) : i ≠ fs.next := by
  rintro rfl
  obtain ⟨parent, entries, hkind⟩ := hi
  rw [node_eq_none_iff.mp (h.fresh _ (Nat.le_refl _))] at hkind
  cases hkind

theorem Grows.add (h : WF fs) (hi : fs.kind i = some (.dir parent entries)) (hc : entries c = none) :
    Grows fs (fs.add i c n now) := by
  refine ⟨fun j k hk => ?_, (add_next hi).2.1, (add_next hi).2.2⟩
  rw [kind_add hi]
  have hj : j ≠ fs.next := by
    rintro rfl
    rw [node_eq_none_iff.mp (h.fresh _ (Nat.le_refl _))] at hk
    cases hk
  rw [if_neg hj]
  split
  · next heq =>
    subst heq
    rw [hi] at hk
    cases hk
    refine ⟨_, rfl, .dir fun c' j' hj' => ?_⟩
    rw [update_of_ne]
    · exact hj'
    · rintro rfl
      rw [hc] at hj'
      cases hj'
  · exact ⟨k, hk, .same⟩

theorem child_add_same (h : WF fs) (hi : fs.kind i = some (.dir parent entries)) :
    (fs.add i c n now).child i c = some fs.next := by
  have hne := h.ne_next ⟨parent, entries, hi⟩
  have hkind : (fs.add i c n now).kind i =
      some (.dir parent (update entries c (some fs.next))) := by
    rw [kind_add hi, if_neg hne, if_pos rfl]
  rw [child_eq hkind, update_self]

theorem WF.add (h : WF fs) (hi : fs.kind i = some (.dir parent entries))
    (hn : ∀ p es, n.kind = .dir p es → ∀ c, es c = none) : WF (fs.add i c n now) := by
  have hsome : ∀ j, (fs.kind j).isSome → ((fs.add i c n now).kind j).isSome := by
    intro j hj
    rw [kind_add hi]
    split
    · rfl
    · split
      · rfl
      · exact hj
  refine ⟨fun j c' k hk => ?_, fun j hj => ?_⟩
  · rw [FS.child, kind_add hi] at hk
    by_cases hj : j = fs.next
    · rw [if_pos hj] at hk
      cases hkind : n.kind with
      | dir p es =>
        rw [hkind] at hk
        dsimp only at hk
        rw [hn p es hkind] at hk
        cases hk
      | file => rw [hkind] at hk; cases hk
      | symlink => rw [hkind] at hk; cases hk
      | fifo => rw [hkind] at hk; cases hk
      | char => rw [hkind] at hk; cases hk
      | block => rw [hkind] at hk; cases hk
    · rw [if_neg hj] at hk
      by_cases hji : j = i
      · rw [if_pos hji] at hk
        dsimp only at hk
        rw [update_apply] at hk
        split at hk
        · cases hk
          rw [kind_add hi, if_pos rfl]
          rfl
        · exact hsome k (h.entry i c' k (by rwa [child_eq hi]))
      · rw [if_neg hji] at hk
        exact hsome k (h.entry j c' k hk)
  · rw [(add_next hi).1] at hj
    have hnone := h.fresh j (Nat.le_of_succ_le hj)
    rw [add_other ?_ (Nat.ne_of_gt hj)]
    · exact hnone
    · rintro rfl
      rw [node_eq_none_iff.mp hnone] at hi
      cases hi

/-- A new file without entries is the only one that is reached anew. -/
theorem descend_add (hi : fs.kind i = some (.dir parent entries))
    (hn : ∀ p es, n.kind = .dir p es → ∀ c, es c = none)
    (h : (fs.add i c n now).descend j cs = some k) (hj : j ≠ fs.next) :
    fs.descend j cs = some k ∨ k = fs.next := by
  have hnew : ∀ x, (fs.add i c n now).child fs.next x = none := by
    intro x
    rw [FS.child, kind_add hi, if_pos rfl]
    cases hkind : n.kind with
    | dir p es => exact hn p es hkind x
    | file => rfl
    | symlink => rfl
    | fifo => rfl
    | char => rfl
    | block => rfl
  induction cs generalizing j with
  | nil => exact .inl h
  | cons x cs ih =>
    rw [FS.descend] at h ⊢
    obtain ⟨y, hy, hrest⟩ := Option.bind_eq_some_iff.mp h
    by_cases hyn : y = fs.next
    · subst hyn
      cases cs with
      | nil =>
        cases hrest
        exact .inr rfl
      | cons z cs =>
        rw [FS.descend, hnew, Option.bind_none] at hrest
        cases hrest
    · have hold : fs.child j x = some y := by
        rw [FS.child, kind_add hi, if_neg hj] at hy
        by_cases hji : j = i
        · subst hji
          rw [if_pos rfl] at hy
          dsimp only at hy
          rw [update_apply] at hy
          split at hy
          · cases hy
            exact absurd rfl hyn
          · rwa [child_eq hi]
        · rwa [if_neg hji] at hy
      rw [hold, Option.bind_some]
      exact ih hrest hyn

theorem child_add_next (h : WF fs) (hi : fs.kind i = some (.dir parent entries))
    (hn : ∀ p es, n.kind = .dir p es → ∀ c, es c = none)
    (hj : (fs.add i c n now).child j x = some fs.next) : j = i ∧ x = c := by
  have hold : ∀ k y, fs.child k y ≠ some fs.next := by
    intro k y hk
    have hsome := h.entry k y _ hk
    rw [node_eq_none_iff.mp (h.fresh _ (Nat.le_refl _))] at hsome
    cases hsome
  rw [FS.child, kind_add hi] at hj
  by_cases hnext : j = fs.next
  · rw [if_pos hnext] at hj
    split at hj
    · next heq =>
      rw [hn _ _ (Option.some.inj heq)] at hj
      cases hj
    · cases hj
  · rw [if_neg hnext] at hj
    by_cases hji : j = i
    · rw [if_pos hji] at hj
      dsimp only at hj
      refine ⟨hji, ?_⟩
      by_contra hxc
      rw [update_of_ne hxc] at hj
      exact hold i x (by rwa [child_eq hi])
    · rw [if_neg hji] at hj
      exact absurd hj (hold j x)

/-! ## Modes of directories -/

theorem isDir_of_dirMode (h : fs.dirMode i = some m) : fs.IsDir i := by
  unfold FS.dirMode at h
  split at h
  · next parent entries attrs hnode => exact ⟨parent, entries, by rw [FS.kind, hnode, Option.map_some]⟩
  · cases h

theorem exists_dirMode (h : fs.IsDir i) : ∃ m, fs.dirMode i = some m := by
  obtain ⟨parent, entries, hkind⟩ := h
  obtain ⟨⟨k, attrs⟩, hnode, rfl⟩ := Option.map_eq_some_iff.mp hkind
  exact ⟨attrs.mode, by rw [FS.dirMode, hnode]⟩

theorem dirMode_congr (h : fs'.node i = fs.node i) : fs'.dirMode i = fs.dirMode i := by
  rw [FS.dirMode, FS.dirMode, h]

/-- A new entry leaves the modes of the directories as they are. -/
theorem dirMode_add (h : WF fs) (hm : fs.dirMode j = some m) : (fs.add i c n now).dirMode j = some m := by
  have hnext := h.ne_next (isDir_of_dirMode hm)
  by_cases hji : j = i
  · subst hji
    unfold FS.dirMode at hm
    split at hm
    · next parent entries attrs hnode =>
      cases hm
      rw [FS.dirMode, FS.add, hnode]
      dsimp only [FS.setNode]
      rw [update_of_ne hnext, update_self]
    · cases hm
  · rw [dirMode_congr (add_other hji hnext), hm]

theorem dirMode_modifyAttrs_of_ne (f : Node → Attrs) (h : j ≠ i) :
    (fs.modifyAttrs i f).dirMode j = fs.dirMode j := dirMode_congr (modifyAttrs_other f h)

/-- Each directory is reached by one list of names only. -/
def DirTree (fs : FS) (d : Ino) : Prop :=
  ∀ q q' j, fs.IsDir j → fs.descend d q = some j → fs.descend d q' = some j → q = q'

theorem DirTree.mono (h : DirTree fs d) (hdir : ∀ j, fs'.IsDir j → fs.IsDir j)
    (hd : ∀ q j, fs'.descend d q = some j → fs.descend d q = some j) : DirTree fs' d :=
  fun q q' j hj hq hq' => h q q' j (hdir j hj) (hd q j hq) (hd q' j hq')

theorem DirTree.modifyAttrs (h : DirTree fs d) (i : Ino) (f : Node → Attrs) :
    DirTree (fs.modifyAttrs i f) d := by
  refine h.mono (fun j hj => ?_) fun q j hj => ?_
  · rwa [FS.IsDir, modifyAttrs_kind] at hj
  · rwa [descend_congr (modifyAttrs_kind fs i f)] at hj

theorem child_setNode (hi : ¬fs.IsDir i) (hn : ∀ p es, n.kind ≠ .dir p es) (j : Ino) (c : Bytes) :
    (fs.setNode i n).child j c = fs.child j c := by
  have hnone : ∀ {k : Option Kind}, (∀ p es, k ≠ some (.dir p es)) →
      (match k with | some (.dir _ es) => es c | _ => none) = none := by
    intro k hk
    split
    · exact absurd rfl (hk _ _)
    · rfl
  rw [FS.child, kind_setNode]
  split_ifs with hji
  · rw [hji, FS.child, hnone fun p es heq => hn p es (Option.some.inj heq),
      hnone fun p es heq => hi ⟨p, es, heq⟩]
  · rfl

theorem DirTree.setNode (h : DirTree fs d) (hi : ¬fs.IsDir i) (hn : ∀ p es, n.kind ≠ .dir p es) :
    DirTree (fs.setNode i n) d := by
  have hdescend : ∀ q j, (fs.setNode i n).descend j q = fs.descend j q := by
    intro q
    induction q with
    | nil => exact fun _ => rfl
    | cons c q ih =>
      intro j
      rw [FS.descend, FS.descend, child_setNode hi hn]
      exact congrArg _ (funext ih)
  refine h.mono (fun j hj => ?_) fun q j hj => hdescend q d ▸ hj
  obtain ⟨p, es, hkind⟩ := hj
  rw [kind_setNode] at hkind
  split at hkind
  · exact absurd (Option.some.inj hkind) (hn p es)
  · exact ⟨p, es, hkind⟩

/-- A new file without entries is reached by the names of its directory and its own. -/
theorem DirTree.add (h : DirTree fs d) (hwf : WF fs) (hd : fs.IsDir d)
    (hi : fs.kind i = some (.dir parent entries)) (hn : ∀ p es, n.kind = .dir p es → ∀ c, es c = none) :
    DirTree (fs.add i c n now) d := by
  have hnew : ∀ q, (fs.add i c n now).descend d q = some fs.next →
      ∃ q₀, q = q₀ ++ [c] ∧ fs.descend d q₀ = some i := by
    intro q hq
    rcases eq_nil_or_concat' q with rfl | ⟨q₀, x, rfl⟩
    · cases hq
      exact absurd rfl (hwf.ne_next hd)
    · obtain ⟨y, hy, hchild⟩ := descend_concat hq
      obtain ⟨rfl, rfl⟩ := child_add_next hwf hi hn hchild
      refine ⟨q₀, rfl, (descend_add hi hn hy (hwf.ne_next hd)).resolve_right ?_⟩
      exact hwf.ne_next ⟨parent, entries, hi⟩
  intro q q' j hj hq hq'
  by_cases hnext : j = fs.next
  · subst hnext
    obtain ⟨p, rfl, hp⟩ := hnew q hq
    obtain ⟨p', rfl, hp'⟩ := hnew q' hq'
    rw [h p p' i ⟨parent, entries, hi⟩ hp hp']
  · have hold : fs.IsDir j := by
      obtain ⟨p, es, hkind⟩ := hj
      rw [kind_add hi, if_neg hnext] at hkind
      by_cases hji : j = i
      · rw [hji]
        exact ⟨parent, entries, hi⟩
      · rw [if_neg hji] at hkind
        exact ⟨p, es, hkind⟩
    exact h q q' j hold ((descend_add hi hn hq (hwf.ne_next hd)).resolve_right hnext)
      ((descend_add hi hn hq' (hwf.ne_next hd)).resolve_right hnext)

end Growth

/-! ## Paths below a directory -/

/-- A path leads to a directory, without a link at its end. -/
structure Anchor (fs : FS) (dest : Bytes) (d : Ino) : Prop where
  ne_nil : dest ≠ []
  leads : ∃ m, Leads fs false FS.maxLinks (fs.start dest) (parts dest) (d, m)
  isDir : fs.IsDir d

section Anchor
variable {fs fs' : FS} {dest : Bytes} {d : Ino}

theorem anchor_of_resolve (h : fs.resolve dest false = .ok d) (hd : fs.IsDir d) : Anchor fs dest d := by
  unfold FS.resolve at h
  split at h
  · cases h
  · next hne =>
    cases hwalk : fs.walk false FS.maxLinks (fs.start dest) (parts dest) with
    | error e =>
      rw [hwalk] at h
      cases h
    | ok r =>
      rw [hwalk] at h
      cases h
      exact ⟨hne, ⟨r.2, leads_of_walk hwalk⟩, hd⟩

theorem Anchor.grows (h : Anchor fs dest d) (hg : Grows fs fs') : Anchor fs' dest d := by
  obtain ⟨m, hm⟩ := h.leads
  refine ⟨h.ne_nil, ⟨m, ?_⟩, hg.isDir h.isDir⟩
  have hstart : fs'.start dest = fs.start dest := by rw [FS.start, FS.start, hg.root, hg.cwd]
  rw [hstart]
  exact hg.leads hm

theorem Anchor.walk (h : Anchor fs dest d) : ∃ m, ∀ follow,
    fs.walk follow FS.maxLinks (fs.start dest) (parts dest) = .ok (d, m) := by
  obtain ⟨m, hm⟩ := h.leads
  refine ⟨m, fun follow => ?_⟩
  cases follow with
  | false => exact hm.walk
  | true => exact (hm.of_not_symlink (not_symlink_of_isDir h.isDir)).walk

theorem walk_nil_component (hj : fs.IsDir j) (follow : Bool) (m : Nat) :
    fs.walk follow m j [[]] = .ok (j, m) := by
  obtain ⟨parent, entries, hkind⟩ := hj
  have hleads : Leads fs follow m j [[]] (j, m) := .skip hkind (.inl rfl) .done
  exact hleads.walk

theorem start_append (hp : p ≠ []) (q : Bytes) : fs.start (p ++ q) = fs.start p := by
  rw [FS.start, FS.start, rooted_append hp]

theorem Anchor.walk_names (h : Anchor fs dest d) (hwf : WF fs) (hproper : ∀ n ∈ names, Proper n)
    (hclear : Clear fs d names)
    (hlast : follow = true → ∀ j, fs.descend d names = some j → ¬fs.IsSymlink j) :
    ∃ m, fs.walk follow FS.maxLinks (fs.start dest) (parts dest ++ names) =
      match fs.descend d names with
      | some j => .ok (j, m)
      | none => .error .noent := by
  obtain ⟨m, hm⟩ := h.walk
  refine ⟨m, ?_⟩
  by_cases hnil : names = []
  · subst hnil
    rw [append_nil]
    exact hm follow
  · rw [walk_append (.inl hnil), hm true]
    exact walk_clear hwf h.isDir hproper hclear hlast m

/-- A path below the directory resolves to what its names lead to. -/
theorem Anchor.resolve (h : Anchor fs dest d) (hwf : WF fs) (hproper : ∀ n ∈ names, Proper n)
    (hclear : Clear fs d names)
    (hlast : follow = true → ∀ j, fs.descend d names = some j → ¬fs.IsSymlink j) :
    fs.resolve (under dest names) follow =
      match fs.descend d names with
      | some j => .ok j
      | none => .error .noent := by
  obtain ⟨m, hm⟩ := h.walk_names hwf hproper hclear hlast
  have hne : under dest names ≠ [] := append_ne_nil_of_left_ne_nil h.ne_nil _
  rw [FS.resolve, if_neg hne, parts_under fun n hn => (hproper n hn).no_slash, under,
    start_append h.ne_nil, hm]
  cases fs.descend d names with
  | some j => rfl
  | none => rfl

theorem Anchor.resolve_slash (h : Anchor fs dest d) (hwf : WF fs) (hproper : ∀ n ∈ names, Proper n)
    (hclear : Clear fs d names) (hlast : ∀ j, fs.descend d names = some j → fs.IsDir j) :
    fs.resolve (under dest names ++ [slash]) follow =
      match fs.descend d names with
      | some j => .ok j
      | none => .error .noent := by
  obtain ⟨m, hm⟩ : ∃ m, fs.walk true FS.maxLinks (fs.start dest) (parts dest ++ names) = _ :=
    h.walk_names hwf hproper hclear fun _ j hj => not_symlink_of_isDir (hlast j hj)
  have hparts : parts (under dest names ++ [slash]) = parts dest ++ names ++ [[]] := by
    rw [parts_append_slash, parts_under fun n hn => (hproper n hn).no_slash]
    rfl
  rw [FS.resolve, if_neg (by simp), hparts, under, append_assoc, start_append h.ne_nil,
    walk_append (.inl (cons_ne_nil _ _)), hm]
  cases hj : fs.descend d names with
  | some j =>
    have hdir := walk_nil_component (hlast j hj) follow m
    change (fs.walk follow m j [[]]).map Prod.fst = _
    rw [hdir]
    rfl
  | none => rfl

/-! ## New entries -/

theorem newParts_of_parts (h : parts p = cs ++ [n] ++ List.replicate k []) (hn : n ≠ []) :
    FS.newParts p = cs ++ [n] := by
  rw [FS.newParts, h, reverse_append, reverse_replicate, reverse_append,
    reverse_singleton, singleton_append, dropWhile_append_of_pos]
  · rw [dropWhile_cons_of_neg (by simpa using hn), reverse_cons, reverse_reverse]
  · intro x hx
    exact decide_eq_true (eq_of_mem_replicate hx)

theorem newParts_under (hproper : ∀ m ∈ names ++ [n], Proper m) :
    FS.newParts (under dest (names ++ [n])) = parts dest ++ names ++ [n] := by
  have hn := hproper n (mem_append_right _ (mem_singleton_self n))
  have hparts := parts_under (p := dest) fun m hm => (hproper m hm).no_slash
  refine newParts_of_parts (k := 0) ?_ hn.ne_nil
  rw [hparts, replicate_zero, append_nil, append_assoc]

theorem newParts_under_slash (hproper : ∀ m ∈ names ++ [n], Proper m) :
    FS.newParts (under dest (names ++ [n]) ++ [slash]) = parts dest ++ names ++ [n] := by
  have hn := hproper n (mem_append_right _ (mem_singleton_self n))
  have hparts := parts_under (p := dest) fun m hm => (hproper m hm).no_slash
  refine newParts_of_parts (k := 1) ?_ hn.ne_nil
  rw [parts_append_slash, hparts, show parts [] = List.replicate 1 [] from rfl,
    ← append_assoc (parts dest)]

theorem locate_eq (hparts : FS.newParts p = cs ++ [n]) (hn : Proper n) :
    fs.locate p =
      match fs.walk true FS.maxLinks (fs.start p) cs with
      | .error e => .error e
      | .ok (i, _) =>
        match fs.kind i with
        | some (.dir _ entries) => if (entries n).isSome then .error .exist else .ok (i, n)
        | _ => .error .notdir := by
  rw [FS.locate, hparts, getLast?_append_of_ne_nil _ (cons_ne_nil _ _), getLast?_singleton]
  dsimp only
  rw [if_neg (by simp [hn.ne_dot, hn.ne_dotdot]), dropLast_concat]

/-- Where a new entry goes whose path is below the directory, with or without a slash at the end. -/
theorem Anchor.locate (h : Anchor fs dest d) (hwf : WF fs) (hproper : ∀ m ∈ names ++ [n], Proper m)
    (hclear : Clear fs d (names ++ [n])) (hstart : fs.start p = fs.start dest)
    (hparts : FS.newParts p = parts dest ++ names ++ [n]) :
    fs.locate p =
      match fs.descend d names with
      | none => .error .noent
      | some j => if (fs.child j n).isSome then .error .exist else .ok (j, n) := by
  have hn := hproper n (mem_append_right _ (mem_singleton_self n))
  have hdirs : ∀ j, fs.descend d names = some j → fs.IsDir j := by
    intro j hj
    exact hclear names j (prefix_append _ _) (fun heq => by simpa using congrArg List.length heq) hj
  have hclear' : Clear fs d names := by
    intro q j hq _ hj
    refine hclear q j (hq.trans (prefix_append _ _)) (fun heq => ?_) hj
    rw [heq] at hq
    have hlen := hq.length_le
    rw [length_append, length_singleton] at hlen
    omega
  obtain ⟨m, hm⟩ : ∃ m, fs.walk true FS.maxLinks (fs.start dest) (parts dest ++ names) = _ :=
    h.walk_names hwf (fun m hm => hproper m (mem_append_left _ hm)) hclear'
      fun _ j hj => not_symlink_of_isDir (hdirs j hj)
  rw [locate_eq hparts hn, hstart, hm]
  cases hj : fs.descend d names with
  | none => rfl
  | some j =>
    obtain ⟨parent, entries, hkind⟩ := hdirs j hj
    dsimp only
    rw [hkind, child_eq hkind]

theorem walk_append_ok (h : fs.walk follow n i (cs ++ ds) = .ok r) (hds : ds ≠ []) :
    ∃ j m, fs.walk true n i cs = .ok (j, m) ∧ fs.walk follow m j ds = .ok r := by
  rw [walk_append (.inl hds)] at h
  cases hcs : fs.walk true n i cs with
  | error e =>
    rw [hcs] at h
    cases h
  | ok x =>
    rw [hcs] at h
    exact ⟨x.1, x.2, rfl, h⟩

theorem resolve_ok (h : fs.resolve p follow = .ok i) :
    p ≠ [] ∧ ∃ m, fs.walk follow FS.maxLinks (fs.start p) (parts p) = .ok (i, m) := by
  unfold FS.resolve at h
  split at h
  · cases h
  · next hne =>
    refine ⟨hne, ?_⟩
    cases hwalk : fs.walk follow FS.maxLinks (fs.start p) (parts p) with
    | error e =>
      rw [hwalk] at h
      cases h
    | ok r =>
      rw [hwalk] at h
      cases h
      exact ⟨r.2, rfl⟩

theorem newParts_getLast (h : (FS.newParts p).getLast? = some c) : c ≠ [] := by
  have hhead := head?_dropWhile_not (fun c : Bytes => decide (c = [])) (parts p).reverse
  rw [FS.newParts, getLast?_reverse] at h
  rw [h] at hhead
  exact of_decide_eq_false hhead

theorem parts_newParts (p : Bytes) : ∃ k, parts p = FS.newParts p ++ List.replicate k [] := by
  have hsplit : (parts p).reverse.takeWhile (· = []) ++ (parts p).reverse.dropWhile (· = []) =
      (parts p).reverse := takeWhile_append_dropWhile
  have hnil : ∃ k, (parts p).reverse.takeWhile (· = []) = List.replicate k [] := by
    refine ⟨_, eq_replicate_of_mem fun c hc => ?_⟩
    exact of_decide_eq_true (all_eq_true.mp all_takeWhile c hc)
  obtain ⟨k, hk⟩ := hnil
  refine ⟨k, ?_⟩
  have hrev := congrArg List.reverse hsplit
  rw [hk, reverse_append, reverse_replicate, reverse_reverse] at hrev
  exact hrev.symm

theorem locate_exists (h : fs.resolve p follow = .ok i) : ∃ e, fs.locate p = .error e := by
  obtain ⟨hne, m, hwalk⟩ := resolve_ok h
  obtain ⟨k, hk⟩ := parts_newParts p
  unfold FS.locate
  split
  · exact ⟨_, rfl⟩
  · next c hlast =>
    split
    · exact ⟨_, rfl⟩
    · next hdots =>
      obtain ⟨hdot, hup⟩ := not_or.mp hdots
      have hsplit : parts p = (FS.newParts p).dropLast ++ c :: List.replicate k [] := by
        rw [hk]
        nth_rewrite 1 [← dropLast_append_getLast? c hlast]
        rw [append_assoc, singleton_append]
      rw [hsplit] at hwalk
      obtain ⟨j, m', hinit, hrest⟩ := walk_append_ok hwalk (cons_ne_nil _ _)
      rw [hinit]
      dsimp only
      have hc := newParts_getLast hlast
      generalize List.replicate k [] = rest at hrest
      cases leads_of_walk hrest with
      | skip hkind hcs => exact absurd hcs (by simp [hc, hdot])
      | up hkind _ _ hcs => exact absurd hcs hup
      | entry hkind _ _ _ hentry => exact ⟨.exist, by rw [hkind]; simp [hentry]⟩
      | stop hkind _ _ _ hentry => exact ⟨.exist, by rw [hkind]; simp [hentry]⟩
      | link hkind _ _ _ hentry => exact ⟨.exist, by rw [hkind]; simp [hentry]⟩

theorem isDir_of_walk_cons (h : fs.walk follow n i (c :: cs) = .ok r) : fs.IsDir i := by
  cases leads_of_walk h with
  | skip hkind => exact ⟨_, _, hkind⟩
  | up hkind => exact ⟨_, _, hkind⟩
  | entry hkind => exact ⟨_, _, hkind⟩
  | stop hkind => exact ⟨_, _, hkind⟩
  | link hkind => exact ⟨_, _, hkind⟩

theorem resolve_parentOf (h : fs.resolve p follow = .ok i) (hp : parentOf p ≠ []) :
    ∃ j, fs.resolve (parentOf p) true = .ok j ∧ fs.IsDir j := by
  obtain ⟨r, c, k, heq, -, hslash, hparent⟩ := parentOf_ne_nil hp
  obtain ⟨-, m, hwalk⟩ := resolve_ok h
  have hparts : parts p = parts r ++ c :: List.replicate k [] := by
    rw [heq, parts_replicate_slash, parts_append_slash, parts_eq_singleton hslash, append_assoc]
    rfl
  have hstart : fs.start p = fs.start (r ++ [slash]) := by
    rw [heq, ← singleton_append, ← append_assoc, append_assoc (r ++ [slash]),
      start_append (by simp)]
  rw [hparts] at hwalk
  obtain ⟨j, m', hinit, hrest⟩ := walk_append_ok hwalk (cons_ne_nil _ _)
  have hj := isDir_of_walk_cons hrest
  refine ⟨j, ?_, hj⟩
  rw [hparent, FS.resolve, if_neg (by simp), ← hstart, parts_append_slash, show parts [] = [[]] from rfl,
    walk_append (.inl (cons_ne_nil _ _)), hinit]
  change (fs.walk true m' j [[]]).map Prod.fst = _
  rw [walk_nil_component hj]
  rfl

end Anchor

end FileTree
