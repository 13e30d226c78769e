import AmberStore.Lib.Bytes

/-!
# A directory of files under crashes

Files are byte strings behind inodes; a directory maps names to inodes. `synced` counts the bytes
of a file that the last successful fsync covers, and `past` holds the directory states since the
last successful directory fsync. A crash keeps of every file some prefix that contains the synced
bytes, and of the directory operations some prefix that contains the synced ones.
-/

/-- One file. After a failed fsync the bytes it should have covered may be gone from the cache's
dirty list, so that no later fsync covers them: the file is `torn`. -/
structure File where
  data : Bytes
  synced : Nat
  torn : Bool
  deriving DecidableEq

namespace File

def empty : File := ⟨[], 0, false⟩

def writeAt (f : File) (off : Nat) (p : Bytes) : File :=
  { f with data := f.data.writeAt off p, synced := min f.synced off }

def truncate (f : File) (n : Nat) : File :=
  { f with data := f.data.take n, synced := min f.synced n }

def fsync (f : File) : File := if f.torn then f else { f with synced := f.data.length }

/-- A failed fsync, which may also drop unsynced bytes from the end of the file: `lost` of them, or
all there are. -/
def fsyncFail (f : File) (lost : Nat) : File :=
  { f with data := f.data.take (max f.synced (f.data.length - lost)), torn := true }

/-- A file as a crash can leave it: a prefix that contains the synced bytes. -/
def Survives (f g : File) : Prop :=
  ∃ n, f.synced ≤ n ∧ g = ⟨f.data.take n, (f.data.take n).length, false⟩

end File

abbrev Directory (N : Type) := List (N × Nat)

structure FS (N : Type) where
  files : Nat → File
  next : Nat
  cur : Directory N
  past : List (Directory N)

namespace FS
variable {N : Type}

/-- The directory states a crash can leave. -/
def dirs (fs : FS N) : List (Directory N) := fs.cur :: fs.past

/-- The inode a name stands for. -/
def lookup [DecidableEq N] (d : Directory N) (n : N) : Option Nat := (d.find? fun e => e.1 = n).map Prod.snd

def setFile (fs : FS N) (i : Nat) (f : File) : FS N :=
  { fs with files := fun j => if j = i then f else fs.files j }

/-- A change of the directory, not yet durable. -/
def setDir (fs : FS N) (d : Directory N) : FS N := { fs with cur := d, past := fs.cur :: fs.past }

/-- A new empty file under a name not in use. -/
def create (fs : FS N) (n : N) : FS N :=
  { (fs.setFile fs.next .empty).setDir (fs.cur ++ [(n, fs.next)]) with next := fs.next + 1 }

def remove [DecidableEq N] (fs : FS N) (n : N) : FS N := fs.setDir (fs.cur.filter fun e => e.1 ≠ n)

def rename [DecidableEq N] (fs : FS N) (a b : N) : FS N :=
  fs.setDir ((fs.cur.filter fun e => e.1 ≠ b).map fun e => if e.1 = a then (b, e.2) else e)

def syncDir (fs : FS N) : FS N := { fs with past := [] }

/-- A file system as a crash can leave it. -/
structure Crash (fs fs' : FS N) : Prop where
  dir : fs'.cur ∈ fs.dirs
  past : fs'.past = []
  next : fs'.next = fs.next
  files : ∀ i, (fs.files i).Survives (fs'.files i)

theorem lookup_eq_some [DecidableEq N] {d : Directory N} (hnd : (d.map Prod.fst).Nodup) :
    lookup d n = some i ↔ (n, i) ∈ d := by
  unfold lookup
  rw [Option.map_eq_some_iff]
  constructor
  · rintro ⟨⟨n', i'⟩, hfind, rfl⟩
    obtain rfl : n' = n := by simpa using List.find?_some hfind
    exact List.mem_of_find?_eq_some hfind
  · intro hmem
    cases hfind : d.find? fun e => e.1 = n with
    | none => simpa using List.find?_eq_none.mp hfind _ hmem
    | some e =>
      have hn : e.1 = n := by simpa using List.find?_some hfind
      have := List.inj_on_of_nodup_map hnd (List.mem_of_find?_eq_some hfind) hmem hn
      exact ⟨e, rfl, by rw [this]⟩

theorem lookup_eq_none [DecidableEq N] {d : Directory N} :
    lookup d n = none ↔ ∀ i, (n, i) ∉ d := by
  unfold lookup
  rw [Option.map_eq_none_iff, List.find?_eq_none]
  constructor
  · intro h i hi
    exact h _ hi (by simp)
  · rintro h ⟨n', i⟩ hi hn
    exact h i (by simpa using (of_decide_eq_true hn) ▸ hi)

@[simp] theorem setFile_self (fs : FS N) (i : Nat) (f : File) : (fs.setFile i f).files i = f := by
  simp [setFile]

theorem setFile_ne (fs : FS N) {i j : Nat} (f : File) (h : j ≠ i) :
    (fs.setFile i f).files j = fs.files j := by simp [setFile, h]

@[simp] theorem setFile_setFile (fs : FS N) (i : Nat) (f f' : File) :
    (fs.setFile i f).setFile i f' = fs.setFile i f' := by
  unfold setFile
  congr 1
  funext j
  by_cases hj : j = i <;> simp [hj]

theorem setFile_eq_self (fs : FS N) {i : Nat} {f : File} (h : fs.files i = f) :
    fs.setFile i f = fs := by
  unfold setFile
  have : (fun j => if j = i then f else fs.files j) = fs.files := by
    funext j
    split
    · next hj => rw [hj, h]
    · rfl
  rw [this]

@[simp] theorem create_files_next (fs : FS N) (n : N) : (fs.create n).files fs.next = .empty := by
  simp [create, setDir, setFile]

@[simp] theorem syncDir_dirs (fs : FS N) : fs.syncDir.dirs = [fs.cur] := rfl

theorem mem_rename [DecidableEq N] {fs : FS N} {a b : N} {e : N × Nat} (h : e ∈ (fs.rename a b).cur) :
    e.1 = b ∧ (a, e.2) ∈ fs.cur ∨ e ∈ fs.cur ∧ e.1 ≠ a := by
  obtain ⟨x, hx, rfl⟩ := List.mem_map.mp h
  have hmem := List.mem_of_mem_filter hx
  by_cases hxa : x.1 = a
  · rw [if_pos hxa]
    exact .inl ⟨rfl, by rw [← hxa]; exact hmem⟩
  · rw [if_neg hxa]
    exact .inr ⟨hmem, hxa⟩

theorem mem_create {fs : FS N} {n : N} {e : N × Nat} (h : e ∈ (fs.create n).cur) :
    e ∈ fs.cur ∨ e = (n, fs.next) := by
  rcases List.mem_append.mp h with h | h
  · exact .inl h
  · exact .inr (List.mem_singleton.mp h)

theorem lookup_rename [DecidableEq N] {fs : FS N} (hab : a ≠ b) (h : lookup fs.cur a = some i) :
    lookup (fs.rename a b).cur b = some i := by
  obtain ⟨e, hfind, rfl⟩ := Option.map_eq_some_iff.mp h
  have hsame : ∀ d : Directory N, d.find? (fun e => e.1 = a) = some e →
      (((d.filter fun e => e.1 ≠ b).map fun e => if e.1 = a then (b, e.2) else e).find?
        fun e => e.1 = b) = some (b, e.2) := by
    intro d hd
    induction d with
    | nil => cases hd
    | cons x d ih =>
      by_cases hx : x.1 = a
      · rw [List.find?_cons_of_pos (by simpa using hx)] at hd
        cases hd
        rw [List.filter_cons_of_pos (by simpa [hx] using hab), List.map_cons, if_pos hx,
          List.find?_cons_of_pos (by simp)]
      · rw [List.find?_cons_of_neg (by simpa using hx)] at hd
        by_cases hxb : x.1 = b
        · rw [List.filter_cons_of_neg (by simpa using hxb)]
          exact ih hd
        · rw [List.filter_cons_of_pos (by simpa using hxb), List.map_cons, if_neg hx,
            List.find?_cons_of_neg (by simpa using hxb)]
          exact ih hd
  rw [rename, setDir, lookup, hsame _ hfind]
  rfl

theorem lookup_remove [DecidableEq N] {fs : FS N} (hab : a ≠ b) :
    lookup (fs.remove b).cur a = lookup fs.cur a := by
  rw [remove, setDir, lookup, lookup, List.find?_filter]
  congr 2
  funext e
  by_cases he : e.1 = a
  · simp [he, hab]
  · simp [he]

theorem lookup_create [DecidableEq N] {fs : FS N} (h : lookup fs.cur n = none) :
    lookup (fs.create n).cur n = some fs.next := by
  rw [lookup, Option.map_eq_none_iff] at h
  rw [create, setDir, lookup, setFile, List.find?_append, h]
  simp

end FS
