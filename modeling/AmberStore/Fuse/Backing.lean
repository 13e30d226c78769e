import AmberStore.Key
import AmberStore.Lib.System
import Mathlib.Algebra.BigOperators.Ring.Finset
import Mathlib.Algebra.Order.BigOperators.Group.Finset

/-!
# The files behind a mount

A file is read into memory when it is opened, and shared by every handle on the same content. The cache
counts the handles, and keeps the files of closed handles for a while, up to a number of bytes. Its lock is not
held while a file is fetched, so that others take their steps between the look-up that missed and the insertion.
-/

namespace AmberStore.Fuse
open Function (update update_apply)

/-- A file in memory. `el` says that it is an element of the list of idle ones. -/
structure Backing where
  k : Key
  size : Int64
  refs : Int
  el : Bool

/-- The cache. Files are numbered; the front of `idle` was released last. -/
structure BackingCache where
  byKey : Key → Option Nat
  idle : List Nat
  idleSize : Int64
  backing : Nat → Backing
  /-- How often each file was closed. -/
  closes : Nat → Nat

namespace BackingCache
variable (c : BackingCache) (maxIdle : Int64) (f : Nat)

def setBacking (b : Backing) : BackingCache := { c with backing := update c.backing f b }

def closeFile : BackingCache := { c with closes := update c.closes f (c.closes f + 1) }

/-- Take the file out of the map, and close it. -/
def remove : BackingCache :=
  { c with byKey := update c.byKey (c.backing f).k none }.closeFile f

/-- Take the file out of the list of idle ones, which leaves the given rest. -/
def unlink (rest : List Nat) : BackingCache :=
  { c with idle := rest, idleSize := c.idleSize - (c.backing f).size }.setBacking f
    { c.backing f with el := false }

def pushFront : BackingCache :=
  { c with idle := f :: c.idle, idleSize := c.idleSize + (c.backing f).size }.setBacking f
    { c.backing f with el := true }

def addRefs (n : Int) : BackingCache := c.setBacking f { c.backing f with refs := (c.backing f).refs + n }

def reuseLocked : BackingCache :=
  if (c.backing f).refs = 0 ∧ (c.backing f).el = true then (c.unlink f (c.idle.erase f)).addRefs f 1
  else c.addRefs f 1

/-- The passes of the eviction. There are no more of them than files in the list. -/
def evictLocked : Nat → BackingCache → BackingCache
  | 0, c => c
  | n + 1, c =>
    if maxIdle < c.idleSize then
      match c.idle.getLast? with
      | none => c
      | some f => evictLocked n ((c.unlink f c.idle.dropLast).remove f)
    else c

def release : BackingCache :=
  let c := c.addRefs f (-1)
  if 0 < (c.backing f).refs then c
  else if maxIdle ≤ 0 ∨ maxIdle < (c.backing f).size then c.remove f
  else (c.pushFront f).evictLocked maxIdle (c.pushFront f).idle.length

end BackingCache

/-! ## The calls -/

/-- The cache, and the calls on it. `fetching` has the keys of the calls that wait for their content, `fetched`
the files that are not yet inserted, and `held` what was acquired and not released. -/
structure Mounted where
  cache : BackingCache
  fetching : Multiset Key
  fetched : Multiset (Key × Nat)
  held : Multiset Nat
  /-- The number of the next file, and the bytes of each. -/
  next : Nat
  bytes : Nat → Nat

namespace Mounted

/-- The bytes of the open files. -/
def used (closes : Nat → Nat) (next : Nat) (bytes : Nat → Nat) : Nat :=
  ∑ f ∈ (Finset.range next).filter (closes · = 0), bytes f

/-- The second locked part of `acquire`. -/
def insert (s : Mounted) (k : Key) (f : Nat) : Mounted :=
  let s := { s with fetched := s.fetched.erase (k, f) }
  match s.cache.byKey k with
  | some g => { s with cache := (s.cache.closeFile f).reuseLocked g, held := g ::ₘ s.held }
  | none =>
    { s with
      cache := { s.cache with byKey := update s.cache.byKey k (some f) }.setBacking f
        ⟨k, .ofNat k.length.toNat, 1, false⟩
      held := f ::ₘ s.held }

/-- A step of one of the calls. A file is made in memory, which has room for so many bytes. -/
inductive Step (maxIdle : Int64) (memory : Nat) (s : Mounted) : Mounted → Prop
  | hit : s.cache.byKey k = some f →
    Step maxIdle memory s { s with cache := s.cache.reuseLocked f, held := f ::ₘ s.held }
  | miss : s.cache.byKey k = none → Step maxIdle memory s { s with fetching := k ::ₘ s.fetching }
  | noContent : k ∈ s.fetching → Step maxIdle memory s { s with fetching := s.fetching.erase k }
  -- a file that cannot be filled is closed where it was made
  | noFile : k ∈ s.fetching → Step maxIdle memory s
    { s with fetching := s.fetching.erase k, cache := s.cache.closeFile s.next, next := s.next + 1 }
  | fetch : k ∈ s.fetching → used s.cache.closes s.next s.bytes + k.length.toNat ≤ memory → Step maxIdle memory s
    { s with
      fetching := s.fetching.erase k
      fetched := (k, s.next) ::ₘ s.fetched
      next := s.next + 1
      bytes := update s.bytes s.next k.length.toNat }
  | insert : (k, f) ∈ s.fetched → Step maxIdle memory s (s.insert k f)
  | release : f ∈ s.held →
    Step maxIdle memory s { s with cache := s.cache.release maxIdle f, held := s.held.erase f }

def zeroKey : Key := ⟨List.replicate 32 0, length_zeros⟩

def new : Mounted := ⟨⟨fun _ => none, [], 0, fun _ => ⟨zeroKey, 0, 0, false⟩, fun _ => 0⟩, 0, 0, 0, 0, fun _ => 0⟩

/-- The files that were made: each is closed at most once, and the open ones fit in the memory. -/
structure Files (memory : Nat) (closes : Nat → Nat) (fetched : Multiset (Key × Nat)) (next : Nat)
    (bytes : Nat → Nat) : Prop where
  once : ∀ f, closes f ≤ 1
  fresh : ∀ f, next ≤ f → closes f = 0
  waiting : ∀ k f, (k, f) ∈ fetched → f < next ∧ closes f = 0 ∧ bytes f = k.length.toNat
  distinct : (fetched.map Prod.snd).Nodup
  room : used closes next bytes ≤ memory

/-- The files in the map, with their handles and the list of idle ones. Within a step a file may be parked: without
a handle, and not idle yet or no more. -/
structure Counts (memory : Nat) (parked : Option Nat) (s : Mounted) : Prop where
  refs : ∀ f, (s.cache.backing f).refs = s.held.count f
  held : ∀ f ∈ s.held, s.cache.byKey (s.cache.backing f).k = some f
  mapped : ∀ k f, s.cache.byKey k = some f → (s.cache.backing f).k = k ∧ s.cache.closes f = 0 ∧
    f < s.next ∧ (∀ k', (k', f) ∉ s.fetched) ∧ (s.cache.backing f).size = .ofNat (s.bytes f)
  idle : ∀ f, parked ≠ some f →
    (f ∈ s.cache.idle ↔ (s.cache.backing f).refs = 0 ∧ s.cache.byKey (s.cache.backing f).k = some f)
  parked : ∀ f, parked = some f →
    f ∉ s.cache.idle ∧ (s.cache.backing f).refs = 0 ∧ s.cache.byKey (s.cache.backing f).k = some f
  nodup : s.cache.idle.Nodup
  el : ∀ f, (s.cache.backing f).el = true ↔ f ∈ s.cache.idle
  sum : memory < 2 ^ 63 → s.cache.idleSize.toInt = ((s.cache.idle.map s.bytes).sum : Nat)

structure Inv (memory : Nat) (parked : Option Nat) (s : Mounted) : Prop where
  files : Files memory s.cache.closes s.fetched s.next s.bytes
  counts : Counts memory parked s

variable {memory : Nat} {parked : Option Nat} {s : Mounted} {maxIdle : Int64} {k : Key} {f : Nat}
  {closes bytes : Nat → Nat} {fetched : Multiset (Key × Nat)}

/-- Files that are in the map, each once, fit in the memory. -/
theorem Inv.sum_le (h : Inv memory parked s) {l : List Nat} (hl : l.Nodup)
    (hmapped : ∀ f ∈ l, s.cache.byKey (s.cache.backing f).k = some f) : (l.map s.bytes).sum ≤ memory := by
  refine Nat.le_trans ?_ h.files.room
  rw [← List.sum_toFinset _ hl]
  refine Finset.sum_le_sum_of_subset fun f hf => ?_
  obtain ⟨-, hopen, hlt, -⟩ := h.counts.mapped _ f (hmapped f (List.mem_toFinset.mp hf))
  exact Finset.mem_filter.mpr ⟨Finset.mem_range.mpr hlt, hopen⟩

theorem toInt_bmod {x : Nat} (h : x < 2 ^ 63) : (x : Int).bmod (2 ^ 64) = x :=
  Int.bmod_eq_of_le (by omega) (by omega)

theorem Inv.size (h : Inv memory parked s) (hmem : memory < 2 ^ 63)
    (hf : s.cache.byKey (s.cache.backing f).k = some f) : (s.cache.backing f).size.toInt = s.bytes f := by
  obtain ⟨-, -, -, -, hsize⟩ := h.counts.mapped _ f hf
  have hle := h.sum_le (List.nodup_singleton f) (by simpa using hf)
  rw [hsize]
  refine Int64.toInt_ofNat_of_lt ?_
  simp only [List.map_cons, List.map_nil, List.sum_singleton] at hle
  omega

/-- Take a file off the list. -/
theorem Inv.unlink (h : Inv memory none s) (hf : f ∈ s.cache.idle) :
    Inv memory (some f) { s with cache := s.cache.unlink f (s.cache.idle.erase f) } := by
  have ⟨hfiles, hrefs, hheld, hmapped, hidle, _, hnodup, hel, hsum⟩ := h
  obtain ⟨hzero, hmap⟩ := (hidle f nofun).mp hf
  have hmem : ∀ g, g ∈ s.cache.idle.erase f ↔ g ≠ f ∧ g ∈ s.cache.idle := fun g => hnodup.mem_erase_iff
  refine ⟨hfiles, ?_⟩
  constructor <;> simp only [BackingCache.unlink, BackingCache.setBacking, update_apply]
  case nodup => exact hnodup.erase f
  case sum =>
    intro hlt
    have hall := h.sum_le hnodup fun g hg => ((hidle g nofun).mp hg).2
    have herase : s.bytes f + ((s.cache.idle.erase f).map s.bytes).sum = (s.cache.idle.map s.bytes).sum :=
      List.sum_map_erase s.bytes hf
    rw [Int64.toInt_sub, hsum hlt, h.size hlt hmap, ← herase, Nat.cast_add, add_sub_cancel_left]
    exact toInt_bmod (by omega)
  all_goals grind

/-- Put a parked file on the list. -/
theorem Inv.pushFront (h : Inv memory (some f) s) : Inv memory none { s with cache := s.cache.pushFront f } := by
  have ⟨hfiles, hrefs, hheld, hmapped, hidle, hparked, hnodup, hel, hsum⟩ := h
  obtain ⟨hout, hzero, hmap⟩ := hparked f rfl
  refine ⟨hfiles, ?_⟩
  constructor <;> simp only [BackingCache.pushFront, BackingCache.setBacking, update_apply]
  case nodup => exact List.nodup_cons.mpr ⟨hout, hnodup⟩
  case sum =>
    intro hlt
    have hall := h.sum_le (List.nodup_cons.mpr ⟨hout, hnodup⟩) (by grind)
    rw [Int64.toInt_add, hsum hlt, h.size hlt hmap, List.map_cons, List.sum_cons, Nat.add_comm, ← Nat.cast_add]
    exact toInt_bmod (by grind)
  all_goals grind

theorem used_update_le : used (update closes f (closes f + 1)) n bytes ≤ used closes n bytes := by
  refine Finset.sum_le_sum_of_subset (Finset.monotone_filter_right _ fun g _ hg => ?_)
  rw [update_apply] at hg
  split at hg
  · cases hg
  · exact hg

/-- Close a parked file. -/
theorem Inv.remove (h : Inv memory (some f) s) : Inv memory none { s with cache := s.cache.remove f } := by
  have ⟨⟨honce, hfresh, hwaiting, hdistinct, hroom⟩, hrefs, hheld, hmapped, hidle, hparked, hnodup, hel, hsum⟩ := h
  obtain ⟨hout, hzero, hmap⟩ := hparked f rfl
  obtain ⟨-, hopen, hlt, hnot, -⟩ := hmapped _ f hmap
  have hfree : f ∉ s.held := by
    have := hrefs f
    rw [hzero] at this
    exact Multiset.count_eq_zero.mp (by omega)
  constructor <;> constructor <;> simp only [BackingCache.remove, BackingCache.closeFile, update_apply]
  case files.room => exact used_update_le.trans hroom
  all_goals grind

/-- Another handle on a file that is not idle. -/
theorem Inv.hold (h : Inv memory parked s) (hf : s.cache.byKey (s.cache.backing f).k = some f)
    (hparked : ∀ g, parked = some g → g = f) (hout : f ∉ s.cache.idle) :
    Inv memory none { s with cache := s.cache.addRefs f 1, held := f ::ₘ s.held } := by
  have ⟨hfiles, hrefs, hheld, hmapped, hidle, _, hnodup, hel, hsum⟩ := h
  refine ⟨hfiles, ?_⟩
  constructor <;> simp only [BackingCache.addRefs, BackingCache.setBacking, update_apply]
  case refs =>
    intro g
    rw [Multiset.count_cons]
    grind
  all_goals grind

theorem Inv.reuseLocked (h : Inv memory none s) (hk : s.cache.byKey k = some f) :
    Inv memory none { s with cache := s.cache.reuseLocked f, held := f ::ₘ s.held } := by
  obtain ⟨rfl, -⟩ := h.counts.mapped k f hk
  rw [BackingCache.reuseLocked]
  split
  · next hzero =>
    have hpark := h.unlink ((h.counts.el f).mp hzero.2)
    obtain ⟨hout, -, hmap⟩ := hpark.counts.parked f rfl
    exact hpark.hold hmap (fun g hg => (Option.some.inj hg).symm) hout
  · next hne =>
    exact h.hold hk nofun fun hidle => hne ⟨((h.counts.idle f nofun).mp hidle).1, (h.counts.el f).mpr hidle⟩

/-- One handle less. The last one parks the file. -/
theorem Inv.unhold (h : Inv memory none s) (hf : f ∈ s.held) :
    Inv memory (if 0 < ((s.cache.addRefs f (-1)).backing f).refs then none else some f)
      { s with cache := s.cache.addRefs f (-1), held := s.held.erase f } := by
  have ⟨hfiles, hrefs, hheld, hmapped, hidle, _, hnodup, hel, hsum⟩ := h
  have hpos := Multiset.count_pos.mpr hf
  have hcount : ∀ g, ((s.held.erase f).count g : Int) = s.held.count g - if g = f then 1 else 0 := by
    intro g
    split
    · next heq =>
      rw [heq, Multiset.count_erase_self]
      omega
    · next hne =>
      rw [Multiset.count_erase_of_ne hne]
      omega
  refine ⟨hfiles, ?_⟩
  constructor <;> simp only [BackingCache.addRefs, BackingCache.setBacking, update_apply, if_pos]
  all_goals grind [Multiset.mem_of_mem_erase]

/-! ## Eviction -/

theorem Inv.evictBack (h : Inv memory none s) (hlast : s.cache.idle.getLast? = some f) :
    Inv memory none { s with cache := (s.cache.unlink f s.cache.idle.dropLast).remove f } := by
  obtain ⟨front, hidle⟩ := List.getLast?_eq_some_iff.mp hlast
  have hnodup := h.counts.nodup
  have herase : s.cache.idle.erase f = s.cache.idle.dropLast := by
    rw [hidle] at hnodup ⊢
    have hnot : f ∉ front := fun hf => (List.nodup_append.mp hnodup).2.2 f hf f List.mem_cons_self rfl
    rw [List.erase_append_right _ hnot, List.dropLast_concat, List.erase_cons_head, List.append_nil]
  rw [← herase]
  refine (h.unlink ?_).remove
  rw [hidle]
  exact List.mem_append_right _ List.mem_cons_self

theorem Inv.evictLocked (h : Inv memory none s) (maxIdle : Int64) (n : Nat) :
    Inv memory none { s with cache := s.cache.evictLocked maxIdle n } := by
  induction n generalizing s with
  | zero => exact h
  | succ n ih =>
    rw [BackingCache.evictLocked]
    split
    · split
      · exact h
      · next f hlast => exact ih (h.evictBack hlast)
    · exact h

/-- With a pass for each file in the list, the eviction ends below the limit or with an empty list. -/
theorem evictLocked_le {c : BackingCache} {n : Nat} (hn : c.idle.length ≤ n) :
    (c.evictLocked maxIdle n).idleSize ≤ maxIdle ∨ (c.evictLocked maxIdle n).idle = [] := by
  induction n generalizing c with
  | zero => exact .inr (List.length_eq_zero_iff.mp (Nat.le_zero.mp hn))
  | succ n ih =>
    rw [BackingCache.evictLocked]
    split
    · split
      · next hnone => exact .inr (List.getLast?_eq_none_iff.mp hnone)
      · refine ih ?_
        change c.idle.dropLast.length ≤ n
        rw [List.length_dropLast]
        omega
    · next hle => exact .inl (Int64.not_lt.mp hle)

/-- The idle files are within the limit. -/
def Bounded (maxIdle : Int64) (memory : Nat) (s : Mounted) : Prop :=
  memory < 2 ^ 63 → s.cache.idleSize.toInt ≤ max maxIdle.toInt 0

theorem Inv.release (h : Inv memory none s) (hb : Bounded maxIdle memory s) (hf : f ∈ s.held) :
    Inv memory none { s with cache := s.cache.release maxIdle f, held := s.held.erase f } ∧
      Bounded maxIdle memory { s with cache := s.cache.release maxIdle f, held := s.held.erase f } := by
  have hless := h.unhold hf
  simp only [BackingCache.release]
  split
  · next hpos =>
    rw [if_pos hpos] at hless
    exact ⟨hless, hb⟩
  · next hzero =>
    rw [if_neg hzero] at hless
    split
    · exact ⟨hless.remove, hb⟩
    · have hput := hless.pushFront.evictLocked maxIdle ((s.cache.addRefs f (-1)).pushFront f).idle.length
      refine ⟨hput, fun hmem => ?_⟩
      rcases evictLocked_le (Nat.le_refl _) with hle | hnil
      · exact le_max_of_le_left (Int64.le_iff_toInt_le.mp hle)
      · have hsum := hput.counts.sum hmem
        rw [hnil] at hsum
        exact le_max_of_le_right (le_of_eq hsum)

/-! ## Fetching -/

theorem Files.erase (h : Files memory closes fetched n bytes) (hf : (k, f) ∈ fetched) :
    (∀ k', (k', f) ∉ fetched.erase (k, f)) ∧ ((fetched.erase (k, f)).map Prod.snd).Nodup := by
  have hdistinct := h.distinct
  rw [← Multiset.cons_erase hf, Multiset.map_cons, Multiset.nodup_cons] at hdistinct
  exact ⟨fun k' hk' => hdistinct.1 (Multiset.mem_map.mpr ⟨_, hk', rfl⟩), hdistinct.2⟩

theorem used_closed :
    used (update closes n (closes n + 1)) (n + 1) bytes ≤ used closes n bytes := by
  have hclosed : ¬update closes n (closes n + 1) n = 0 := by
    rw [Function.update_self]
    exact Nat.succ_ne_zero _
  rw [used, Finset.range_add_one, Finset.filter_insert, if_neg hclosed]
  exact used_update_le

theorem used_fetch (hopen : closes n = 0) :
    used closes (n + 1) (update bytes n size) = size + used closes n bytes := by
  rw [used, Finset.range_add_one, Finset.filter_insert, if_pos hopen, Finset.sum_insert (by simp),
    Function.update_self]
  refine congrArg (size + ·) (Finset.sum_congr rfl fun g hg => Function.update_of_ne ?_ _ _)
  have := Finset.mem_range.mp (Finset.mem_filter.mp hg).1
  omega

/-- Close a file that was fetched in vain. -/
theorem Inv.closeFetched (h : Inv memory none s) (hf : (k, f) ∈ s.fetched) :
    Inv memory none { s with cache := s.cache.closeFile f, fetched := s.fetched.erase (k, f) } := by
  have ⟨⟨honce, hfresh, hwaiting, hdistinct, hroom⟩, hrefs, hheld, hmapped, hidle, hparked, hnodup, hel, hsum⟩ := h
  obtain ⟨hlt, hopen, -⟩ := hwaiting k f hf
  obtain ⟨hgone, hrest⟩ := h.files.erase hf
  have hsub : ∀ p, p ∈ s.fetched.erase (k, f) → p ∈ s.fetched := fun p => Multiset.mem_of_mem_erase
  constructor <;> constructor <;> simp only [BackingCache.closeFile, update_apply]
  case files.room => exact used_update_le.trans hroom
  case files.distinct => exact hrest
  all_goals grind

theorem Inv.insertNew (h : Inv memory none s) (hf : (k, f) ∈ s.fetched) (hk : s.cache.byKey k = none) :
    Inv memory none
      { s with
        cache := { s.cache with byKey := update s.cache.byKey k (some f) }.setBacking f
          ⟨k, .ofNat k.length.toNat, 1, false⟩
        fetched := s.fetched.erase (k, f)
        held := f ::ₘ s.held } := by
  have ⟨⟨honce, hfresh, hwaiting, hdistinct, hroom⟩, hrefs, hheld, hmapped, hidle, hparked, hnodup, hel, hsum⟩ := h
  obtain ⟨hlt, hopen, hbytes⟩ := hwaiting k f hf
  obtain ⟨hgone, hrest⟩ := h.files.erase hf
  have hsub : ∀ p, p ∈ s.fetched.erase (k, f) → p ∈ s.fetched := fun p => Multiset.mem_of_mem_erase
  have hfree : s.held.count f = 0 := by
    refine Multiset.count_eq_zero.mpr fun hheld' => ?_
    exact (hmapped _ f (hheld f hheld')).2.2.2.1 k hf
  constructor <;> constructor <;> simp only [BackingCache.setBacking, update_apply]
  case counts.refs =>
    intro g
    rw [Multiset.count_cons]
    grind
  case files.distinct => exact hrest
  all_goals grind

theorem Inv.insert (h : Inv memory none s) (hf : (k, f) ∈ s.fetched) : Inv memory none (s.insert k f) := by
  simp only [Mounted.insert]
  split
  · next g hg => exact (h.closeFetched hf).reuseLocked hg
  · next hk => exact h.insertNew hf hk

/-- A file is made, and closed again if it cannot be filled. -/
theorem Inv.noFile (h : Inv memory none s) (fetching : Multiset Key) :
    Inv memory none
      { s with fetching := fetching, cache := s.cache.closeFile s.next, next := s.next + 1 } := by
  have ⟨⟨honce, hfresh, hwaiting, hdistinct, hroom⟩, hrefs, hheld, hmapped, hidle, hparked, hnodup, hel, hsum⟩ := h
  constructor <;> constructor <;> simp only [BackingCache.closeFile, update_apply]
  case files.room => exact used_closed.trans hroom
  all_goals grind

theorem Inv.fetch (h : Inv memory none s) (fetching : Multiset Key)
    (hroom : used s.cache.closes s.next s.bytes + k.length.toNat ≤ memory) :
    Inv memory none
      { s with
        fetching := fetching
        fetched := (k, s.next) ::ₘ s.fetched
        next := s.next + 1
        bytes := update s.bytes s.next k.length.toNat } := by
  have ⟨⟨honce, hfresh, hwaiting, hdistinct, _⟩, hrefs, hheld, hmapped, hidle, hparked, hnodup, hel, hsum⟩ := h
  have hbelow : ∀ g ∈ s.cache.idle, g ≠ s.next := fun g hg =>
    Nat.ne_of_lt (hmapped _ g ((hidle g nofun).mp hg).2).2.2.1
  constructor <;> constructor
  case files.room =>
    rw [used_fetch (hfresh _ (Nat.le_refl _))]
    omega
  case files.distinct =>
    rw [Multiset.map_cons, Multiset.nodup_cons]
    refine ⟨fun hmem => ?_, hdistinct⟩
    obtain ⟨p, hp, hnext⟩ := Multiset.mem_map.mp hmem
    have := (hwaiting p.1 p.2 hp).1
    omega
  case counts.sum =>
    intro hlt
    rw [hsum hlt, List.map_congr_left fun g hg => (Function.update_of_ne (hbelow g hg) _ _).symm]
  all_goals simp only [update_apply]
  all_goals grind

/-! ## Runs -/

theorem reuseLocked_idle {c : BackingCache} : (c.reuseLocked f).idle.Sublist c.idle := by
  rw [BackingCache.reuseLocked]
  split
  · exact List.erase_sublist
  · exact List.Sublist.refl _

/-- A list from which files were taken has fewer bytes. -/
theorem Bounded.sublist {s' : Mounted} (hb : Bounded maxIdle memory s) (h : Inv memory none s)
    (h' : Inv memory none s') (hbytes : s'.bytes = s.bytes) (hidle : s'.cache.idle.Sublist s.cache.idle) :
    Bounded maxIdle memory s' := by
  intro hmem
  have hle := (hidle.map s.bytes).sum_le_sum fun _ _ => Nat.zero_le _
  have hbound := hb hmem
  have hsum := h.counts.sum hmem
  have hsum' := h'.counts.sum hmem
  rw [hbytes] at hsum'
  omega

theorem Inv.refetch (h : Inv memory none s) (fetching : Multiset Key) :
    Inv memory none { s with fetching := fetching } := by
  exact ⟨h.files, { h.counts with }⟩

theorem Inv.step {s' : Mounted} (h : Inv memory none s ∧ Bounded maxIdle memory s)
    (hstep : Step maxIdle memory s s') : Inv memory none s' ∧ Bounded maxIdle memory s' := by
  obtain ⟨h, hb⟩ := h
  cases hstep with
  | hit hk =>
    have h' := h.reuseLocked hk
    exact ⟨h', hb.sublist h h' rfl reuseLocked_idle⟩
  | miss | noContent => exact ⟨h.refetch _, hb⟩
  | noFile => exact ⟨h.noFile _, hb⟩
  | fetch _ hroom => exact ⟨h.fetch _ hroom, hb⟩
  | @insert k f hf =>
    have h' := h.insert hf
    refine ⟨h', hb.sublist h h' ?_ ?_⟩
    · simp only [Mounted.insert]
      split <;> rfl
    · simp only [Mounted.insert]
      split
      · exact reuseLocked_idle
      · exact List.Sublist.refl _
  | release hf => exact h.release hb hf

theorem new_inv : Inv memory none new ∧ Bounded maxIdle memory new := by
  refine ⟨⟨⟨?_, ?_, ?_, ?_, ?_⟩, ⟨?_, ?_, ?_, ?_, ?_, ?_, ?_, ?_⟩⟩, ?_⟩
  all_goals simp [new, used, Bounded]

/-- In every run of the calls on the cache, a file with a handle is open, no file is closed twice, a file in the
map is open and under its own key, the idle files are those of the map without a handle, and their bytes, as
long as the files fit in an address space, are counted and within the limit. -/
theorem backingCache_safe (hs : Reach (· = new) (Step maxIdle memory) s) :
    (∀ f ∈ s.held, s.cache.closes f = 0) ∧ (∀ f, s.cache.closes f ≤ 1) ∧
      (∀ k f, s.cache.byKey k = some f → (s.cache.backing f).k = k ∧ s.cache.closes f = 0) ∧
      (∀ f, f ∈ s.cache.idle ↔
        (s.cache.backing f).refs = 0 ∧ s.cache.byKey (s.cache.backing f).k = some f) ∧
      (memory < 2 ^ 63 →
        s.cache.idleSize.toInt = (s.cache.idle.map fun f => (s.cache.backing f).size.toInt).sum ∧
        s.cache.idleSize.toInt ≤ max maxIdle.toInt 0) := by
  obtain ⟨h, hb⟩ := hs.invariant (I := fun s => Inv memory none s ∧ Bounded maxIdle memory s)
    (fun s h0 => h0 ▸ new_inv) fun s s' => Inv.step
  refine ⟨fun f hf => (h.counts.mapped _ f (h.counts.held f hf)).2.1, h.files.once,
    fun k f hk => ⟨(h.counts.mapped k f hk).1, (h.counts.mapped k f hk).2.1⟩, fun f => h.counts.idle f nofun,
    fun hmem => ⟨?_, hb hmem⟩⟩
  have hsizes : s.cache.idle.map (fun f => (s.cache.backing f).size.toInt) =
      s.cache.idle.map fun f => (s.bytes f : Int) :=
    List.map_congr_left fun f hf => h.size hmem ((h.counts.idle f nofun).mp hf).2
  rw [hsizes, h.counts.sum hmem, Nat.cast_list_sum, List.map_map]
  rfl

/-- A file of no bytes, opened and closed, stays open and idle. -/
theorem backingCache_safe_reopened :
    ∃ s, Reach (· = new) (Step 4096 65536) s ∧ s.cache.idle = [0] ∧ s.cache.closes 0 = 0 := by
  have hmiss : Reach (· = new) (Step 4096 65536) { new with fetching := {zeroKey} } := .next (.start rfl) (.miss rfl)
  have hfetch := hmiss.next (.fetch (Multiset.mem_singleton_self _) (by decide))
  have hinsert := hfetch.next (.insert (Multiset.mem_cons_self (zeroKey, 0) 0))
  have hheld := (backingCache_safe hinsert).1 0 (Multiset.mem_cons_self 0 0)
  exact ⟨_, hinsert.next (.release (Multiset.mem_cons_self 0 0)), rfl, hheld⟩

end Mounted
end AmberStore.Fuse
