import AmberStore.Packstore.SegmentReads

/-!
# The layout of a store

A layout lists the contents of a store's segments, from oldest to newest. It is what a store's
memory and files represent, and every read is a function of it.
-/

namespace AmberStore.Packstore
open Bytes Amberpack List

structure Layout where
  sealed : List Contents
  active : Option Contents

namespace Layout

/-- All segments, oldest first. -/
def segs (L : Layout) : List Contents := L.sealed ++ L.active.toList

/-- The object a read of `k` hits: segments are probed from the newest on. -/
def lookup (L : Layout) (k : Key) : Option Object := L.segs.reverse.findSome? fun c => c.find k

/-- Every stored record, copies included. -/
def objects (L : Layout) : List Object := L.segs.flatMap Contents.objs

theorem mem_objects {L : Layout} : o ∈ L.objects ↔ ∃ c ∈ L.segs, o ∈ c.objs := mem_flatMap

theorem lookup_mem {L : Layout} (h : L.lookup k = some o) : o ∈ L.objects ∧ o.key = k := by
  obtain ⟨c, hc, hf⟩ := exists_of_findSome?_eq_some h
  obtain ⟨ho, hk⟩ := c.find_eq_some.mp hf
  exact ⟨mem_objects.mpr ⟨c, mem_reverse.mp hc, ho⟩, hk⟩

theorem lookup_eq_none {L : Layout} : L.lookup k = none ↔ ∀ o ∈ L.objects, o.key ≠ k := by
  unfold lookup
  rw [findSome?_eq_none_iff]
  constructor
  · intro h o ho
    obtain ⟨c, hc, hoc⟩ := mem_objects.mp ho
    exact c.find_eq_none.mp (h c (mem_reverse.mpr hc)) o hoc
  · intro h c hc
    exact c.find_eq_none.mpr fun o ho => h o (mem_objects.mpr ⟨c, mem_reverse.mp hc, ho⟩)

theorem lookup_isSome {L : Layout} : (L.lookup k).isSome ↔ ∃ o ∈ L.objects, o.key = k := by
  rw [← Option.ne_none_iff_isSome, ne_eq, lookup_eq_none]
  simp

end Layout

/-! ## Representation -/

/-- An active segment and its file hold the given contents; the file may go on after them. -/
structure ActiveRep (Z : Zstd) (fs : FS Name) (a : ActiveSegment) (c : Contents) : Prop where
  data : bodyOf Z c.objs <+: (fs.files a.ino).data
  size : a.size = (bodyOf Z c.objs).length
  index : IndexOk Z a.index c.objs

/-- What the memory of a store and the files of its active segment represent. -/
structure Rep (Z : Zstd) (F : FuseLib) (fs : FS Name) (s : Store) (L : Layout) : Prop where
  sealed : List.Forall₂ (SegRep Z F) s.sealed L.sealed
  active : Option.Rel (ActiveRep Z fs) s.active L.active

variable {Z : Zstd} {F : FuseLib} {fs : FS Name} {s : Store} {L : Layout}

/-! ## Reads -/

theorem probeSealed_eq {hit : SealedSegment → Except Err (Option α)} {f : Object → α}
    {gs : List SealedSegment} {cs : List Contents} (h : List.Forall₂ (SegRep Z F) gs cs)
    (hit_eq : ∀ g c, SegRep Z F g c → hit g = .ok ((c.find k).map f)) :
    probeSealed hit gs = .ok ((cs.findSome? fun c => c.find k).map f) := by
  induction h with
  | nil => rfl
  | @cons g c gs cs hgc _ ih =>
    rw [probeSealed, hit_eq g c hgc, findSome?_cons]
    cases c.find k with
    | none => exact ih
    | some o => rfl

/-- Reads that agree on what they take from a hit return it for the object of the layout. -/
theorem Rep.probe_eq (h : Rep Z F fs s L) (hopen : s.closed = false) {f : Object → α}
    {onActive : ActiveSegment → ActiveLoc → Except Err α}
    {onSealed : SealedSegment → Except Err (Option α)}
    (hactive : ∀ a c x o y, ActiveRep Z fs a c → c.objs = x ++ o :: y →
      onActive a (locOf (bodyOf Z x).length (objectRecord Z o)) = .ok (f o))
    (hsealed : ∀ g c, SegRep Z F g c → onSealed g = .ok ((c.find k).map f)) :
    s.probe k onActive onSealed = .ok ((L.lookup k).map f) := by
  have hrest : probeSealed onSealed s.sealed.reverse =
      .ok ((L.sealed.reverse.findSome? fun c => c.find k).map f) :=
    probeSealed_eq (List.forall₂_reverse_iff.mpr h.sealed) hsealed
  rw [Store.probe, hopen, if_neg (by decide), Store.activeLoc, Layout.lookup, Layout.segs,
    reverse_append]
  have hact := h.active
  revert hact
  cases s.active with
  | none =>
    intro hact
    cases hL : L.active with
    | none => simpa using hrest
    | some c => rw [hL] at hact; cases hact
  | some a =>
    intro hact
    cases hL : L.active with
    | none => rw [hL] at hact; cases hact
    | some c =>
      rw [hL] at hact
      cases hact with
      | some hrep =>
        cases hk : c.find k with
        | none =>
          have hno : a.index.lookup k = none := by
            rw [← Option.not_isSome_iff_eq_none, hrep.index.isSome_iff]
            rintro hmem
            obtain ⟨o, ho, hok⟩ := mem_map.mp hmem
            exact c.find_eq_none.mp hk o ho hok
          simpa [hno, hk] using hrest
        | some o =>
          obtain ⟨ho, rfl⟩ := c.find_eq_some.mp hk
          obtain ⟨x, y, hobjs⟩ := append_of_mem ho
          have hloc : a.index.lookup o.key =
              some (locOf (bodyOf Z x).length (objectRecord Z o)) :=
            (hrep.index _ _).mpr ((mem_locs Z).mpr ⟨x, o, y, hobjs, rfl⟩)
          simp [hloc, hk, hactive a c x o y hrep hobjs, Except.map]

theorem Rep.has_eq (h : Rep Z F fs s L) (hopen : s.closed = false) (k : Key) :
    has F s k = .ok (L.lookup k).isSome := by
  unfold has
  rw [h.probe_eq hopen (f := fun _ => ()) (fun _ _ _ _ _ _ _ => rfl)]
  · cases L.lookup k <;> rfl
  · intro g c hg
    rw [hg.has_eq]
    cases c.find k <;> rfl

theorem Rep.storedSize_eq (h : Rep Z F fs s L) (hopen : s.closed = false) (k : Key) :
    storedSize F s k = .ok ((L.lookup k).map fun o => (storedForm Z o.data).2.length) := by
  refine h.probe_eq hopen ?_ fun g c hg => by rw [hg.storedSize_eq]
  intro a c x o y _ hobjs
  rw [locOf_objectRecord Z _ o (c.fits o (by rw [hobjs]; simp)).2]

theorem ActiveRep.readActive_eq {a : ActiveSegment} {c : Contents} (h : ActiveRep Z fs a c)
    (hobjs : c.objs = x ++ o :: y) (hij : i + n ≤ (objectRecord Z o).length) :
    readActive fs a ((bodyOf Z x).length + i) n =
      .ok (slice (fs.files a.ino).data ((bodyOf Z x).length + i) ((bodyOf Z x).length + i + n)) := by
  have hlen : (bodyOf Z x).length + (objectRecord Z o).length ≤ (fs.files a.ino).data.length := by
    have := h.data.length_le
    rw [hobjs, bodyOf_append, records_cons, length_append, length_append] at this
    omega
  unfold readActive readAt
  rw [if_pos (by omega)]

theorem Rep.getRecord_eq (h : Rep Z F fs s L) (hopen : s.closed = false) (k : Key) :
    getRecord F fs s k =
      match L.lookup k with
      | none => .error .notFound
      | some o => .ok (objectRecord Z o) := by
  unfold getRecord
  simp only
  rw [h.probe_eq hopen (f := objectRecord Z) ?_ fun g c hg => hg.getRecord_eq k]
  · cases L.lookup k <;> rfl
  · intro a c x o y ha hobjs
    rw [locOf_objectRecord Z _ o (c.fits o (by rw [hobjs]; simp)).2]
    have hr := ha.readActive_eq hobjs (i := 0) (n := (objectRecord Z o).length) (by omega)
    rw [Nat.add_zero, slice_record Z (hobjs ▸ ha.data), length_objectRecord] at hr
    exact hr

theorem Rep.get_eq (h : Rep Z F fs s L) (hopen : s.closed = false) (k : Key) :
    get Z F fs s k =
      match L.lookup k with
      | none => .error .notFound
      | some o => .ok o.data := by
  unfold get
  simp only
  rw [h.probe_eq hopen (f := Object.data) ?_ fun g c hg => hg.get_eq k]
  · cases L.lookup k <;> rfl
  · intro a c x o y ha hobjs
    have ho := (c.fits o (by rw [hobjs]; simp)).2
    rw [locOf_objectRecord Z _ o ho]
    have hr := ha.readActive_eq hobjs (i := recHeaderSize)
      (n := (storedForm Z o.data).2.length) (by rw [length_objectRecord])
    rw [(recordAt_fields (slice_record Z (hobjs ▸ ha.data)) ho).2.2] at hr
    simp only [hr, decodePayload_storedForm ho]

/-! ### Missing -/

theorem Rep.missingChunk_eq (h : Rep Z F fs s L) (hopen : s.closed = false) (ks : List Key) :
    missingChunk F s ks = .ok (ks.filter fun k => (L.lookup k).isNone) := by
  induction ks with
  | nil => rfl
  | cons k ks ih =>
    rw [missingChunk, h.has_eq hopen k]
    simp only [ih, filter_cons]
    cases L.lookup k <;> rfl

theorem flatMap_chunk (keys : List Key) (n w : Nat) :
    (List.range w).flatMap (chunk keys n) = keys.take (w * n) := by
  induction w with
  | zero => simp
  | succ w ih =>
    have hlast : chunk keys n w = (keys.drop (w * n)).take n := by
      unfold chunk
      simp only [Nat.add_mul, Nat.one_mul]
      rcases Nat.le_total keys.length (w * n) with h | h
      · rw [Nat.min_eq_right h, drop_length, drop_eq_nil_of_le h, take_nil,
          take_nil]
      · rw [Nat.min_eq_left h]
        rcases Nat.le_total keys.length (w * n + n) with h' | h'
        · rw [Nat.min_eq_right h', take_of_length_le (by simp),
            take_of_length_le (by simp; omega)]
        · rw [Nat.min_eq_left h']
          congr 1
          omega
    rw [range_succ, flatMap_append, ih, flatMap_singleton, hlast, Nat.add_mul,
      Nat.one_mul, take_add]

theorem Rep.missing_eq (h : Rep Z F fs s L) (hopen : s.closed = false) (hprocs : 0 < procs)
    (keys : List Key) :
    missing F s procs keys = .ok (keys.filter fun k => (L.lookup k).isNone) := by
  unfold missing
  simp only
  by_cases hz : min procs ((keys.length + minMissingChunk - 1) / minMissingChunk) = 0
  · have hz' : min procs ((keys.length + 64 - 1) / 64) = 0 := hz
    have hnil : keys = [] := by
      rw [← length_eq_zero_iff]
      omega
    rw [if_pos hz, hnil]
    rfl
  · rw [if_neg hz]
    generalize min procs ((keys.length + minMissingChunk - 1) / minMissingChunk) = workers at hz
    have hpos : 0 < workers := Nat.pos_of_ne_zero hz
    have hcover : keys.length ≤ workers * ((keys.length + workers - 1) / workers) := by
      have hdiv := Nat.div_add_mod (keys.length + workers - 1) workers
      have hmod := Nat.mod_lt (keys.length + workers - 1) hpos
      omega
    have hmap : (fun i => missingChunk F s (chunk keys ((keys.length + workers - 1) / workers) i)) =
        fun i => pure ((chunk keys ((keys.length + workers - 1) / workers) i).filter
          fun k => (L.lookup k).isNone) := by
      funext i
      exact h.missingChunk_eq hopen _
    rw [hmap, mapM_pure]
    change Except.ok (List.flatten _) = _
    rw [← flatMap_def, ← filter_flatMap, flatMap_chunk, take_of_length_le hcover]

end AmberStore.Packstore
