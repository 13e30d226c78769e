import AmberStore.Lib.Bitset
import AmberStore.Lib.ConstMap
import AmberStore.Packstore.SafeReads

/-!
# Mark sets

A mark set is taken of a store at some time: one bit for each record of the sealed segments, at the
position of the record in the index of its segment, and a map for the active segment. It is a finite
set of the keys that were in the store then, whatever is appended later.
-/

namespace AmberStore.Packstore
open Bytes

structure MarkSet where
  segs : List SealedSegment
  bits : List (List UInt64)
  /-- The keys of the active segment, and whether they are marked. -/
  active : AList fun _ : Key => Bool
  marked : Nat

def newMarkSet (s : Store) : MarkSet where
  segs := s.sealed
  bits := s.sealed.map fun g => Bitset.empty g.fv.keyCount
  active :=
    match s.active with
    | none => ∅
    | some a => a.index.const false
  marked := 0

/-- Where a key has its mark. -/
inductive MarkLoc where
  | inActive
  | inSealed (seg pos : Nat)
  deriving DecidableEq

namespace MarkSet
variable (F : FuseLib)

/-- The newest of the first `n` segments that holds the key. -/
def locateSealed (segs : List SealedSegment) (k : Key) : Nat → Option MarkLoc
  | 0 => none
  | n + 1 =>
    match segs[n]? with
    | none => none
    | some g =>
      if !F.contains g.fv.filter (filterKey k) then locateSealed segs k n
      else
        match g.fv.lookupPos k with
        | some p => some (.inSealed n p)
        | none => locateSealed segs k n

def locate (m : MarkSet) (k : Key) : Option MarkLoc :=
  if (m.active.lookup k).isSome then some .inActive else locateSealed F m.segs k m.segs.length

/-- Whether the key is marked, given where its mark is. -/
def markAt (m : MarkSet) (k : Key) : MarkLoc → Bool
  | .inActive => (m.active.lookup k).getD false
  | .inSealed seg pos => Bitset.contains (m.bits.getD seg []) pos

/-- Set the mark of a key. -/
def setAt (m : MarkSet) (k : Key) : MarkLoc → MarkSet
  | .inActive => { m with active := m.active.insert k true }
  | .inSealed seg pos => { m with bits := m.bits.modify seg fun ws => Bitset.insert ws pos }

structure MarkResult where
  newly : Bool
  present : Bool
  deriving DecidableEq

def mark (m : MarkSet) (k : Key) : MarkResult × MarkSet :=
  match m.locate F k with
  | none => (⟨false, false⟩, m)
  | some loc =>
    let newly := !m.markAt k loc
    let m' := m.setAt k loc
    (⟨newly, true⟩, { m' with marked := if newly then m'.marked + 1 else m'.marked })

def contains (m : MarkSet) (k : Key) : Bool :=
  match m.locate F k with
  | none => false
  | some loc => m.markAt k loc

end MarkSet

/-! ## What is in a store -/

/-- Whether some segment of the store holds the key. -/
def Store.present (F : FuseLib) (s : Store) (k : Key) : Bool :=
  (s.activeLoc k).isSome || s.sealed.any fun g => g.has F k

theorem probeSealed_any (p : SealedSegment → Bool) (gs : List SealedSegment) :
    probeSealed (fun g => .ok (if p g then some () else none)) gs =
      .ok (if gs.any p then some () else none) := by
  induction gs with
  | nil => rfl
  | cons g gs ih =>
    rw [probeSealed, List.any_cons]
    cases p g with
    | true => rfl
    | false => exact ih

theorem has_present {F : FuseLib} {s : Store} (h : s.closed = false) (k : Key) :
    has F s k = .ok (s.present F k) := by
  rw [has, Store.probe, h, Store.present]
  cases s.activeLoc k with
  | some p => rfl
  | none =>
    simp only [Bool.false_eq_true, if_false, probeSealed_any, List.any_reverse, Option.isSome_none,
      Bool.false_or]
    cases s.sealed.any fun g => g.has F k <;> rfl

/-! ## Where the marks are -/

section Locate
variable {F : FuseLib} {segs : List SealedSegment} {k : Key}

theorem lookup_isSome (fv : FooterView) (k : Key) : (fv.lookup k).isSome = (fv.lookupPos k).isSome := by
  rw [FooterView.lookup, FooterView.lookupPos, searchIndex]
  cases searchIndexPos fv.fanout fv.entries k <;> rfl

theorem locateSealed_some (h : MarkSet.locateSealed F segs k n = some loc) :
    ∃ i p g, i < n ∧ loc = .inSealed i p ∧ segs[i]? = some g ∧ g.fv.lookupPos k = some p := by
  induction n with
  | zero => cases h
  | succ n ih =>
    rw [MarkSet.locateSealed] at h
    have hback : MarkSet.locateSealed F segs k n = some loc →
        ∃ i p g, i < n + 1 ∧ loc = .inSealed i p ∧ segs[i]? = some g ∧ g.fv.lookupPos k = some p := by
      intro hn
      obtain ⟨i, p, g, hi, hrest⟩ := ih hn
      exact ⟨i, p, g, Nat.lt_succ_of_lt hi, hrest⟩
    split at h
    · cases h
    next g hg =>
    split at h
    · exact hback h
    split at h
    next p hp =>
      cases h
      exact ⟨n, p, g, Nat.lt_succ_self n, rfl, hg, hp⟩
    · exact hback h

theorem locateSealed_isSome (hn : n ≤ segs.length) :
    (MarkSet.locateSealed F segs k n).isSome = (segs.take n).any fun g => g.has F k := by
  induction n with
  | zero => rfl
  | succ n ih =>
    have hget := List.getElem?_eq_getElem (Nat.lt_of_succ_le hn)
    have hrest := ih (Nat.le_of_succ_le hn)
    rw [MarkSet.locateSealed, hget, List.take_add_one, hget, List.any_append, ← hrest]
    simp only [Option.toList_some, List.any_cons, List.any_nil, Bool.or_false, SealedSegment.has,
      SealedSegment.find]
    cases F.contains segs[n].fv.filter (filterKey k) with
    | false => simp
    | true =>
      have hiff := lookup_isSome segs[n].fv k
      cases hp : segs[n].fv.lookupPos k with
      | some p =>
        rw [hp] at hiff
        simp [hiff]
      | none =>
        rw [hp] at hiff
        simp [hiff]

/-- The row at the position that a search finds carries the key. -/
theorem lookupPos_key {fv : FooterView} (h : fv.lookupPos k = some p) :
    (rowAt fv.entries p).take 32 = k.bytes := by
  unfold FooterView.lookupPos searchIndexPos at h
  dsimp only at h
  generalize (if k.lastByte.toNat > 0 then fv.fanout.getD (k.lastByte.toNat - 1) 0 else 0) = lo at h
  split at h
  · cases h
  · split at h
    · cases h
    next hrow =>
      cases h
      exact not_not.mp hrow

theorem locateSealed_inj (h : MarkSet.locateSealed F segs k n = some loc)
    (h' : MarkSet.locateSealed F segs k' n = some loc) : k = k' := by
  obtain ⟨i, p, g, -, rfl, hg, hp⟩ := locateSealed_some h
  obtain ⟨i', p', g', -, hloc, hg', hp'⟩ := locateSealed_some h'
  obtain ⟨rfl, rfl⟩ := MarkLoc.inSealed.inj hloc
  cases hg.symm.trans hg'
  exact Key.ext ((lookupPos_key hp).symm.trans (lookupPos_key hp'))

end Locate

/-! ## A finite set of keys -/

section Refinement
variable {F : FuseLib} {s : Store} {m : MarkSet} {M : Finset Key} {k : Key}

/-- The mark set was taken of the store, and the keys that are marked in it are the given ones. -/
structure MarkSet.Marks (F : FuseLib) (s : Store) (m : MarkSet) (M : Finset Key) : Prop where
  segs : m.segs = s.sealed
  active : ∀ k, (m.active.lookup k).isSome = (s.activeLoc k).isSome
  words : m.bits.map List.length = s.sealed.map fun g => (g.fv.keyCount + 63) / 64
  present : ∀ k ∈ M, s.present F k = true
  marks : ∀ k loc, m.locate F k = some loc → m.markAt k loc = decide (k ∈ M)
  count : m.marked = M.card

namespace MarkSet.Marks

theorem locate_isSome (h : m.Marks F s M) (k : Key) : (m.locate F k).isSome = s.present F k := by
  have hsealed := locateSealed_isSome (F := F) (k := k) (Nat.le_refl m.segs.length)
  rw [List.take_length, h.segs] at hsealed
  rw [MarkSet.locate, Store.present, ← h.active, h.segs]
  cases (m.active.lookup k).isSome with
  | true => rfl
  | false => exact hsealed

theorem contains_eq (h : m.Marks F s M) (k : Key) : m.contains F k = decide (k ∈ M) := by
  have hsome := h.locate_isSome k
  rw [MarkSet.contains]
  cases hloc : m.locate F k with
  | some loc => exact h.marks k loc hloc
  | none =>
    rw [hloc] at hsome
    rw [eq_comm, decide_eq_false_iff_not]
    intro hk
    rw [h.present k hk] at hsome
    cases hsome

end MarkSet.Marks

theorem newMarkSet_active (s : Store) (k : Key) :
    (newMarkSet s).active.lookup k = (s.activeLoc k).map fun _ => false := by
  rw [newMarkSet, Store.activeLoc]
  cases s.active with
  | none => exact AList.lookup_empty k
  | some a =>
    dsimp only
    rw [AList.lookup_const, Option.map_map]
    rfl

theorem newMarkSet_marks (F : FuseLib) (s : Store) : (newMarkSet s).Marks F s ∅ where
  segs := rfl
  active k := by rw [newMarkSet_active, Option.isSome_map]
  words := by
    rw [newMarkSet, List.map_map]
    exact List.map_congr_left fun g _ => Bitset.length_empty _
  present := nofun
  marks k loc _ := by
    rw [decide_eq_false (Finset.notMem_empty k)]
    cases loc with
    | inActive =>
      rw [MarkSet.markAt, newMarkSet_active]
      cases s.activeLoc k <;> rfl
    | inSealed seg pos =>
      rw [MarkSet.markAt, newMarkSet, List.getD_eq_getElem?_getD, List.getElem?_map]
      cases s.sealed[seg]? with
      | none => exact Bitset.contains_empty 0 pos
      | some g => exact Bitset.contains_empty _ _
  count := rfl

theorem MarkSet.Marks.word_lt (h : m.Marks F s M) (hacc : ∀ g ∈ s.sealed, parseFooter g.mm = .ok g.fv)
    (hloc : m.locate F k = some (.inSealed seg pos)) :
    seg < m.bits.length ∧ pos / 64 < (m.bits.getD seg []).length := by
  rw [MarkSet.locate] at hloc
  split at hloc
  · cases hloc
  obtain ⟨i, p, g, -, heq, hg, hp⟩ := locateSealed_some hloc
  obtain ⟨rfl, rfl⟩ := MarkLoc.inSealed.inj heq
  rw [h.segs] at hg
  have hwords := congrArg (·[seg]?) h.words
  simp only [List.getElem?_map, hg, Option.map_some, Option.map_eq_some_iff] at hwords
  obtain ⟨ws, hws, hlen⟩ := hwords
  have hindex := (parseFooter_accepted (hacc g (List.mem_of_getElem? hg))).index
  have hpos := searchIndexPos_lt (parseIndexSection_accepted hindex) hp
  refine ⟨(List.getElem?_eq_some_iff.mp hws).1, ?_⟩
  rw [List.getD_eq_getElem?_getD, hws, Option.getD_some, hlen]
  omega

namespace MarkSet

theorem setAt_active (hloc : m.locate F k = some loc) (x : Key) :
    ((m.setAt k loc).active.lookup x).isSome = (m.active.lookup x).isSome := by
  cases loc with
  | inSealed seg pos => rfl
  | inActive =>
    have hk : (m.active.lookup k).isSome = true := by
      rw [locate] at hloc
      split at hloc
      · assumption
      · obtain ⟨_, _, _, -, heq, -⟩ := locateSealed_some hloc
        cases heq
    rw [setAt]
    by_cases hx : x = k
    · rw [hx, AList.lookup_insert, hk]
      rfl
    · rw [AList.lookup_insert_ne hx]

theorem setAt_rest (m : MarkSet) (k : Key) (loc : MarkLoc) :
    (m.setAt k loc).segs = m.segs ∧ (m.setAt k loc).marked = m.marked := by
  cases loc <;> exact ⟨rfl, rfl⟩

theorem locate_setAt (hloc : m.locate F k = some loc) (x : Key) :
    (m.setAt k loc).locate F x = m.locate F x := by
  rw [locate, locate, setAt_active hloc, (m.setAt_rest k loc).1]

theorem locate_inSealed (h : m.locate F k = some (.inSealed seg pos)) :
    locateSealed F m.segs k m.segs.length = some (.inSealed seg pos) := by
  rw [locate] at h
  split at h
  · cases h
  · exact h

theorem markAt_setAt (h : m.Marks F s M) (hacc : ∀ g ∈ s.sealed, parseFooter g.mm = .ok g.fv)
    (hloc : m.locate F k = some loc) (hx : m.locate F x = some loc') :
    (m.setAt k loc).markAt x loc' = (m.markAt x loc' || decide (x = k)) := by
  have hother : loc ≠ loc' → decide (x = k) = false := by
    intro hne
    rw [decide_eq_false_iff_not]
    rintro rfl
    exact hne (Option.some.inj (hloc.symm.trans hx))
  cases loc with
  | inActive =>
    cases loc' with
    | inActive =>
      rw [setAt, markAt, markAt]
      by_cases hxk : x = k
      · rw [hxk, AList.lookup_insert, decide_eq_true rfl, Bool.or_true]
        rfl
      · rw [AList.lookup_insert_ne hxk, decide_eq_false hxk, Bool.or_false]
    | inSealed seg pos =>
      rw [hother nofun, Bool.or_false]
      rfl
  | inSealed seg pos =>
    cases loc' with
    | inActive =>
      rw [hother nofun, Bool.or_false]
      rfl
    | inSealed seg' pos' =>
      rw [setAt, markAt, markAt]
      dsimp only
      by_cases hseg : seg = seg'
      · subst hseg
        obtain ⟨hbits, hword⟩ := h.word_lt hacc hloc
        have hget : (m.bits.modify seg fun ws => Bitset.insert ws pos).getD seg [] =
            Bitset.insert (m.bits.getD seg []) pos := by
          simp [List.getD_eq_getElem?_getD, hbits]
        have hiff : pos' = pos ↔ x = k := by
          constructor
          · rintro rfl
            exact locateSealed_inj (locate_inSealed hx) (locate_inSealed hloc)
          · rintro rfl
            exact (MarkLoc.inSealed.inj (Option.some.inj (hx.symm.trans hloc))).2
        rw [hget, Bitset.contains_insert hword]
        simp only [hiff]
      · have hget : (m.bits.modify seg fun ws => Bitset.insert ws pos).getD seg' [] =
            m.bits.getD seg' [] := by
          simp [List.getD_eq_getElem?_getD, hseg]
        rw [hget, hother fun heq => hseg (MarkLoc.inSealed.inj heq).1, Bool.or_false]

theorem setAt_words (m : MarkSet) (k : Key) (loc : MarkLoc) :
    (m.setAt k loc).bits.map List.length = m.bits.map List.length := by
  cases loc with
  | inActive => rfl
  | inSealed seg pos =>
    apply List.ext_getElem?
    intro i
    rw [setAt, List.getElem?_map, List.getElem?_map, List.getElem?_modify, Option.map_eq_map,
      Option.map_map]
    cases m.bits[i]? with
    | none => rfl
    | some ws =>
      simp only [Option.map_some, Function.comp_apply]
      split
      · rw [Bitset.length_insert]
      · rfl

end MarkSet

/-- Marking adds the key to the set if it is in the store, and tells whether it was there. -/
theorem MarkSet.Marks.mark (h : m.Marks F s M) (hacc : ∀ g ∈ s.sealed, parseFooter g.mm = .ok g.fv)
    (k : Key) : (m.mark F k).1 = ⟨s.present F k && decide (k ∉ M), s.present F k⟩ ∧
      (m.mark F k).2.Marks F s (if s.present F k then insert k M else M) := by
  have hsome := h.locate_isSome k
  rw [MarkSet.mark]
  cases hloc : m.locate F k with
  | none =>
    rw [hloc] at hsome
    rw [← hsome]
    exact ⟨rfl, h⟩
  | some loc =>
    rw [hloc] at hsome
    have hmark := h.marks k loc hloc
    obtain ⟨hsegs, hmarked⟩ := m.setAt_rest k loc
    have hpresent : s.present F k = true := hsome.symm
    rw [hpresent, if_pos rfl]
    refine ⟨by simp [hmark], ?_⟩
    exact {
      segs := hsegs.trans h.segs
      active := fun x => (setAt_active hloc x).trans (h.active x)
      words := (m.setAt_words k loc).trans h.words
      present := by
        intro x hx
        rcases Finset.mem_insert.mp hx with rfl | hx
        · exact hpresent
        · exact h.present x hx
      marks := by
        intro x loc' hx
        have hx' : m.locate F x = some loc' := (locate_setAt hloc x).symm.trans hx
        refine (markAt_setAt h hacc hloc hx').trans ?_
        rw [h.marks x loc' hx', Bool.eq_iff_iff]
        simp [or_comm]
      count := by
        dsimp only
        rw [hmark, hmarked, h.count]
        by_cases hk : k ∈ M
        · rw [decide_eq_true hk, Finset.insert_eq_of_mem hk]
          rfl
        · rw [decide_eq_false hk, Finset.card_insert_of_notMem hk]
          rfl }

/-! ## Runs -/

/-- The calls on a mark set, and what happens to the store meanwhile. -/
inductive MarkCall where
  | mark (k : Key)
  | contains (k : Key)
  | marked
  | store (act : Act World Err Unit)

inductive MarkAnswer where
  | mark (r : MarkSet.MarkResult)
  | contains (b : Bool)
  | marked (n : Nat)
  | store
  deriving DecidableEq

/-- One call, with a mark set and the store that it was taken of some time ago. -/
def MarkCall.run (F : FuseLib) : MarkCall → World × MarkSet → MarkAnswer × World × MarkSet
  | .mark k, (w, m) => (.mark (m.mark F k).1, w, (m.mark F k).2)
  | .contains k, (w, m) => (.contains (m.contains F k), w, m)
  | .marked, (w, m) => (.marked m.marked, w, m)
  | .store act, (w, m) => (.store, (act w).final, m)

def runCalls (F : FuseLib) : List MarkCall → World × MarkSet → List MarkAnswer
  | [], _ => []
  | c :: cs, x => (c.run F x).1 :: runCalls F cs (c.run F x).2

/-- The same call on a finite set of keys from a snapshot. -/
def MarkCall.spec (snapshot : Key → Bool) : MarkCall → Finset Key → MarkAnswer × Finset Key
  | .mark k, M =>
    (.mark ⟨snapshot k && decide (k ∉ M), snapshot k⟩, if snapshot k then insert k M else M)
  | .contains k, M => (.contains (decide (k ∈ M)), M)
  | .marked, M => (.marked M.card, M)
  | .store _, M => (.store, M)

def specCalls (snapshot : Key → Bool) : List MarkCall → Finset Key → List MarkAnswer
  | [], _ => []
  | c :: cs, M => (c.spec snapshot M).1 :: specCalls snapshot cs (c.spec snapshot M).2

theorem MarkCall.run_spec (h : m.Marks F s M) (hacc : ∀ g ∈ s.sealed, parseFooter g.mm = .ok g.fv)
    (c : MarkCall) (w : World) : (c.run F (w, m)).1 = (c.spec (s.present F) M).1 ∧
      (c.run F (w, m)).2.2.Marks F s (c.spec (s.present F) M).2 := by
  cases c with
  | mark k =>
    obtain ⟨hresult, hmarks⟩ := h.mark hacc k
    exact ⟨congrArg MarkAnswer.mark hresult, hmarks⟩
  | contains k => exact ⟨congrArg MarkAnswer.contains (h.contains_eq k), h⟩
  | marked => exact ⟨congrArg MarkAnswer.marked h.count, h⟩
  | store act => exact ⟨rfl, h⟩

theorem runCalls_spec (h : m.Marks F s M) (hacc : ∀ g ∈ s.sealed, parseFooter g.mm = .ok g.fv)
    (cs : List MarkCall) (w : World) : runCalls F cs (w, m) = specCalls (s.present F) cs M := by
  induction cs generalizing m M w with
  | nil => rfl
  | cons c cs ih =>
    obtain ⟨hanswer, hmarks⟩ := c.run_spec h hacc w
    rw [runCalls, specCalls, hanswer]
    exact congrArg _ (ih hmarks _)

/-- A mark set answers every sequence of calls as a finite set of keys from the snapshot does, whatever
happens to the store meanwhile; and the snapshot holds the keys that the store has. -/
theorem markSet_refines (F : FuseLib) (w : World) (hacc : ∀ g ∈ w.s.sealed, parseFooter g.mm = .ok g.fv)
    (calls : List MarkCall) :
    runCalls F calls (w, newMarkSet w.s) = specCalls (w.s.present F) calls ∅ ∧
    (w.s.closed = false → ∀ k, has F w.s k = .ok (w.s.present F k)) :=
  ⟨runCalls_spec (newMarkSet_marks F w.s) hacc calls w, has_present⟩

theorem exists_zeroWorld : ∃ w : World, (∀ g ∈ w.s.sealed, parseFooter g.mm = .ok g.fv) ∧
    w.s.present .full zeroEntry.key = true := by
  obtain ⟨foot, f, hfoot, -, hparse, -⟩ := parseFooter_buildFooter .full (List.prefix_refl magicHeader)
    (List.cons_ne_nil zeroEntry []) (by decide)
    fun foot hfoot => Nat.lt_trans (length_zeroEntry hfoot) (by decide)
  let g : SealedSegment := ⟨1, magicHeader ++ foot, footerView magicHeader.length [zeroEntry] f⟩
  have hfind : g.fv.lookup zeroEntry.key = some (zeroEntry.off, zeroEntry.slen) :=
    footerView_lookup_of_mem _ f (List.nodup_singleton _) List.mem_cons_self (by decide) (by decide)
  refine ⟨⟨⟨fun _ => .empty, 0, [], []⟩, ⟨⟨0, true⟩, [g], none, 2, false, none, none⟩, [], []⟩, ?_, ?_⟩
  · intro g hg
    obtain rfl := List.mem_singleton.mp hg
    exact hparse
  · simp [Store.present, SealedSegment.has, SealedSegment.find, FuseLib.full, hfind]

/-- A key of a sealed segment, marked twice. -/
theorem markSet_refines_twice : ∃ w : World,
    runCalls .full [.mark zeroEntry.key, .mark zeroEntry.key, .contains zeroEntry.key, .marked]
      (w, newMarkSet w.s) =
    [.mark ⟨true, true⟩, .mark ⟨false, true⟩, .contains true, .marked 1] := by
  obtain ⟨w, hacc, hpresent⟩ := exists_zeroWorld
  refine ⟨w, (markSet_refines .full w hacc _).1.trans ?_⟩
  simp [specCalls, MarkCall.spec, hpresent]

end Refinement
end AmberStore.Packstore
