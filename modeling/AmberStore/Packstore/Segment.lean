import AmberStore.Packstore.FooterLemmas
import AmberStore.Packstore.Recover

/-!
# The contents of a segment

A segment file is the header magic, the records in write order, and a footer once it is sealed.
`Contents` is the list of objects behind such a file; this file says where their records lie, what
the index of an active segment and the footer of a sealed one hold, and what the reads return.
-/

namespace AmberStore.Packstore
open Bytes Amberpack List

/-- The objects of one segment in write order. Keys are canonical and distinct, payloads fit. -/
structure Contents where
  objs : List Object
  nodup : (objs.map Object.key).Nodup
  fits : ∀ o ∈ objs, o.key.Canonical ∧ o.data.length ≤ maxPayload

namespace Contents

def empty : Contents := ⟨[], .nil, nofun⟩

/-- The contents after one more object. -/
def snoc (c : Contents) (o : Object) (hk : o.key ∉ c.objs.map Object.key)
    (ho : o.key.Canonical ∧ o.data.length ≤ maxPayload) : Contents where
  objs := c.objs ++ [o]
  nodup := by
    rw [map_append, nodup_append]
    refine ⟨c.nodup, nodup_singleton _, ?_⟩
    intro a ha b hb hab
    exact hk (mem_singleton.mp hb ▸ hab ▸ ha)
  fits := by
    intro x hx
    rcases mem_append.mp hx with hx | hx
    · exact c.fits x hx
    · exact mem_singleton.mp hx ▸ ho

def take (c : Contents) (n : Nat) : Contents where
  objs := c.objs.take n
  nodup := c.nodup.sublist ((take_sublist n _).map _)
  fits := fun o ho => c.fits o (mem_of_mem_take ho)

/-- The object stored under a key. -/
def find (c : Contents) (k : Key) : Option Object := c.objs.find? fun o => o.key = k

theorem key_inj (c : Contents) (ha : a ∈ c.objs) (hb : b ∈ c.objs) (h : a.key = b.key) : a = b :=
  inj_on_of_nodup_map c.nodup ha hb h

theorem find_eq_some (c : Contents) : c.find k = some o ↔ o ∈ c.objs ∧ o.key = k := by
  constructor
  · intro h
    exact ⟨mem_of_find?_eq_some h, by simpa using find?_some h⟩
  · rintro ⟨ho, rfl⟩
    cases h : c.find o.key with
    | none => simpa using find?_eq_none.mp h o ho
    | some o' =>
      have hk : o'.key = o.key := by simpa using find?_some h
      rw [c.key_inj (mem_of_find?_eq_some h) ho hk]

theorem find_eq_none (c : Contents) : c.find k = none ↔ ∀ o ∈ c.objs, o.key ≠ k := by
  simp [find]

end Contents

section Bytes
variable (Z : Zstd)

/-! ## The body -/

/-- The records of a list of objects, back to back. -/
def records (objs : List Object) : Bytes := (objs.map (objectRecord Z)).flatten

def bodyOf (objs : List Object) : Bytes := magicHeader ++ records Z objs

theorem records_append (a b : List Object) : records Z (a ++ b) = records Z a ++ records Z b := by
  simp [records]

theorem records_cons (o : Object) (l : List Object) :
    records Z (o :: l) = objectRecord Z o ++ records Z l := by
  simp [records]

theorem bodyOf_append (a b : List Object) : bodyOf Z (a ++ b) = bodyOf Z a ++ records Z b := by
  rw [bodyOf, records_append, bodyOf, append_assoc]

theorem bodyOf_snoc (a : List Object) (o : Object) :
    bodyOf Z (a ++ [o]) = bodyOf Z a ++ objectRecord Z o := by
  rw [bodyOf_append, records_cons]
  simp [records]

@[simp] theorem bodyOf_nil : bodyOf Z [] = magicHeader := by simp [bodyOf, records]

theorem magicHeader_prefix_bodyOf (objs : List Object) : magicHeader <+: bodyOf Z objs :=
  prefix_append ..

theorem bodyOf_prefix_append (a b : List Object) : bodyOf Z a <+: bodyOf Z (a ++ b) := by
  rw [bodyOf_append]; exact prefix_append ..

theorem length_objectRecord (o : Object) :
    (objectRecord Z o).length = recHeaderSize + (storedForm Z o.data).2.length := length_recordBytes

theorem length_objectRecord_pos (o : Object) : recHeaderSize ≤ (objectRecord Z o).length := by
  rw [length_objectRecord]; exact Nat.le_add_right ..

theorem length_le_bodyOf (objs : List Object) : objs.length ≤ (bodyOf Z objs).length := by
  induction objs with
  | nil => exact Nat.zero_le _
  | cons o l ih =>
    have hrec := length_objectRecord_pos Z o
    rw [bodyOf, length_append] at ih ⊢
    rw [records_cons, length_append, length_cons]
    rw [show recHeaderSize = 46 from rfl] at hrec
    omega

theorem storedForm_length_le (h : data.length ≤ maxPayload) :
    (storedForm Z data).2.length ≤ maxPayload := (storedForm_lengths h).slen_le

theorem length_records_le {objs : List Object} (h : ∀ o ∈ objs, o.data.length ≤ maxPayload) :
    (records Z objs).length ≤ objs.length * (recHeaderSize + maxPayload) := by
  induction objs with
  | nil => simp [records]
  | cons o l ih =>
    have hl := ih fun x hx => h x (mem_cons_of_mem _ hx)
    have ho := storedForm_length_le Z (h o mem_cons_self)
    rw [records_cons, length_append, length_objectRecord, length_cons, Nat.add_mul,
      Nat.one_mul]
    omega

/-! ## Where the records lie -/

/-- Keys and locations of records that start at `off`. -/
def locsFrom (off : Nat) : List Object → List (Key × ActiveLoc)
  | [] => []
  | o :: l => (o.key, locOf off (objectRecord Z o)) :: locsFrom (off + (objectRecord Z o).length) l

def locs (objs : List Object) : List (Key × ActiveLoc) := locsFrom Z magicHeader.length objs

theorem locsFrom_append (off : Nat) (a b : List Object) :
    locsFrom Z off (a ++ b) = locsFrom Z off a ++ locsFrom Z (off + (records Z a).length) b := by
  induction a generalizing off with
  | nil => simp [locsFrom, records]
  | cons o a ih =>
    simp only [cons_append, locsFrom, ih, records_cons, length_append, Nat.add_assoc]

theorem locs_append (a b : List Object) :
    locs Z (a ++ b) = locs Z a ++ locsFrom Z (bodyOf Z a).length b := by
  rw [locs, locsFrom_append, locs, bodyOf, length_append]

theorem locs_snoc (a : List Object) (o : Object) :
    locs Z (a ++ [o]) = locs Z a ++ [(o.key, locOf (bodyOf Z a).length (objectRecord Z o))] := by
  rw [locs_append]; rfl

theorem map_fst_locsFrom (off : Nat) (objs : List Object) :
    (locsFrom Z off objs).map Prod.fst = objs.map Object.key := by
  induction objs generalizing off with
  | nil => rfl
  | cons o l ih => simp [locsFrom, ih]

theorem map_fst_locs (objs : List Object) : (locs Z objs).map Prod.fst = objs.map Object.key :=
  map_fst_locsFrom ..

/-- The location of an object is where the records before it end. -/
theorem mem_locs {objs : List Object} {p : Key × ActiveLoc} : p ∈ locs Z objs ↔
    ∃ a o b, objs = a ++ o :: b ∧ p = (o.key, locOf (bodyOf Z a).length (objectRecord Z o)) := by
  constructor
  · intro h
    induction objs using List.reverseRecOn with
    | nil => cases h
    | append_singleton l o ih =>
      rw [locs_snoc] at h
      rcases mem_append.mp h with h | h
      · obtain ⟨a, x, b, rfl, hp⟩ := ih h
        exact ⟨a, x, b ++ [o], by simp, hp⟩
      · exact ⟨l, o, [], rfl, mem_singleton.mp h⟩
  · rintro ⟨a, o, b, rfl, rfl⟩
    rw [locs_append]
    exact mem_append_right _ mem_cons_self

theorem locOf_objectRecord (off : Nat) (o : Object) (ho : o.data.length ≤ maxPayload) :
    locOf off (objectRecord Z o) =
      ⟨off, (storedForm Z o.data).1, o.data.length, (storedForm Z o.data).2.length⟩ := by
  have hbig : maxPayload < 256 ^ 4 := by decide
  have hs := storedForm_length_le Z ho
  have hflags : (objectRecord Z o ++ []).getD 33 0 = (storedForm Z o.data).1 := recordBytes_flags
  have hulen : slice (objectRecord Z o ++ []) 34 38 = putUint 4 o.data.length := recordBytes_ulen
  have hslen : slice (objectRecord Z o ++ []) 38 42 =
      putUint 4 (storedForm Z o.data).2.length := recordBytes_slen
  rw [append_nil] at hflags hulen hslen
  simp only [locOf, hflags, hulen, hslen]
  rw [uint_putUint_of_lt (by omega), uint_putUint_of_lt (by omega)]

/-! ## Reading a record -/

/-- The record of an object, where its location says it is. -/
theorem slice_record {a b : List Object} {o : Object} {data : Bytes}
    (h : bodyOf Z (a ++ o :: b) <+: data) :
    slice data (bodyOf Z a).length ((bodyOf Z a).length + (objectRecord Z o).length) =
      objectRecord Z o := by
  have hb : bodyOf Z (a ++ o :: b) = bodyOf Z a ++ objectRecord Z o ++ records Z b := by
    rw [bodyOf_append, records_cons, append_assoc]
  rw [hb] at h
  rw [← slice_of_prefix h (by simp)]
  exact slice_append _ _ _ rfl rfl

end Bytes
end AmberStore.Packstore
