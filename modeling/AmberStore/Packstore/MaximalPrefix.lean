import AmberStore.Packstore.Recover

/-!
# The valid prefix of a file

Whatever the bytes of an active segment are, its scan stops at the end of the longest run of records that stand
back to back after the header, and finds each key at its last record. Cutting the file there changes nothing.
-/

namespace AmberStore.Packstore
open Bytes Amberpack List

/-- Records that `parseRecord` accepts back to back from an offset on, and where they end. -/
inductive Accepts (b : Bytes) : Nat → List (Nat × Record) → Nat → Prop
  | nil : Accepts b off [] off
  | cons : parseRecord (b.drop off) = .ok r → Accepts b (off + (recHeaderSize + r.slen)) rs n →
    Accepts b off ((off, r) :: rs) n

/-- Where a record stands and what its header says. -/
def recordLoc (p : Nat × Record) : ActiveLoc := ⟨p.1, p.2.flags, p.2.ulen, p.2.slen⟩

/-- The scan puts the records into its index one after the other. -/
def indexAll (index : AList fun _ : Key => ActiveLoc) (rs : List (Nat × Record)) : AList fun _ : Key => ActiveLoc :=
  rs.foldl (fun index p => index.insert p.2.key (recordLoc p)) index

/-- What a scan finds: the longest run of records, and for each key its last record. -/
structure LongestRun (b : Bytes) (res : ScanResult) (rs : List (Nat × Record)) : Prop where
  accepts : Accepts b magicHeader.length rs res.size
  longest : ∀ rs' n, Accepts b magicHeader.length rs' n → rs' <+: rs ∧ n ≤ res.size
  index : ∀ k, res.index.lookup k = ((rs.filter fun p => p.2.key = k).getLast?).map recordLoc
  unsealed : res.sealed = false

variable {b : Bytes} {rs rs' : List (Nat × Record)} {index : AList fun _ : Key => ActiveLoc}

namespace Accepts

theorem le (h : Accepts b off rs n) : off ≤ n := by
  induction h with
  | nil => exact Nat.le_refl _
  | cons _ _ ih => exact Nat.le_trans (Nat.le_add_right ..) ih

theorem le_length (h : Accepts b off rs n) (hoff : off ≤ b.length) : n ≤ b.length := by
  induction h with
  | nil => exact hoff
  | cons hr _ ih =>
    apply ih
    have hlen := (parseRecord_inv hr).length
    rw [length_drop] at hlen
    omega

/-- A run that no record follows is the longest one. -/
theorem longest (h : Accepts b off rs n) (hend : ∀ r, parseRecord (b.drop n) ≠ .ok r) (h' : Accepts b off rs' n') :
    rs' <+: rs ∧ n' ≤ n := by
  induction h generalizing rs' with
  | nil =>
    cases h' with
    | nil => exact ⟨prefix_rfl, Nat.le_refl _⟩
    | cons hr _ => exact absurd hr (hend _)
  | cons hr hrest ih =>
    cases h' with
    | nil => exact ⟨ nil_prefix, Nat.le_trans (Nat.le_add_right ..) hrest.le⟩
    | cons hr' hrest' =>
      cases hr.symm.trans hr'
      obtain ⟨hpre, hle⟩ := ih hend hrest'
      exact ⟨(prefix_cons_inj _).mpr hpre, hle⟩

end Accepts

theorem getD_of_parseRecord (h : parseRecord (b.drop off) = .ok r) : off < b.length ∧ b.getD off 0 ≠ tagSeal := by
  have hp := parseRecord_inv h
  have hlen := hp.length
  have htag := hp.tag
  rw [length_drop, recHeaderSize] at hlen
  rw [getD_eq_getElem?_getD, getElem?_drop, Nat.add_zero, ← getD_eq_getElem?_getD] at htag
  refine ⟨by omega, ?_⟩
  rw [htag]
  decide

/-- The scan goes over a run of records and stops where no record follows. -/
theorem scanFrom_accepts (hfooter : parseFooter b = .error e) (off : Nat) (index : AList fun _ : Key => ActiveLoc) :
    ∃ rs n, Accepts b off rs n ∧ scanFrom b off index = ⟨n, indexAll index rs, false⟩ ∧
      ∀ r, parseRecord (b.drop n) ≠ .ok r := by
  fun_induction scanFrom b off index with
  | case1 off index hlt htag v hv => cases hfooter.symm.trans hv
  | case2 off index hlt htag =>
    exact ⟨[], off, .nil, rfl, fun r hr => (getD_of_parseRecord hr).2 htag⟩
  | case3 off index hlt htag e he =>
    refine ⟨[], off, .nil, rfl, fun r hr => ?_⟩
    cases he.symm.trans hr
  | case4 off index hlt htag r hr ih =>
    obtain ⟨rs, n, hrs, heq, hend⟩ := ih
    exact ⟨(off, r) :: rs, n, .cons hr hrs, heq, hend⟩
  | case5 off index hlt =>
    exact ⟨[], off, .nil, rfl, fun r hr => hlt (getD_of_parseRecord hr).1⟩

/-- A file that ends with a run of records is scanned to its end. -/
theorem Accepts.scanFrom_take (h : Accepts b off rs n) (hn : n ≤ b.length) :
    scanFrom (b.take n) off index = ⟨n, indexAll index rs, false⟩ := by
  induction h generalizing index with
  | nil =>
    rw [scanFrom, dif_neg]
    · rfl
    · rw [length_take]
      omega
  | @cons off r rs n hr hrest ih =>
    have hle := hrest.le
    have hr' : parseRecord ((b.take n).drop off) = .ok r := by
      rw [drop_take]
      exact parseRecord_cut hr (by omega)
    obtain ⟨hlt, htag⟩ := getD_of_parseRecord hr'
    rw [scanFrom, dif_pos hlt, if_neg htag, hr']
    exact ih hn

theorem lookup_indexAll (rs : List (Nat × Record)) (k : Key) :
    (indexAll ∅ rs).lookup k = ((rs.filter fun p => p.2.key = k).getLast?).map recordLoc := by
  induction rs using List.reverseRecOn with
  | nil => rfl
  | append_singleton rs p ih =>
    rw [indexAll, foldl_append, filter_append]
    by_cases hk : p.2.key = k
    · subst hk
      rw [filter_cons_of_pos (by simp), filter_nil, getLast?_concat]
      exact AList.lookup_insert _
    · rw [filter_cons_of_neg (by simpa using hk), filter_nil, append_nil, ← ih]
      exact AList.lookup_insert_ne (Ne.symm hk)

theorem scanActive_of_magic (h : magicHeader <+: b) : scanActive b = scanFrom b magicHeader.length ∅ := by
  rw [scanActive, if_neg]
  rw [not_or, not_lt, not_not]
  exact ⟨h.length_le, (prefix_iff_eq_take.mp h).symm⟩

/-- The scan of a file that starts as a segment and has no footer finds the longest run of records, and finds the
same again in the file that is cut at the end of it. -/
theorem scanActive_maximal (hmagic : magicHeader <+: b) (hfooter : parseFooter b = .error e) :
    (∃ rs, LongestRun b (scanActive b) rs) ∧ scanActive (b.take (scanActive b).size) = scanActive b := by
  obtain ⟨rs, n, hrs, heq, hend⟩ := scanFrom_accepts hfooter magicHeader.length ∅
  have hscan := (scanActive_of_magic hmagic).trans heq
  rw [hscan]
  refine ⟨⟨rs, hrs, fun rs' n' => hrs.longest hend, lookup_indexAll rs, rfl⟩, ?_⟩
  have hcut : magicHeader <+: b.take n := prefix_take_iff.mpr ⟨hmagic, hrs.le⟩
  rw [scanActive_of_magic hcut]
  exact hrs.scanFrom_take (hrs.le_length hmagic.length_le)

/-- A file with one record and the start of a footer. -/
def tornFile : Bytes := magicHeader ++ recordBytes ⟨replicate 32 0, length_zeros⟩ 0 1 [7] ++ [tagSeal, 0]

theorem scanActive_maximal_torn : magicHeader <+: tornFile ∧ parseFooter tornFile = .error (.tooShort 57) ∧
    (∃ rs, LongestRun tornFile (scanActive tornFile) rs) ∧
      scanActive (tornFile.take (scanActive tornFile).size) = scanActive tornFile :=
  have hmagic : magicHeader <+: tornFile := ⟨_, (append_assoc ..).symm⟩
  have hfooter : parseFooter tornFile = .error (.tooShort 57) := by decide +kernel
  ⟨hmagic, hfooter, scanActive_maximal hmagic hfooter⟩

end AmberStore.Packstore
