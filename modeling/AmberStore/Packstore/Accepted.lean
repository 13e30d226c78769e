import AmberStore.Packstore.FooterLemmas

/-!
# Footers that are accepted

What `parseFooter` has checked when it accepts a file, whoever wrote it: the sections lie within the
file, the fanout table is monotonic and counts the rows, and the filter has the geometry of one that
was built.
-/

namespace AmberStore.Packstore
open Bytes Crc32 List

/-- The parts of a file whose footer was accepted. -/
structure Accepted (mm : Bytes) (fv : FooterView) : Prop where
  header : magicHeader <+: mm
  header_le : magicHeader.length ≤ fv.bodyLen
  bodyLen_lt : fv.bodyLen < 2 ^ 64
  keyCount_le : fv.keyCount ≤ maxUint32
  indexOff : fv.indexOff = fv.bodyLen + 1
  indexLen : fv.indexLen = fanoutSize + fv.keyCount * indexEntrySize
  fits : fv.indexOff + fv.indexLen + trailerSize ≤ mm.length
  index : parseIndexSection (slice mm fv.indexOff (fv.indexOff + fv.indexLen)) fv.keyCount =
    .ok (fv.fanout, fv.entries)
  filter : ∃ b, parseFilterSection b = .ok fv.filter

theorem parseFooter_accepted (h : parseFooter mm = .ok fv) : Accepted mm fv := by
  unfold parseFooter at h
  split at h
  · cases h
  next hsize =>
  split at h
  · cases h
  next hmagic =>
  simp only at h
  split at h
  · cases h
  split at h
  · cases h
  split at h
  · cases h
  next hoffsets =>
  split at h
  · cases h
  split at h
  · cases h
  split at h
  · cases h
  next hindex =>
  split at h
  · cases h
  next hfilter =>
  cases h
  simp only [not_or, Nat.not_lt, not_not, gt_iff_lt, Nat.not_le, ge_iff_le, ne_eq] at hoffsets
  obtain ⟨hbody, _, hcount, hoff, hlen, hfoff, hfits, _⟩ := hoffsets
  have hmin : trailerSize ≤ mm.length := Nat.le_trans (by decide) (Nat.le_of_not_lt hsize)
  exact {
    header := prefix_iff_eq_take.mpr (not_not.mp hmagic).symm
    header_le := hbody
    bodyLen_lt := uint_slice_lt _ 40 48
    keyCount_le := hcount
    indexOff := hoff
    indexLen := hlen
    fits := by
      rw [hfoff] at hfits
      exact Nat.add_le_of_le_sub hmin hfits
    index := hindex
    filter := ⟨_, hfilter⟩ }

theorem Accepted.bodyLen_le (h : Accepted mm fv) : fv.bodyLen ≤ mm.length := by
  have hfits := h.fits
  rw [h.indexOff] at hfits
  omega

/-! ## The index section -/

/-- What is accepted as an index section. -/
structure IndexAccepted (b : Bytes) (keyCount : Nat) (fanout : List Nat) (entries : Bytes) : Prop where
  length : b.length = fanoutSize + keyCount * indexEntrySize
  fanout_eq : fanout = readFanout b
  entries_eq : entries = b.drop fanoutSize
  monotonic : fanout.Pairwise (· ≤ ·)
  total : fanout.getD 255 0 = keyCount

theorem parseIndexSection_accepted (h : parseIndexSection b n = .ok (fanout, entries)) :
    IndexAccepted b n fanout entries := by
  unfold parseIndexSection at h
  split at h
  · cases h
  split at h
  · cases h
  next hlen =>
  simp only at h
  split at h
  · cases h
  next hmono =>
  split at h
  · cases h
  next htotal =>
  cases h
  exact ⟨not_not.mp hlen, rfl, rfl, not_not.mp hmono, not_not.mp htotal⟩

namespace IndexAccepted
variable {b entries : Bytes} {n : Nat} {fanout : List Nat}

section
variable (h : IndexAccepted b n fanout entries)
include h

theorem fanout_length : fanout.length = 256 := by
  rw [h.fanout_eq, readFanout, length_map, length_range]

theorem entries_length : entries.length = n * indexEntrySize := by
  rw [h.entries_eq, length_drop, h.length, Nat.add_sub_cancel_left]

theorem getD_mono (hij : i ≤ j) (hj : j < 256) :
    fanout.getD i 0 ≤ fanout.getD j 0 := by
  have hlen := h.fanout_length
  rcases Nat.lt_or_eq_of_le hij with hlt | rfl
  · have hi : i < fanout.length := by omega
    have hj' : j < fanout.length := by omega
    rw [getD_eq_getElem _ _ hi, getD_eq_getElem _ _ hj']
    exact pairwise_iff_getElem.mp h.monotonic i j hi hj' hlt
  · exact Nat.le_refl _

theorem getD_le (hi : i < 256) : fanout.getD i 0 ≤ n := by
  rw [← h.total]
  exact h.getD_mono (Nat.le_of_lt_succ hi) (by decide)

end

end IndexAccepted

/-! ## The filter section -/

/-- The geometry of a filter that was accepted. -/
structure FilterAccepted (f : BinaryFuse) : Prop where
  power : ∃ e, f.segmentLength.toNat = 2 ^ e
  mask : f.segmentLengthMask = f.segmentLength - 1
  count_pos : 0 < f.segmentCount.toNat
  countLength : f.segmentCountLength.toNat = f.segmentCount.toNat * f.segmentLength.toNat
  fingerprints : f.fingerprints.length = f.segmentCountLength.toNat + 2 * f.segmentLength.toNat
  fingerprints_lt : f.fingerprints.length < 2 ^ 32

/-- A number that shares no bit with its predecessor is a power of two. -/
theorem exists_two_pow {x : UInt32} (h0 : x ≠ 0) (h : x &&& (x - 1) = 0) : ∃ e, x.toNat = 2 ^ e := by
  have hne : x.toNat ≠ 0 := fun hx => h0 (UInt32.toNat_inj.mp hx)
  have hle : 1 ≤ x := UInt32.le_iff_toNat_le.mpr (Nat.one_le_iff_ne_zero.mpr hne)
  have hand := congrArg UInt32.toNat h
  rw [UInt32.toNat_and, UInt32.toNat_sub_of_le _ _ hle] at hand
  exact (Nat.and_sub_one_eq_zero_iff_isPowerOfTwo hne).mp hand

theorem parseFilterSection_accepted (h : parseFilterSection b = .ok f) : FilterAccepted f := by
  unfold parseFilterSection at h
  split at h
  · cases h
  split at h
  · cases h
  simp only at h
  split at h
  · cases h
  split at h
  · cases h
  next hcount =>
  split at h
  · cases h
  next hgeom =>
  cases h
  simp only [geometryOk, Bool.not_eq_true', Bool.not_eq_false, Bool.and_eq_true, bne_iff_ne, ne_eq,
    beq_iff_eq] at hgeom
  obtain ⟨⟨⟨⟨hzero, hpow⟩, hmask⟩, hlen⟩, hfp⟩ := hgeom
  exact {
    power := exists_two_pow hzero hpow
    mask := hmask
    count_pos := Nat.pos_of_ne_zero fun hz => hcount (UInt32.toNat_inj.mp hz)
    countLength := hlen
    fingerprints := by
      rw [length_map, length_range]
      exact hfp
    fingerprints_lt := by
      rw [length_map, length_range]
      exact uint_slice_lt b 25 29 }

end AmberStore.Packstore
