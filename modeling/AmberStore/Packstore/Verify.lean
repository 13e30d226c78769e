import AmberStore.Packstore.Write

/-!
# Verification of objects and records

`verifyObject` recomputes a key from the payload. `checkRecord` does so for an encoded record, after
its framing has been checked.
-/

namespace AmberStore.Packstore
open Bytes Amberpack

/-- For blobs and xattr sets, whose key carries the length of the payload, the length is checked as
well. -/
def verifyObject (H : Blake3) (o : Object) : Except Err Unit :=
  match Key.newFromHash o.key.type o.key.length (H o.data) with
  | .error e => .error (.verifyKey e)
  | .ok want =>
    if want ≠ o.key then .error .verifyHash
    else
      match o.key.type with
      | .blob | .xattrSet =>
        if o.key.length ≠ .ofNat o.data.length then
          .error (.verifyLength o.key.length o.data.length)
        else .ok ()
      | _ => .ok ()

def checkRecord (Z : Zstd) (H : Blake3) (k : Key) (rec : Bytes) : Except Err Unit :=
  match parseRecord rec with
  | .error e => .error (.record e)
  | .ok parsed =>
    if parsed.key ≠ k then .error .recordKey
    else
      match decodePayload Z parsed.flags parsed.ulen (rec.drop recHeaderSize) with
      | .error e => .error (.record e)
      | .ok payload => verifyObject H ⟨k, payload⟩

/-- The key of an object that passes is the one its payload gives. -/
theorem verifyObject_key (h : verifyObject H o = .ok ()) :
    Key.newFromHash o.key.type o.key.length (H o.data) = .ok o.key := by
  unfold verifyObject at h
  split at h
  · cases h
  · next want hwant =>
    split at h
    · cases h
    · next heq => rw [hwant, not_not.mp heq]

/-- The key of a blob or an xattr set carries the length of its payload. -/
theorem verifyObject_length (h : verifyObject H o = .ok ()) (ht : o.key.type = .blob ∨ o.key.type = .xattrSet) :
    o.key.length = .ofNat o.data.length := by
  unfold verifyObject at h
  split at h
  · cases h
  · split at h
    · cases h
    · rcases ht with ht | ht
      · rw [ht] at h
        by_contra hne
        rw [if_pos hne] at h
        cases h
      · rw [ht] at h
        by_contra hne
        rw [if_pos hne] at h
        cases h

theorem verifyObject_canonical (h : verifyObject H o = .ok ()) : o.key.Canonical :=
  Key.newFromHash_canonical (verifyObject_key h)

end AmberStore.Packstore
