import AmberStore.Fstree.Object
import Mathlib.Data.List.AList

/-!
# References

The record stored under a name: a key with its creator, the time of its creation and an optional
signature. The CBOR codec and the check of an SSHSIG are the libraries'.
-/

namespace AmberStore
open Except

structure Reference where
  name : Bytes
  key : Bytes
  user : Bytes
  createdAt : Int64
  signature : Bytes
  publicKey : Bytes
  deriving DecidableEq

/-- What the libraries decide. -/
structure RefLib where
  marshal : Reference → Option Bytes
  unmarshal : Bytes → Option Reference
  verifyNamespace : Bytes → Bytes → Bytes → String → Bool

/-- What may be wrong with a text field. -/
inductive TextFault where
  | empty
  | tooLong
  | notUtf8
  | at
  | control
  deriving DecidableEq

inductive RefError where
  | name (f : TextFault)
  | key (e : KeyError)
  | user (f : TextFault)
  | signatureTooLong
  | publicKeyTooLong
  | decoding
  | reencoding
  | notCanonical
  | notSigned
  | signature
  deriving DecidableEq

namespace Reference

def maxNameLen : Nat := 1024
def maxUserLen : Nat := 1024
def maxSignatureLen : Nat := 64 * 1024
def maxPublicKeyLen : Nat := 16 * 1024

/-- The namespace of the signatures of references. -/
def sshNamespace : String := "amber-store-ref"

def control (r : Char) : Bool := r.val < 0x20 || r.val == 0x7f

/-- A field of 1 to `maxLen` bytes of UTF-8, each rune of which passes `check`. -/
def validateText (maxLen : Nat) (check : Char → Except TextFault Unit) (s : Bytes) :
    Except TextFault Unit := do
  .require (s ≠ []) .empty
  .require (s.length ≤ maxLen) .tooLong
  let runes ← .ofOption .notUtf8 s.toByteArray.utf8Decode?
  runes.toList.forM check

def validateName : Bytes → Except TextFault Unit :=
  validateText maxNameLen fun r =>
    if r = '@' then .error .at else if control r then .error .control else .ok ()

def validateUser : Bytes → Except TextFault Unit :=
  validateText maxUserLen fun r => if control r then .error .control else .ok ()

def validate (r : Reference) : Except RefError Unit := do
  (validateName r.name).mapError .name
  let _ ← (Key.parse r.key).mapError .key
  if r.user ≠ [] then (validateUser r.user).mapError .user
  .require (r.signature.length ≤ maxSignatureLen) .signatureTooLong
  .require (r.publicKey.length ≤ maxPublicKeyLen) .publicKeyTooLong

def encode (lib : RefLib) (r : Reference) : Except RefError Bytes := do
  r.validate
  .ofOption .reencoding (lib.marshal r)

/-- Only the encoding that `marshal` gives is accepted. -/
def decode (lib : RefLib) (b : Bytes) : Except RefError Reference := do
  let r ← .ofOption .decoding (lib.unmarshal b)
  r.validate
  let canonical ← .ofOption .reencoding (lib.marshal r)
  .require (canonical = b) .notCanonical
  return r

/-- The bytes a signature is over: the encoding without the signature. -/
def signaturePayload (lib : RefLib) (r : Reference) : Except RefError Bytes :=
  encode lib { r with signature := [] }

/-- Check that a record is signed, and by the key it names. -/
def verifySigned (lib : RefLib) (r : Reference) : Except RefError Unit := do
  .require (r.signature.length ≠ 0 ∧ r.publicKey.length ≠ 0) .notSigned
  let payload ← r.signaturePayload lib
  .require (lib.verifyNamespace payload r.signature r.publicKey sshNamespace) .signature

def decodeVerified (lib : RefLib) (raw : Bytes) : Except RefError Reference := do
  let r ← decode lib raw
  r.verifySigned lib
  return r


theorem decode_ok : decode lib b = .ok r ↔
    lib.unmarshal b = some r ∧ r.validate = .ok () ∧ lib.marshal r = some b := by
  simp only [decode, bind_eq_ok, ofOption_eq_ok, require_eq_ok]
  constructor
  · rintro ⟨_, hu, _, hv, _, hm, _, rfl, h⟩
    cases h
    exact ⟨hu, hv, hm⟩
  · rintro ⟨hu, hv, hm⟩
    exact ⟨r, hu, (), hv, b, hm, (), rfl, rfl⟩

theorem decodeVerified_decode (h : decodeVerified lib b = .ok r) : decode lib b = .ok r := by
  obtain ⟨r', hr, h⟩ := bind_eq_ok.mp h
  obtain ⟨_, _, h⟩ := bind_eq_ok.mp h
  cases h
  exact hr

end Reference

/-! ## The refstore -/

/-- Records by name, verbatim. -/
abbrev Refs := AList fun _ : Bytes => Bytes

/-- How a write of the database ends. One that reports an error may have been applied. -/
inductive WriteOutcome where
  | done
  | failed (applied : Bool)

inductive RefstoreError where
  | notFound
  | write
  deriving DecidableEq

namespace Refs

/-- The result of a write that would lead from `refs` to `refs'`. -/
def commit (o : WriteOutcome) (refs refs' : Refs) : Refs × Except RefstoreError Unit :=
  match o with
  | .done => (refs', .ok ())
  | .failed applied => (if applied then refs' else refs, .error .write)

def put (refs : Refs) (o : WriteOutcome) (name record : Bytes) : Refs × Except RefstoreError Unit :=
  commit o refs (refs.insert name record)

def delete (refs : Refs) (o : WriteOutcome) (name : Bytes) : Refs × Except RefstoreError Unit :=
  if (refs.lookup name).isNone then (refs, .error .notFound) else commit o refs (refs.erase name)

theorem commit_cases (o : WriteOutcome) (refs refs' : Refs) :
    (commit o refs refs').1 = refs' ∨ (commit o refs refs').1 = refs := by
  cases o with
  | done => exact .inl rfl
  | failed applied =>
    cases applied with
    | true => exact .inl rfl
    | false => exact .inr rfl

/-- Each record decodes and carries the name it is stored under. -/
def SelfNamed (lib : RefLib) (refs : Refs) : Prop :=
  ∀ name raw, refs.lookup name = some raw →
    ∃ r, Reference.decode lib raw = .ok r ∧ r.name = name

theorem SelfNamed.empty : SelfNamed lib ∅ := by
  intro name raw h
  rw [AList.lookup_empty] at h
  cases h

theorem SelfNamed.put (h : SelfNamed lib refs) (hr : Reference.decode lib raw = .ok r)
    (o : WriteOutcome) : SelfNamed lib (refs.put o r.name raw).1 := by
  rw [Refs.put]
  rcases commit_cases o refs (refs.insert r.name raw) with he | he
  · intro name raw' hl
    rw [he] at hl
    by_cases hn : name = r.name
    · rw [hn, AList.lookup_insert] at hl
      cases hl
      exact ⟨r, hr, hn.symm⟩
    · rw [AList.lookup_insert_ne hn] at hl
      exact h name raw' hl
  · rwa [he]

theorem SelfNamed.delete (h : SelfNamed lib refs) (o : WriteOutcome) (name : Bytes) :
    SelfNamed lib (refs.delete o name).1 := by
  unfold Refs.delete
  split
  · exact h
  · rcases commit_cases o refs (refs.erase name) with he | he
    · intro name' raw hl
      rw [he] at hl
      by_cases hn : name' = name
      · rw [hn, AList.lookup_erase] at hl
        cases hl
      · rw [AList.lookup_erase_ne hn] at hl
        exact h name' raw hl
    · rwa [he]

end Refs

/-! ## A codec for samples -/

instance : Encodable Reference :=
  .ofLeftInverse (fun r => (r.name, r.key, r.user, r.createdAt, r.signature, r.publicKey))
    (fun (n, k, u, c, s, p) => ⟨n, k, u, c, s, p⟩) fun _ => rfl

/-- Every signature that is not empty verifies. -/
def RefLib.counting : RefLib where
  marshal r := some (Fstree.count r)
  unmarshal := Fstree.uncount
  verifyNamespace _ _ _ _ := true

theorem RefLib.decode_counting (h : r.validate = .ok ()) :
    Reference.decode .counting (Fstree.count r) = .ok r :=
  Reference.decode_ok.mpr ⟨Fstree.uncount_count r, h, rfl⟩

end AmberStore
