import AmberStore.Amberpack.Pack
import AmberStore.Fstree.Walks
import AmberStore.Packstore.Verify
import AmberStore.Remotesync.Batch

/-!
# Fetching a batch

The request for some objects, the server's reply and what the client makes of it. The reply is a pack with a
signature behind it, of which the client reads a bounded number of bytes.
-/

namespace AmberStore.Remotesync
open Bytes Amberpack Fstree Packstore List

/-! ## Lists of keys -/

namespace Keylist

inductive Error where
  /-- key list length %d is not a multiple of %d -/
  | length (n : Nat)
  /-- key %d: %w -/
  | key (i : Nat) (e : KeyError)
  deriving DecidableEq

def flatten (keys : List Key) : Bytes := keys.flatMap Key.bytes

/-- `n` keys from the `i`-th on. -/
def parseFrom : (n i : Nat) → Bytes → Except Error (List Key)
  | 0, _, _ => .ok []
  | n + 1, i, b =>
    match Key.parse (b.take 32) with
    | .error e => .error (.key i e)
    | .ok k => (parseFrom n (i + 1) (b.drop 32)).map (k :: ·)

def parse (b : Bytes) : Except Error (List Key) :=
  if b.length % 32 ≠ 0 then .error (.length b.length) else parseFrom (b.length / 32) 0 b

theorem length_flatten (keys : List Key) : (flatten keys).length = keys.length * 32 :=
  length_flatMap_const fun k _ => k.size_eq

theorem parseFrom_flatten {keys : List Key} (h : ∀ k ∈ keys, k.Canonical) (i : Nat) :
    parseFrom keys.length i (flatten keys) = .ok keys := by
  induction keys generalizing i with
  | nil => rfl
  | cons k keys ih =>
    have htail := ih (fun k hk => h k (mem_cons_of_mem _ hk)) (i + 1)
    rw [length_cons, parseFrom, flatten, flatMap_cons, take_left' k.size_eq,
      drop_left' k.size_eq, (h k mem_cons_self).parse]
    change (parseFrom keys.length (i + 1) (flatten keys)).map _ = _
    rw [htail]
    rfl

theorem parse_flatten {keys : List Key} (h : ∀ k ∈ keys, k.Canonical) : parse (flatten keys) = .ok keys := by
  rw [parse, length_flatten, if_neg (not_not.mpr (Nat.mul_mod_left _ _)), Nat.mul_div_cancel _ (by decide)]
  exact parseFrom_flatten h 0

end Keylist

/-! ## Signatures of replies -/

/-- Signatures of the server's key over a nonce, a status and the hash of a body, in base64. -/
structure Signatures where
  sign : Bytes → Nat → Digest → Bytes
  check : Bytes → Nat → Digest → Bytes → Bool
  sign_ne : ∀ nonce status h, sign nonce status h ≠ []
  check_sign : ∀ nonce status h, check nonce status h (sign nonce status h) = true

def Signatures.verifyResponse (sg : Signatures) (nonce : Bytes) (status : Nat) (bodyHash : Digest) (sig : Bytes) :
    Bool := !sig.isEmpty && sg.check nonce status bodyHash sig

def trailerLenSize : Nat := 4

/-- A body followed by its signature and the signature's length. -/
def appendSignatureTrailer (body sig : Bytes) : Bytes := body ++ sig ++ putUint trailerLenSize sig.length

def splitSignatureTrailer (body : Bytes) : Option (Bytes × Bytes) :=
  if body.length < trailerLenSize then none
  else
    let stop := body.length - trailerLenSize
    let n := uint (body.drop stop)
    if stop < n then none else some (body.take (stop - n), slice body (stop - n) stop)

theorem length_appendSignatureTrailer (body sig : Bytes) :
    (appendSignatureTrailer body sig).length = body.length + sig.length + 4 := by
  rw [appendSignatureTrailer, length_append, length_append, length_putUint]
  rfl

theorem split_appendSignatureTrailer (body : Bytes) {sig : Bytes} (h : sig.length < 2 ^ 32) :
    splitSignatureTrailer (appendSignatureTrailer body sig) = some (body, sig) := by
  have hlen := length_appendSignatureTrailer body sig
  have hstop : (appendSignatureTrailer body sig).length - trailerLenSize = (body ++ sig).length := by
    rw [hlen, length_append]
    exact Nat.add_sub_cancel _ 4
  have hn : uint ((appendSignatureTrailer body sig).drop (body ++ sig).length) = sig.length := by
    rw [appendSignatureTrailer, drop_left, uint_putUint_of_lt h]
  have hstart : (body ++ sig).length - sig.length = body.length := by
    rw [length_append, Nat.add_sub_cancel]
  rw [splitSignatureTrailer, if_neg (by rw [hlen, trailerLenSize]; omega), hstop]
  dsimp only
  rw [hn, hstart, if_neg (by rw [length_append]; omega)]
  have htake : (appendSignatureTrailer body sig).take body.length = body := by
    rw [appendSignatureTrailer, append_assoc, take_left]
  have hslice : slice (appendSignatureTrailer body sig) body.length (body ++ sig).length = sig :=
    slice_append body sig _ rfl (length_append ..)
  rw [htake, hslice]

/-! ## The server -/

inductive Refusal where
  | keylist (e : Keylist.Error)
  /-- objects not found:, with their keys -/
  | notFound (missing : List Key)

/-- A reply with status 200, or a signed error. -/
inductive Reply where
  | ok (body : Bytes)
  | refused (code : Nat) (why : Refusal)

variable (H : Blake3) (Z : Zstd) (sg : Signatures) (store : Objects)

/-- Write the records of the keys. The flag tells that the stream was not cut. -/
def streamObjects : Amberpack.Writer → List Key → Amberpack.Writer × Bool
  | w, [] => (w, true)
  | w, k :: ks =>
    match store.lookup k with
    | none => (w, false)
    | some data =>
      match w.add Z ⟨k, data⟩ with
      | .error _ => (w, false)
      | .ok w => streamObjects w ks

def postObjectsGet (nonce body : Bytes) : Reply :=
  match Keylist.parse body with
  | .error e => .refused 422 (.keylist e)
  | .ok keys =>
    let missing := keys.filter fun k => !store.has k
    if 0 < missing.length then .refused 404 (.notFound missing)
    else
      match streamObjects Z store newWriter keys with
      | (w, false) => .ok w.out
      | (w, true) => .ok (appendSignatureTrailer w.close (sg.sign nonce 200 (H w.close)))

/-! ## The client -/

/-- The bound on a reply that is buffered. -/
def maxResponse : Nat := 256 <<< 20

inductive FetchError where
  | status (code : Nat) (why : Refusal)
  | missingSignature
  | identityMismatch
  | pack (e : PackError)

def fetchObjects (nonce : Bytes) : Reply → Except FetchError (List Object)
  | .refused code why => .error (.status code why)
  | .ok body =>
    match splitSignatureTrailer (body.take maxResponse) with
    | none => .error .missingSignature
    | some (pack, sig) =>
      if !sg.verifyResponse nonce 200 (H pack) sig then .error .identityMismatch
      else
        match readAll Z pack with
        | (objs, none) => .ok objs
        | (_, some e) => .error (.pack e)

/-! ## Replies of an honest server -/

/-- Every object belongs under its key. -/
def Honest : Prop := ∀ k data, store.lookup k = some data → verifyObject H ⟨k, data⟩ = .ok ()

/-- The objects under some keys. -/
def served (keys : List Key) : List Object := keys.map fun k => ⟨k, (store.lookup k).getD []⟩

/-- The bytes the records of some objects take. -/
def recordsLength (objs : List Object) : Nat := (objs.map fun o => 46 + (storedForm Z o.data).2.length).sum

variable {H Z sg store}

theorem length_flatMap_objectRecord (objs : List Object) :
    (objs.flatMap (objectRecord Z)).length = recordsLength Z objs := by
  induction objs with
  | nil => rfl
  | cons o objs ih =>
    rw [flatMap_cons, length_append, ih, objectRecord, length_recordBytes]
    rfl

theorem Honest.canonical (h : Honest H store) (hk : store.has k = true) : k.Canonical := by
  obtain ⟨data, hdata⟩ := Option.isSome_iff_exists.mp hk
  exact Key.newFromHash_canonical (verifyObject_key (h k data hdata))

theorem streamObjects_held {keys : List Key} (h : ∀ k ∈ keys, store.has k = true) (w : Amberpack.Writer)
    (hw : (served store keys).foldlM (Amberpack.Writer.add Z) w = .ok w') : streamObjects Z store w keys = (w', true) := by
  induction keys generalizing w with
  | nil =>
    cases hw
    rfl
  | cons k keys ih =>
    obtain ⟨data, hdata⟩ := Option.isSome_iff_exists.mp (h k mem_cons_self)
    have hserved : served store (k :: keys) = ⟨k, data⟩ :: served store keys := by
      rw [served, map_cons, hdata]
      rfl
    rw [hserved, foldlM_cons] at hw
    obtain ⟨w₁, hadd, hrest⟩ := Except.bind_eq_ok.mp hw
    rw [streamObjects, hdata]
    dsimp only
    rw [hadd]
    exact ih (fun k hk => h k (mem_cons_of_mem _ hk)) w₁ hrest

section Held
variable {keys : List Key} (hstore : Honest H store) (hkeys : ∀ k ∈ keys, store.has k = true)
  (hsize : ∀ k data, store.lookup k = some data → data.length ≤ maxPayload)
include hkeys hsize

theorem served_le : ∀ o ∈ served store keys, o.data.length ≤ maxPayload := by
  intro o ho
  obtain ⟨k, hk, rfl⟩ := mem_map.mp ho
  obtain ⟨data, hdata⟩ := Option.isSome_iff_exists.mp (hkeys k hk)
  change ((store.lookup k).getD []).length ≤ _
  rw [hdata]
  exact hsize k data hdata

include hstore

/-- The reply to a request for objects that are there: the pack and its signature. -/
theorem postObjectsGet_held (sg : Signatures) (nonce : Bytes) : ∃ pack, writePack Z (served store keys) = .ok pack ∧
    pack.length = recordsLength Z (served store keys) + 9 ∧
    postObjectsGet H Z sg store nonce (Keylist.flatten keys) =
      .ok (appendSignatureTrailer pack (sg.sign nonce 200 (H pack))) := by
  have hle := served_le hkeys hsize
  obtain ⟨w, hw, -⟩ := foldlM_add (Z := Z) newWriter hle
  have hpack : writePack Z (served store keys) = .ok w.close := by rw [writePack, hw]; rfl
  have hnone : keys.filter (fun k => !store.has k) = [] := by
    apply filter_eq_nil_iff.mpr
    intro k hk
    rw [hkeys k hk]
    decide
  refine ⟨w.close, hpack, ?_, ?_⟩
  · rw [writePack_eq hle] at hpack
    rw [← Except.ok.inj hpack, length_append, length_append, length_flatMap_objectRecord,
      length_singleton, Nat.add_comm packMagic.length]
    rfl
  · rw [postObjectsGet, Keylist.parse_flatten fun k hk => hstore.canonical (hkeys k hk)]
    dsimp only
    rw [hnone, if_neg (by decide), streamObjects_held hkeys newWriter hw]

theorem fetchObjects_held (sg : Signatures) (nonce : Bytes) (hsig : ∀ h, (sg.sign nonce 200 h).length < 2 ^ 32) :
    ∃ body, postObjectsGet H Z sg store nonce (Keylist.flatten keys) = .ok body ∧
      (∃ h, body.length = recordsLength Z (served store keys) + (sg.sign nonce 200 h).length + 13) ∧
      (body.length ≤ maxResponse → fetchObjects H Z sg nonce (.ok body) = .ok (served store keys)) := by
  obtain ⟨pack, hpack, hlen, hreply⟩ := postObjectsGet_held hstore hkeys hsize sg nonce
  refine ⟨_, hreply, ⟨H pack, ?_⟩, fun hfits => ?_⟩
  · rw [length_appendSignatureTrailer, hlen]
    omega
  · have hcanon : ∀ o ∈ served store keys, o.key.Canonical := by
      intro o ho
      obtain ⟨k, hk, rfl⟩ := mem_map.mp ho
      exact hstore.canonical (hkeys k hk)
    have hverify : sg.verifyResponse nonce 200 (H pack) (sg.sign nonce 200 (H pack)) = true := by
      rw [Signatures.verifyResponse, sg.check_sign, Bool.and_true, Bool.not_eq_true', isEmpty_eq_false_iff]
      exact sg.sign_ne nonce 200 (H pack)
    rw [fetchObjects, take_of_length_le hfits, split_appendSignatureTrailer pack (hsig _)]
    dsimp only
    rw [hverify, if_neg (by decide), readAll_writePack hcanon hpack (served_le hkeys hsize)]

end Held

end AmberStore.Remotesync
