import AmberStore.Reference
import AmberStore.Lib.System

/-!
# The references of the local daemon

The handlers that write the refstore: a PUT, a DELETE and a pull from a remote, and the pull of an
embedded store. A handler looks at nothing but its request before its one write, so that a run is
a sequence of whole requests. What the rest of the process and the remote do in a request is part of
the request: the collector's answer, the outcome of the transfer, the bytes the remote returns.
-/

namespace AmberStore.Daemon
open Except

/-- How the preparation of a reference by the collector fails. -/
inductive PrepareError where
  | missing (k : Key)
  | notFound
  | other

/-- How a request to the remote for a reference fails. -/
inductive GetRefError where
  | refNotFound
  | other

inductive Reason where
  | missingName
  | name (f : TextFault)
  | read
  | tooLarge
  | record (e : RefError)
  | nameMismatch
  | key (e : KeyError)
  | incomplete (k : Key)
  | incompleteContent
  | prepare
  | refNotFound
  | refstore
  | remote
  | options
  | invalidReference (e : RefError)
  | unsigned
  | badSignature
  | pull

/-- A failed request. An error that a stream of events reports comes with the status 200. -/
structure HttpError where
  status : Nat
  reason : Reason

def maxRefRecord : Nat := 1024 * 1024

def refName (query : Bytes) : Except HttpError Bytes := do
  .require (query ≠ []) ⟨422, .missingName⟩
  (Reference.validateName query).mapError fun f => ⟨422, .name f⟩
  return query

/-! ## PUT and DELETE -/

def prepareError : PrepareError → HttpError
  | .missing k => ⟨404, .incomplete k⟩
  | .notFound => ⟨404, .incompleteContent⟩
  | .other => ⟨500, .prepare⟩

structure PutRequest where
  query : Bytes
  /-- The body as far as it could be read. -/
  body : Option Bytes
  prepareRef : Key → Except PrepareError Unit
  write : WriteOutcome

/-- The name and the record that a PUT is about to store. -/
def PutRequest.check (lib : RefLib) (req : PutRequest) : Except HttpError (Bytes × Bytes) := do
  let name ← refName req.query
  let stream ← .ofOption ⟨500, .read⟩ req.body
  let body := stream.take (maxRefRecord + 1)
  .require (body.length ≤ maxRefRecord) ⟨422, .tooLarge⟩
  let ref ← (Reference.decode lib body).mapError fun e => ⟨422, .record e⟩
  .require (ref.name = name) ⟨422, .nameMismatch⟩
  let k ← (Key.parse ref.key).mapError fun e => ⟨422, .key e⟩
  (req.prepareRef k).mapError prepareError
  return (name, body)

/-- Store what a request has been checked to store. -/
def store (refs : Refs) (o : WriteOutcome) (status : Nat) :
    Except HttpError (Bytes × Bytes) → Refs × Except HttpError Unit
  | .error e => (refs, .error e)
  | .ok (name, raw) =>
    let (refs, r) := refs.put o name raw
    (refs, r.mapError fun _ => ⟨status, .refstore⟩)

def putRef (lib : RefLib) (refs : Refs) (req : PutRequest) : Refs × Except HttpError Unit :=
  store refs req.write 500 (req.check lib)

def deleteRef (refs : Refs) (query : Bytes) (o : WriteOutcome) : Refs × Except HttpError Unit :=
  match refName query with
  | .error e => (refs, .error e)
  | .ok name =>
    let (refs, r) := refs.delete o name
    (refs, r.mapError fun
      | .notFound => ⟨404, .refNotFound⟩
      | .write => ⟨500, .refstore⟩)

/-! ## Pulls -/

structure PullRequest where
  name : Bytes
  /-- The status with which the remote of the request is refused. -/
  remoteFor : Except Nat Unit
  syncOpts : Except Unit Unit
  /-- The body of the remote's answer, whose transport signature has been checked. -/
  getRef : Except GetRefError Bytes
  pull : Key → Except Unit Unit
  prepareRef : Key → Except PrepareError Unit
  write : WriteOutcome

def fetchAndVerifyRemoteRef (lib : RefLib) (req : PullRequest) :
    Except HttpError (Bytes × Reference) := do
  .require (req.name ≠ []) ⟨422, .missingName⟩
  let raw ← req.getRef.mapError fun
    | .refNotFound => ⟨404, .refNotFound⟩
    | .other => ⟨502, .remote⟩
  let ref ← (Reference.decode lib raw).mapError fun e => ⟨502, .invalidReference e⟩
  .require (ref.signature.length ≠ 0 ∧ ref.publicKey.length ≠ 0) ⟨502, .unsigned⟩
  let payload ← (ref.signaturePayload lib).mapError fun e => ⟨500, .record e⟩
  .require (lib.verifyNamespace payload ref.signature ref.publicKey Reference.sshNamespace)
    ⟨502, .badSignature⟩
  return (raw, ref)

/-- The name and the record that a pull of the daemon is about to store. -/
def PullRequest.check (lib : RefLib) (req : PullRequest) : Except HttpError (Bytes × Bytes) := do
  req.remoteFor.mapError fun status => ⟨status, .remote⟩
  req.syncOpts.mapError fun _ => ⟨422, .options⟩
  let (raw, ref) ← fetchAndVerifyRemoteRef lib req
  let root ← (Key.parse ref.key).mapError fun e => ⟨502, .key e⟩
  (req.pull root).mapError fun _ => ⟨200, .pull⟩
  (req.prepareRef root).mapError fun _ => ⟨200, .prepare⟩
  return (req.name, raw)

def remotePull (lib : RefLib) (refs : Refs) (req : PullRequest) : Refs × Except HttpError Unit :=
  store refs req.write 200 (req.check lib)

/-- The name and the record that a pull of an embedded store is about to store. There is no
collector, and no server: an error is returned to the caller. -/
def PullRequest.checkEmbedded (lib : RefLib) (req : PullRequest) :
    Except HttpError (Bytes × Bytes) := do
  req.remoteFor.mapError fun _ => ⟨0, .remote⟩
  let raw ← req.getRef.mapError fun _ => ⟨0, .remote⟩
  let ref ← (Reference.decodeVerified lib raw).mapError fun e => ⟨0, .invalidReference e⟩
  let root ← (Key.parse ref.key).mapError fun e => ⟨0, .key e⟩
  (req.pull root).mapError fun _ => ⟨0, .pull⟩
  return (req.name, raw)

def embeddedPull (lib : RefLib) (refs : Refs) (req : PullRequest) : Refs × Except HttpError Unit :=
  store refs req.write 0 (req.checkEmbedded lib)

/-! ## Runs -/

inductive Request where
  | put (req : PutRequest)
  | delete (query : Bytes) (write : WriteOutcome)
  | pull (req : PullRequest)
  | embeddedPull (req : PullRequest)

def serve (lib : RefLib) (refs : Refs) : Request → Refs × Except HttpError Unit
  | .put req => putRef lib refs req
  | .delete query write => deleteRef refs query write
  | .pull req => remotePull lib refs req
  | .embeddedPull req => embeddedPull lib refs req

/-- If the remote returns a record, it is one of the name that was asked for. -/
def PullRequest.Asked (lib : RefLib) (req : PullRequest) : Prop :=
  ∀ raw r, req.getRef = .ok raw → Reference.decode lib raw = .ok r → r.name = req.name

def Request.Asked (lib : RefLib) : Request → Prop
  | .pull req | .embeddedPull req => req.Asked lib
  | _ => True

/-- The refstores that requests with `P` lead to, from one whose records name themselves. -/
abbrev Served (lib : RefLib) (P : Request → Prop) : Refs → Prop :=
  Reach (Refs.SelfNamed lib) fun refs refs' => ∃ req, P req ∧ refs' = (serve lib refs req).1

section Handlers
variable {lib : RefLib}

theorem PutRequest.check_ok {req : PutRequest} (h : req.check lib = .ok (name, raw)) :
    ∃ r, Reference.decode lib raw = .ok r ∧ r.name = name := by
  simp only [PutRequest.check, bind_eq_ok, ofOption_eq_ok, require_eq_ok,
    mapError_eq_ok] at h
  obtain ⟨_, _, _, _, _, _, r, hr, _, hname, _, _, _, _, h⟩ := h
  cases h
  exact ⟨r, hr, hname⟩

theorem fetchAndVerifyRemoteRef_ok {req : PullRequest}
    (h : fetchAndVerifyRemoteRef lib req = .ok (raw, r)) :
    req.getRef = .ok raw ∧ Reference.decode lib raw = .ok r := by
  simp only [fetchAndVerifyRemoteRef, bind_eq_ok, require_eq_ok,
    mapError_eq_ok] at h
  obtain ⟨_, _, _, hget, _, hr, _, _, _, _, _, _, h⟩ := h
  cases h
  exact ⟨hget, hr⟩

/-- A pull stores what the remote returned, under the name of the request. -/
theorem PullRequest.check_ok {req : PullRequest} (h : req.check lib = .ok (n, raw)) :
    n = req.name ∧ req.getRef = .ok raw ∧ ∃ r, Reference.decode lib raw = .ok r := by
  simp only [PullRequest.check, bind_eq_ok, mapError_eq_ok] at h
  obtain ⟨_, _, _, _, ⟨_, r⟩, hf, _, _, _, _, _, _, h⟩ := h
  cases h
  obtain ⟨hget, hr⟩ := fetchAndVerifyRemoteRef_ok hf
  exact ⟨rfl, hget, r, hr⟩

theorem PullRequest.checkEmbedded_ok {req : PullRequest}
    (h : req.checkEmbedded lib = .ok (n, raw)) :
    n = req.name ∧ req.getRef = .ok raw ∧ ∃ r, Reference.decode lib raw = .ok r := by
  simp only [PullRequest.checkEmbedded, bind_eq_ok, mapError_eq_ok] at h
  obtain ⟨_, _, _, hget, r, hr, _, _, _, _, h⟩ := h
  cases h
  exact ⟨rfl, hget, r, Reference.decodeVerified_decode hr⟩

/-- A request that stores a record only under its own name keeps the records as they should be. -/
theorem store_selfNamed (hrefs : refs.SelfNamed lib) (o : WriteOutcome) (status : Nat)
    {c : Except HttpError (Bytes × Bytes)}
    (hc : ∀ name raw, c = .ok (name, raw) → ∃ r, Reference.decode lib raw = .ok r ∧ r.name = name) :
    (store refs o status c).1.SelfNamed lib := by
  cases c with
  | error e => exact hrefs
  | ok p =>
    obtain ⟨name, raw⟩ := p
    obtain ⟨r, hr, rfl⟩ := hc name raw rfl
    exact hrefs.put hr o

theorem deleteRef_selfNamed (hrefs : refs.SelfNamed lib) (query : Bytes) (o : WriteOutcome) :
    (deleteRef refs query o).1.SelfNamed lib := by
  unfold deleteRef
  cases refName query with
  | error e => exact hrefs
  | ok name => exact hrefs.delete o name

theorem serve_selfNamed (hrefs : refs.SelfNamed lib) {req : Request} (hreq : req.Asked lib) :
    (serve lib refs req).1.SelfNamed lib := by
  cases req with
  | put req => exact store_selfNamed hrefs _ _ fun _ _ => PutRequest.check_ok
  | delete query write => exact deleteRef_selfNamed hrefs query write
  | pull req =>
    apply store_selfNamed hrefs
    intro name raw hc
    obtain ⟨rfl, hget, r, hr⟩ := PullRequest.check_ok hc
    exact ⟨r, hr, hreq raw r hget hr⟩
  | embeddedPull req =>
    apply store_selfNamed hrefs
    intro name raw hc
    obtain ⟨rfl, hget, r, hr⟩ := PullRequest.checkEmbedded_ok hc
    exact ⟨r, hr, hreq raw r hget hr⟩

/-- As long as the remotes answer with records of the names that are asked for, every record in the
refstore carries the name it is stored under. -/
theorem refs_selfNamed (h : Served lib (Request.Asked lib) refs) : refs.SelfNamed lib :=
  h.invariant (fun _ h0 => h0) fun _ _ hrefs ⟨_, hreq, he⟩ => he ▸ serve_selfNamed hrefs hreq

end Handlers

/-! ## A record of another name -/

/-- A signed record of the name "a". -/
def recordA : Reference := ⟨[0x61], List.replicate 32 0, [], 0, [1], [2]⟩

/-- A pull that a remote answers with that record. -/
def pullAnsweredA (name : Bytes) : PullRequest where
  name := name
  remoteFor := .ok ()
  syncOpts := .ok ()
  getRef := .ok (Fstree.count recordA)
  pull _ := .ok ()
  prepareRef _ := .ok ()
  write := .done

theorem decode_recordA : Reference.decode .counting (Fstree.count recordA) = .ok recordA :=
  RefLib.decode_counting (by decide)

theorem signaturePayload_recordA : recordA.signaturePayload .counting =
    .ok (Fstree.count { recordA with signature := [] }) :=
  bind_eq_ok.mpr ⟨(), by decide, rfl⟩

theorem pullAnsweredA_check (h : name ≠ []) :
    (pullAnsweredA name).check .counting = .ok (name, Fstree.count recordA) := by
  have hf : fetchAndVerifyRemoteRef .counting (pullAnsweredA name) =
      .ok (Fstree.count recordA, recordA) := by
    simp only [fetchAndVerifyRemoteRef, bind_eq_ok, require_eq_ok,
      mapError_eq_ok]
    exact ⟨(), h, _, rfl, recordA, decode_recordA, (), by decide, _, signaturePayload_recordA, (), rfl,
      rfl⟩
  have hk : Key.parse recordA.key = .ok ⟨List.replicate 32 0, rfl⟩ := by decide
  simp only [PullRequest.check, bind_eq_ok, mapError_eq_ok]
  refine ⟨(), rfl, (), rfl, _, hf, _, hk, (), rfl, (), rfl, ?_⟩
  generalize Fstree.count recordA = raw
  rfl

theorem serve_pullAnsweredA (h : name ≠ []) :
    serve .counting ∅ (.pull (pullAnsweredA name)) =
      (AList.insert name (Fstree.count recordA) ∅, .ok ()) := by
  rw [serve, remotePull, pullAnsweredA_check h]
  rfl

theorem refs_selfNamed_pull : ∃ refs : Refs, refs.lookup [0x61] = some (Fstree.count recordA) ∧
    refs.SelfNamed .counting := by
  have hasked : (pullAnsweredA [0x61]).Asked .counting := by
    intro raw r hget hr
    rw [← Except.ok.inj hget, decode_recordA] at hr
    rw [← Except.ok.inj hr, recordA, pullAnsweredA]
  refine ⟨_, ?_, refs_selfNamed
    (.next (.start .empty) ⟨.pull (pullAnsweredA [0x61]), hasked, rfl⟩)⟩
  rw [serve_pullAnsweredA (List.cons_ne_nil _ _)]
  exact AList.lookup_insert _

/-- The record of "a" ends up under the name "b". -/
theorem pull_misnames : ∃ refs : Refs, Served .counting (fun _ => True) refs ∧
    refs.lookup [0x62] = some (Fstree.count recordA) ∧
    Reference.decode .counting (Fstree.count recordA) = .ok recordA ∧ recordA.name = [0x61] := by
  refine ⟨_, .next (.start .empty) ⟨.pull (pullAnsweredA [0x62]), trivial, rfl⟩, ?_,
    decode_recordA, rfl⟩
  rw [serve_pullAnsweredA (List.cons_ne_nil _ _)]
  exact AList.lookup_insert _

end AmberStore.Daemon
