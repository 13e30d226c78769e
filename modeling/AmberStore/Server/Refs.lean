import AmberStore.Daemon.Refs

/-!
# The references of the server

A PUT of a reference reads the stored record, checks it against the new one, waits for the uploads of
its root, has the collector prepare the root, and then stores the new record. Any number of such
requests run next to each other, together with deletes, which are atomic, and wipes, which wait until
no such request is under way. How the wait and the preparation end is up to the rest of the process.
-/

namespace AmberStore.Server
open Function Except
open Daemon (PrepareError)

inductive RefReason where
  | missingName
  | name (f : TextFault)
  | record (e : RefError)
  | nameMismatch
  | unsigned
  | payload (e : RefError)
  | badSignature
  | malformed (e : RefError)
  | otherOwner
  | notNewer
  | refstore
  | key (e : KeyError)
  | incomplete (k : Key)
  | incompleteContent
  | prepare
  deriving DecidableEq

structure RefFailure where
  status : Nat
  reason : RefReason
  deriving DecidableEq

def refName (query : Bytes) : Except RefFailure Bytes := do
  .require (query ≠ []) ⟨422, .missingName⟩
  (Reference.validateName query).mapError fun f => ⟨422, .name f⟩
  return query

/-- A request, with the flag of its transport key. -/
structure PutRequest where
  query : Bytes
  body : Bytes
  admin : Bool

/-- The checks that need no more than the request: a record of the name, signed by the key in it. -/
def PutRequest.check (lib : RefLib) (req : PutRequest) : Except RefFailure (Bytes × Reference) := do
  let name ← refName req.query
  let r ← (Reference.decode lib req.body).mapError fun e => ⟨422, .record e⟩
  .require (r.name = name) ⟨422, .nameMismatch⟩
  .require (r.signature.length ≠ 0 ∧ r.publicKey.length ≠ 0) ⟨422, .unsigned⟩
  let payload ← (r.signaturePayload lib).mapError fun e => ⟨500, .payload e⟩
  .require (lib.verifyNamespace payload r.signature r.publicKey Reference.sshNamespace)
    ⟨422, .badSignature⟩
  return (name, r)

/-- The check of the owner and the time against the record that was found. -/
def PutRequest.overwrite (lib : RefLib) (req : PutRequest) (r : Reference) :
    Option Bytes → Except RefFailure Unit
  | none => .ok ()
  | some existing => do
    let old ← (Reference.decode lib existing).mapError fun e => ⟨500, .malformed e⟩
    .require (old.publicKey = r.publicKey ∨ req.admin = true) ⟨403, .otherOwner⟩
    .require (old.createdAt < r.createdAt ∨ existing = req.body ∨ req.admin = true) ⟨409, .notNewer⟩

def PutRequest.accept (lib : RefLib) (req : PutRequest) (r : Reference) (existing : Option Bytes) :
    Except RefFailure Key := do
  req.overwrite lib r existing
  (Key.parse r.key).mapError fun e => ⟨422, .key e⟩

def prepareFailure : PrepareError → RefFailure
  | .missing k => ⟨404, .incomplete k⟩
  | .notFound => ⟨404, .incompleteContent⟩
  | .other => ⟨500, .prepare⟩

/-! ## Requests next to each other -/

/-- What a request knows after it has read the stored record. -/
structure Found where
  name : Bytes
  ref : Reference
  existing : Option Bytes

/-- How far a request has come. -/
inductive Phase where
  | received
  | checked (name : Bytes) (r : Reference)
  | found (f : Found)
  | admitted (f : Found) (k : Key)
  | waited (f : Found) (k : Key)
  | prepared (f : Found)
  | answered (result : Except RefFailure Unit)

/-- Go on with the value of a check, or answer with its failure. -/
def Phase.after (next : α → Phase) : Except RefFailure α → Phase
  | .error e => .answered (.error e)
  | .ok a => next a

structure PutCall where
  req : PutRequest
  phase : Phase

structure RefState where
  refs : Refs
  calls : Nat → Option PutCall

def RefState.move (s : RefState) (i : Nat) (req : PutRequest) (p : Phase) : RefState :=
  { s with calls := update s.calls i (some ⟨req, p⟩) }

inductive RefEvent where
  | start (i : Nat) (req : PutRequest)
  | check (i : Nat)
  | get (i : Nat)
  | getFails (i : Nat)
  | accept (i : Nat)
  | waitFor (i : Nat)
  | prepareRef (i : Nat) (answer : Except PrepareError Unit)
  | put (i : Nat) (o : WriteOutcome)
  | delete (name : Bytes) (o : WriteOutcome)
  | wipe (o : WriteOutcome)

/-- The answer to a request whose record was written. -/
def putAnswer (r : Except RefstoreError Unit) : Except RefFailure Unit :=
  r.mapError fun _ => ⟨500, .refstore⟩

/-- Store the record of a request, and answer it. -/
def RefState.store (s : RefState) (i : Nat) (req : PutRequest) (o : WriteOutcome) (name : Bytes) : RefState :=
  { s.move i req (.answered (putAnswer (s.refs.put o name req.body).2)) with
    refs := (s.refs.put o name req.body).1 }

inductive RefStep (lib : RefLib) : RefState → RefEvent → RefState → Prop
  | start : s.calls i = none → RefStep lib s (.start i req) (s.move i req .received)
  | check : s.calls i = some ⟨req, .received⟩ →
    RefStep lib s (.check i) (s.move i req (.after (fun p => .checked p.1 p.2) (req.check lib)))
  | get : s.calls i = some ⟨req, .checked name r⟩ →
    RefStep lib s (.get i) (s.move i req (.found ⟨name, r, s.refs.lookup name⟩))
  | getFails : s.calls i = some ⟨req, .checked name r⟩ →
    RefStep lib s (.getFails i) (s.move i req (.answered (.error ⟨500, .refstore⟩)))
  | accept : s.calls i = some ⟨req, .found f⟩ →
    RefStep lib s (.accept i) (s.move i req (.after (.admitted f) (req.accept lib f.ref f.existing)))
  | waitFor : s.calls i = some ⟨req, .admitted f k⟩ →
    RefStep lib s (.waitFor i) (s.move i req (.waited f k))
  | prepareRef : s.calls i = some ⟨req, .waited f k⟩ →
    RefStep lib s (.prepareRef i answer)
      (s.move i req (.after (fun _ => .prepared f) (answer.mapError prepareFailure)))
  | put : s.calls i = some ⟨req, .prepared f⟩ →
    RefStep lib s (.put i o) (s.store i req o f.name)
  | delete : RefStep lib s (.delete name o) { s with refs := (s.refs.delete o name).1 }
  | wipe : (∀ i c, s.calls i = some c → ∃ r, c.phase = .answered r) →
    RefStep lib s (.wipe o) { s with refs := (Refs.commit o s.refs ∅).1 }

/-- The states that requests lead to from one in which none is under way. -/
abbrev Serving (lib : RefLib) : RefState → Prop :=
  Reach (fun s => ∀ i, s.calls i = none) fun s s' => ∃ e, RefStep lib s e s'

/-! ## What a request has checked -/

/-- A request that is about to store its record has passed the checks. -/
def Phase.Passed (lib : RefLib) (req : PutRequest) : Phase → Prop
  | .received | .answered _ => True
  | .checked name r => req.check lib = .ok (name, r)
  | .found f => req.check lib = .ok (f.name, f.ref)
  | .admitted f _ | .waited f _ | .prepared f =>
    req.check lib = .ok (f.name, f.ref) ∧ req.overwrite lib f.ref f.existing = .ok ()

def RefState.Passed (lib : RefLib) (s : RefState) : Prop :=
  ∀ i c, s.calls i = some c → c.phase.Passed lib c.req

section Checks
variable {lib : RefLib} {s s' : RefState} {req : PutRequest}

theorem Phase.Passed.after {next : α → Phase} {x : Except RefFailure α}
    (h : ∀ a, x = .ok a → (next a).Passed lib req) : (Phase.after next x).Passed lib req := by
  cases x with
  | error e => exact trivial
  | ok a => exact h a rfl

theorem RefState.calls_move : (s.move i req p).calls i = some ⟨req, p⟩ := update_self ..

theorem RefState.calls_move_ne (h : j ≠ i) : (s.move i req p).calls j = s.calls j :=
  update_of_ne h ..

theorem RefState.calls_store_ne (h : j ≠ i) : (s.store i req o name).calls j = s.calls j :=
  update_of_ne h ..

theorem RefState.Passed.move (h : s.Passed lib) (hp : p.Passed lib req) :
    (s.move i req p).Passed lib := by
  intro j c hc
  by_cases hj : j = i
  · subst hj
    rw [RefState.calls_move] at hc
    cases hc
    exact hp
  · rw [RefState.calls_move_ne hj] at hc
    exact h j c hc

theorem accept_ok (h : req.accept lib r existing = .ok k) : req.overwrite lib r existing = .ok () := by
  obtain ⟨_, ho, _⟩ := bind_eq_ok.mp h
  exact ho

theorem RefStep.passed (h : RefStep lib s e s') (hs : s.Passed lib) : s'.Passed lib := by
  cases h with
  | start => exact hs.move trivial
  | check => exact hs.move (.after fun p hp => hp)
  | get hc => exact hs.move (p := .found _) (hs _ _ hc)
  | getFails => exact hs.move trivial
  | accept hc => exact hs.move (.after fun k hk => ⟨hs _ _ hc, accept_ok hk⟩)
  | waitFor hc => exact hs.move (p := .waited _ _) (hs _ _ hc)
  | prepareRef hc => exact hs.move (.after fun _ _ => hs _ _ hc)
  | put => exact hs.move (p := .answered _) trivial
  | delete => exact hs
  | wipe => exact hs

theorem Serving.passed (h : Serving lib s) : s.Passed lib := by
  refine h.invariant (fun s h0 i c hc => ?_) fun _ _ hs ⟨_, hstep⟩ => hstep.passed hs
  rw [h0 i] at hc
  cases hc

theorem check_ok (h : req.check lib = .ok (name, r)) :
    Reference.decode lib req.body = .ok r ∧ r.name = name := by
  simp only [PutRequest.check, bind_eq_ok, require_eq_ok, mapError_eq_ok] at h
  obtain ⟨_, _, _, hr, _, hname, _, _, _, _, _, _, h⟩ := h
  cases h
  exact ⟨hr, hname⟩

/-! ## Owners and times -/

/-- A record may follow another: it is the same, or a later one with the same signer key. -/
def Succeeds (lib : RefLib) (old new : Bytes) : Prop :=
  old = new ∨ ∃ o r, Reference.decode lib old = .ok o ∧ Reference.decode lib new = .ok r ∧
    o.publicKey = r.publicKey ∧ o.createdAt < r.createdAt

theorem Succeeds.trans (h : Succeeds lib a b) (h' : Succeeds lib b c) : Succeeds lib a c := by
  rcases h with rfl | ⟨ra, rb, ha, hb, hpk, hlt⟩
  · exact h'
  · rcases h' with rfl | ⟨rb', rc, hb', hc, hpk', hlt'⟩
    · exact .inr ⟨ra, rb, ha, hb, hpk, hlt⟩
    · rw [hb] at hb'
      cases hb'
      exact .inr ⟨ra, rc, ha, hc, hpk.trans hpk', Int64.lt_trans hlt hlt'⟩

/-- What the check of a request that is no admin's is worth. -/
theorem overwrite_succeeds (hadmin : req.admin = false) (hr : Reference.decode lib req.body = .ok r)
    (h : req.overwrite lib r (some old) = .ok ()) : Succeeds lib old req.body := by
  simp only [PutRequest.overwrite, bind_eq_ok, require_eq_ok, mapError_eq_ok,
    hadmin, Bool.false_eq_true, or_false] at h
  obtain ⟨o, ho, _, hpk, hlt | heq⟩ := h
  · exact .inr ⟨o, r, ho, hr, hpk, hlt⟩
  · exact .inl heq

/-- The request finds the record it has read when it stores its own, unless it is an admin's. -/
def Undisturbed (s : RefState) (e : RefEvent) : Prop :=
  ∀ i o req f, e = .put i o → s.calls i = some ⟨req, .prepared f⟩ → req.admin = false →
    s.refs.lookup f.name = f.existing

/-- The event is none by which an admin or the owner of the store changes the record of a name. -/
def Unprivileged (name : Bytes) (s : RefState) : RefEvent → Prop
  | .put i _ => ∀ req f, s.calls i = some ⟨req, .prepared f⟩ → f.name = name → req.admin = false
  | .delete n _ => n ≠ name
  | .wipe _ => False
  | _ => True

theorem lookup_put_ne (h : n ≠ name) (refs : Refs) (o : WriteOutcome) :
    (refs.put o name raw).1.lookup n = refs.lookup n := by
  rw [Refs.put]
  rcases Refs.commit_cases o refs (refs.insert name raw) with he | he
  · rw [he, AList.lookup_insert_ne h]
  · rw [he]

theorem lookup_delete_ne (h : n ≠ name) (refs : Refs) (o : WriteOutcome) :
    (refs.delete o name).1.lookup n = refs.lookup n := by
  unfold Refs.delete
  split
  · rfl
  · rcases Refs.commit_cases o refs (refs.erase name) with he | he
    · rw [he, AList.lookup_erase_ne h]
    · rw [he]

/-- A request that stores its record over the one it has read. -/
theorem put_succeeds {refs : Refs} (hc : (Phase.prepared f).Passed lib req) (hadmin : req.admin = false)
    (hfound : refs.lookup f.name = f.existing) (hold : refs.lookup f.name = some old) (o : WriteOutcome) :
    ∃ new, (refs.put o f.name req.body).1.lookup f.name = some new ∧ Succeeds lib old new := by
  obtain ⟨hcheck, hover⟩ : _ ∧ _ := hc
  rw [← hfound, hold] at hover
  rw [Refs.put]
  rcases Refs.commit_cases o refs (refs.insert f.name req.body) with he | he
  · rw [he, AList.lookup_insert]
    exact ⟨req.body, rfl, overwrite_succeeds hadmin (check_ok hcheck).1 hover⟩
  · rw [he, hold]
    exact ⟨old, rfl, .inl rfl⟩

theorem RefStep.succeeds (h : RefStep lib s e s') (hs : s.Passed lib) (hu : Undisturbed s e)
    (hp : Unprivileged name s e) (hold : s.refs.lookup name = some old) :
    ∃ new, s'.refs.lookup name = some new ∧ Succeeds lib old new := by
  cases h with
  | @put i o req f hc =>
    by_cases hn : name = f.name
    · subst hn
      have hadmin := hp req f hc rfl
      exact put_succeeds (hs i _ hc) hadmin (hu i o req f rfl hc hadmin) hold o
    · exact ⟨old, (lookup_put_ne hn _ _).trans hold, .inl rfl⟩
  | delete => exact ⟨old, (lookup_delete_ne (Ne.symm hp) _ _).trans hold, .inl rfl⟩
  | wipe => exact hp.elim
  | start | check | get | getFails | accept | waitFor | prepareRef => exact ⟨old, hold, .inl rfl⟩

/-- From any state that requests lead to: as long as no request of a key that is no admin's stores its
record over another than it has read, the record of a name changes only to later ones of the same
signer key, except by the hand of an admin or a wipe. -/
theorem refs_owned (h : Serving lib s)
    (hrun : Reach (· = s) (fun t t' => ∃ e, RefStep lib t e t' ∧ Undisturbed t e ∧ Unprivileged name t e) s')
    (hold : s.refs.lookup name = some old) :
    ∃ new, s'.refs.lookup name = some new ∧ Succeeds lib old new := by
  suffices s'.Passed lib ∧ ∃ new, s'.refs.lookup name = some new ∧ Succeeds lib old new from this.2
  induction hrun with
  | start he =>
    subst he
    exact ⟨h.passed, old, hold, .inl rfl⟩
  | next _ hstep ih =>
    obtain ⟨e, hstep, hu, hp⟩ := hstep
    obtain ⟨hs, mid, hmid, hsucc⟩ := ih
    obtain ⟨new, hnew, hnext⟩ := hstep.succeeds hs hu hp hmid
    exact ⟨hstep.passed hs, new, hnew, hsucc.trans hnext⟩

/-! ## Two requests for one name -/

/-- The event of a request that does not store anything yet. -/
def RefEvent.Quiet : RefEvent → Prop
  | .put .. | .delete .. | .wipe _ => False
  | _ => True

theorem RefEvent.Quiet.undisturbed (h : e.Quiet) (s : RefState) : Undisturbed s e := by
  intro i o req f he
  subst he
  exact h.elim

theorem RefEvent.Quiet.unprivileged (h : e.Quiet) (name : Bytes) (s : RefState) :
    Unprivileged name s e := by
  cases e with
  | put | delete | wipe => exact h.elim
  | _ => exact trivial

theorem RefState.move_move : (s.move i req p).move i req q = s.move i req q := by
  rw [RefState.move, RefState.move, RefState.move, update_idem]

/-- A request that passes its checks comes to the point where it stores its record. -/
theorem reach_prepared {init : RefState → Prop} {step : RefState → RefState → Prop}
    (hquiet : ∀ t e t', RefStep lib t e t' → e.Quiet → step t t') (hs : Reach init step s)
    (hfree : s.calls i = none) (hcheck : req.check lib = .ok (name, r))
    (haccept : req.accept lib r (s.refs.lookup name) = .ok k) :
    Reach init step (s.move i req (.prepared ⟨name, r, s.refs.lookup name⟩)) := by
  have h1 := hs.next (hquiet _ (.start i req) _ (.start hfree) trivial)
  have h2 := h1.next (hquiet _ _ _ (.check RefState.calls_move) trivial)
  rw [RefState.move_move, hcheck] at h2
  have h3 := h2.next (hquiet _ _ _ (.get RefState.calls_move) trivial)
  have h4 := h3.next (hquiet _ _ _ (.accept RefState.calls_move) trivial)
  rw [RefState.move_move, RefState.move_move] at h4
  rw [show (RefState.move ..).refs = s.refs from rfl, haccept] at h4
  have h5 := h4.next (hquiet _ _ _ (.waitFor RefState.calls_move) trivial)
  have h6 := h5.next (hquiet _ (.prepareRef i (.ok ())) _ (.prepareRef RefState.calls_move) trivial)
  rw [RefState.move_move, RefState.move_move] at h6
  exact h6

end Checks

/-- A record of the name "a", signed by a key. -/
def signedRecord (createdAt : Int64) (publicKey : UInt8) : Reference :=
  ⟨[0x61], List.replicate 32 0, [], createdAt, [1], [publicKey]⟩

/-- A request of a transport key without privileges to store it. -/
def putRecord (createdAt : Int64) (publicKey : UInt8) : PutRequest :=
  ⟨[0x61], Fstree.count (signedRecord createdAt publicKey), false⟩

theorem refName_a : refName [0x61] = .ok [0x61] := by decide

theorem validateName_a : Reference.validateName [0x61] = .ok () := by decide

theorem parse_zeros : Key.parse (List.replicate 32 0) = .ok ⟨List.replicate 32 0, rfl⟩ := by decide

theorem validate_signedRecord (createdAt : Int64) (publicKey : UInt8) (h : signature.length ≤ 1) :
    { signedRecord createdAt publicKey with signature }.validate = .ok () := by
  refine bind_eq_ok.mpr ⟨(), mapError_eq_ok.mpr validateName_a, ?_⟩
  refine bind_eq_ok.mpr ⟨_, mapError_eq_ok.mpr parse_zeros, ?_⟩
  exact bind_eq_ok.mpr
    ⟨(), require_eq_ok.mpr (h.trans (by decide)),
      require_eq_ok.mpr (Nat.succ_le_of_lt (by decide : 0 < Reference.maxPublicKeyLen))⟩

theorem decode_putRecord (createdAt : Int64) (publicKey : UInt8) :
    Reference.decode .counting (putRecord createdAt publicKey).body =
      .ok (signedRecord createdAt publicKey) :=
  RefLib.decode_counting (validate_signedRecord _ _ (Nat.le_refl _))

theorem check_putRecord (createdAt : Int64) (publicKey : UInt8) :
    (putRecord createdAt publicKey).check .counting = .ok ([0x61], signedRecord createdAt publicKey) := by
  simp only [PutRequest.check, bind_eq_ok, require_eq_ok, mapError_eq_ok]
  exact ⟨[0x61], refName_a, _, decode_putRecord _ _, (), rfl, (), ⟨by simp [signedRecord], by simp [signedRecord]⟩, _,
    bind_eq_ok.mpr ⟨(), validate_signedRecord _ _ (Nat.zero_le _), rfl⟩, (), rfl, rfl⟩

theorem parse_signedRecord (createdAt : Int64) (publicKey : UInt8) :
    ((Key.parse (signedRecord createdAt publicKey).key).mapError fun e => ⟨422, .key e⟩ :
      Except RefFailure Key) = .ok ⟨List.replicate 32 0, rfl⟩ :=
  mapError_eq_ok.mpr parse_zeros

/-- The server without references. -/
def noRefs : RefState := ⟨∅, fun _ => none⟩

/-- Two requests for a new name have both found no record. -/
def bothPrepared : RefState :=
  (noRefs.move 0 (putRecord 2 7) (.prepared ⟨[0x61], signedRecord 2 7, none⟩)).move 1 (putRecord 1 8)
    (.prepared ⟨[0x61], signedRecord 1 8, none⟩)

theorem serving_bothPrepared : Serving .counting bothPrepared := by
  have hquiet : ∀ t e t', RefStep .counting t e t' → e.Quiet → ∃ e, RefStep .counting t e t' :=
    fun t e t' h _ => ⟨e, h⟩
  have hstart : Serving .counting noRefs := .start fun _ => rfl
  have hfirst := reach_prepared (i := 0) hquiet hstart rfl (check_putRecord 2 7)
    (bind_eq_ok.mpr ⟨(), rfl, parse_signedRecord 2 7⟩)
  exact reach_prepared (i := 1) hquiet hfirst rfl (check_putRecord 1 8)
    (bind_eq_ok.mpr ⟨(), rfl, parse_signedRecord 1 8⟩)

/-- Both store their records: the second one replaces a record of another key by an older one. -/
theorem putRef_takeover : ∃ s s' i o req f, Serving .counting s ∧ RefStep .counting s (.put i o) s' ∧
    s.calls i = some ⟨req, .prepared f⟩ ∧ req.admin = false ∧
    ∃ old new, s.refs.lookup f.name = some old ∧ s'.refs.lookup f.name = some new ∧
      Reference.decode .counting old = .ok (signedRecord 2 7) ∧
      Reference.decode .counting new = .ok (signedRecord 1 8) ∧
      (signedRecord 2 7).publicKey ≠ (signedRecord 1 8).publicKey ∧
      (signedRecord 1 8).createdAt < (signedRecord 2 7).createdAt := by
  have hfirst : bothPrepared.calls 0 = some ⟨putRecord 2 7, .prepared ⟨[0x61], signedRecord 2 7, none⟩⟩ :=
    (RefState.calls_move_ne (by decide)).trans RefState.calls_move
  have hstored := serving_bothPrepared.next ⟨.put 0 .done, .put hfirst⟩
  have hsecond : bothPrepared.calls 1 = some ⟨putRecord 1 8, .prepared ⟨[0x61], signedRecord 1 8, none⟩⟩ :=
    RefState.calls_move
  have hcalls : (bothPrepared.store 0 (putRecord 2 7) .done [0x61]).calls 1 = _ :=
    (RefState.calls_store_ne (by decide)).trans hsecond
  refine ⟨_, _, 1, .done, _, _, hstored, .put hcalls, hcalls, rfl, _, _, AList.lookup_insert _,
    AList.lookup_insert _, decode_putRecord 2 7, decode_putRecord 1 8, ?_, ?_⟩
  · decide
  · decide

/-- The server with one record of the name "a". -/
def oneRef : RefState := ⟨AList.insert [0x61] (putRecord 1 7).body ∅, fun _ => none⟩

theorem overwrite_newer {oldTime newTime : Int64} (h : oldTime < newTime) (publicKey : UInt8) :
    (putRecord newTime publicKey).overwrite .counting (signedRecord newTime publicKey)
      (some (putRecord oldTime publicKey).body) = .ok () := by
  simp only [PutRequest.overwrite, bind_eq_ok, require_eq_ok, mapError_eq_ok]
  exact ⟨_, decode_putRecord oldTime publicKey, (), .inl rfl, .inl h⟩

/-- The owner of a name stores a later record. -/
theorem refs_owned_update : ∃ (s' : RefState) (new : Bytes), s'.refs.lookup [0x61] = some new ∧
    new = (putRecord 2 7).body ∧ Succeeds .counting (putRecord 1 7).body new := by
  have hold : oneRef.refs.lookup [0x61] = some (putRecord 1 7).body := AList.lookup_insert _
  have haccept : (putRecord 2 7).accept .counting (signedRecord 2 7) (oneRef.refs.lookup [0x61]) =
      .ok ⟨List.replicate 32 0, rfl⟩ := by
    rw [hold]
    exact bind_eq_ok.mpr ⟨(), overwrite_newer (by decide) 7, parse_signedRecord 2 7⟩
  have hrun : Reach (· = oneRef) (fun t t' => ∃ e, RefStep .counting t e t' ∧ Undisturbed t e ∧
      Unprivileged [0x61] t e)
      (oneRef.move 0 (putRecord 2 7) (.prepared ⟨[0x61], signedRecord 2 7, oneRef.refs.lookup [0x61]⟩)) :=
    reach_prepared (fun t e _ h hq => ⟨e, h, hq.undisturbed t, hq.unprivileged _ t⟩) (.start rfl) rfl
      (check_putRecord 2 7) haccept
  have hstored := hrun.next ⟨.put 0 .done, .put RefState.calls_move, ?_, ?_⟩
  · obtain ⟨new, hnew, hsucc⟩ := refs_owned (.start fun _ => rfl) hstored hold
    exact ⟨_, new, hnew, Option.some.inj (hnew.symm.trans (AList.lookup_insert _)), hsucc⟩
  · intro i o req f he hc _
    cases he
    rw [RefState.calls_move] at hc
    cases hc
    rfl
  · intro req f hc _
    rw [RefState.calls_move] at hc
    cases hc
    rfl

end AmberStore.Server
