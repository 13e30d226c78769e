import AmberStore.Server.Authorize
import AmberStore.Lib.System

/-!
# Signed requests

A request is accepted when its signature verifies within the timestamp window, its key is authorized
and its nonce has not been seen. Handlers run concurrently: each reads the clock once and takes its
later steps with that reading, in any order among the others.
-/

namespace AmberStore.Server
open Function

/-! ## The nonce cache -/

/-- When each key of the cache was recorded. -/
abbrev Seen := Bytes → Option Time

def cacheKey (id nonce : Bytes) : Bytes := id ++ [0] ++ nonce

def Seen.sweep (seen : Seen) (cutoff : Time) : Seen := fun k => (seen k).filter fun t => ¬t < cutoff

/-- Whether the nonce was recorded within twice the window, and the cache after the call. -/
def seenBefore (window : Int64) (seen : Seen) (id nonce : Bytes) (now : Time) : Bool × Seen :=
  let k := cacheKey id nonce
  let cutoff := now + (-2 * window).toInt
  let seen := seen.sweep cutoff
  if (seen k).any fun t => ¬t < cutoff then (true, seen)
  else (false, update seen k (some now))

/-! ## Request signatures -/

structure RequestPayload where
  method : Bytes
  pathQuery : Bytes
  timestamp : Int64
  nonce : Bytes
  bodyHash : Bytes
  audience : Bytes

/-- What else the libraries provide: the wire format of a parsed public key, its fingerprint, and the
CBOR encoding of the signed payload. -/
structure RequestLib extends GrantLib where
  parsePublicKey : Bytes → Option Bytes
  fingerprint : Bytes → Bytes
  requestSigPayload : RequestPayload → Option Bytes

/-- The parts of a request that are verified; a header that is not there is empty. -/
structure Request where
  method : Bytes
  requestURI : Bytes
  publicKey : Bytes
  timestamp : Bytes
  nonce : Bytes
  signature : Bytes
  grant : Bytes
  bodyHash : Bytes
  /-- The capability its route needs. -/
  need : String

inductive SigError where
  | notSigned
  | publicKeyBase64
  | publicKey
  | timestamp
  | nonceBase64
  | signatureBase64
  | outsideWindow
  | payload
  | signature
  deriving DecidableEq

def httpNamespace : String := "amber-store-http"

/-- The time from `u` to `t`, or the closest duration that fits. -/
def Time.sub (t u : Time) : Int64 := .ofInt (max (-2 ^ 63) (min (t - u) (2 ^ 63 - 1)))

/-- The key and the nonce of a request. A failure carries the nonce if that is known. -/
def verifyRequestHash (lib : RequestLib) (r : Request) (audience : Bytes) (now : Time)
    (window : Int64) : Except (SigError × Bytes) (Bytes × Bytes) := do
  if r.publicKey = [] ∨ r.timestamp = [] ∨ r.nonce = [] ∨ r.signature = [] then
    .error (.notSigned, [])
  let some pubWire := Base64.decodeString r.publicKey | .error (.publicKeyBase64, [])
  let some pub := lib.parsePublicKey pubWire | .error (.publicKey, [])
  let some ts := Decimal.parseInt r.timestamp | .error (.timestamp, [])
  let some nonce := Base64.decodeString r.nonce | .error (.nonceBase64, [])
  let some sig := Base64.decodeString r.signature | .error (.signatureBase64, [])
  let d := Time.sub now ts.toInt
  if d < -window ∨ d > window then .error (.outsideWindow, nonce)
  let some payload := lib.requestSigPayload ⟨r.method, r.requestURI, ts, nonce, r.bodyHash, audience⟩
    | .error (.payload, nonce)
  if !lib.verifyNamespace payload sig pubWire httpNamespace then .error (.signature, nonce)
  return (pub, nonce)

/-! ## Handlers -/

/-- Where the handler of a request stands. -/
inductive Stage where
  | arrived (r : Request)
  | clocked (r : Request) (now : Time)
  | verified (r : Request) (now : Time) (pub nonce : Bytes)
  | authorized (r : Request) (now : Time) (pub nonce : Bytes) (ent : Entry)
  | accepted (r : Request)
  | refused (r : Request)

structure AuthState where
  clock : Time
  seen : Seen
  /-- The clock readings of the calls of the cache so far. -/
  calls : List Time
  reqs : Nat → Stage

def AuthState.set (s : AuthState) (i : Nat) (st : Stage) : AuthState :=
  { s with reqs := update s.reqs i st }

theorem AuthState.set_self (s : AuthState) : (s.set i st).reqs i = st := update_self ..

theorem AuthState.set_of_ne (s : AuthState) (h : j ≠ i) : (s.set i st).reqs j = s.reqs j :=
  update_of_ne h ..

/-- The handler of `i` has called the cache. -/
def AuthState.call (s : AuthState) (i : Nat) (st : Stage) (seen : Seen) (now : Time) : AuthState where
  clock := s.clock
  seen := seen
  calls := now :: s.calls
  reqs := (s.set i st).reqs

inductive AuthLabel where
  | tick (t : Time)
  | now (i : Nat)
  | verify (i : Nat)
  | authorize (i : Nat) (allow reloaded : Allowlist)
  | seenBefore (i : Nat)

def Stage.afterVerify (lib : RequestLib) (audience : Bytes) (window : Int64) (r : Request)
    (now : Time) : Stage :=
  match verifyRequestHash lib r audience now window with
  | .ok (pub, nonce) => .verified r now pub nonce
  | .error _ => .refused r

def Stage.afterAuthorize (lib : RequestLib) (window : Int64) (allow reloaded : Allowlist)
    (r : Request) (now : Time) (pub nonce : Bytes) : Stage :=
  match Server.authorize lib.toGrantLib window allow reloaded pub r.grant now with
  | .ok ent => .authorized r now pub nonce ent
  | .error _ => .refused r

/-- A nonce seen before and a missing capability both refuse the request. -/
def Stage.afterNonce (r : Request) (ent : Entry) (seen : Bool) : Stage :=
  if seen then .refused r else if !ent.allows r.need then .refused r else .accepted r

/-- One step of one handler, or of the clock. The allowlist can be a new one at each use. -/
inductive AuthStep (lib : RequestLib) (audience : Bytes) (window : Int64) :
    AuthState → AuthLabel → AuthState → Prop
  | tick : s.clock ≤ t → AuthStep lib audience window s (.tick t) { s with clock := t }
  | now : s.reqs i = .arrived r →
      AuthStep lib audience window s (.now i) (s.set i (.clocked r s.clock))
  | verify : s.reqs i = .clocked r now →
      AuthStep lib audience window s (.verify i)
        (s.set i (.afterVerify lib audience window r now))
  | authorize : s.reqs i = .verified r now pub nonce →
      AuthStep lib audience window s (.authorize i allow reloaded)
        (s.set i (.afterAuthorize lib window allow reloaded r now pub nonce))
  | seenBefore : s.reqs i = .authorized r now pub nonce ent →
      seenBefore window s.seen (lib.fingerprint pub) nonce now = (hit, seen) →
      AuthStep lib audience window s (.seenBefore i)
        (s.call i (.afterNonce r ent hit) seen now)

/-- No request has been looked at. -/
def AuthState.Fresh (s : AuthState) : Prop :=
  s.seen = (fun _ => none) ∧ s.calls = [] ∧ ∀ i, ∃ r, s.reqs i = .arrived r

/-- The key, nonce and timestamp that a request carries. -/
def Request.identity (lib : RequestLib) (r : Request) : Option (Bytes × Bytes × Int64) := do
  let pub ← lib.parsePublicKey (← Base64.decodeString r.publicKey)
  let ts ← Decimal.parseInt r.timestamp
  let nonce ← Base64.decodeString r.nonce
  return (pub, nonce, ts)

/-! ## Replays -/

section Cache
variable {window : Int64} {seen : Seen} {id nonce : Bytes} {now : Time}

theorem cutoff_eq (hw : -2 ^ 62 < window.toInt ∧ window.toInt ≤ 2 ^ 62) :
    (-2 * window).toInt = -2 * window.toInt := by
  rw [Int64.toInt_mul]
  exact Int.bmod_eq_of_le (by change _ ≤ -2 * _; omega) (by change -2 * _ < _; omega)

theorem sweep_of_le {cutoff : Time} (h : seen k = some t) (ht : cutoff ≤ t) :
    seen.sweep cutoff k = some t := by
  rw [Seen.sweep, h, Option.filter_some, if_pos]
  simpa using ht

theorem seenBefore_keeps (hk : seen k = some t) (ht : now + (-2 * window).toInt ≤ t) :
    (seenBefore window seen id nonce now).2 k = some t := by
  unfold seenBefore
  generalize now + (-2 * window).toInt = cutoff at ht ⊢
  have hswept := sweep_of_le hk ht
  simp only
  split
  · exact hswept
  · next hno =>
    by_cases heq : k = cacheKey id nonce
    · rw [← heq, hswept, Option.any_some, decide_eq_true_iff] at hno
      exact absurd (Int.not_lt.mpr ht) hno
    · simp only [update_of_ne heq]
      exact hswept

theorem seenBefore_hit (hk : seen (cacheKey id nonce) = some t)
    (ht : now + (-2 * window).toInt ≤ t) : (seenBefore window seen id nonce now).1 = true := by
  unfold seenBefore
  generalize now + (-2 * window).toInt = cutoff at ht ⊢
  simp only [sweep_of_le hk ht, Option.any_some]
  rw [if_pos (decide_eq_true (Int.not_lt.mpr ht))]

theorem seenBefore_miss (h : (seenBefore window seen id nonce now).1 = false) :
    (seenBefore window seen id nonce now).2 (cacheKey id nonce) = some now := by
  unfold seenBefore at h ⊢
  simp only at h ⊢
  split at h
  · cases h
  · next hno =>
    rw [if_neg hno]
    exact update_self ..

end Cache

section Once
variable {lib : RequestLib} {audience : Bytes} {window : Int64} {s s' : AuthState}

theorem within_window {now : Int} {ts : Int64} (hw : -2 ^ 62 < window.toInt ∧ window.toInt ≤ 2 ^ 62)
    (h : ¬(Time.sub now ts.toInt < -window ∨ Time.sub now ts.toInt > window)) :
    ts.toInt - window.toInt ≤ now ∧ now ≤ ts.toInt + window.toInt := by
  have hneg : (-window).toInt = -window.toInt := by
    rw [Int64.toInt_neg]
    exact Int.bmod_eq_of_le (by omega) (by omega)
  have hsub : (Time.sub now ts.toInt).toInt =
      max (-2 ^ 63) (min (now - ts.toInt) (2 ^ 63 - 1)) := by
    rw [Time.sub, Int64.toInt_ofInt, show Int64.size = 2 ^ 64 from rfl]
    exact Int.bmod_eq_of_le (by omega) (by omega)
  rw [not_or, gt_iff_lt, Int64.lt_iff_toInt_lt, Int64.lt_iff_toInt_lt, hneg, hsub] at h
  omega

theorem verifyRequestHash_ok (hw : -2 ^ 62 < window.toInt ∧ window.toInt ≤ 2 ^ 62)
    (h : verifyRequestHash lib r audience now window = .ok (pub, nonce)) :
    ∃ ts, r.identity lib = some (pub, nonce, ts) ∧ ts.toInt - window.toInt ≤ now ∧
      now ≤ ts.toInt + window.toInt := by
  unfold verifyRequestHash at h
  simp only [bind, Except.bind, pure, Except.pure] at h
  split at h
  · cases h
  · cases hwire : Base64.decodeString r.publicKey with
    | none => simp [hwire] at h
    | some wire =>
      cases hpub : lib.parsePublicKey wire with
      | none => simp [hwire, hpub] at h
      | some pub' =>
        cases hts : Decimal.parseInt r.timestamp with
        | none => simp [hwire, hpub, hts] at h
        | some ts =>
          cases hnonce : Base64.decodeString r.nonce with
          | none => simp [hwire, hpub, hts, hnonce] at h
          | some nonce' =>
            cases hsig : Base64.decodeString r.signature with
            | none => simp [hwire, hpub, hts, hnonce, hsig] at h
            | some sig =>
              simp only [hwire, hpub, hts, hnonce, hsig] at h
              split at h
              · cases h
              · next hin =>
                have hid : r.identity lib = some (pub', nonce', ts) := by
                  simp [Request.identity, hwire, hpub, hts, hnonce]
                have hwin := within_window hw hin
                cases hp : lib.requestSigPayload
                    ⟨r.method, r.requestURI, ts, nonce', r.bodyHash, audience⟩ with
                | none => simp [hp] at h
                | some payload =>
                  simp only [hp] at h
                  split at h
                  · cases h
                  · cases h
                    exact ⟨ts, hid, hwin⟩

/-- The cache holds a record of the request, or a call has come that is late for it. -/
def Recorded (lib : RequestLib) (window : Int64) (s : AuthState) (pub nonce : Bytes) (ts : Int64) :
    Prop :=
  (∃ c ∈ s.calls, ts.toInt + window.toInt < c) ∨
    ∃ t, s.seen (cacheKey (lib.fingerprint pub) nonce) = some t ∧ ts.toInt - window.toInt ≤ t

/-- What is known of a request at each stage. -/
def Stage.Ok (lib : RequestLib) (window : Int64) (s : AuthState) : Stage → Prop
  | .verified r now pub nonce | .authorized r now pub nonce _ =>
    ∃ ts, r.identity lib = some (pub, nonce, ts) ∧ ts.toInt - window.toInt ≤ now ∧
      now ≤ ts.toInt + window.toInt
  | .accepted r =>
    ∃ pub nonce ts, r.identity lib = some (pub, nonce, ts) ∧ Recorded lib window s pub nonce ts
  | _ => True

structure AuthInv (lib : RequestLib) (window : Int64) (s : AuthState) : Prop where
  stages : ∀ i, (s.reqs i).Ok lib window s
  once : ∀ i j r r', i ≠ j → s.reqs i = .accepted r → s.reqs j = .accepted r' →
    r.identity lib ≠ r'.identity lib

/-- A handler that calls the cache comes no later than its timestamp allows, as far as the calls
before it tell. -/
def InTime (lib : RequestLib) (window : Int64) (s : AuthState) (i : Nat) : Prop :=
  ∀ r now pub nonce ent id, s.reqs i = .authorized r now pub nonce ent →
    r.identity lib = some id → ∀ c ∈ s.calls, c ≤ id.2.2.toInt + window.toInt

theorem Recorded.mono (h : Recorded lib window s pub nonce ts) (hseen : s'.seen = s.seen)
    (hcalls : s'.calls = s.calls) : Recorded lib window s' pub nonce ts := by
  unfold Recorded
  rw [hseen, hcalls]
  exact h

theorem Stage.Ok.mono {st : Stage} (h : st.Ok lib window s)
    (hrec : ∀ pub nonce ts, Recorded lib window s pub nonce ts →
      Recorded lib window s' pub nonce ts) : st.Ok lib window s' := by
  cases st with
  | accepted r =>
    obtain ⟨pub, nonce, ts, hid, hr⟩ := h
    exact ⟨pub, nonce, ts, hid, hrec _ _ _ hr⟩
  | _ => exact h

theorem AuthInv.set (h : AuthInv lib window s) {st : Stage} (hok : st.Ok lib window s)
    (hacc : ∀ r, st ≠ .accepted r) : AuthInv lib window (s.set i st) := by
  constructor
  · intro j
    have hrec : (s.reqs j).Ok lib window (s.set i st) :=
      (h.stages j).mono fun _ _ _ hr => hr.mono rfl rfl
    by_cases hj : j = i
    · subst hj
      rw [AuthState.set_self]
      exact hok.mono fun _ _ _ hr => hr.mono rfl rfl
    · rw [AuthState.set_of_ne _ hj]
      exact hrec
  · intro j k r r' hjk hj hk
    have hother : ∀ l x, (s.set i st).reqs l = .accepted x → s.reqs l = .accepted x := by
      intro l x hl
      by_cases hli : l = i
      · subst hli
        rw [AuthState.set_self] at hl
        exact absurd hl (hacc x)
      · rwa [AuthState.set_of_ne _ hli] at hl
    exact h.once j k r r' hjk (hother j r hj) (hother k r' hk)

section
variable (hw : -2 ^ 62 < window.toInt ∧ window.toInt ≤ 2 ^ 62)
include hw

/-- A call of the cache keeps the records of all requests that are not late by then. -/
theorem Recorded.call
    (h : Recorded lib window s pub nonce ts) {id : Bytes}
    (hseen : s'.seen = (seenBefore window s.seen id nonce' now).2)
    (hcalls : s'.calls = now :: s.calls) : Recorded lib window s' pub nonce ts := by
  unfold Recorded
  rw [hseen, hcalls]
  rcases h with ⟨c, hc, hlate⟩ | ⟨t, ht, hge⟩
  · exact .inl ⟨c, List.mem_cons_of_mem _ hc, hlate⟩
  · rcases Int.lt_or_le t (now + (-2 * window).toInt) with hlt | hle
    · refine .inl ⟨now, List.mem_cons_self, ?_⟩
      rw [cutoff_eq hw] at hlt
      omega
    · exact .inr ⟨t, seenBefore_keeps ht hle, hge⟩

theorem Recorded.hit
    (h : Recorded lib window s pub nonce ts) (hnow : now ≤ ts.toInt + window.toInt)
    (htime : ∀ c ∈ s.calls, c ≤ ts.toInt + window.toInt) :
    (seenBefore window s.seen (lib.fingerprint pub) nonce now).1 = true := by
  rcases h with ⟨c, hc, hlate⟩ | ⟨t, ht, hge⟩
  · exact absurd (htime c hc) (Int.not_le.mpr hlate)
  · refine seenBefore_hit ht ?_
    rw [cutoff_eq hw]
    change (_ : Int) ≤ _
    omega

theorem AuthInv.seenBefore
    (h : AuthInv lib window s) (hi : s.reqs i = .authorized r now pub nonce ent)
    (htime : InTime lib window s i)
    (hcall : Server.seenBefore window s.seen (lib.fingerprint pub) nonce now = (hit, seen)) :
    AuthInv lib window (s.call i (.afterNonce r ent hit) seen now) := by
  obtain ⟨ts, hid, hge, hle⟩ : ∃ ts, r.identity lib = some (pub, nonce, ts) ∧
      ts.toInt - window.toInt ≤ now ∧ now ≤ ts.toInt + window.toInt := by
    have hst := h.stages i
    rw [hi] at hst
    exact hst
  have hseen : seen = (Server.seenBefore window s.seen (lib.fingerprint pub) nonce now).2 := by
    rw [hcall]
  have hkept : ∀ pub' nonce' ts', Recorded lib window s pub' nonce' ts' → Recorded lib window
      (s.call i (.afterNonce r ent hit) seen now) pub' nonce' ts' :=
    fun _ _ _ hr => hr.call hw hseen rfl
  -- The request can only be accepted when the cache has not seen it.
  have hfresh : ∀ x, Stage.afterNonce r ent hit = .accepted x → x = r ∧ hit = false := by
    intro x hx
    unfold Stage.afterNonce at hx
    split at hx
    · cases hx
    · next hno =>
      split at hx
      · cases hx
      · cases hx
        exact ⟨rfl, by simpa using hno⟩
  have hnew : ∀ x j r', Stage.afterNonce r ent hit = .accepted x → s.reqs j = .accepted r' →
      x.identity lib ≠ r'.identity lib := by
    rintro x j r' hx hj heq
    obtain ⟨rfl, hmiss⟩ := hfresh x hx
    have hst := h.stages j
    rw [hj] at hst
    obtain ⟨pub', nonce', ts', hid', hrec⟩ := hst
    rw [heq, hid'] at hid
    cases hid
    have hhit := hrec.hit hw hle fun c hc => htime _ _ _ _ _ _ hi (heq.trans hid') c hc
    rw [hcall] at hhit
    rw [hmiss] at hhit
    cases hhit
  constructor
  · intro j
    by_cases hj : j = i
    · subst hj
      simp only [AuthState.call, AuthState.set_self]
      cases hst : Stage.afterNonce r ent hit with
      | accepted x =>
        obtain ⟨rfl, hmiss⟩ := hfresh x hst
        refine ⟨pub, nonce, ts, hid, .inr ⟨now, ?_, hge⟩⟩
        simp only [hseen]
        exact seenBefore_miss (by rw [hcall]; exact hmiss)
      | refused x => trivial
      | _ =>
        unfold Stage.afterNonce at hst
        split at hst
        · cases hst
        · split at hst <;> cases hst
    · simp only [AuthState.call, AuthState.set_of_ne _ hj]
      exact (h.stages j).mono hkept
  · intro j k x y hjk hj hk
    simp only [AuthState.call] at hj hk
    by_cases hji : j = i
    · subst hji
      rw [AuthState.set_self] at hj
      rw [AuthState.set_of_ne _ hjk.symm] at hk
      exact hnew x k y hj hk
    · rw [AuthState.set_of_ne _ hji] at hj
      by_cases hki : k = i
      · subst hki
        rw [AuthState.set_self] at hk
        exact (hnew y j x hk hj).symm
      · rw [AuthState.set_of_ne _ hki] at hk
        exact h.once j k x y hjk hj hk

/-- One step keeps the invariant, if a call of the cache comes in time. -/
theorem AuthInv.step
    (h : AuthInv lib window s) (hstep : AuthStep lib audience window s l s')
    (htime : ∀ i, l = .seenBefore i → InTime lib window s i) : AuthInv lib window s' := by
  cases hstep with
  | tick _ => exact ⟨fun j => (h.stages j).mono fun _ _ _ hr => hr.mono rfl rfl, h.once⟩
  | now hi => exact h.set trivial nofun
  | @verify _ i r now hi =>
    refine h.set ?_ ?_
    · unfold Stage.afterVerify
      split
      · next hv => exact verifyRequestHash_ok hw hv
      · trivial
    · intro x
      unfold Stage.afterVerify
      split <;> exact nofun
  | @authorize _ i r now pub nonce allow reloaded hi =>
    have hst := h.stages i
    rw [hi] at hst
    refine h.set ?_ ?_
    · unfold Stage.afterAuthorize
      split
      · exact hst
      · trivial
    · intro x
      unfold Stage.afterAuthorize
      split <;> exact nofun
  | seenBefore hi hcall => exact h.seenBefore hw hi (htime _ rfl) hcall

end

/-- The states that a run of the server reaches, if `P` holds whenever the handler of a request calls
the cache. -/
abbrev Reached (lib : RequestLib) (audience : Bytes) (window : Int64)
    (P : AuthState → Nat → Prop) : AuthState → Prop :=
  Reach AuthState.Fresh fun s s' =>
    ∃ l, AuthStep lib audience window s l s' ∧ ∀ i, l = .seenBefore i → P s i

/-- In a run whose calls of the cache all come in time, no two requests that carry the same key,
nonce and timestamp are accepted. -/
theorem accepted_once (hw : -2 ^ 62 < window.toInt ∧ window.toInt ≤ 2 ^ 62)
    (hrun : Reached lib audience window (InTime lib window) s)
    (hij : i ≠ j) (hi : s.reqs i = .accepted r) (hj : s.reqs j = .accepted r') :
    r.identity lib ≠ r'.identity lib := by
  have hinv : AuthInv lib window s := by
    refine hrun.invariant ?_ ?_
    · rintro t ⟨-, -, hreqs⟩
      refine ⟨fun k => ?_, fun k _ x _ _ hk => ?_⟩
      · obtain ⟨x, hx⟩ := hreqs k
        rw [hx]
        trivial
      · obtain ⟨y, hy⟩ := hreqs k
        cases hy.symm.trans hk
    · rintro t u ht ⟨l, hl, htime⟩
      exact ht.step hw hl htime
  exact hinv.once i j r r' hij hi hj

end Once

/-! ## A replay -/

def defaultWindow : Int64 := 300000000000

/-- Any signature verifies. -/
def trustingLib : RequestLib where
  envelope _ := none
  grant _ := none
  verifyNamespace _ _ _ _ := true
  parsePublicKey wire := some wire
  fingerprint pub := pub
  requestSigPayload _ := some []

def readerList : Allowlist := (∅ : Allowlist).insert [0] { read := true }

/-- A read request by the key `[0]` with the given timestamp and nonce headers. -/
def readRequest (timestamp nonce : Bytes) : Request where
  method := []
  requestURI := []
  publicKey := [65, 65, 61, 61]
  timestamp := timestamp
  nonce := nonce
  signature := [65, 65, 61, 61]
  grant := []
  bodyHash := []
  need := capRead

/-- Signed for the time one window after the clock starts. -/
def earlyRequest : Request :=
  readRequest [51, 48, 48, 48, 48, 48, 48, 48, 48, 48, 48, 48] [65, 65, 61, 61]

/-- Another request, one window later. -/
def lateRequest : Request :=
  readRequest [54, 48, 48, 48, 48, 48, 48, 48, 48, 48, 48, 48] [66, 66, 61, 61]

def replayStart : AuthState where
  clock := 0
  seen := fun _ => none
  calls := []
  reqs i := .arrived (if i = 2 then lateRequest else earlyRequest)

theorem Reached.readClock (h : Reached lib audience window P s) (ht : s.clock ≤ t)
    (hi : s.reqs i = .arrived r) : ∃ s', Reached lib audience window P s' ∧
      s'.reqs i = .clocked r t ∧ (∀ j, j ≠ i → s'.reqs j = s.reqs j) ∧ s'.seen = s.seen ∧
      s'.calls = s.calls ∧ s'.clock = t := by
  have htick := Reach.next h ⟨.tick t, .tick ht, nofun⟩
  have hnow := htick.next ⟨.now i, .now hi, nofun⟩
  refine ⟨_, hnow, AuthState.set_self _, fun j hj => ?_, rfl, rfl, rfl⟩
  exact AuthState.set_of_ne _ hj

/-- A handler that has read the clock takes all its other steps. -/
theorem Reached.accept (allow : Allowlist) (h : Reached lib audience window P s) (hi : s.reqs i = .clocked r now)
    (hv : verifyRequestHash lib r audience now window = .ok (pub, nonce))
    (ha : authorize lib.toGrantLib window allow allow pub r.grant now = .ok ent)
    (hneed : ent.allows r.need = true)
    (hmiss : (seenBefore window s.seen (lib.fingerprint pub) nonce now).1 = false)
    (hP : ∀ t, t.calls = s.calls → t.reqs i = .authorized r now pub nonce ent → P t i) :
    ∃ s', Reached lib audience window P s' ∧ s'.reqs i = .accepted r ∧
      (∀ j, j ≠ i → s'.reqs j = s.reqs j) ∧
      s'.seen = (seenBefore window s.seen (lib.fingerprint pub) nonce now).2 ∧
      s'.calls = now :: s.calls ∧ s'.clock = s.clock := by
  have h1 := Reach.next h ⟨.verify i, .verify hi, nofun⟩
  rw [show Stage.afterVerify lib audience window r now = .verified r now pub nonce by
    rw [Stage.afterVerify, hv]] at h1
  have h2 := h1.next ⟨.authorize i allow allow, .authorize (AuthState.set_self _), nofun⟩
  rw [show Stage.afterAuthorize lib window allow allow r now pub nonce =
    .authorized r now pub nonce ent by rw [Stage.afterAuthorize, ha]] at h2
  have h3 := h2.next ⟨.seenBefore i, .seenBefore (AuthState.set_self _) rfl, fun j hj => by
    cases hj
    exact hP _ rfl (AuthState.set_self _)⟩
  refine ⟨_, h3, ?_, fun j hj => ?_, rfl, rfl, rfl⟩
  · simp only [AuthState.call, AuthState.set_self]
    unfold Stage.afterNonce
    rw [hneed]
    change (if (seenBefore window s.seen (lib.fingerprint pub) nonce now).1 then _ else _) = _
    rw [hmiss]
    rfl
  · simp only [AuthState.call, AuthState.set_of_ne _ hj]

/-- The replay reads the clock at the end of its window. Before it calls the cache, another request
calls it with a later reading, and that call drops the nonce. -/
theorem replay_accepted : ∃ s, Reached trustingLib [] defaultWindow (fun _ _ => True) s ∧
    s.reqs 0 = .accepted earlyRequest ∧ s.reqs 1 = .accepted earlyRequest ∧
    (earlyRequest.identity trustingLib).isSome := by
  have h0 : Reached trustingLib [] defaultWindow (fun _ _ => True) replayStart :=
    .start ⟨rfl, rfl, fun i => ⟨_, rfl⟩⟩
  obtain ⟨s1, h1, hA1, hr1, hs1, -, hc1⟩ := h0.readClock (i := 0) (t := 0) (Int.le_refl _) rfl
  obtain ⟨s2, h2, hA2, hr2, hs2, -, hc2⟩ :=
    Reached.accept readerList h1 hA1 (by rfl) (by rfl) rfl (by rw [hs1]; rfl) fun _ _ _ => trivial
  have hB : s2.reqs 1 = .arrived earlyRequest := by
    rw [hr2 1 (by decide), hr1 1 (by decide)]
    rfl
  obtain ⟨s3, h3, hB3, hr3, hs3, -, hc3⟩ := h2.readClock (t := 600000000000)
    (by rw [hc2, hc1]; decide) hB
  have hC : s3.reqs 2 = .arrived lateRequest := by
    rw [hr3 2 (by decide), hr2 2 (by decide), hr1 2 (by decide)]
    rfl
  obtain ⟨s4, h4, hC4, hr4, hs4, -, hc4⟩ := h3.readClock (t := 600000000001)
    (by rw [hc3]; decide) hC
  obtain ⟨s5, h5, hC5, hr5, hs5, -, hc5⟩ := Reached.accept readerList h4 hC4 (by rfl) (by rfl) rfl
    (by rw [hs4, hs3, hs2, hs1]; rfl) fun _ _ _ => trivial
  have hB5 : s5.reqs 1 = .clocked earlyRequest 600000000000 := by
    rw [hr5 1 (by decide), hr4 1 (by decide), hB3]
  obtain ⟨s6, h6, hB6, hr6, -, -, -⟩ := Reached.accept readerList h5 hB5 (by rfl) (by rfl) rfl
    (by rw [hs5, hs4, hs3, hs2, hs1]; rfl) fun _ _ _ => trivial
  refine ⟨s6, h6, ?_, hB6, by rfl⟩
  rw [hr6 0 (by decide), hr5 0 (by decide), hr4 0 (by decide), hr3 0 (by decide), hA2]
  rfl

theorem accepted_once_two : ∃ s, Reached trustingLib [] defaultWindow
      (InTime trustingLib defaultWindow) s ∧ s.reqs 0 = .accepted earlyRequest ∧
    s.reqs 2 = .accepted lateRequest ∧
    earlyRequest.identity trustingLib ≠ lateRequest.identity trustingLib := by
  have h0 : Reached trustingLib [] defaultWindow (InTime trustingLib defaultWindow) replayStart :=
    .start ⟨rfl, rfl, fun i => ⟨_, rfl⟩⟩
  obtain ⟨s1, h1, hA1, hr1, hs1, hl1, hc1⟩ := h0.readClock (i := 0) (t := 0) (Int.le_refl _) rfl
  obtain ⟨s2, h2, hA2, hr2, hs2, hl2, hc2⟩ := Reached.accept readerList h1 hA1 (by rfl) (by rfl) rfl
    (by rw [hs1]; rfl) (by
      rintro t ht - r now pub nonce ent id - - c hc
      rw [ht, hl1] at hc
      cases hc)
  have hC : s2.reqs 2 = .arrived lateRequest := by
    rw [hr2 2 (by decide), hr1 2 (by decide)]
    rfl
  obtain ⟨s3, h3, hC3, hr3, hs3, hl3, hc3⟩ := h2.readClock (t := 600000000000)
    (by rw [hc2, hc1]; decide) hC
  obtain ⟨s4, h4, hC4, hr4, -, -, -⟩ := Reached.accept readerList h3 hC3 (by rfl) (by rfl) rfl
    (by rw [hs3, hs2, hs1]; rfl) (by
      rintro t ht hreq r now pub nonce ent id hreq' hid c hc
      rw [ht, hl3, hl2, hl1] at hc
      cases hreq.symm.trans hreq'
      cases List.mem_singleton.mp hc
      cases hid
      decide)
  have hA4 : s4.reqs 0 = .accepted earlyRequest := by
    rw [hr4 0 (by decide), hr3 0 (by decide), hA2]
    rfl
  exact ⟨s4, h4, hA4, hC4, accepted_once (by decide) h4 (by decide) hA4 hC4⟩

end AmberStore.Server
