import AmberStore.Lib.Strconv
import Mathlib.Data.List.AList

/-!
# Authorization

What a request key may do: its entry of the allowlist or, for a key that is not listed, what a
capability grant conveys that a listed delegate has signed for it.
-/

namespace AmberStore.Server

/-! ## The allowlist -/

structure Entry where
  read : Bool := false
  pushObjects : Bool := false
  writeRefs : Bool := false
  delegate : Bool := false
  wipe : Bool := false
  admin : Bool := false
  deriving DecidableEq

def capRead : String := "read"
def capPushObjects : String := "push-objects"
def capWriteRefs : String := "write-refs"
def capDelegate : String := "delegate"
def capWipe : String := "wipe"
def capAdmin : String := "admin"

inductive AuthError where
  | notListed
  | headerBase64
  | grantEnvelope
  | grantSignature
  | grantPayload
  | grantNoCaps
  | grantCap (name : String)
  | grantSubject
  | grantNotYetValid
  | grantExpired
  | notDelegate
  | unknownCap (name : String)
  deriving DecidableEq

def parseCapsInto : Entry → List String → Except AuthError Entry
  | e, [] => .ok e
  | e, n :: names =>
    if n = capRead then parseCapsInto { e with read := true } names
    else if n = capPushObjects then parseCapsInto { e with pushObjects := true } names
    else if n = capWriteRefs then parseCapsInto { e with writeRefs := true } names
    else if n = capDelegate then parseCapsInto { e with delegate := true } names
    else if n = capWipe then parseCapsInto { e with wipe := true } names
    else if n = capAdmin then parseCapsInto { e with admin := true } names
    else .error (.unknownCap n)

def parseCaps (names : List String) : Except AuthError Entry := parseCapsInto {} names

def Entry.allows (e : Entry) (cap : String) : Bool :=
  if e.admin then true
  else if cap = capRead then e.read
  else if cap = capPushObjects then e.pushObjects
  else if cap = capWriteRefs then e.writeRefs
  else if cap = capDelegate then e.delegate
  else if cap = capWipe then e.wipe
  else false

/-- Entries by wire-format public key. -/
abbrev Allowlist := AList fun _ : Bytes => Entry

/-! ## Grants -/

/-- A point in time, in nanoseconds since the Unix epoch. -/
abbrev Time := Int

def Time.unixNano (t : Time) : Int64 := .ofInt t

structure Grant where
  subject : Bytes
  caps : List String
  issuedAt : Int64
  expiresAt : Int64

structure Envelope where
  payload : Bytes
  signature : Bytes
  issuerKey : Bytes

/-- What the libraries decide: the CBOR decoders of the two structures, and whether a blob is an
SSHSIG over a payload in a namespace made by a key. -/
structure GrantLib where
  envelope : Bytes → Option Envelope
  grant : Bytes → Option Grant
  verifyNamespace : Bytes → Bytes → Bytes → String → Bool

def grantNamespace : String := "amber-store-grant"

def validateCap (c : String) : Except AuthError Unit :=
  if c = capRead ∨ c = capPushObjects then .ok () else .error (.grantCap c)

def validateCaps (caps : List String) : Except AuthError Unit :=
  if caps = [] then .error .grantNoCaps else caps.forM validateCap

def verifyGrant (lib : GrantLib) (raw subjectPubWire : Bytes) (now : Time) (window : Int64) :
    Except AuthError (Grant × Bytes) := do
  let some env := lib.envelope raw | .error .grantEnvelope
  if !lib.verifyNamespace env.payload env.signature env.issuerKey grantNamespace then
    .error .grantSignature
  let some g := lib.grant env.payload | .error .grantPayload
  validateCaps g.caps
  if g.subject ≠ subjectPubWire then .error .grantSubject
  let n := now.unixNano
  if n < g.issuedAt - window then .error .grantNotYetValid
  if n > g.expiresAt + window then .error .grantExpired
  return (g, env.issuerKey)

/-- The list is read once for the request key and once for the issuer, and may have been reloaded in
between. The header is empty if it is not there. -/
def authorize (lib : GrantLib) (window : Int64) (allow reloaded : Allowlist) (pub header : Bytes)
    (now : Time) : Except AuthError Entry :=
  match allow.lookup pub with
  | some ent => .ok ent
  | none => do
    if header = [] then .error .notListed
    let some raw := Base64.decodeString header | .error .headerBase64
    let (g, issuerWire) ← verifyGrant lib raw pub now window
    match reloaded.lookup issuerWire with
    | none => .error .notDelegate
    | some issuer =>
      if !issuer.allows capDelegate then .error .notDelegate
      else parseCaps g.caps

/-! ## What a grant conveys -/

/-- The entry allows nothing but to read and to push objects. -/
def Entry.Restricted (e : Entry) : Prop :=
  ∀ cap, e.allows cap = true → cap = capRead ∨ cap = capPushObjects

/-- The header is a grant for the key, in force at `now`, by a delegate of the list. -/
structure Granted (lib : GrantLib) (window : Int64) (allow : Allowlist) (pub header : Bytes)
    (now : Time) where
  raw : Bytes
  env : Envelope
  grant : Grant
  issuer : Entry
  header_eq : Base64.decodeString header = some raw
  envelope : lib.envelope raw = some env
  signature :
    lib.verifyNamespace env.payload env.signature env.issuerKey grantNamespace = true
  payload : lib.grant env.payload = some grant
  caps : ∀ c ∈ grant.caps, c = capRead ∨ c = capPushObjects
  subject : grant.subject = pub
  notBefore : 0 ≤ window → grant.issuedAt.toInt - window.toInt ≤ now.unixNano.toInt
  notAfter : 0 ≤ window → now.unixNano.toInt ≤ grant.expiresAt.toInt + window.toInt
  listed : allow.lookup env.issuerKey = some issuer
  delegate : issuer.delegate = true ∨ issuer.admin = true

theorem validateCaps_ok (h : validateCaps caps = .ok ()) :
    ∀ c ∈ caps, c = capRead ∨ c = capPushObjects := by
  unfold validateCaps at h
  split at h
  · cases h
  · induction caps with
    | nil => exact nofun
    | cons c caps ih =>
      change (validateCap c >>= fun _ => caps.forM validateCap) = _ at h
      by_cases hc : c = capRead ∨ c = capPushObjects
      · rw [validateCap, if_pos hc] at h
        intro x hx
        rcases List.mem_cons.mp hx with rfl | hx
        · exact hc
        · by_cases hnil : caps = []
          · exact absurd hx (by rw [hnil]; exact List.not_mem_nil)
          · exact ih hnil h x hx
      · rw [validateCap, if_neg hc] at h
        cases h

/-- Parsing the capabilities of a grant sets no flag but two. -/
theorem parseCapsInto_restricted (h : ∀ c ∈ caps, c = capRead ∨ c = capPushObjects)
    (he : parseCapsInto e caps = .ok e') :
    e'.writeRefs = e.writeRefs ∧ e'.delegate = e.delegate ∧ e'.wipe = e.wipe ∧
      e'.admin = e.admin := by
  induction caps generalizing e with
  | nil =>
    cases he
    exact ⟨rfl, rfl, rfl, rfl⟩
  | cons c caps ih =>
    have htail := fun x hx => h x (List.mem_cons_of_mem _ hx)
    rcases h c List.mem_cons_self with rfl | rfl
    · rw [parseCapsInto, if_pos rfl] at he
      have hflags := ih htail he
      exact hflags
    · rw [parseCapsInto, if_neg (by decide), if_pos rfl] at he
      have hflags := ih htail he
      exact hflags

theorem parseCaps_restricted (h : ∀ c ∈ caps, c = capRead ∨ c = capPushObjects)
    (he : parseCaps caps = .ok e) : e.Restricted := by
  obtain ⟨hw, hd, hwipe, hadmin⟩ := parseCapsInto_restricted h he
  intro cap hcap
  unfold Entry.allows at hcap
  rw [hadmin, hw, hd, hwipe] at hcap
  by_contra hno
  rw [not_or] at hno
  simp [hno.1, hno.2] at hcap

/-- The checks of the validity period hold without wrapping around: a bound that leaves 64 bits is
one that any time meets. -/
theorem validFrom {n a w : Int64} (hw : 0 ≤ w) (h : ¬n < a - w) : a.toInt - w.toInt ≤ n.toInt := by
  rw [Int64.lt_iff_toInt_lt, Int64.toInt_sub] at h
  rw [Int64.le_iff_toInt_le] at hw
  have hn := n.le_toInt
  have ha := a.toInt_lt
  have hw' : 0 ≤ w.toInt := hw
  rcases Int.lt_or_le (a.toInt - w.toInt) (-2 ^ 63) with hlt | hge
  · omega
  · rw [Int.bmod_eq_of_le (by omega) (by omega)] at h
    omega

theorem validUntil {n a w : Int64} (hw : 0 ≤ w) (h : ¬n > a + w) : n.toInt ≤ a.toInt + w.toInt := by
  rw [gt_iff_lt, Int64.lt_iff_toInt_lt, Int64.toInt_add] at h
  rw [Int64.le_iff_toInt_le] at hw
  have hn := n.toInt_lt
  have ha := a.le_toInt
  have hw' : 0 ≤ w.toInt := hw
  rcases Int.lt_or_le (a.toInt + w.toInt) (2 ^ 63) with hlt | hge
  · rw [Int.bmod_eq_of_le (by omega) (by omega)] at h
    omega
  · omega

theorem Entry.allows_delegate (e : Entry) (h : e.allows capDelegate = true) :
    e.delegate = true ∨ e.admin = true := by
  unfold Entry.allows at h
  split at h
  · exact .inr ‹_›
  · exact .inl (by simpa [capDelegate, capRead, capPushObjects, capWriteRefs] using h)

theorem verifyGrant_ok (h : verifyGrant lib raw pub now window = .ok (g, issuerWire)) :
    ∃ env, lib.envelope raw = some env ∧ issuerWire = env.issuerKey ∧
      lib.verifyNamespace env.payload env.signature env.issuerKey grantNamespace = true ∧
      lib.grant env.payload = some g ∧ validateCaps g.caps = .ok () ∧ g.subject = pub ∧
      ¬now.unixNano < g.issuedAt - window ∧ ¬now.unixNano > g.expiresAt + window := by
  unfold verifyGrant at h
  simp only [bind, Except.bind, pure, Except.pure] at h
  cases henv : lib.envelope raw with
  | none => simp [henv] at h
  | some env =>
    simp only [henv] at h
    cases hsig : lib.verifyNamespace env.payload env.signature env.issuerKey grantNamespace with
    | false => simp [hsig] at h
    | true =>
      cases hg : lib.grant env.payload with
      | none => simp [hsig, hg] at h
      | some g' =>
        cases hc : validateCaps g'.caps with
        | error e => simp [hsig, hg, hc] at h
        | ok u =>
          simp only [hsig, hg, hc, Bool.not_true, Bool.false_eq_true, if_false, ne_eq,
            ite_not] at h
          split at h
          · next hsub =>
            split at h
            · cases h
            · next hfrom =>
              split at h
              · cases h
              · next huntil =>
                cases h
                exact ⟨env, rfl, rfl, hsig, hg, hc, hsub, hfrom, huntil⟩
          · cases h

/-- A listed key has its own entry. Any other key has at most what a grant conveys, and that is
never more than to read and to push objects. -/
theorem authorize_authority (lib : GrantLib) (window : Int64) (allow reloaded : Allowlist)
    (pub header : Bytes) (now : Time) :
    (∀ ent, allow.lookup pub = some ent →
      authorize lib window allow reloaded pub header now = .ok ent) ∧
    (allow.lookup pub = none → ∀ ent,
      authorize lib window allow reloaded pub header now = .ok ent →
        Nonempty (Granted lib window reloaded pub header now) ∧ ent.Restricted) := by
  refine ⟨fun ent hent => by rw [authorize, hent], fun hnone ent h => ?_⟩
  unfold authorize at h
  rw [hnone] at h
  simp only [bind, Except.bind] at h
  split at h
  · cases h
  · cases hraw : Base64.decodeString header with
    | none => simp [hraw] at h
    | some raw =>
      cases hv : verifyGrant lib raw pub now window with
      | error e => simp [hraw, hv] at h
      | ok p =>
        obtain ⟨g, issuerWire⟩ := p
        obtain ⟨env, henv, rfl, hsig, hg, hcaps, hsub, hfrom, huntil⟩ := verifyGrant_ok hv
        cases hissuer : reloaded.lookup env.issuerKey with
        | none => simp [hraw, hv, hissuer] at h
        | some issuer =>
          cases hdel : issuer.allows capDelegate with
          | false => simp [hraw, hv, hissuer, hdel] at h
          | true =>
            simp only [hraw, hv, hissuer, hdel, Bool.not_true, Bool.false_eq_true, if_false] at h
            have honly := validateCaps_ok hcaps
            refine ⟨⟨⟨raw, env, g, issuer, hraw, henv, hsig, hg, honly, hsub,
              fun hw => validFrom hw hfrom, fun hw => validUntil hw huntil, hissuer, ?_⟩⟩,
              parseCaps_restricted honly h⟩
            exact issuer.allows_delegate hdel

/-- A grant to read for the key `[1]`, which the delegate `[2]` has signed. -/
def readGrantLib : GrantLib where
  envelope raw := if raw = [0] then some ⟨[3], [4], [2]⟩ else none
  grant payload := if payload = [3] then some ⟨[1], [capRead], 0, 1000⟩ else none
  verifyNamespace payload blob pub ns :=
    decide (payload = [3] ∧ blob = [4] ∧ pub = [2] ∧ ns = grantNamespace)

def delegateList : Allowlist := (∅ : Allowlist).insert [2] { delegate := true }

theorem authorize_authority_read : ∃ ent : Entry, ent.read = true ∧
    authorize readGrantLib 5 delegateList delegateList [1] [65, 65, 61, 61] 1003 = .ok ent ∧
    Nonempty (Granted readGrantLib 5 delegateList [1] [65, 65, 61, 61] 1003) ∧ ent.Restricted := by
  have hrun : authorize readGrantLib 5 delegateList delegateList [1] [65, 65, 61, 61] 1003 =
      .ok { read := true } := by decide
  exact ⟨_, rfl, hrun, (authorize_authority readGrantLib 5 delegateList delegateList [1]
    [65, 65, 61, 61] 1003).2 (by decide) _ hrun⟩

end AmberStore.Server
