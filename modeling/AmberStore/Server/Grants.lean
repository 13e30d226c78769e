import AmberStore.Lib.Except
import AmberStore.Server.Authorize

/-!
# Signing grants

A delegate signs a grant for another key; the server accepts it in a period around the one it names. The period is
computed in 64-bit nanoseconds.
-/

namespace AmberStore.Server

inductive SignError where
  | caps (e : AuthError)
  /-- grant has no subject key -/
  | noSubject
  /-- grant expires before it is issued -/
  | expiresBeforeIssued
  | encoding
  | signing
  deriving DecidableEq

/-- The encoders of the two structures, and the issuer's key and signatures. -/
structure Issuer where
  publicKey : Bytes
  signNamespace : Bytes → String → Option Bytes
  grant : Grant → Option Bytes
  envelope : Envelope → Option Bytes

/-- The grant as it is signed, with its capabilities in order. -/
def Grant.sorted (g : Grant) : Grant := { g with caps := g.caps.mergeSort fun a b => decide (a ≤ b) }

def signGrant (issuer : Issuer) (g : Grant) : Except SignError Bytes := do
  (validateCaps g.caps).mapError .caps
  if g.subject.length = 0 then .error .noSubject
  if g.issuedAt > g.expiresAt then .error .expiresBeforeIssued
  let some payload := issuer.grant g.sorted | .error .encoding
  let some sig := issuer.signNamespace payload grantNamespace | .error .signing
  let some raw := issuer.envelope ⟨payload, sig, issuer.publicKey⟩ | .error .encoding
  return raw

/-- What was encoded can be decoded, and signatures of the issuer verify. -/
structure Issuer.Genuine (issuer : Issuer) (lib : GrantLib) : Prop where
  grant : ∀ g b, issuer.grant g = some b → lib.grant b = some g
  envelope : ∀ env b, issuer.envelope env = some b → lib.envelope b = some env
  signature : ∀ payload ns sig, issuer.signNamespace payload ns = some sig →
    lib.verifyNamespace payload sig issuer.publicKey ns = true

theorem validateCaps_iff {caps : List String} :
    validateCaps caps = .ok () ↔ caps ≠ [] ∧ ∀ c ∈ caps, c = capRead ∨ c = capPushObjects := by
  constructor
  · intro h
    refine ⟨?_, validateCaps_ok h⟩
    intro hnil
    rw [validateCaps, if_pos hnil] at h
    cases h
  · intro ⟨hne, h⟩
    rw [validateCaps, if_neg hne]
    clear hne
    induction caps with
    | nil => rfl
    | cons c caps ih =>
      change (validateCap c >>= fun _ => caps.forM validateCap) = _
      rw [validateCap, if_pos (h c List.mem_cons_self)]
      exact ih fun c hc => h c (List.mem_cons_of_mem _ hc)

theorem Grant.validateCaps_sorted {g : Grant} (h : validateCaps g.caps = .ok ()) :
    validateCaps g.sorted.caps = .ok () := by
  obtain ⟨hne, hcaps⟩ := validateCaps_iff.mp h
  have hperm : g.sorted.caps.Perm g.caps := List.mergeSort_perm _ _
  refine validateCaps_iff.mpr ⟨?_, fun c hc => hcaps c (hperm.mem_iff.mp hc)⟩
  intro hnil
  rw [hnil] at hperm
  exact hne hperm.symm.eq_nil

theorem signGrant_ok {issuer : Issuer} (h : signGrant issuer g = .ok raw) :
    validateCaps g.caps = .ok () ∧ ∃ payload sig, issuer.grant g.sorted = some payload ∧
      issuer.signNamespace payload grantNamespace = some sig ∧
      issuer.envelope ⟨payload, sig, issuer.publicKey⟩ = some raw := by
  unfold signGrant at h
  obtain ⟨u, hcaps, h⟩ := Except.bind_eq_ok.mp h
  refine ⟨Except.mapError_eq_ok.mp hcaps, ?_⟩
  by_cases hsub : g.subject.length = 0
  · simp only [if_pos hsub] at h
    cases h
  simp only [if_neg hsub] at h
  by_cases htime : g.issuedAt > g.expiresAt
  · simp only [if_pos htime] at h
    cases h
  simp only [if_neg htime] at h
  cases hgrant : issuer.grant g.sorted with
  | none =>
    simp only [hgrant] at h
    cases h
  | some payload =>
    simp only [hgrant] at h
    cases hsig : issuer.signNamespace payload grantNamespace with
    | none =>
      simp only [hsig] at h
      cases h
    | some sig =>
      simp only [hsig] at h
      cases henv : issuer.envelope ⟨payload, sig, issuer.publicKey⟩ with
      | none =>
        simp only [henv] at h
        cases h
      | some raw' =>
        simp only [henv] at h
        cases h
        exact ⟨payload, sig, rfl, hsig, henv⟩

/-- Of the checks of a genuine grant only those of the period can fail. -/
theorem verifyGrant_signed {issuer : Issuer} (hgen : issuer.Genuine lib) (h : signGrant issuer g = .ok raw)
    (now : Time) (window : Int64) :
    verifyGrant lib raw g.subject now window =
      if now.unixNano < g.issuedAt - window then .error .grantNotYetValid
      else if now.unixNano > g.expiresAt + window then .error .grantExpired
      else .ok (g.sorted, issuer.publicKey) := by
  obtain ⟨hcaps, payload, sig, hpayload, hsig, hraw⟩ := signGrant_ok h
  have hverify := hgen.signature payload grantNamespace sig hsig
  rw [verifyGrant, hgen.envelope _ _ hraw]
  dsimp only
  rw [hverify, hgen.grant _ _ hpayload]
  dsimp only
  rw [Grant.validateCaps_sorted hcaps]
  change (if g.subject ≠ g.subject then _ else _) = _
  rw [if_neg (not_not.mpr rfl)]
  rfl

theorem verifyGrant_signed_ok {issuer : Issuer} (hgen : issuer.Genuine lib) (h : signGrant issuer g = .ok raw)
    (now : Time) (window : Int64) :
    (∃ r, verifyGrant lib raw g.subject now window = .ok r) ↔
      (g.issuedAt - window).toInt ≤ now.unixNano.toInt ∧ now.unixNano.toInt ≤ (g.expiresAt + window).toInt := by
  rw [verifyGrant_signed hgen h]
  by_cases hfrom : now.unixNano < g.issuedAt - window
  · rw [if_pos hfrom]
    rw [Int64.lt_iff_toInt_lt] at hfrom
    exact ⟨nofun, fun hok => absurd hok.1 (Int.not_le.mpr hfrom)⟩
  · rw [if_neg hfrom]
    rw [Int64.lt_iff_toInt_lt, Int.not_lt] at hfrom
    by_cases huntil : now.unixNano > g.expiresAt + window
    · rw [if_pos huntil]
      rw [gt_iff_lt, Int64.lt_iff_toInt_lt] at huntil
      exact ⟨nofun, fun hok => absurd hok.2 (Int.not_le.mpr huntil)⟩
    · rw [if_neg huntil]
      rw [gt_iff_lt, Int64.lt_iff_toInt_lt, Int.not_lt] at huntil
      exact ⟨fun _ => ⟨hfrom, huntil⟩, fun _ => ⟨_, rfl⟩⟩

theorem Time.toInt_unixNano {now : Time} (hlo : -2 ^ 63 ≤ now) (hhi : now < 2 ^ 63) : now.unixNano.toInt = now := by
  exact Int64.toInt_ofInt_of_le hlo hhi

/-- A genuine grant is accepted in the period that it names, give or take the window, at every time that has a
64-bit number, exactly if the ends of that period have one. -/
theorem verifyGrant_window {issuer : Issuer} (hgen : issuer.Genuine lib) (h : signGrant issuer g = .ok raw)
    (hw : 0 ≤ window) :
    (∀ now : Time, -2 ^ 63 ≤ now → now < 2 ^ 63 →
      ((∃ r, verifyGrant lib raw g.subject now window = .ok r) ↔
        g.issuedAt.toInt - window.toInt ≤ now ∧ now ≤ g.expiresAt.toInt + window.toInt)) ↔
    -2 ^ 63 ≤ g.issuedAt.toInt - window.toInt ∧ g.expiresAt.toInt + window.toInt < 2 ^ 63 := by
  have hw' : 0 ≤ window.toInt := Int64.le_iff_toInt_le.mp hw
  have hwindow := window.toInt_lt
  have hissued := g.issuedAt.le_toInt
  have hissued' := g.issuedAt.toInt_lt
  have hexpires := g.expiresAt.le_toInt
  have hexpires' := g.expiresAt.toInt_lt
  have hfrom := Int64.toInt_sub g.issuedAt window
  have huntil := Int64.toInt_add g.expiresAt window
  constructor
  · intro hall
    by_contra hno
    rw [not_and_or, Int.not_le, Int.not_lt] at hno
    rcases hno with hlow | hhigh
    · -- the first moment is in the period, but its start has wrapped around to after it
      have hin : g.issuedAt.toInt - window.toInt ≤ (-2 ^ 63 : Int) ∧
          (-2 ^ 63 : Int) ≤ g.expiresAt.toInt + window.toInt := by omega
      have hok := (hall (-2 ^ 63 : Int) (by decide) (by decide)).mpr hin
      have hstart := ((verifyGrant_signed_ok hgen h _ window).mp hok).1
      rw [Time.toInt_unixNano (by decide) (by decide), hfrom, Int.bmod_def] at hstart
      omega
    · have hin : g.issuedAt.toInt - window.toInt ≤ (2 ^ 63 - 1 : Int) ∧
          (2 ^ 63 - 1 : Int) ≤ g.expiresAt.toInt + window.toInt := by omega
      have hok := (hall (2 ^ 63 - 1 : Int) (by decide) (by decide)).mpr hin
      have hend := ((verifyGrant_signed_ok hgen h _ window).mp hok).2
      rw [Time.toInt_unixNano (by decide) (by decide), huntil, Int.bmod_def] at hend
      omega
  · intro ⟨hlow, hhigh⟩ now hlo hhi
    rw [verifyGrant_signed_ok hgen h, Time.toInt_unixNano hlo hhi, hfrom, huntil,
      Int.bmod_eq_of_le (by omega) (by omega), Int.bmod_eq_of_le (by omega) (by omega)]

deriving instance DecidableEq for Grant, Envelope

/-- The delegate `[2]`, who signs one grant. -/
def soleIssuer (g : Grant) : Issuer where
  publicKey := [2]
  signNamespace payload ns := if payload = [3] ∧ ns = grantNamespace then some [4] else none
  grant g' := if g' = g.sorted then some [3] else none
  envelope env := if env = ⟨[3], [4], [2]⟩ then some [0] else none

def soleLib (g : Grant) : GrantLib where
  envelope raw := if raw = [0] then some ⟨[3], [4], [2]⟩ else none
  grant payload := if payload = [3] then some g.sorted else none
  verifyNamespace payload sig pub ns := decide (payload = [3] ∧ sig = [4] ∧ pub = [2] ∧ ns = grantNamespace)

theorem soleIssuer_genuine (g : Grant) : (soleIssuer g).Genuine (soleLib g) where
  grant g' b h := by
    simp only [soleIssuer, Option.ite_none_right_eq_some, Option.some.injEq] at h
    rw [← h.2, h.1]
    rfl
  envelope env b h := by
    simp only [soleIssuer, Option.ite_none_right_eq_some, Option.some.injEq] at h
    rw [← h.2, h.1]
    rfl
  signature payload ns sig h := by
    simp only [soleIssuer, Option.ite_none_right_eq_some, Option.some.injEq] at h
    rw [← h.2, h.1.1, h.1.2]
    rfl

theorem signGrant_sole {g : Grant} (hcaps : validateCaps g.caps = .ok ()) (hsub : g.subject.length ≠ 0)
    (htime : ¬ g.issuedAt > g.expiresAt) : signGrant (soleIssuer g) g = .ok [0] := by
  have hgrant : (soleIssuer g).grant g.sorted = some [3] := if_pos rfl
  rw [signGrant, hcaps]
  simp only [Except.mapError, if_neg hsub, if_neg htime, hgrant]
  rfl

/-- A grant to read for the key `[1]`. -/
def readGrant (issuedAt expiresAt : Int64) : Grant := ⟨[1], [capRead], issuedAt, expiresAt⟩

theorem verifyGrant_window_read :
    (∀ now : Time, -2 ^ 63 ≤ now → now < 2 ^ 63 →
      ((∃ r, verifyGrant (soleLib (readGrant 0 1000)) [0] [1] now 5 = .ok r) ↔
        (0 : Int64).toInt - (5 : Int64).toInt ≤ now ∧ now ≤ (1000 : Int64).toInt + (5 : Int64).toInt)) ↔
    -2 ^ 63 ≤ (0 : Int64).toInt - (5 : Int64).toInt ∧ (1000 : Int64).toInt + (5 : Int64).toInt < 2 ^ 63 :=
  verifyGrant_window (g := readGrant 0 1000) (soleIssuer_genuine _)
    (signGrant_sole (by decide) (by decide) (by decide)) (by decide)

/-- A grant without end has always expired: with a window of a nanosecond its end has wrapped around. -/
theorem verifyGrant_endless :
    signGrant (soleIssuer (readGrant 0 Int64.maxValue)) (readGrant 0 Int64.maxValue) = .ok [0] ∧
    (soleIssuer (readGrant 0 Int64.maxValue)).Genuine (soleLib (readGrant 0 Int64.maxValue)) ∧
    verifyGrant (soleLib (readGrant 0 Int64.maxValue)) [0] [1] (0 : Int) 1 = .error .grantExpired ∧
    (0 : Int64).toInt - (1 : Int64).toInt ≤ 0 ∧ 0 ≤ Int64.maxValue.toInt + (1 : Int64).toInt := by
  have hsign := signGrant_sole (g := readGrant 0 Int64.maxValue) (by decide) (by decide) (by decide)
  refine ⟨hsign, soleIssuer_genuine _, ?_, by decide, by decide⟩
  exact (verifyGrant_signed (soleIssuer_genuine _) hsign (0 : Int) 1).trans (by decide)

end AmberStore.Server
