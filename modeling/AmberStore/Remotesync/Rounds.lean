import AmberStore.Remotesync.Pull

/-!
# The rounds of a pull

Nothing compares a reply with its request. A server that leaves out what it was asked for makes
`Pull` ask again and again; one that answers its requests is done after finitely many rounds.
-/

namespace AmberStore.Remotesync
open Amberpack Fstree Walk Except

variable {H : Blake3} {C : Cbor} {ss : Session} {target : UInt64}

/-- Some reply of the round holds an object under the key. -/
def Delivered (ss : Session) (target : UInt64) (n : Nat) (keys : List Key) (k : Key) : Prop :=
  ∃ packs, fetchBatches ss n (batches keys target pullSizer) = .ok packs ∧
    ∃ o ∈ packs.flatten, o.key = k

/-- A round that returned nil has made exactly those keys present that were there or delivered. -/
theorem fetchAll_has (h : fetchAll H ss target n s keys = .ok s') (k : Key) :
    s'.has k = true ↔ s.has k = true ∨ Delivered ss target n keys k := by
  obtain ⟨packs, hpacks, hw⟩ := fetchAll_ok h
  constructor
  · intro hk
    obtain ⟨data, hd⟩ := has_iff.mp hk
    rcases hw.only k data hd with hd | ho
    · exact .inl (has_iff.mpr ⟨data, hd⟩)
    · exact .inr ⟨packs, hpacks, _, ho, rfl⟩
  · rintro (hk | ⟨packs', hpacks', o, ho, rfl⟩)
    · obtain ⟨data, hd⟩ := has_iff.mp hk
      exact has_iff.mpr ⟨data, hw.kept k data hd⟩
    · cases hpacks.symm.trans hpacks'
      exact hw.all o ho

/-- Every reply holds an object under each key of its request. -/
def Session.Answers (ss : Session) : Prop :=
  ∀ n batch objs, ss.fetchObjects n batch = .ok objs → ∀ k ∈ batch, ∃ o ∈ objs, o.key = k

theorem fetchBatches_answers (ha : ss.Answers) (h : fetchBatches ss n bs = .ok packs)
    (hk : k ∈ bs.flatten) : ∃ o ∈ packs.flatten, o.key = k := by
  induction bs generalizing n packs with
  | nil => cases hk
  | cons b bs ih =>
    obtain ⟨objs, hobjs, h⟩ := bind_eq_ok.mp h
    obtain ⟨rest, hrest, h⟩ := bind_eq_ok.mp h
    cases h
    rw [List.flatten_cons] at hk
    rcases List.mem_append.mp hk with hk | hk
    · obtain ⟨o, ho, hok⟩ := ha n b objs hobjs k hk
      exact ⟨o, List.mem_append_left _ ho, hok⟩
    · obtain ⟨o, ho, hok⟩ := ih hrest hk
      exact ⟨o, List.mem_append_right _ ho, hok⟩

/-- A server that answers delivers every key it is asked for. -/
theorem fetchAll_answers (ha : ss.Answers) (h : fetchAll H ss target n s keys = .ok s')
    (hk : k ∈ keys) : s'.has k = true := by
  obtain ⟨packs, hpacks, -⟩ := fetchAll_ok h
  refine (fetchAll_has h k).mpr (.inr ⟨packs, hpacks, ?_⟩)
  exact fetchBatches_answers ha hpacks (by rwa [batches_flatten])

theorem localMissing_ok (h : Loop.Yields (localMissing C s · root) (.ok ms)) (hk : k ∈ ms) :
    Reachable C s root k ∧ s.has k = false := by
  obtain ⟨-, hmem, -⟩ := ProbeReturns.ok (Loop.yields_run.mp h)
  obtain ⟨hreach, hnone⟩ := (hmem k).mp hk
  refine ⟨Relation.ReflTransGen.mono (fun _ _ => edge_expandPresent) _ _ hreach, ?_⟩
  by_contra hhas
  obtain ⟨data, hd⟩ := has_iff.mp (Bool.not_eq_false _ ▸ hhas)
  rw [probe_eq hd] at hnone
  cases hx : expand C s k with
  | error e => rw [hx] at hnone; cases hnone
  | ok cs => rw [hx] at hnone; cases hnone

/-! ## Finitely many rounds -/

/-- What comes after the fetch of a round. -/
theorem pullLoop_yields (hf : fetchRound H ss target n s toFetch = .ok s₁)
    (hw : Loop.Yields (localMissing C s₁ · root) w)
    (hnext : ∀ k ks, w = .ok (k :: ks) → ∃ r, Loop.Yields (fun fuel => pullLoop H C ss target root fuel
      (n + (batches toFetch target pullSizer).length) s₁ (k :: ks)) r) :
    ∃ r, Loop.Yields (fun fuel => pullLoop H C ss target root fuel n s toFetch) r := by
  obtain ⟨m, hm⟩ := hw
  match w with
  | .error e =>
    refine ⟨.error (.walk e), m + 1, fun fuel hfuel => ?_⟩
    obtain ⟨fuel, rfl⟩ := Nat.exists_eq_add_of_le' (Nat.le_trans (Nat.le_add_left 1 m) hfuel)
    simp only [pullLoop, hf, hm (fuel + 1) (by omega)]
  | .ok [] =>
    refine ⟨.ok s₁, m + 1, fun fuel hfuel => ?_⟩
    obtain ⟨fuel, rfl⟩ := Nat.exists_eq_add_of_le' (Nat.le_trans (Nat.le_add_left 1 m) hfuel)
    simp only [pullLoop, hf, hm (fuel + 1) (by omega)]
  | .ok (k :: ks) =>
    obtain ⟨r, m', hm'⟩ := hnext k ks rfl
    refine ⟨r, max m m' + 1, fun fuel hfuel => ?_⟩
    obtain ⟨fuel, rfl⟩ := Nat.exists_eq_add_of_le' (Nat.le_trans (Nat.le_add_left 1 _) hfuel)
    simp only [pullLoop, hf, hm (fuel + 1) (by omega)]
    exact hm' fuel (by omega)

theorem pullLoop_error (hf : fetchRound H ss target n s toFetch = .error e) :
    ∃ r, Loop.Yields (fun fuel => pullLoop H C ss target root fuel n s toFetch) r := by
  refine ⟨.error e, 1, fun fuel hfuel => ?_⟩
  obtain ⟨fuel, rfl⟩ := Nat.exists_eq_add_of_le' hfuel
  simp only [pullLoop, hf]

/-- The objects of the store and of the server name keys of a finite set. -/
structure Bounded (C : Cbor) (U : Finset Key) (G : List Object) (root : Key) (s : Objects) : Prop where
  start : root ∈ U
  store : ∀ k c, Child C s k c → c ∈ U
  server : ∀ o ∈ G, ∀ cs, childKeys C o.key o.data = .ok cs → ∀ c ∈ cs, c ∈ U

theorem Bounded.reachable (h : Bounded C U G root s) (hk : Reachable C s root k) : k ∈ U := by
  induction hk with
  | refl => exact h.start
  | tail _ hc _ => exact h.store _ _ hc

/-- All objects that the server delivers are among these. -/
def Session.Within (ss : Session) (G : List Object) : Prop :=
  ∀ n batch objs, ss.fetchObjects n batch = .ok objs → ∀ o ∈ objs, o ∈ G

theorem fetchBatches_within (hG : ss.Within G) (h : fetchBatches ss n bs = .ok packs)
    (ho : o ∈ packs.flatten) : o ∈ G := by
  induction bs generalizing n packs with
  | nil =>
    cases h
    cases ho
  | cons b bs ih =>
    obtain ⟨objs, hobjs, h⟩ := bind_eq_ok.mp h
    obtain ⟨rest, hrest, h⟩ := bind_eq_ok.mp h
    cases h
    rw [List.flatten_cons] at ho
    exact (List.mem_append.mp ho).elim (hG n b objs hobjs o) (ih hrest)

theorem Bounded.fetchRound (h : Bounded C U G root s) (hG : ss.Within G)
    (hf : fetchRound H ss target n s toFetch = .ok s') : Bounded C U G root s' := by
  unfold Remotesync.fetchRound at hf
  split at hf
  · obtain ⟨packs, hpacks, hw⟩ := fetchAll_ok hf
    refine ⟨h.start, ?_, h.server⟩
    rintro k c ⟨data, cs, hd, hcs, hc⟩
    rcases hw.only k data hd with hd | ho
    · exact h.store k c ⟨data, cs, hd, hcs, hc⟩
    · exact h.server _ (fetchBatches_within hG hpacks ho) cs hcs c hc
  · cases hf
    exact h

/-- How much of the set the store does not have yet. -/
def absent (U : Finset Key) (s : Objects) : Finset Key := U.filter fun k => s.has k = false

theorem exists_walk (h : Bounded C U G root s) : ∃ w, Loop.Yields (localMissing C s · root) w := by
  obtain ⟨r, hr⟩ := exists_probeReturns (probe C s) U h.start
    fun k c _ hc => h.store k c (edge_expandPresent hc)
  exact ⟨r, Loop.yields_run.mpr hr⟩

theorem pullLoop_returns_of_missing (ha : ss.Answers) (hG : ss.Within G) (h : Bounded C U G root s)
    (hne : ms ≠ []) (hU : ∀ k ∈ ms, k ∈ U ∧ s.has k = false) :
    ∃ r, Loop.Yields (fun fuel => pullLoop H C ss target root fuel n s ms) r := by
  induction hN : (absent U s).card using Nat.strong_induction_on generalizing s ms n with
  | _ N ih =>
    cases hf : fetchRound H ss target n s ms with
    | error e => exact pullLoop_error hf
    | ok s₁ =>
      have hb := h.fetchRound hG hf
      obtain ⟨w, hw⟩ := exists_walk hb
      refine pullLoop_yields hf hw ?_
      rintro k ks rfl
      have hall : fetchAll H ss target n s ms = .ok s₁ := by
        rw [← hf, fetchRound, if_pos (List.length_pos_iff.mpr hne)]
      have hlt : (absent U s₁).card < N := by
        rw [← hN]
        refine Finset.card_lt_card ⟨fun x hx => ?_, fun hsub => ?_⟩
        · obtain ⟨hxU, hno⟩ := Finset.mem_filter.mp hx
          refine Finset.mem_filter.mpr ⟨hxU, Bool.eq_false_iff.mpr fun hx' => ?_⟩
          rw [(fetchAll_has hall x).mpr (.inl hx')] at hno
          cases hno
        · obtain ⟨m, hm⟩ := List.exists_mem_of_ne_nil ms hne
          have hin := (Finset.mem_filter.mp (hsub (Finset.mem_filter.mpr (hU m hm)))).2
          rw [fetchAll_answers ha hall hm] at hin
          cases hin
      refine ih _ hlt hb (List.cons_ne_nil _ _) (fun x hx => ?_) rfl
      obtain ⟨hreach, hno⟩ := localMissing_ok hw hx
      exact ⟨hb.reachable hreach, hno⟩

/-- The keys that the objects of a list name. -/
def children (C : Cbor) (G : List Object) : List Key :=
  G.flatMap fun o => (childKeys C o.key o.data).toOption.getD []

theorem bounded (C : Cbor) (G : List Object) (root : Key) (s : Objects) :
    Bounded C (insert root (childSet C s ∪ (children C G).toFinset)) G root s := by
  refine ⟨Finset.mem_insert_self .., fun k c hc => ?_, fun o ho cs hcs c hc => ?_⟩
  · exact Finset.mem_insert_of_mem (Finset.mem_union_left _ hc.mem_childSet)
  · refine Finset.mem_insert_of_mem (Finset.mem_union_right _ ?_)
    rw [List.mem_toFinset, children, List.mem_flatMap]
    exact ⟨o, ho, by rw [hcs]; exact hc⟩

theorem pull_returns (ha : ss.Answers) (hG : ss.Within G) (s : Objects) (root : Key) :
    ∃ r, Loop.Yields (fun fuel => pull H C ss target fuel s root) r := by
  unfold pull
  cases ss.reachableKeys with
  | error e => exact ⟨.error e, 0, fun _ _ => rfl⟩
  | ok serverKeys =>
    simp only
    cases hf : fetchRound H ss target 0 s (missing s serverKeys) with
    | error e => exact pullLoop_error hf
    | ok s₁ =>
      have hb := (bounded C G root s).fetchRound hG hf
      obtain ⟨w, hw⟩ := exists_walk hb
      refine pullLoop_yields hf hw ?_
      rintro k ks rfl
      refine pullLoop_returns_of_missing ha hG hb (List.cons_ne_nil _ _) fun x hx => ?_
      obtain ⟨hreach, hno⟩ := localMissing_ok hw hx
      exact ⟨hb.reachable hreach, hno⟩

/-- A round that returns nil has fetched its keys exactly when each was there or in a reply. With a
server that answers its requests a round removes what the last one missed, and if the server has
finitely many objects the pull ends. -/
theorem pull_rounds (H : Blake3) (C : Cbor) (ss : Session) (target : UInt64) :
    (∀ n s keys s', fetchAll H ss target n s keys = .ok s' →
      ((∀ k ∈ keys, s'.has k = true) ↔
        ∀ k ∈ keys, s.has k = true ∨ Delivered ss target n keys k)) ∧
    (ss.Answers →
      (∀ n s keys s' root ms, fetchAll H ss target n s keys = .ok s' →
        Loop.Yields (localMissing C s' · root) (.ok ms) →
        ∀ k ∈ keys, s'.has k = true ∧ k ∉ ms) ∧
      ∀ G s root, ss.Within G → ∃ r, Loop.Yields (fun fuel => pull H C ss target fuel s root) r) := by
  refine ⟨fun n s keys s' h => ?_, fun ha => ⟨fun n s keys s' root ms h hms k hk => ?_, ?_⟩⟩
  · exact forall₂_congr fun k _ => fetchAll_has h k
  · have hhas := fetchAll_answers ha h hk
    refine ⟨hhas, fun hm => ?_⟩
    rw [(localMissing_ok hms hm).2] at hhas
    cases hhas
  · exact fun G s root hG => pull_returns ha hG s root

theorem helpful_answers : helpful.Answers := by
  intro n batch objs h k hk
  unfold helpful at h
  simp only at h
  split at h
  · next hall =>
    cases h
    exact ⟨helloBlob, List.mem_cons_self, (hall k hk).symm⟩
  · cases h

theorem helpful_within : helpful.Within [helloBlob] := by
  intro n batch objs h o ho
  unfold helpful at h
  simp only at h
  split at h
  · cases h
    exact ho
  · cases h

theorem pull_rounds_helpful :
    (∀ k ∈ [helloBlob.key], (add ∅ helloBlob).has k = true ∧ k ∉ ([] : List Key)) ∧
      ∃ r, Loop.Yields (fun fuel => pull zeroHash .counting helpful defaultBatchBytes fuel ∅
        helloBlob.key) r := by
  have hrounds := (pull_rounds zeroHash .counting helpful defaultBatchBytes).2 helpful_answers
  refine ⟨hrounds.1 0 ∅ [helloBlob.key] (add ∅ helloBlob) helloBlob.key [] rfl ?_,
    hrounds.2 [helloBlob] ∅ helloBlob.key helpful_within⟩
  exact Loop.yields_run.mpr (Loop.returns_iff_run.mpr ⟨3, rfl⟩)

/-- A server that sends empty packs. -/
def silent : Session where
  reachableKeys := .ok []
  fetchObjects _ _ := .ok []
  order _ packs := packs.flatten
  order_perm := helpful.order_perm

theorem localMissing_empty (fuel : Nat) :
    localMissing .counting ∅ (fuel + 2) helloBlob.key = some (.ok [helloBlob.key]) := rfl

theorem pullLoop_silent (n : Nat) (h : toFetch = [] ∨ toFetch = [helloBlob.key]) :
    pullLoop zeroHash .counting silent defaultBatchBytes helloBlob.key fuel n ∅ toFetch = none := by
  have hf : fetchRound zeroHash silent defaultBatchBytes n ∅ toFetch = .ok ∅ := by
    rcases h with rfl | rfl <;> rfl
  induction fuel generalizing n toFetch with
  | zero => rfl
  | succ fuel ih =>
    rw [pullLoop, hf]
    cases fuel with
    | zero => rfl
    | succ fuel =>
      simp only [localMissing_empty]
      exact ih _ (.inr rfl) rfl

/-- A round may return nil without the key it was to fetch, and then the pull never ends. -/
theorem pull_spins : fetchAll zeroHash silent defaultBatchBytes 0 ∅ [helloBlob.key] = .ok ∅ ∧
    (∅ : Objects).has helloBlob.key = false ∧
    ∀ fuel, pull zeroHash .counting silent defaultBatchBytes fuel ∅ helloBlob.key = none :=
  ⟨rfl, rfl, fun _ => pullLoop_silent 0 (.inl rfl)⟩

end AmberStore.Remotesync
