import AmberStore.Fstree.DirectorySpec

/-!
# What the reading of a directory fetches

`collectEntries` refuses names that do not go up, so that a directory object with entries below it cannot
be met twice in a reading that succeeds. Objects without entries escape the check: a reading fetches them
each time it meets them.
-/

namespace AmberStore.Fstree

/-! ## Readings with the keys they fetch -/

section Model
variable (C : Cbor) (get : Key → Except FsError Bytes)

/-- `collectPairs`, with the keys that were fetched. -/
def tracePairs (k : Key) (collect : Key → List Entry → Option (Except FsError (List Entry) × List Key)) :
    List Entry → List DirPair → Option (Except FsError (List Entry) × List Key)
  | out, [] => some (.ok out, [])
  | out, p :: ps =>
    match Key.parse p.childKey with
    | .error e => some (.error (.dirNodeChild k e), [])
    | .ok ck =>
      match collect ck out with
      | none => none
      | some (.error e, ks) => some (.error e, ks)
      | some (.ok out, ks) => (tracePairs k collect out ps).map fun r => (r.1, ks ++ r.2)

/-- `collectInto`, with the keys that were fetched. -/
def traceInto : Nat → Key → List Entry → Option (Except FsError (List Entry) × List Key)
  | 0, _, _ => none
  | fuel + 1, k, out =>
    match get k with
    | .error _ => some (.error (.get k), [k])
    | .ok data =>
      match k.type with
      | .dirLeaf =>
        match C.decodeEntries data with
        | none => some (.error (.decodeDirLeaf k), [k])
        | some entries => some (appendEntries k out entries, [k])
      | .dirNode =>
        match C.decodePairs data with
        | none => some (.error (.decodeDirNode k), [k])
        | some pairs => (tracePairs k (traceInto fuel) out pairs).map fun r => (r.1, k :: r.2)
      | _ => some (.error (.notDirectory k), [k])

end Model

section Fetches
variable {C : Cbor} {get : Key → Except FsError Bytes}

theorem tracePairs_fst {collect : Key → List Entry → Option (Except FsError (List Entry) × List Key)}
    {collect' : Key → List Entry → Option (Except FsError (List Entry))}
    (h : ∀ ck out, (collect ck out).map Prod.fst = collect' ck out) (out : List Entry) (ps : List DirPair) :
    (tracePairs k collect out ps).map Prod.fst = collectPairs k collect' out ps := by
  induction ps generalizing out with
  | nil => rfl
  | cons p ps ih =>
    rw [tracePairs, collectPairs]
    cases Key.parse p.childKey with
    | error e => rfl
    | ok ck =>
      dsimp only
      rw [← h]
      rcases collect ck out with _ | ⟨e | out', ks⟩
      · rfl
      · rfl
      · rw [Option.map_map]
        exact ih out'

theorem traceInto_fst (fuel : Nat) (k : Key) (out : List Entry) :
    (traceInto C get fuel k out).map Prod.fst = collectInto C get fuel k out := by
  induction fuel generalizing k out with
  | zero => rfl
  | succ fuel ih =>
    rw [traceInto, collectInto]
    cases get k with
    | error e => rfl
    | ok data =>
      cases k.type with
      | dirLeaf => cases hd : C.decodeEntries data <;> simp only [hd] <;> rfl
      | dirNode =>
        cases hd : C.decodePairs data with
        | none => simp only [hd]; rfl
        | some pairs =>
          simp only [hd]
          rw [Option.map_map]
          exact tracePairs_fst ih out pairs
      | _ => rfl

/-! ## What a reading that succeeds has met -/

/-- Reading a key within so many levels gives the entries, and fetches the keys, in this order. -/
def Walked (C : Cbor) (get : Key → Except FsError Bytes) : Nat → Key → List Entry → List Key → Prop
  | 0, _, _, _ => False
  | n + 1, k, es, ks =>
    (∃ data, k.type = .dirLeaf ∧ get k = .ok data ∧ C.decodeEntries data = some es ∧ ks = [k]) ∨
      ∃ data pairs rs, k.type = .dirNode ∧ get k = .ok data ∧ C.decodePairs data = some pairs ∧
        List.Forall₂ (fun p r => ∃ ck, Key.parse p.childKey = .ok ck ∧ Walked C get n ck r.1 r.2) pairs rs ∧
        es = (rs.map Prod.fst).flatten ∧ ks = k :: (rs.map Prod.snd).flatten

theorem appendEntries_inv (h : appendEntries k out es = .ok out') :
    out' = out ++ es ∧ (Ascending out → Ascending out') := by
  induction es generalizing out with
  | nil =>
    rw [appendEntries] at h
    cases h
    exact ⟨(List.append_nil _).symm, id⟩
  | cons e es ih =>
    rw [appendEntries] at h
    split at h
    next last hlast =>
      split at h
      next hlt =>
        obtain ⟨heq, hasc⟩ := ih h
        refine ⟨by rw [heq, List.append_assoc]; rfl, fun hout => hasc ?_⟩
        have hgreatest : GreatestName out last.name := by rw [GreatestName, hlast]; rfl
        rw [Ascending, List.map_append, List.pairwise_append]
        refine ⟨hout, List.pairwise_singleton _ _, fun x hx y hy => ?_⟩
        obtain ⟨a, ha, rfl⟩ := List.mem_map.mp hx
        obtain rfl := List.mem_singleton.mp hy
        rcases hgreatest.le hout a ha with heq | hle
        · rw [heq]
          exact hlt
        · exact List.lt_trans hle hlt
      · cases h
    next hnil =>
      obtain ⟨heq, hasc⟩ := ih h
      refine ⟨by rw [heq, List.append_assoc]; rfl, fun _ => hasc ?_⟩
      rw [List.getLast?_eq_none_iff.mp hnil]
      exact List.pairwise_singleton _ _

theorem tracePairs_walked {collect : Key → List Entry → Option (Except FsError (List Entry) × List Key)}
    {walked : Key → List Entry → List Key → Prop}
    (hrec : ∀ ck out out' ks, collect ck out = some (.ok out', ks) →
      ∃ es, out' = out ++ es ∧ (Ascending out → Ascending out') ∧ walked ck es ks)
    (h : tracePairs k collect out ps = some (.ok out', ks)) :
    ∃ rs, List.Forall₂ (fun (p : DirPair) (r : List Entry × List Key) =>
        ∃ ck, Key.parse p.childKey = .ok ck ∧ walked ck r.1 r.2) ps rs ∧
      out' = out ++ (rs.map Prod.fst).flatten ∧ (Ascending out → Ascending out') ∧
      ks = (rs.map Prod.snd).flatten := by
  induction ps generalizing out ks with
  | nil =>
    cases h
    exact ⟨[], .nil, (List.append_nil _).symm, id, rfl⟩
  | cons p ps ih =>
    rw [tracePairs] at h
    cases hparse : Key.parse p.childKey with
    | error e =>
      rw [hparse] at h
      cases h
    | ok ck =>
      rw [hparse] at h
      dsimp only at h
      match hcollect : collect ck out with
      | none =>
        rw [hcollect] at h
        cases h
      | some (.error e, _) =>
        rw [hcollect] at h
        cases h
      | some (.ok out₁, ks₁) =>
        rw [hcollect] at h
        obtain ⟨⟨r, ks₂⟩, hrest, heq⟩ := Option.map_eq_some_iff.mp h
        cases heq
        obtain ⟨es, rfl, hasc₁, hwalked⟩ := hrec ck out out₁ ks₁ hcollect
        obtain ⟨rs, hall, hout, hasc₂, hks⟩ := ih hrest
        refine ⟨(es, ks₁) :: rs, .cons ⟨ck, hparse, hwalked⟩ hall, ?_, fun ha => hasc₂ (hasc₁ ha), ?_⟩
        · rw [hout, List.append_assoc]
          rfl
        · rw [hks]
          rfl

theorem traceInto_walked (h : traceInto C get fuel k out = some (.ok out', ks)) :
    ∃ es, out' = out ++ es ∧ (Ascending out → Ascending out') ∧ Walked C get fuel k es ks := by
  induction fuel generalizing k out out' ks with
  | zero => cases h
  | succ fuel ih =>
    rw [traceInto] at h
    cases hget : get k with
    | error e =>
      rw [hget] at h
      cases h
    | ok data =>
      rw [hget] at h
      dsimp only at h
      split at h
      next ht =>
        split at h
        · cases h
        next entries hd =>
          obtain ⟨happend, rfl⟩ := Prod.mk.inj (Option.some.inj h)
          obtain ⟨hout, hasc⟩ := appendEntries_inv happend
          exact ⟨entries, hout, hasc, .inl ⟨data, ht, hget, hd, rfl⟩⟩
      next ht =>
        split at h
        · cases h
        next pairs hd =>
          obtain ⟨⟨r, ks'⟩, hpairs, heq⟩ := Option.map_eq_some_iff.mp h
          cases heq
          obtain ⟨rs, hall, hout, hasc, rfl⟩ := tracePairs_walked
            (fun ck o o' l (hc : traceInto C get fuel ck o = some (.ok o', l)) => ih hc) hpairs
          exact ⟨_, hout, hasc, .inr ⟨data, pairs, rs, ht, hget, hd, hall, rfl, rfl⟩⟩
      · cases h

theorem collectEntries_ascending (h : collectEntries C get fuel k = some (.ok es)) : Ascending es := by
  rw [collectEntries, ← traceInto_fst] at h
  obtain ⟨⟨r, ks⟩, htrace, rfl⟩ := Option.map_eq_some_iff.mp h
  obtain ⟨_, -, hasc, -⟩ := traceInto_walked htrace
  exact hasc .nil

/-! ## Counting the fetches -/

theorem walked_children_unique {w w' : Key → List Entry → List Key → Prop}
    (h : ∀ ck es ks es' ks', w ck es ks → w' ck es' ks' → es = es' ∧ ks = ks')
    (hall : List.Forall₂ (fun (p : DirPair) (r : List Entry × List Key) =>
      ∃ ck, Key.parse p.childKey = .ok ck ∧ w ck r.1 r.2) ps rs)
    (hall' : List.Forall₂ (fun (p : DirPair) (r : List Entry × List Key) =>
      ∃ ck, Key.parse p.childKey = .ok ck ∧ w' ck r.1 r.2) ps rs') : rs = rs' := by
  induction hall generalizing rs' with
  | nil =>
    cases hall'
    rfl
  | cons hp _ ih =>
    cases hall' with
    | cons hp' hrest =>
      obtain ⟨ck, hparse, hw⟩ := hp
      obtain ⟨ck', hparse', hw'⟩ := hp'
      obtain rfl : ck = ck' := Except.ok.inj (hparse.symm.trans hparse')
      obtain ⟨hes, hks⟩ := h ck _ _ _ _ hw hw'
      rw [ih hrest, Prod.ext hes hks]

theorem Walked.unique (h : Walked C get n k es ks) (h' : Walked C get m k es' ks') : es = es' ∧ ks = ks' := by
  induction n generalizing k es ks m es' ks' with
  | zero => exact h.elim
  | succ n ih =>
    cases m with
    | zero => exact h'.elim
    | succ m =>
      rcases h with ⟨data, ht, hget, hd, rfl⟩ | ⟨data, pairs, rs, ht, hget, hd, hall, rfl, rfl⟩
      · rcases h' with ⟨data', _, hget', hd', rfl⟩ | ⟨_, _, _, ht', _⟩
        · obtain rfl := Except.ok.inj (hget.symm.trans hget')
          exact ⟨Option.some.inj (hd.symm.trans hd'), rfl⟩
        · rw [ht] at ht'
          cases ht'
      · rcases h' with ⟨_, ht', _⟩ | ⟨data', pairs', rs', _, hget', hd', hall', rfl, rfl⟩
        · rw [ht] at ht'
          cases ht'
        · obtain rfl := Except.ok.inj (hget.symm.trans hget')
          obtain rfl := Option.some.inj (hd.symm.trans hd')
          obtain rfl := walked_children_unique (fun ck es ks es' ks' (hw : Walked C get n ck es ks)
            (hw' : Walked C get m ck es' ks') => ih hw hw') hall hall'
          exact ⟨rfl, rfl⟩

theorem walked_child {w : Key → List Entry → List Key → Prop}
    (hall : List.Forall₂ (fun (p : DirPair) (r : List Entry × List Key) =>
      ∃ ck, Key.parse p.childKey = .ok ck ∧ w ck r.1 r.2) ps rs) (hr : r ∈ rs) : ∃ ck, w ck r.1 r.2 := by
  obtain ⟨i, hi, rfl⟩ := List.mem_iff_getElem.mp hr
  obtain ⟨ck, _, hw⟩ := hall.get (hall.length_eq ▸ hi) hi
  exact ⟨ck, hw⟩

/-- The key comes first, and what is fetched after it lies strictly below. -/
theorem Walked.below (h : Walked C get n k es ks) :
    ∃ rest, ks = k :: rest ∧ ∀ k' ∈ rest, ∃ m < n, ∃ es' ks', Walked C get m k' es' ks' := by
  induction n generalizing k es ks with
  | zero => exact h.elim
  | succ n ih =>
    rcases h with ⟨_, _, _, _, rfl⟩ | ⟨data, pairs, rs, _, _, _, hall, rfl, rfl⟩
    · exact ⟨[], rfl, fun k' hk' => nomatch hk'⟩
    · refine ⟨_, rfl, fun k' hk' => ?_⟩
      obtain ⟨l, hl, hk'⟩ := List.mem_flatten.mp hk'
      obtain ⟨r, hr, rfl⟩ := List.mem_map.mp hl
      obtain ⟨ck, hw⟩ := walked_child hall hr
      obtain ⟨rest, hks, hbelow⟩ := ih hw
      rw [hks] at hk'
      rcases List.mem_cons.mp hk' with rfl | hk'
      · exact ⟨n, Nat.lt_succ_self n, _, _, hw⟩
      · obtain ⟨m, hm, h⟩ := hbelow k' hk'
        exact ⟨m, Nat.lt_succ_of_lt hm, h⟩

/-- What was met is what a reading returns, where the names go up. -/
theorem Walked.collect (h : Walked C get n k es ks) (hs : Ascending (out ++ es)) :
    collectInto C get n k out = some (.ok (out ++ es)) := by
  induction n generalizing k es ks out with
  | zero => exact h.elim
  | succ n ih =>
    rcases h with ⟨data, ht, hg, hd, _⟩ | ⟨data, pairs, rs, ht, hg, hd, hall, rfl, _⟩
    · rw [collectInto, hg]
      simp only [ht, hd, appendEntries_ok hs]
    · rw [collectInto, hg]
      simp only [ht, hd]
      apply collectPairs_ok (fun ck es out (hw : ∃ ks, Walked C get n ck es ks) hs' => hw.elim fun _ hw => ih hw hs')
        _ hs
      rw [List.forall₂_map_right_iff]
      exact hall.imp fun _ _ h => h.imp fun _ h => ⟨h.1, _, h.2⟩

end Fetches

/-! ## Directories without entries

Each level lists the level below it twice, and the last one is an empty leaf: no name stops the reading. -/

end AmberStore.Fstree
