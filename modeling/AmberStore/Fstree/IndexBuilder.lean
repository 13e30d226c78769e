import AmberStore.Fstree.Object

/-!
# The index builder

Levels of items above the leaves of a file or a directory. A run of items that ends becomes a node,
and the node an item of the level above; at the end the open runs are closed from the bottom, and a
level of one item passes it on as it is.
-/

namespace AmberStore.Fstree
open Amberpack List Except

/-- Runs end at an item whose hash has its low bits zero, within bounds on their length. -/
structure ItemChunker where
  minRun : Nat
  maxRun : Nat
  lowBitsZero : Bytes → Bool
  two_le_min : 2 ≤ minRun
  min_le_max : minRun ≤ maxRun

def ItemChunker.isBoundary (ic : ItemChunker) (enc : Bytes) (runLen : Nat) : Bool :=
  if runLen ≥ ic.maxRun then true
  else if runLen < ic.minRun then false
  else ic.lowBitsZero enc

theorem ItemChunker.two_le {ic : ItemChunker} (h : ic.isBoundary enc n = true) : 2 ≤ n := by
  have h2 := ic.two_le_min
  have hle := ic.min_le_max
  unfold isBoundary at h
  split at h
  · omega
  · split at h
    · cases h
    · omega

/-- A child of an index. The name is the greatest one below it, for directories. -/
structure Item where
  key : Key
  sep : Bytes

abbrev Level := List Item

section Builder
variable (H : Blake3) (C : Cbor) (ic : ItemChunker) (isDir : Bool)

def itemEnc (it : Item) : Bytes :=
  if isDir then C.encodePair ⟨it.sep, it.key.bytes⟩ else it.key.bytes

/-- The node over a run, and the greatest name of the run. -/
def buildNode (L : Level) : Except FsError (Object × Bytes) :=
  if isDir then do
    let obj ← encodeDirNode H C (L.map fun it => ⟨it.sep, it.key.bytes⟩)
    return (obj, (L.getLast?.map Item.sep).getD [])
  else do
    let obj ← encodeFileNode H C (L.map Item.key)
    return (obj, [])

/-- Add an item to the lowest of the levels. A level that is new never ends its run. The objects are
those emitted on the way. -/
def addItem : List Level → Item → Except FsError (List Level × List Object)
  | [], it => .ok ([[it]], [])
  | L :: up, it =>
    if ic.isBoundary (itemEnc C isDir it) (L ++ [it]).length then do
      let (obj, sep) ← buildNode H C isDir (L ++ [it])
      let (up, objs) ← addItem up ⟨obj.key, sep⟩
      return ([] :: up, obj :: objs)
    else .ok ((L ++ [it]) :: up, [])

/-- The number of items of all levels. -/
def total (levels : List Level) : Nat := (levels.map List.length).sum

variable {H C ic isDir}

theorem addItem_cons (h : addItem H C ic isDir (L :: up) it = .ok (levels, objs)) :
    (ic.isBoundary (itemEnc C isDir it) (L ++ [it]).length = false ∧ levels = (L ++ [it]) :: up ∧
        objs = []) ∨
      (ic.isBoundary (itemEnc C isDir it) (L ++ [it]).length = true ∧ ∃ obj sep up' objs',
        buildNode H C isDir (L ++ [it]) = .ok (obj, sep) ∧
        addItem H C ic isDir up ⟨obj.key, sep⟩ = .ok (up', objs') ∧ levels = [] :: up' ∧
        objs = obj :: objs') := by
  rw [addItem] at h
  split at h
  · next hb =>
    refine .inr ⟨hb, ?_⟩
    obtain ⟨⟨obj, sep⟩, hn, h⟩ := bind_eq_ok.mp h
    obtain ⟨⟨up', objs'⟩, ha, h⟩ := bind_eq_ok.mp h
    cases h
    exact ⟨obj, sep, up', objs', hn, ha, rfl, rfl⟩
  · next hb =>
    cases h
    exact .inl ⟨Bool.eq_false_iff.mpr hb, rfl, rfl⟩

theorem total_addItem (h : addItem H C ic isDir up it = .ok (up', objs)) :
    total up' ≤ total up + 1 ∧
      (up ≠ [] → total up' < total up + 1 ∨ up'.length ≤ up.length) := by
  induction up generalizing it up' objs with
  | nil =>
    cases h
    exact ⟨Nat.le_refl _, fun hne => absurd rfl hne⟩
  | cons L up ih =>
    rcases addItem_cons h with ⟨-, rfl, -⟩ | ⟨hb, obj, sep, up₁, objs₁, -, ha, rfl, -⟩
    · refine ⟨?_, fun _ => .inr (Nat.le_refl _)⟩
      simp [total]
      omega
    · obtain ⟨hle, -⟩ := ih ha
      have hlen := ItemChunker.two_le hb
      simp only [total, map_cons, sum_cons, length_nil, length_append,
        length_singleton] at hle hlen ⊢
      exact ⟨by omega, fun _ => .inl (by omega)⟩

variable (H C ic isDir)

/-- Close the open runs from the bottom, and return the root. -/
def finishIndex : List Level → Except FsError (Key × List Object)
  | [] => .error .noChildren
  | [] :: up => finishIndex up
  | [it] :: [] => .ok (it.key, [])
  | [it] :: L :: up =>
    match _h : addItem H C ic isDir (L :: up) it with
    | .error e => .error e
    | .ok (levels, objs) => do
      let (root, objs') ← finishIndex levels
      return (root, objs ++ objs')
  | (it :: it' :: L) :: up =>
    match buildNode H C isDir (it :: it' :: L) with
    | .error e => .error e
    | .ok (obj, sep) =>
      match _h : addItem H C ic isDir up ⟨obj.key, sep⟩ with
      | .error e => .error e
      | .ok (levels, objs) => do
        let (root, objs') ← finishIndex levels
        return (root, obj :: objs ++ objs')
termination_by levels => (total levels, levels.length)
decreasing_by
  · simp only [total, map_cons, sum_cons, length_nil, Nat.zero_add, length_cons]
    exact .right _ (Nat.lt_succ_self _)
  · obtain ⟨hle, hlt⟩ := total_addItem _h
    have htot : total ([it] :: L :: up) = total (L :: up) + 1 := by
      simp only [total, map_cons, sum_cons, length_singleton]
      omega
    rw [htot]
    rcases hlt (cons_ne_nil _ _) with hlt | hlen
    · exact .left _ _ hlt
    · rcases Nat.lt_or_eq_of_le hle with hlt | heq
      · exact .left _ _ hlt
      · rw [heq]
        exact .right _ (Nat.lt_succ_of_le hlen)
  · obtain ⟨hle, -⟩ := total_addItem _h
    refine .left _ _ ?_
    simp only [total, map_cons, sum_cons, length_cons] at hle ⊢
    omega

theorem finishIndex_single : finishIndex H C ic isDir ([it] :: L :: up) = (do
    let (levels, objs) ← addItem H C ic isDir (L :: up) it
    let (root, objs') ← finishIndex H C ic isDir levels
    return (root, objs ++ objs')) := by
  rw [finishIndex]
  split
  · next ha =>
    rw [ha]
    rfl
  · next ha =>
    rw [ha]
    rfl

theorem finishIndex_run : finishIndex H C ic isDir ((it :: it' :: L) :: up) = (do
    let (obj, sep) ← buildNode H C isDir (it :: it' :: L)
    let (levels, objs) ← addItem H C ic isDir up ⟨obj.key, sep⟩
    let (root, objs') ← finishIndex H C ic isDir levels
    return (root, obj :: objs ++ objs')) := by
  rw [finishIndex]
  split
  · next hn =>
    rw [hn]
    rfl
  · next hn =>
    simp only [hn, bind, Except.bind]
    split
    · next ha => rw [ha]
    · next ha => rw [ha]

/-- How the open runs are closed one after the other. -/
inductive Finishes : List Level → Key → List Object → Prop
  | empty : Finishes up root objs → Finishes ([] :: up) root objs
  | top : Finishes [[it]] it.key []
  | single : addItem H C ic isDir (L :: up) it = .ok (levels, objs₁) → Finishes levels root objs₂ →
    Finishes ([it] :: L :: up) root (objs₁ ++ objs₂)
  | run : buildNode H C isDir (it :: it' :: L) = .ok (obj, sep) →
    addItem H C ic isDir up ⟨obj.key, sep⟩ = .ok (levels, objs₁) → Finishes levels root objs₂ →
    Finishes ((it :: it' :: L) :: up) root (obj :: objs₁ ++ objs₂)

variable {H C ic isDir} in
theorem finishIndex_ok (h : finishIndex H C ic isDir levels = .ok (root, objs)) :
    Finishes H C ic isDir levels root objs := by
  induction levels using finishIndex.induct H C ic isDir generalizing root objs with
  | case1 => simp [finishIndex] at h
  | case2 up ih =>
    rw [finishIndex] at h
    exact .empty (ih h)
  | case3 it =>
    rw [finishIndex] at h
    cases h
    exact .top
  | case4 it L up e ha =>
    rw [finishIndex_single, ha] at h
    cases h
  | case5 it L up levels objs₁ ha ih =>
    rw [finishIndex_single] at h
    obtain ⟨⟨levels', objs'⟩, ha', h⟩ := bind_eq_ok.mp h
    cases ha.symm.trans ha'
    obtain ⟨⟨root, objs₂⟩, hrest, h⟩ := bind_eq_ok.mp h
    cases h
    exact .single ha (ih hrest)
  | case6 it it' L up e hn =>
    rw [finishIndex_run, hn] at h
    cases h
  | case7 it it' L up obj sep hn e ha =>
    rw [finishIndex_run] at h
    obtain ⟨p, hp, h⟩ := bind_eq_ok.mp h
    cases hn.symm.trans hp
    obtain ⟨q, ha', -⟩ := bind_eq_ok.mp h
    cases ha.symm.trans ha'
  | case8 it it' L up obj sep hn levels objs₁ ha ih =>
    rw [finishIndex_run] at h
    obtain ⟨p, hp, h⟩ := bind_eq_ok.mp h
    cases hn.symm.trans hp
    obtain ⟨q, ha', h⟩ := bind_eq_ok.mp h
    cases ha.symm.trans ha'
    obtain ⟨⟨root, objs₂⟩, hrest, h⟩ := bind_eq_ok.mp h
    cases h
    exact .run hn ha (ih hrest)

/-! ## What the items stand for -/

section Denotes
variable {H C ic isDir} {δ : Type} {P : Item → List δ → Prop} {tail : Object → List δ}
  {T : Object → Prop}

/-- The content of levels whose items stand for lists: what the higher levels stand for comes
first. -/
inductive Denotes (P : Item → List δ → Prop) : List Level → List δ → Prop
  | nil : Denotes P [] []
  | cons : List.Forall₂ P L ds → Denotes P up c → Denotes P (L :: up) (c ++ ds.flatten)

/-- A node stands for what its run stands for, followed by what it adds itself. -/
def NodeDenotes (H : Blake3) (C : Cbor) (isDir : Bool) (P : Item → List δ → Prop)
    (tail : Object → List δ) (T : Object → Prop) : Prop :=
  ∀ L ds obj sep, 2 ≤ L.length → List.Forall₂ P L ds → buildNode H C isDir L = .ok (obj, sep) →
    T obj → P ⟨obj.key, sep⟩ (ds.flatten ++ tail obj)

/-- An object is the node over a run whose content is part of the whole. -/
def Emitted (H : Blake3) (C : Cbor) (isDir : Bool) (P : Item → List δ → Prop) (whole : List δ)
    (o : Object) : Prop :=
  ∃ L ds sep, 2 ≤ L.length ∧ List.Forall₂ P L ds ∧ buildNode H C isDir L = .ok (o, sep) ∧
    ds.flatten <:+: whole

theorem Emitted.mono (h : Emitted H C isDir P w o) (hw : w <:+: w') : Emitted H C isDir P w' o := by
  obtain ⟨L, ds, sep, hlen, hL, hn, hin⟩ := h
  exact ⟨L, ds, sep, hlen, hL, hn, hin.trans hw⟩

theorem addItem_denotes (hnode : NodeDenotes H C isDir P tail T) (h : Denotes P up c)
    (hit : P it d) (hadd : addItem H C ic isDir up it = .ok (up', objs)) (hT : ∀ o ∈ objs, T o) :
    Denotes P up' (c ++ d ++ objs.flatMap tail) ∧
      ∀ o ∈ objs, Emitted H C isDir P (c ++ d ++ objs.flatMap tail) o := by
  induction up generalizing it d c up' objs with
  | nil =>
    cases hadd
    cases h
    exact ⟨by simpa using Denotes.cons (.cons hit .nil) .nil, nofun⟩
  | cons L up ih =>
    cases h with
    | @cons _ ds _ cu hL hup =>
      have hrun : List.Forall₂ P (L ++ [it]) (ds ++ [d]) := rel_append hL (.cons hit .nil)
      rcases addItem_cons hadd with ⟨-, rfl, rfl⟩ | ⟨hb, obj, sep, up₁, objs₁, hn, ha, rfl, rfl⟩
      · exact ⟨by simpa using Denotes.cons hrun hup, nofun⟩
      · have hlen := ItemChunker.two_le hb
        have hobj := hnode _ _ _ _ hlen hrun hn (hT obj mem_cons_self)
        obtain ⟨hrest, hlater⟩ := ih hup hobj ha fun o ho => hT o (mem_cons_of_mem _ ho)
        refine ⟨by simpa using Denotes.cons (.nil) hrest, fun o ho => ?_⟩
        rcases mem_cons.mp ho with rfl | ho
        · refine ⟨_, _, sep, hlen, hrun, hn, cu, (o :: objs₁).flatMap tail, ?_⟩
          simp
        · refine (hlater o ho).mono ?_
          simp

theorem Finishes.denotes (hnode : NodeDenotes H C isDir P tail T) (h : Denotes P levels c)
    (hfin : Finishes H C ic isDir levels root objs) (hT : ∀ o ∈ objs, T o) :
    (∃ sep, P ⟨root, sep⟩ (c ++ objs.flatMap tail)) ∧
      ∀ o ∈ objs, Emitted H C isDir P (c ++ objs.flatMap tail) o := by
  induction hfin generalizing c with
  | empty _ ih =>
    cases h with
    | cons hL hup =>
      cases hL
      simpa using ih hup hT
  | @top it =>
    cases h with
    | cons hL hup =>
      cases hL with
      | cons hit hnil =>
        cases hnil
        cases hup
        exact ⟨⟨it.sep, by simpa using hit⟩, nofun⟩
  | @single _ _ _ _ objs₁ _ objs₂ ha _ ih =>
    cases h with
    | cons hL hup =>
      cases hL with
      | cons hit hnil =>
        cases hnil
        obtain ⟨hadd, hfirst⟩ := addItem_denotes hnode hup hit ha fun o ho => hT o (mem_append_left _ ho)
        obtain ⟨⟨sep, hP⟩, hlater⟩ := ih hadd fun o ho => hT o (mem_append_right _ ho)
        refine ⟨⟨sep, by simpa using hP⟩, fun o ho => ?_⟩
        rcases mem_append.mp ho with ho | ho
        · refine (hfirst o ho).mono (List.IsPrefix.isInfix ?_)
          exact ⟨objs₂.flatMap tail, by simp⟩
        · refine (hlater o ho).mono ?_
          simp
  | @run _ _ _ obj sep _ _ objs₁ _ objs₂ hn ha _ ih =>
    cases h with
    | @cons _ ds _ cu hL hup =>
      have hobj := hnode _ _ _ _ (by simp) hL hn (hT obj (by simp))
      obtain ⟨hadd, hfirst⟩ := addItem_denotes hnode hup hobj ha fun o ho => hT o (by simp [ho])
      obtain ⟨⟨sep', hP⟩, hlater⟩ := ih hadd fun o ho => hT o (by simp [ho])
      refine ⟨⟨sep', by simpa using hP⟩, ?_⟩
      have hwhole : cu ++ (ds.flatten ++ tail obj) ++ objs₁.flatMap tail ++ objs₂.flatMap tail =
          cu ++ ds.flatten ++ (obj :: objs₁ ++ objs₂).flatMap tail := by simp
      rw [← hwhole]
      intro o ho
      simp only [cons_append, mem_cons, mem_append] at ho
      rcases ho with rfl | ho | ho
      · refine ⟨_, ds, sep, by simp, hL, hn, cu,
          tail o ++ objs₁.flatMap tail ++ objs₂.flatMap tail, by simp⟩
      · exact (hfirst o ho).mono (infix_append' [] _ _)
      · exact hlater o ho

theorem finishIndex_denotes (hnode : NodeDenotes H C isDir P tail T) (h : Denotes P levels c)
    (hfin : finishIndex H C ic isDir levels = .ok (root, objs)) (hT : ∀ o ∈ objs, T o) :
    (∃ sep, P ⟨root, sep⟩ (c ++ objs.flatMap tail)) ∧
      ∀ o ∈ objs, Emitted H C isDir P (c ++ objs.flatMap tail) o :=
  (finishIndex_ok hfin).denotes hnode h hT

end Denotes

/-! ## The lengths of the runs -/

section Runs
variable {H C ic isDir}

theorem buildNode_dir (h : buildNode H C true L = .ok (obj, sep)) :
    obj.data = C.encodePairs (L.map fun it => ⟨it.sep, it.key.bytes⟩) ∧
      obj.key.type = .dirNode ∧ obj.key.Canonical ∧ sep = (L.getLast?.map Item.sep).getD [] := by
  obtain ⟨o, ho, h⟩ := bind_eq_ok.mp h
  cases h
  obtain ⟨hd, ht, hc⟩ := encodeDirNode_ok ho
  exact ⟨hd, ht, hc, rfl⟩

theorem buildNode_file (h : buildNode H C false L = .ok (obj, sep)) :
    obj.data = C.encodeKeys ((L.map Item.key).map Key.bytes) ∧
      obj.key.type = .fileNode ∧ obj.key.Canonical := by
  obtain ⟨o, ho, h⟩ := bind_eq_ok.mp h
  cases h
  exact encodeFileNode_ok ho

theorem buildNode_canonical (h : buildNode H C isDir L = .ok (obj, sep)) : obj.key.Canonical := by
  cases isDir with
  | true => exact (buildNode_dir h).2.2.1
  | false => exact (buildNode_file h).2.2

theorem ItemChunker.lt_max (h : ic.isBoundary enc n = false) : n < ic.maxRun := by
  by_contra hle
  rw [isBoundary, if_pos (Nat.not_lt.mp hle)] at h
  cases h

/-- The open runs have canonical keys and have not reached the bound. -/
def Short (ic : ItemChunker) (levels : List Level) : Prop :=
  ∀ L ∈ levels, L.length < ic.maxRun ∧ ∀ it ∈ L, it.key.Canonical

/-- The object is the node over a run of canonical keys whose length is within the bounds. -/
def NodeOfRun (H : Blake3) (C : Cbor) (ic : ItemChunker) (isDir : Bool) (o : Object) : Prop :=
  ∃ L sep, 2 ≤ L.length ∧ L.length ≤ ic.maxRun ∧ (∀ it ∈ L, it.key.Canonical) ∧
    buildNode H C isDir L = .ok (o, sep)

theorem Short.nil : Short ic [] := fun _ hL => nomatch hL

theorem Short.above (h : Short ic (L :: up)) : Short ic up :=
  fun L' hL' => h L' (mem_cons_of_mem _ hL')

theorem Short.cons (hL : L.length < ic.maxRun) (hc : ∀ it ∈ L, it.key.Canonical)
    (h : Short ic up) : Short ic (L :: up) := by
  intro L' hL'
  rcases mem_cons.mp hL' with rfl | hL'
  · exact ⟨hL, hc⟩
  · exact h L' hL'

theorem Short.addItem (h : Short ic up) (hit : it.key.Canonical)
    (hadd : addItem H C ic isDir up it = .ok (up', objs)) :
    Short ic up' ∧ ∀ o ∈ objs, NodeOfRun H C ic isDir o := by
  have htwo := ic.two_le_min
  have hle := ic.min_le_max
  induction up generalizing it up' objs with
  | nil =>
    cases hadd
    exact ⟨.cons (by simp; omega) (fun x hx => mem_singleton.mp hx ▸ hit) .nil, nofun⟩
  | cons L up ih =>
    obtain ⟨hlt, hc⟩ := h L mem_cons_self
    have hrun : ∀ x ∈ L ++ [it], x.key.Canonical := by
      intro x hx
      rcases mem_append.mp hx with hx | hx
      · exact hc x hx
      · exact mem_singleton.mp hx ▸ hit
    rcases addItem_cons hadd with ⟨hb, rfl, rfl⟩ | ⟨hb, obj, sep, up₁, objs₁, hn, ha, rfl, rfl⟩
    · exact ⟨.cons (ItemChunker.lt_max hb) hrun h.above, nofun⟩
    · have hobj : (Item.mk obj.key sep).key.Canonical := buildNode_canonical hn
      obtain ⟨hup, hobjs⟩ := ih h.above hobj ha
      refine ⟨.cons (by simp; omega) nofun hup, fun o ho => ?_⟩
      rcases mem_cons.mp ho with rfl | ho
      · exact ⟨_, sep, ItemChunker.two_le hb, by simp; omega, hrun, hn⟩
      · exact hobjs o ho

theorem Short.finishes (h : Short ic levels) (hfin : Finishes H C ic isDir levels root objs) :
    ∀ o ∈ objs, NodeOfRun H C ic isDir o := by
  induction hfin with
  | empty _ ih => exact ih h.above
  | top => exact nofun
  | single ha _ ih =>
    have hit := (h _ mem_cons_self).2 _ mem_cons_self
    obtain ⟨hlevels, hobjs⟩ := h.above.addItem hit ha
    intro o ho
    exact (mem_append.mp ho).elim (hobjs o) (ih hlevels o)
  | @run _ _ _ obj sep _ _ _ _ _ hn ha _ ih =>
    obtain ⟨hlt, hc⟩ := h _ mem_cons_self
    have hobj : (Item.mk obj.key sep).key.Canonical := buildNode_canonical hn
    obtain ⟨hlevels, hobjs⟩ := h.above.addItem hobj ha
    intro o ho
    simp only [cons_append, mem_cons, mem_append] at ho
    rcases ho with rfl | ho | ho
    · exact ⟨_, sep, by simp, Nat.le_of_lt hlt, hc, hn⟩
    · exact hobjs o ho
    · exact ih hlevels o ho

end Runs

/-! ## Building succeeds -/

section Success
variable {H C ic isDir}

theorem exists_buildNode (h : ∀ it ∈ L, it.key.Canonical) :
    ∃ obj sep, buildNode H C isDir L = .ok (obj, sep) ∧ obj.key.Canonical := by
  cases isDir with
  | true =>
    obtain ⟨o, ho⟩ : ∃ o, encodeDirNode H C (L.map fun it => ⟨it.sep, it.key.bytes⟩) = .ok o := by
      refine exists_encodeDirNode fun p hp => ?_
      obtain ⟨it, hit, rfl⟩ := mem_map.mp hp
      exact ⟨it.key, h it hit, rfl⟩
    exact ⟨o, _, by rw [buildNode, if_pos rfl, ho]; rfl, (encodeDirNode_ok ho).2.2⟩
  | false =>
    obtain ⟨o, ho⟩ := exists_encode H (t := .fileNode) rfl ((L.map Item.key).map Key.length).sum
      (C.encodeKeys ((L.map Item.key).map Key.bytes))
    exact ⟨o, [], by rw [buildNode, if_neg (by decide), encodeFileNode, ho]; rfl, (encode_ok ho).2.2⟩

/-- All keys are canonical, and the highest level has an item. -/
structure Buildable (levels : List Level) : Prop where
  canonical : ∀ L ∈ levels, ∀ it ∈ L, it.key.Canonical
  top : ∀ L, levels.getLast? = some L → L ≠ []

theorem Buildable.above (h : Buildable (L :: up)) : Buildable up := by
  refine ⟨fun L' hL' => h.canonical L' (mem_cons_of_mem _ hL'), fun L' hL' => h.top L' ?_⟩
  rw [getLast?_cons, hL']
  rfl

theorem exists_addItem (h : Buildable levels) (hit : it.key.Canonical) :
    ∃ levels' objs, addItem H C ic isDir levels it = .ok (levels', objs) ∧ Buildable levels' ∧
      levels' ≠ [] := by
  induction levels generalizing it with
  | nil =>
    refine ⟨[[it]], [], rfl, ⟨?_, ?_⟩, cons_ne_nil _ _⟩
    · simpa using hit
    · rintro L ⟨⟩
      exact cons_ne_nil _ _
  | cons L up ih =>
    have hup := h.above
    have hrun : ∀ x ∈ L ++ [it], x.key.Canonical := by
      intro x hx
      rcases mem_append.mp hx with hx | hx
      · exact h.canonical L mem_cons_self x hx
      · exact mem_singleton.mp hx ▸ hit
    by_cases hb : ic.isBoundary (itemEnc C isDir it) (L ++ [it]).length = true
    · obtain ⟨obj, sep, hn, hc⟩ := exists_buildNode (H := H) (C := C) hrun
      have hitem : Key.Canonical (Item.mk obj.key sep).key := hc
      obtain ⟨up', objs, ha, hup', hne⟩ := ih hup hitem
      refine ⟨[] :: up', obj :: objs, ?_, ⟨?_, ?_⟩, cons_ne_nil _ _⟩
      · rw [addItem, if_pos hb, hn]
        simp only [bind, Except.bind, ha]
        rfl
      · intro L' hL'
        rcases mem_cons.mp hL' with rfl | hL'
        · exact nofun
        · exact hup'.canonical L' hL'
      · intro L' hL'
        obtain ⟨a, as, rfl⟩ := exists_cons_of_ne_nil hne
        rw [getLast?_cons_cons] at hL'
        exact hup'.top L' hL'
    · refine ⟨(L ++ [it]) :: up, [], by rw [addItem, if_neg hb], ⟨?_, ?_⟩, cons_ne_nil _ _⟩
      · intro L' hL'
        rcases mem_cons.mp hL' with rfl | hL'
        · exact hrun
        · exact hup.canonical L' hL'
      · intro L' hL'
        cases up with
        | nil =>
          cases hL'
          simp
        | cons a as =>
          rw [getLast?_cons_cons] at hL'
          exact hup.top L' hL'

theorem exists_finishIndex (h : Buildable levels) (hne : levels ≠ []) :
    ∃ root objs, finishIndex H C ic isDir levels = .ok (root, objs) ∧ root.Canonical := by
  induction levels using finishIndex.induct H C ic isDir with
  | case1 => exact absurd rfl hne
  | case2 up ih =>
    rw [finishIndex]
    refine ih h.above ?_
    rintro rfl
    exact h.top [] rfl rfl
  | case3 it =>
    exact ⟨it.key, [], by rw [finishIndex], h.canonical _ mem_cons_self it mem_cons_self⟩
  | case4 it L up e ha =>
    obtain ⟨levels, objs, ha', -, -⟩ := exists_addItem (H := H) (C := C) h.above
      (h.canonical _ mem_cons_self it mem_cons_self)
    cases ha.symm.trans ha'
  | case5 it L up levels objs₁ ha ih =>
    obtain ⟨levels', objs, ha', hb, hne'⟩ := exists_addItem (H := H) (C := C) h.above
      (h.canonical _ mem_cons_self it mem_cons_self)
    cases ha.symm.trans ha'
    obtain ⟨root, objs₂, hr, hroot⟩ := ih hb hne'
    refine ⟨root, objs₁ ++ objs₂, ?_, hroot⟩
    rw [finishIndex_single]
    exact bind_eq_ok.mpr ⟨_, ha, bind_eq_ok.mpr ⟨_, hr, rfl⟩⟩
  | case6 it it' L up e hn =>
    obtain ⟨obj, sep, hn', -⟩ := exists_buildNode (H := H) (C := C)
      (h.canonical _ mem_cons_self)
    cases hn.symm.trans hn'
  | case7 it it' L up obj sep hn e ha =>
    obtain ⟨obj', sep', hn', hc⟩ := exists_buildNode (H := H) (C := C)
      (h.canonical _ mem_cons_self)
    cases hn.symm.trans hn'
    have hitem : Key.Canonical (Item.mk obj.key sep).key := hc
    obtain ⟨levels, objs, ha', -, -⟩ := exists_addItem (H := H) (C := C) h.above hitem
    cases ha.symm.trans ha'
  | case8 it it' L up obj sep hn levels objs₁ ha ih =>
    obtain ⟨obj', sep', hn', hc⟩ := exists_buildNode (H := H) (C := C)
      (h.canonical _ mem_cons_self)
    cases hn.symm.trans hn'
    have hitem : Key.Canonical (Item.mk obj.key sep).key := hc
    obtain ⟨levels', objs, ha', hb, hne'⟩ := exists_addItem (H := H) (C := C) h.above hitem
    cases ha.symm.trans ha'
    obtain ⟨root, objs₂, hr, hroot⟩ := ih hb hne'
    refine ⟨root, obj :: objs₁ ++ objs₂, ?_, hroot⟩
    rw [finishIndex_run]
    exact bind_eq_ok.mpr ⟨_, hn, bind_eq_ok.mpr ⟨_, ha, bind_eq_ok.mpr ⟨_, hr, rfl⟩⟩⟩

end Success

end Builder

end AmberStore.Fstree
