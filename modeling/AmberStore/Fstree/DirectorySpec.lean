import AmberStore.Fstree.Directory
import AmberStore.Lib.Loop

/-!
# Directories read back

A key is the root of a tree when its object is a leaf with the given entries or a node over such
trees. The builder makes such a tree of the entries it is given, and both ways of reading follow it.
-/

namespace AmberStore.Fstree
open Amberpack

/-- The names go up. -/
def Ascending (es : List Entry) : Prop := (es.map Entry.name).Pairwise (· < ·)

theorem Ascending.append (h : Ascending (a ++ b)) : Ascending a ∧ Ascending b ∧
    ∀ x ∈ a, ∀ y ∈ b, x.name < y.name := by
  unfold Ascending at h
  rw [List.map_append, List.pairwise_append] at h
  refine ⟨h.1, h.2.1, fun x hx y hy => h.2.2 _ (List.mem_map_of_mem hx) _ (List.mem_map_of_mem hy)⟩

/-- The greatest name of a part that is not empty. -/
def GreatestName (es : List Entry) (name : Bytes) : Prop := es.getLast?.map Entry.name = some name

theorem GreatestName.le (h : GreatestName es name) (hs : Ascending es) :
    ∀ e ∈ es, e.name = name ∨ e.name < name := by
  obtain ⟨last, hlast, rfl⟩ := Option.map_eq_some_iff.mp h
  obtain ⟨front, rfl⟩ := List.getLast?_eq_some_iff.mp hlast
  intro e he
  rcases List.mem_append.mp he with he | he
  · exact .inr (hs.append.2.2 e he last List.mem_cons_self)
  · exact .inl (by rw [List.mem_singleton.mp he])

/-- Whether a pair of a node is for a subtree with the given entries. -/
def PairFor (tree : Key → List Entry → Prop) (p : DirPair) (es : List Entry) : Prop :=
  ∃ ck, Key.parse p.childKey = .ok ck ∧ tree ck es ∧ GreatestName es p.sepName

/-- The key roots a tree of at most so many levels with the given entries. -/
def Tree (C : Cbor) (get : Key → Except FsError Bytes) : Nat → Key → List Entry → Prop
  | 0, _, _ => False
  | n + 1, k, es =>
    (∃ data, k.type = .dirLeaf ∧ get k = .ok data ∧ C.decodeEntries data = some es) ∨
      ∃ data pairs ess, k.type = .dirNode ∧ get k = .ok data ∧ C.decodePairs data = some pairs ∧
        List.Forall₂ (PairFor (Tree C get n)) pairs ess ∧ es = ess.flatten

section Read
variable {C : Cbor} {get : Key → Except FsError Bytes}

theorem Tree.mono (h : Tree C get n k es) (hnm : n ≤ m) : Tree C get m k es := by
  induction n generalizing m k es with
  | zero => exact h.elim
  | succ n ih =>
    obtain ⟨m, rfl⟩ := Nat.exists_eq_add_of_le' (Nat.le_trans (Nat.succ_le_succ n.zero_le) hnm)
    rcases h with hleaf | ⟨data, pairs, ess, ht, hg, hd, hall, he⟩
    · exact .inl hleaf
    · refine .inr ⟨data, pairs, ess, ht, hg, hd, hall.imp ?_, he⟩
      rintro p es ⟨ck, hp, htree, hname⟩
      exact ⟨ck, hp, ih htree (Nat.le_of_succ_le_succ hnm), hname⟩

/-! ## Collecting -/

theorem appendEntries_ok (h : Ascending (out ++ es)) : appendEntries k out es = .ok (out ++ es) := by
  induction es generalizing out with
  | nil => rw [appendEntries, List.append_nil]
  | cons e es ih =>
    have hsplit : out ++ e :: es = (out ++ [e]) ++ es := by simp
    rw [appendEntries, hsplit]
    rw [hsplit] at h
    split
    · next last hlast =>
      have hlt : last.name < e.name :=
        h.append.1.append.2.2 last (List.mem_of_getLast? hlast) e List.mem_cons_self
      rw [if_pos hlt]
      exact ih h
    · exact ih h

theorem collectPairs_ok {tree : Key → List Entry → Prop}
    {collect : Key → List Entry → Option (Except FsError (List Entry))}
    (hrec : ∀ ck es out, tree ck es → Ascending (out ++ es) → collect ck out = some (.ok (out ++ es)))
    (hall : List.Forall₂ (fun (p : DirPair) es => ∃ ck, Key.parse p.childKey = .ok ck ∧ tree ck es) pairs ess)
    (hs : Ascending (out ++ ess.flatten)) :
    collectPairs k collect out pairs = some (.ok (out ++ ess.flatten)) := by
  induction hall generalizing out with
  | nil => simp [collectPairs]
  | @cons p es pairs ess hp _ ih =>
    obtain ⟨ck, hparse, htree⟩ := hp
    rw [List.flatten_cons, ← List.append_assoc] at hs ⊢
    rw [collectPairs, hparse]
    simp only [hrec ck es out htree hs.append.1]
    exact ih hs

theorem Tree.collect (h : Tree C get n k es) (hs : Ascending (out ++ es)) (hn : n ≤ fuel) :
    collectInto C get fuel k out = some (.ok (out ++ es)) := by
  induction n generalizing fuel k es out with
  | zero => exact h.elim
  | succ n ih =>
    obtain ⟨fuel, rfl⟩ := Nat.exists_eq_add_of_le' (Nat.le_trans (Nat.succ_le_succ n.zero_le) hn)
    rcases h with ⟨data, ht, hg, hd⟩ | ⟨data, pairs, ess, ht, hg, hd, hall, rfl⟩
    · rw [collectInto, hg]
      simp only [ht, hd, appendEntries_ok hs]
    · rw [collectInto, hg]
      simp only [ht, hd]
      exact collectPairs_ok (fun ck es out htree hs' => ih htree hs' (Nat.le_of_succ_le_succ hn))
        (hall.imp fun _ _ ⟨ck, hparse, htree, _⟩ => ⟨ck, hparse, htree⟩) hs

/-! ## Looking up -/

theorem searchName_spec {names : List Bytes} (hs : names.Pairwise (· < ·)) (name : Bytes) :
    searchName name names ≤ names.length ∧
      (∀ i x, i < searchName name names → names[i]? = some x → x < name) ∧
      ∀ i x, searchName name names ≤ i → names[i]? = some x → ¬x < name := by
  refine And.imp id (And.imp (fun hlo i x hi hx => ?_) fun hhi i x hi hx => ?_)
    (Search.search_spec fun a b hab hb ha => ?_)
  · simpa [hx] using hlo i hi
  · simpa [hx] using hhi i hi (List.getElem?_eq_some_iff.mp hx).1
  · rcases Nat.lt_or_eq_of_le hab with hlt | rfl
    · simp only [List.getElem?_eq_getElem (Nat.lt_trans hlt hb), List.getElem?_eq_getElem hb,
        Bool.not_eq_true', decide_eq_false_iff_not] at ha ⊢
      exact fun h => ha (List.lt_trans (List.pairwise_iff_getElem.mp hs a b _ hb hlt) h)
    · exact ha

theorem Ascending.flatten {ess : List (List Entry)} (h : Ascending ess.flatten) :
    (∀ es ∈ ess, Ascending es) ∧
      ess.Pairwise fun a b => ∀ x ∈ a, ∀ y ∈ b, x.name < y.name := by
  unfold Ascending at h
  rw [List.map_flatten, List.pairwise_flatten, List.pairwise_map] at h
  refine ⟨fun es hes => h.1 _ (List.mem_map_of_mem hes), h.2.imp fun hab x hx y hy => ?_⟩
  exact hab _ (List.mem_map_of_mem hx) _ (List.mem_map_of_mem hy)

theorem GreatestName.mem (h : GreatestName es name) : ∃ e ∈ es, e.name = name := by
  obtain ⟨last, hlast, hname⟩ := Option.map_eq_some_iff.mp h
  exact ⟨last, List.mem_of_getLast? hlast, hname⟩

theorem PairFor.ascending (hall : List.Forall₂ (PairFor tree) pairs ess)
    (hs : Ascending ess.flatten) : (pairs.map DirPair.sepName).Pairwise (· < ·) := by
  induction hall with
  | nil => exact .nil
  | @cons p es pairs ess hp hrest ih =>
    rw [List.flatten_cons] at hs
    obtain ⟨-, htail, hcross⟩ := hs.append
    refine .cons ?_ (ih htail)
    intro sep hsep
    obtain ⟨q, hq, rfl⟩ := List.mem_map.mp hsep
    obtain ⟨i, hi, rfl⟩ := List.mem_iff_getElem.mp hq
    have hi' : i < ess.length := hrest.length_eq ▸ hi
    obtain ⟨-, -, -, hgq⟩ := hrest.get hi hi'
    obtain ⟨-, -, -, hgp⟩ := hp
    obtain ⟨x, hx, hxn⟩ := hgp.mem
    obtain ⟨y, hy, hyn⟩ := hgq.mem
    have hlt := hcross x hx y (List.mem_flatten.mpr ⟨_, List.getElem_mem hi', hy⟩)
    rw [hxn, hyn] at hlt
    exact hlt

theorem getElem_searchName (hs : Ascending es) (he : e ∈ es) :
    es[searchName e.name (es.map Entry.name)]? = some e := by
  obtain ⟨-, hlo, hhi⟩ := searchName_spec hs e.name
  obtain ⟨j, hj, rfl⟩ := List.mem_iff_getElem.mp he
  have hname (i : Nat) (hi : i < es.length) : (es.map Entry.name)[i]? = some es[i].name := by
    simp [hi]
  have hle : searchName es[j].name (es.map Entry.name) ≤ j := by
    by_contra hlt
    exact List.lt_irrefl _ (hlo j _ (Nat.lt_of_not_le hlt) (hname j hj))
  rcases Nat.lt_or_eq_of_le hle with hlt | heq
  · have hlt' := List.pairwise_iff_getElem.mp hs _ j (by simp; omega) (by simpa using hj) hlt
    simp only [List.getElem_map] at hlt'
    exact absurd hlt' (hhi _ _ (Nat.le_refl _) (hname _ (Nat.lt_trans hlt hj)))
  · rw [heq, List.getElem?_eq_getElem hj]

/-- The pair at a position of a node, with the entries of its subtree. -/
theorem PairFor.at (hall : List.Forall₂ (PairFor tree) pairs ess) (hi : i < ess.length) :
    ∃ p, pairs[i]? = some p ∧ PairFor tree p ess[i] := by
  have hi' : i < pairs.length := hall.length_eq.symm ▸ hi
  exact ⟨_, List.getElem?_eq_getElem hi', hall.get hi' hi⟩

/-- In a node the search finds the subtree with the entry of the name. -/
theorem PairFor.search (hall : List.Forall₂ (PairFor tree) pairs ess)
    (hs : Ascending ess.flatten) (he : e ∈ ess.flatten) :
    ∃ p es, pairs[searchName e.name (pairs.map DirPair.sepName)]? = some p ∧ PairFor tree p es ∧
      es ∈ ess ∧ e ∈ es := by
  obtain ⟨-, hlo, hhi⟩ := searchName_spec (ascending hall hs) e.name
  obtain ⟨hparts, hcross⟩ := hs.flatten
  obtain ⟨es, hes, hmem⟩ := List.mem_flatten.mp he
  obtain ⟨j, hj, rfl⟩ := List.mem_iff_getElem.mp hes
  obtain ⟨p, hp, hpair⟩ := PairFor.at hall hj
  have hle : searchName e.name (pairs.map DirPair.sepName) ≤ j := by
    by_contra hlt
    have hsep := hlo j p.sepName (Nat.lt_of_not_le hlt) (by rw [List.getElem?_map, hp]; rfl)
    obtain ⟨-, -, -, hgreatest⟩ := hpair
    rcases hgreatest.le (hparts _ hes) e hmem with heq | hlt'
    · exact List.lt_irrefl _ (heq ▸ hsep)
    · exact List.lt_irrefl _ (List.lt_trans hlt' hsep)
  rcases Nat.lt_or_eq_of_le hle with hlt | heq
  · -- an earlier pair would have a separator below the name
    have hi := Nat.lt_trans hlt hj
    obtain ⟨q, hq, -, -, -, hgreatest⟩ := PairFor.at hall hi
    obtain ⟨x, hx, hxn⟩ := hgreatest.mem
    have hxe := List.pairwise_iff_getElem.mp hcross _ j hi hj hlt x hx e hmem
    rw [hxn] at hxe
    exact absurd hxe (hhi _ _ (Nat.le_refl _) (by rw [List.getElem?_map, hq]; rfl))
  · exact ⟨p, ess[j], heq ▸ hp, hpair, hes, hmem⟩

theorem Tree.lookup_mem (h : Tree C get n k es) (hs : Ascending es) (he : e ∈ es) (hn : n ≤ fuel) :
    lookupEntry C get e.name fuel k = some (.ok e) := by
  induction n generalizing fuel k es with
  | zero => exact h.elim
  | succ n ih =>
    obtain ⟨fuel, rfl⟩ := Nat.exists_eq_add_of_le' (Nat.le_trans (Nat.succ_le_succ n.zero_le) hn)
    rcases h with ⟨data, ht, hg, hd⟩ | ⟨data, pairs, ess, ht, hg, hd, hall, rfl⟩
    · rw [lookupEntry, hg]
      simp only [ht, hd, getElem_searchName hs he, if_pos]
    · obtain ⟨p, es, hp, ⟨ck, hparse, htree, -⟩, hes, hmem⟩ := PairFor.search hall hs he
      rw [lookupEntry, hg]
      simp only [ht, hd, hp, hparse]
      exact ih htree (hs.flatten.1 es hes) hmem (Nat.le_of_succ_le_succ hn)

end Read

/-! ## The builder makes a tree -/

section Build
variable {H : Blake3} {C : Cbor} {ic : ItemChunker} {get : Key → Except FsError Bytes}

/-- An item stands for the entries of its tree, and is named by the greatest of them. -/
def Rooted (C : Cbor) (get : Key → Except FsError Bytes) (it : Item) (es : List Entry) : Prop :=
  (∃ n, Tree C get n it.key es) ∧ it.key.Canonical ∧ GreatestName es it.sep

theorem Rooted.pairs (h : List.Forall₂ (Rooted C get) L ess) :
    ∃ n, List.Forall₂ (PairFor (Tree C get n)) (L.map fun it => ⟨it.sep, it.key.bytes⟩) ess := by
  induction h with
  | nil => exact ⟨0, .nil⟩
  | @cons it es L ess hit _ ih =>
    obtain ⟨⟨m, htree⟩, hc, hname⟩ := hit
    obtain ⟨n, hrest⟩ := ih
    refine ⟨max m n, .cons ⟨it.key, hc.parse, htree.mono (Nat.le_max_left m n), hname⟩ ?_⟩
    refine hrest.imp ?_
    rintro p es ⟨ck, hparse, htree, hname⟩
    exact ⟨ck, hparse, htree.mono (Nat.le_max_right m n), hname⟩

theorem GreatestName.append (h : GreatestName b name) : GreatestName (a ++ b) name := by
  obtain ⟨last, hlast, hname⟩ := Option.map_eq_some_iff.mp h
  unfold GreatestName
  rw [List.getLast?_append, hlast]
  exact congrArg some hname

/-- The greatest name below a run is that of its last item. -/
theorem Rooted.greatest (h : List.Forall₂ (Rooted C get) L ess) (hne : L ≠ []) :
    GreatestName ess.flatten ((L.getLast?.map Item.sep).getD []) := by
  induction h with
  | nil => exact absurd rfl hne
  | @cons it es L ess hit hrest ih =>
    cases hrest with
    | nil => simpa using hit.2.2
    | cons hit' hrest' =>
      rw [List.getLast?_cons_cons, List.flatten_cons]
      exact (ih (List.cons_ne_nil _ _)).append

theorem flatten_singletons (h : List.Forall₂ (fun e d => d = [e]) l ds) : ds.flatten = l := by
  induction h with
  | nil => rfl
  | cons hd _ ih => rw [List.flatten_cons, hd, ih, List.singleton_append]

variable (hC : C.Lawful)
include hC

theorem Rooted.node : NodeDenotes H C true (Rooted C get) (fun _ => [])
    (fun o => get o.key = .ok o.data) := by
  intro L ess obj sep hlen hall hbuild hget
  obtain ⟨hdata, htype, hc, rfl⟩ := buildNode_dir hbuild
  obtain ⟨n, hpairs⟩ := Rooted.pairs hall
  rw [List.append_nil]
  refine ⟨⟨n + 1, .inr ⟨obj.data, _, ess, htype, hget, ?_, hpairs, rfl⟩⟩, hc, ?_⟩
  · rw [hdata, hC.pairs]
  · exact Rooted.greatest hall (List.ne_nil_of_length_pos (by omega))

theorem Rooted.leaf : LeafDenotes H C (fun e d => d = [e]) (Rooted C get) (fun _ => [])
    (fun o => get o.key = .ok o.data) := by
  intro leaf ds obj hne hall hencode hget
  obtain ⟨hdata, htype, hc⟩ := encodeDirLeaf_ok hencode
  rw [List.append_nil, flatten_singletons hall]
  refine ⟨⟨1, .inl ⟨obj.data, htype, hget, ?_⟩⟩, hc, ?_⟩
  · rw [hdata, hC.entries]
  · rw [GreatestName, lastName, List.getLast?_eq_some_getLast hne]
    rfl

/-- Whether a builder holds trees of the given entries. -/
abbrev HoldsTrees (C : Cbor) (get : Key → Except FsError Bytes) : DirBuilder → List Entry → Prop :=
  DirDenotes (fun e d => d = [e]) (Rooted C get)

theorem HoldsTrees.addEntries {db : DirBuilder} (h : HoldsTrees C get db w)
    (hadd : db.addEntries H C ic es = .ok (db', objs)) (hget : ∀ o ∈ objs, get o.key = .ok o.data) :
    HoldsTrees C get db' (w ++ es) ∧ ∀ o ∈ objs, EmittedDir H C (Rooted C get) (w ++ es) o := by
  induction es generalizing db w objs with
  | nil =>
    cases hadd
    exact ⟨by rwa [List.append_nil], nofun⟩
  | cons e es ih =>
    obtain ⟨db₁, objs₁, objs₂, hone, hrest, rfl⟩ := DirBuilder.addEntries_cons hadd
    obtain ⟨h₁, hemit₁⟩ := DirBuilder.addEntry_denotes (Rooted.leaf hC) (Rooted.node hC) h rfl hone
      fun o ho => hget o (List.mem_append_left _ ho)
    have hw : w ++ [e] ++ objs₁.flatMap (fun _ => []) = w ++ [e] := by simp
    rw [hw] at h₁ hemit₁
    obtain ⟨h₂, hemit₂⟩ := ih h₁ hrest fun o ho => hget o (List.mem_append_right _ ho)
    have hw' : w ++ [e] ++ es = w ++ e :: es := by simp
    rw [hw'] at h₂ hemit₂
    refine ⟨h₂, fun o ho => ?_⟩
    rcases List.mem_append.mp ho with ho | ho
    · exact (hemit₁ o ho).mono (hw' ▸ (List.prefix_append _ _).isInfix)
    · exact hemit₂ o ho

end Build

/-! ## Reading back what was built -/

/-- Objects with different contents have different keys. -/
def KeysDistinct (objs : List Object) : Prop :=
  ∀ o ∈ objs, ∀ o' ∈ objs, o.data ≠ o'.data → o.key ≠ o'.key

theorem KeysDistinct.getFrom (h : KeysDistinct objs) (ho : o ∈ objs) :
    getFrom objs o.key = .ok o.data := by
  unfold Fstree.getFrom
  split
  · next o' hfind =>
    have hkey : o'.key = o.key := by simpa using List.find?_some hfind
    by_contra hne
    refine h o' (List.mem_of_find?_eq_some hfind) o ho (fun hd => hne ?_) hkey
    rw [hd]
  · next hfind =>
    have := List.find?_eq_none.mp hfind o ho
    simp at this

section Back
variable {H : Blake3} {C : Cbor} {ic : ItemChunker} {get : Key → Except FsError Bytes}

/-- An empty file of the given name. -/
def emptyFile (name : Bytes) : Entry := ⟨name, 0o100644, 0, 0, 0, [], [], [], [], []⟩

end Back

end AmberStore.Fstree
