import AmberStore.Fstree.IndexBuilder
import AmberStore.Lib.Search

/-!
# Directories

A directory is built from its entries in name order: runs of entries become leaves, and the leaves
an index whose separators are the greatest names of the subtrees. Reading goes down the index again,
in full or along one name.
-/

namespace AmberStore.Fstree
open Amberpack List Except

/-! ## Building -/

section Build
variable (H : Blake3) (C : Cbor) (ic : ItemChunker)

structure DirBuilder where
  levels : List Level
  leaf : List Entry

def DirBuilder.new : DirBuilder := ⟨[], []⟩

/-- The greatest name of the open leaf. -/
def lastName (leaf : List Entry) : Bytes := (leaf.getLast?.map Entry.name).getD []

def DirBuilder.closeLeaf (db : DirBuilder) : Except FsError (DirBuilder × List Object) := do
  let obj ← encodeDirLeaf H C db.leaf
  let (levels, objs) ← addItem H C ic true db.levels ⟨obj.key, lastName db.leaf⟩
  return (⟨levels, []⟩, obj :: objs)

def DirBuilder.addEntry (db : DirBuilder) (e : Entry) : Except FsError (DirBuilder × List Object) :=
  let db : DirBuilder := ⟨db.levels, db.leaf ++ [e]⟩
  if ic.isBoundary (C.encodeEntry e) db.leaf.length then db.closeLeaf H C ic else .ok (db, [])

def DirBuilder.addEntries : DirBuilder → List Entry → Except FsError (DirBuilder × List Object)
  | db, [] => .ok (db, [])
  | db, e :: es => do
    let (db, objs) ← db.addEntry H C ic e
    let (db, objs') ← db.addEntries es
    return (db, objs ++ objs')

/-- Close the trailing leaf. An empty directory still gets a leaf. -/
def DirBuilder.closeTrailing (db : DirBuilder) : Except FsError (DirBuilder × List Object) :=
  if 0 < db.leaf.length ∨ db.levels = [] then db.closeLeaf H C ic else .ok (db, [])

def DirBuilder.finish (db : DirBuilder) : Except FsError (Key × List Object) := do
  let (db, objs) ← db.closeTrailing H C ic
  let (root, objs') ← finishIndex H C ic true db.levels
  return (root, objs ++ objs')

/-- The root of a directory and the objects emitted on the way. -/
def buildDirectory (entries : List Entry) : Except FsError (Key × List Object) := do
  let (db, objs) ← DirBuilder.new.addEntries H C ic entries
  let (root, objs') ← db.finish H C ic
  return (root, objs ++ objs')

end Build

/-! ## What the entries stand for -/

section Denotes
variable {H : Blake3} {C : Cbor} {ic : ItemChunker} {δ : Type} {E : Entry → List δ → Prop}
  {P : Item → List δ → Prop} {tail : Object → List δ} {T : Object → Prop}

theorem DirBuilder.closeLeaf_ok {db : DirBuilder} (h : db.closeLeaf H C ic = .ok (db', objs)) :
    ∃ obj levels objs', encodeDirLeaf H C db.leaf = .ok obj ∧
      addItem H C ic true db.levels ⟨obj.key, lastName db.leaf⟩ = .ok (levels, objs') ∧
      db' = ⟨levels, []⟩ ∧ objs = obj :: objs' := by
  obtain ⟨obj, ho, h⟩ := bind_eq_ok.mp h
  obtain ⟨⟨levels, objs'⟩, ha, h⟩ := bind_eq_ok.mp h
  cases h
  exact ⟨obj, levels, objs', ho, ha, rfl, rfl⟩

theorem DirBuilder.finish_ok {db : DirBuilder} (h : db.finish H C ic = .ok (root, objs)) :
    ∃ db' objs₁ objs₂, db.closeTrailing H C ic = .ok (db', objs₁) ∧
      finishIndex H C ic true db'.levels = .ok (root, objs₂) ∧ objs = objs₁ ++ objs₂ := by
  obtain ⟨⟨db', objs₁⟩, hc, h⟩ := bind_eq_ok.mp h
  obtain ⟨⟨root, objs₂⟩, hf, h⟩ := bind_eq_ok.mp h
  cases h
  exact ⟨db', objs₁, objs₂, hc, hf, rfl⟩

/-- A builder that has closed no leaf yet makes one leaf of all its entries. -/
theorem DirBuilder.finish_leaf {es : List Entry} (h : DirBuilder.finish H C ic ⟨[], es⟩ = .ok (root, objs)) :
    ∃ obj, encodeDirLeaf H C es = .ok obj ∧ root = obj.key ∧ objs = [obj] := by
  obtain ⟨db', objs₁, objs₂, hclose, hindex, rfl⟩ := finish_ok h
  rw [closeTrailing, if_pos (.inr rfl)] at hclose
  obtain ⟨obj, levels, objs', ho, ha, rfl, rfl⟩ := closeLeaf_ok hclose
  cases ha
  simp only [finishIndex] at hindex
  cases hindex
  exact ⟨obj, ho, rfl, rfl⟩

theorem DirBuilder.new_addEntry (e : Entry) :
    DirBuilder.new.addEntry H C ic e = .ok (⟨[], [e]⟩, []) := by
  have hopen : ¬ic.isBoundary (C.encodeEntry e) 1 = true := fun hb => by
    have := ItemChunker.two_le hb
    omega
  exact if_neg hopen

theorem DirBuilder.addEntries_cons {db : DirBuilder}
    (h : db.addEntries H C ic (e :: es) = .ok (db', objs)) :
    ∃ db₁ objs₁ objs₂, db.addEntry H C ic e = .ok (db₁, objs₁) ∧
      db₁.addEntries H C ic es = .ok (db', objs₂) ∧ objs = objs₁ ++ objs₂ := by
  obtain ⟨⟨db₁, objs₁⟩, he, h⟩ := bind_eq_ok.mp h
  obtain ⟨⟨db₂, objs₂⟩, hes, h⟩ := bind_eq_ok.mp h
  cases h
  exact ⟨db₁, objs₁, objs₂, he, hes, rfl⟩

theorem buildDirectory_ok (h : buildDirectory H C ic entries = .ok (root, objs)) :
    ∃ db objs₁ objs₂, DirBuilder.new.addEntries H C ic entries = .ok (db, objs₁) ∧
      db.finish H C ic = .ok (root, objs₂) ∧ objs = objs₁ ++ objs₂ := by
  obtain ⟨⟨db, objs₁⟩, ha, h⟩ := bind_eq_ok.mp h
  obtain ⟨⟨root, objs₂⟩, hf, h⟩ := bind_eq_ok.mp h
  cases h
  exact ⟨db, objs₁, objs₂, ha, hf, rfl⟩

/-- A leaf stands for what its entries stand for, followed by what it adds itself. -/
def LeafDenotes (H : Blake3) (C : Cbor) (E : Entry → List δ → Prop) (P : Item → List δ → Prop)
    (tail : Object → List δ) (T : Object → Prop) : Prop :=
  ∀ leaf ds obj, leaf ≠ [] → List.Forall₂ E leaf ds → encodeDirLeaf H C leaf = .ok obj → T obj →
    P ⟨obj.key, lastName leaf⟩ (ds.flatten ++ tail obj)

/-- The content of a builder: its levels, then its open leaf. -/
inductive DirDenotes (E : Entry → List δ → Prop) (P : Item → List δ → Prop) :
    DirBuilder → List δ → Prop
  | mk : Denotes P levels c → List.Forall₂ E leaf ds → DirDenotes E P ⟨levels, leaf⟩ (c ++ ds.flatten)

theorem DirDenotes.new : DirDenotes E P DirBuilder.new [] := .mk .nil .nil

theorem DirDenotes.nil (h : DirDenotes E P ⟨[], []⟩ w) : w = [] := by
  cases h with
  | mk hlevels hds =>
    cases hlevels
    cases hds
    rfl

/-- An object is a leaf, or the node over a run whose content is part of the whole. -/
def EmittedDir (H : Blake3) (C : Cbor) (P : Item → List δ → Prop) (whole : List δ) (o : Object) : Prop :=
  o.key.type = .dirLeaf ∨ Emitted H C true P whole o

theorem EmittedDir.mono (h : EmittedDir H C P w o) (hw : w <:+: w') : EmittedDir H C P w' o :=
  h.imp_right fun h => h.mono hw

section Steps
variable (hleaf : LeafDenotes H C E P tail T) (hnode : NodeDenotes H C true P tail T)
include hleaf hnode

theorem DirBuilder.closeLeaf_denotes {db : DirBuilder} (h : DirDenotes E P db w) (hne : db.leaf ≠ [])
    (hclose : db.closeLeaf H C ic = .ok (db', objs)) (hT : ∀ o ∈ objs, T o) :
    DirDenotes E P db' (w ++ objs.flatMap tail) ∧
      ∀ o ∈ objs, EmittedDir H C P (w ++ objs.flatMap tail) o := by
  obtain ⟨obj, levels, objs', ho, ha, rfl, rfl⟩ := closeLeaf_ok hclose
  cases h with
  | @mk _ c leaf ds hlevels hds =>
    have hit := hleaf _ _ _ hne hds ho (hT obj mem_cons_self)
    have hT' : ∀ o ∈ objs', T o := fun o ho => hT o (mem_cons_of_mem _ ho)
    obtain ⟨hadd, hemitted⟩ := addItem_denotes hnode hlevels hit ha hT'
    refine ⟨by simpa using DirDenotes.mk hadd (.nil (R := E)), fun o ho' => ?_⟩
    rcases mem_cons.mp ho' with rfl | ho'
    · exact .inl (encodeDirLeaf_ok ho).2.1
    · exact .inr ((hemitted o ho').mono (by simp))

theorem DirBuilder.addEntry_denotes {db : DirBuilder} (h : DirDenotes E P db w) (he : E e d)
    (hadd : db.addEntry H C ic e = .ok (db', objs)) (hT : ∀ o ∈ objs, T o) :
    DirDenotes E P db' (w ++ d ++ objs.flatMap tail) ∧
      ∀ o ∈ objs, EmittedDir H C P (w ++ d ++ objs.flatMap tail) o := by
  cases h with
  | @mk levels c leaf ds hlevels hds =>
    have hmore : DirDenotes E P ⟨levels, leaf ++ [e]⟩ (c ++ ds.flatten ++ d) := by
      simpa using DirDenotes.mk hlevels (rel_append hds (.cons he .nil))
    unfold addEntry at hadd
    simp only at hadd
    split at hadd
    · exact closeLeaf_denotes hleaf hnode hmore (by simp) hadd hT
    · cases hadd
      exact ⟨by simpa using hmore, nofun⟩

/-- A builder that was given something ends with a root for its content. -/
theorem DirBuilder.finish_denotes {db : DirBuilder} (h : DirDenotes E P db w)
    (hany : db.leaf ≠ [] ∨ db.levels ≠ []) (hfin : db.finish H C ic = .ok (root, objs))
    (hT : ∀ o ∈ objs, T o) :
    (∃ sep, P ⟨root, sep⟩ (w ++ objs.flatMap tail)) ∧
      ∀ o ∈ objs, EmittedDir H C P (w ++ objs.flatMap tail) o := by
  obtain ⟨db', objs₁, objs₂, hclose, hindex, rfl⟩ := finish_ok hfin
  have hT₁ : ∀ o ∈ objs₁, T o := fun o ho => hT o (mem_append_left _ ho)
  have hT₂ : ∀ o ∈ objs₂, T o := fun o ho => hT o (mem_append_right _ ho)
  obtain ⟨hden, hnil, hemit⟩ : DirDenotes E P db' (w ++ objs₁.flatMap tail) ∧ db'.leaf = [] ∧
      ∀ o ∈ objs₁, EmittedDir H C P (w ++ objs₁.flatMap tail) o := by
    unfold closeTrailing at hclose
    split at hclose
    · next hc =>
      have hne : db.leaf ≠ [] := by
        rcases hc with hpos | hlevels
        · exact ne_nil_of_length_pos hpos
        · exact hany.resolve_right (not_not_intro hlevels)
      obtain ⟨hden, hemit⟩ := closeLeaf_denotes hleaf hnode h hne hclose hT₁
      obtain ⟨_, _, _, _, _, rfl, _⟩ := closeLeaf_ok hclose
      exact ⟨hden, rfl, hemit⟩
    · next hc =>
      cases hclose
      rw [not_or, Nat.not_lt, Nat.le_zero, length_eq_zero_iff] at hc
      exact ⟨by simpa using h, hc.1, nofun⟩
  generalize hw : w ++ objs₁.flatMap tail = w₁ at hden hemit
  cases hden with
  | @mk levels c leaf ds hlevels hds =>
    cases (hnil : leaf = [])
    cases hds
    have hwhole : w ++ (objs₁ ++ objs₂).flatMap tail = c ++ objs₂.flatMap tail := by
      rw [flatMap_append, ← append_assoc, hw, flatten_nil, append_nil]
    rw [hwhole]
    obtain ⟨hroot, hemitted⟩ := finishIndex_denotes hnode hlevels hindex hT₂
    refine ⟨hroot, fun o ho => ?_⟩
    rcases mem_append.mp ho with ho | ho
    · exact (hemit o ho).mono (by simpa using (prefix_append c _).isInfix)
    · exact .inr (hemitted o ho)

end Steps

end Denotes

/-! ## Building succeeds -/

section Success
variable {H : Blake3} {C : Cbor} {ic : ItemChunker}

/-- Nothing the builder holds keeps it from making an object. -/
structure DirBuilder.Ready (db : DirBuilder) : Prop where
  levels : Buildable db.levels
  leaf : ∀ e ∈ db.leaf, e.KeysOk

theorem DirBuilder.Ready.new : DirBuilder.new.Ready := ⟨⟨nofun, nofun⟩, nofun⟩

theorem DirBuilder.Ready.closeLeaf {db : DirBuilder} (h : db.Ready) :
    ∃ db' objs, db.closeLeaf H C ic = .ok (db', objs) ∧ db'.Ready ∧ db'.levels ≠ [] := by
  obtain ⟨obj, ho⟩ := exists_encodeDirLeaf (H := H) (C := C) h.leaf
  have hitem : (Item.mk obj.key (lastName db.leaf)).key.Canonical := (encodeDirLeaf_ok ho).2.2
  obtain ⟨levels, objs, ha, hb, hne⟩ : ∃ levels objs, addItem H C ic true db.levels _ =
      .ok (levels, objs) ∧ Buildable levels ∧ levels ≠ [] := exists_addItem h.levels hitem
  refine ⟨⟨levels, []⟩, obj :: objs, ?_, ⟨hb, nofun⟩, hne⟩
  exact bind_eq_ok.mpr ⟨obj, ho, bind_eq_ok.mpr ⟨_, ha, rfl⟩⟩

theorem DirBuilder.Ready.addEntry {db : DirBuilder} (h : db.Ready) (he : e.KeysOk) :
    ∃ db' objs, db.addEntry H C ic e = .ok (db', objs) ∧ db'.Ready := by
  have hmore : DirBuilder.Ready ⟨db.levels, db.leaf ++ [e]⟩ := by
    refine ⟨h.levels, fun x hx => ?_⟩
    rcases mem_append.mp hx with hx | hx
    · exact h.leaf x hx
    · exact mem_singleton.mp hx ▸ he
  unfold DirBuilder.addEntry
  simp only
  split
  · obtain ⟨db', objs, hc, hr, -⟩ := hmore.closeLeaf
    exact ⟨db', objs, hc, hr⟩
  · exact ⟨_, [], rfl, hmore⟩

theorem DirBuilder.Ready.finish {db : DirBuilder} (h : db.Ready) :
    ∃ root objs, db.finish H C ic = .ok (root, objs) ∧ root.Canonical := by
  obtain ⟨db', objs₁, hc, hr, hne⟩ : ∃ db' objs, db.closeTrailing H C ic = .ok (db', objs) ∧
      db'.Ready ∧ db'.levels ≠ [] := by
    unfold closeTrailing
    split
    · exact h.closeLeaf
    · next hc => exact ⟨db, [], rfl, h, fun h' => hc (.inr h')⟩
  obtain ⟨root, objs₂, hf, hroot⟩ : ∃ root objs, finishIndex H C ic true db'.levels =
      .ok (root, objs) ∧ root.Canonical := exists_finishIndex hr.levels hne
  exact ⟨root, objs₁ ++ objs₂, bind_eq_ok.mpr ⟨_, hc, bind_eq_ok.mpr ⟨_, hf, rfl⟩⟩, hroot⟩

theorem DirBuilder.Ready.addEntries {db : DirBuilder} (h : db.Ready) (hes : ∀ e ∈ es, e.KeysOk) :
    ∃ db' objs, db.addEntries H C ic es = .ok (db', objs) ∧ db'.Ready := by
  induction es generalizing db with
  | nil => exact ⟨db, [], rfl, h⟩
  | cons e es ih =>
    obtain ⟨db₁, objs₁, hone, h₁⟩ := h.addEntry (hes e mem_cons_self)
    obtain ⟨db₂, objs₂, hrest, h₂⟩ := ih h₁ fun x hx => hes x (mem_cons_of_mem _ hx)
    exact ⟨db₂, objs₁ ++ objs₂, bind_eq_ok.mpr ⟨_, hone, bind_eq_ok.mpr ⟨_, hrest, rfl⟩⟩, h₂⟩

theorem exists_buildDirectory (h : ∀ e ∈ entries, e.KeysOk) :
    ∃ root objs, buildDirectory H C ic entries = .ok (root, objs) := by
  obtain ⟨db, objs₁, hadd, hdb⟩ := DirBuilder.Ready.new.addEntries h
  obtain ⟨root, objs₂, hfin, -⟩ := hdb.finish (H := H) (C := C)
  exact ⟨root, objs₁ ++ objs₂, bind_eq_ok.mpr ⟨_, hadd, bind_eq_ok.mpr ⟨_, hfin, rfl⟩⟩⟩

end Success

/-! ## Reading -/

section Reading
variable (C : Cbor) (get : Key → Except FsError Bytes)

/-- The store that holds the emitted objects. -/
def getFrom (objs : List Object) (k : Key) : Except FsError Bytes :=
  match objs.find? fun o => o.key = k with
  | some o => .ok o.data
  | none => .error (.get k)

/-- Append the entries of a leaf, whose names have to go on from those before. -/
def appendEntries (k : Key) : List Entry → List Entry → Except FsError (List Entry)
  | out, [] => .ok out
  | out, e :: es =>
    match out.getLast? with
    | some last =>
      if last.name < e.name then appendEntries k (out ++ [e]) es
      else .error (.notAfter k e.name last.name)
    | none => appendEntries k (out ++ [e]) es

/-- Collect below every pair of a node in turn. -/
def collectPairs (k : Key) (collect : Key → List Entry → Option (Except FsError (List Entry))) :
    List Entry → List DirPair → Option (Except FsError (List Entry))
  | out, [] => some (.ok out)
  | out, p :: ps =>
    match Key.parse p.childKey with
    | .error e => some (.error (.dirNodeChild k e))
    | .ok ck =>
      match collect ck out with
      | none => none
      | some (.error e) => some (.error e)
      | some (.ok out) => collectPairs k collect out ps

/-- Collect what is below a key, for at most so many levels. -/
def collectInto : Nat → Key → List Entry → Option (Except FsError (List Entry))
  | 0, _, _ => none
  | fuel + 1, k, out =>
    match get k with
    | .error _ => some (.error (.get k))
    | .ok data =>
      match k.type with
      | .dirLeaf =>
        match C.decodeEntries data with
        | none => some (.error (.decodeDirLeaf k))
        | some entries => some (appendEntries k out entries)
      | .dirNode =>
        match C.decodePairs data with
        | none => some (.error (.decodeDirNode k))
        | some pairs => collectPairs k (collectInto fuel) out pairs
      | _ => some (.error (.notDirectory k))

def collectEntries (fuel : Nat) (k : Key) : Option (Except FsError (List Entry)) :=
  collectInto C get fuel k []

/-- The index of the first element whose name is not below the given one. -/
def searchName (name : Bytes) (names : List Bytes) : Nat :=
  Search.search names.length fun i =>
    match names[i]? with
    | some x => !decide (x < name)
    | none => false

def lookupEntry (name : Bytes) : Nat → Key → Option (Except FsError Entry)
  | 0, _ => none
  | fuel + 1, k =>
    match get k with
    | .error _ => some (.error (.get k))
    | .ok data =>
      match k.type with
      | .dirLeaf =>
        match C.decodeEntries data with
        | none => some (.error (.decodeDirLeaf k))
        | some entries =>
          match entries[searchName name (entries.map Entry.name)]? with
          | some e => if e.name = name then some (.ok e) else some (.error (.notFound name))
          | none => some (.error (.notFound name))
      | .dirNode =>
        match C.decodePairs data with
        | none => some (.error (.decodeDirNode k))
        | some pairs =>
          match pairs[searchName name (pairs.map DirPair.sepName)]? with
          | none => some (.error (.notFound name))
          | some p =>
            match Key.parse p.childKey with
            | .error e => some (.error (.dirNodeChild k e))
            | .ok ck => lookupEntry name fuel ck
      | _ => some (.error (.notDirectory k))

end Reading

end AmberStore.Fstree
