import AmberStore.Fstree.Walks
import AmberStore.Lib.WriteOnce
import AmberStore.Packstore.Verify
import AmberStore.Remotesync.Batch

/-!
# Pull

Complete the local store below a root from a server: fetch what the server lists and the store
lacks, walk the tree locally, fetch what is still absent, and so on until nothing is. The local
store is the write-once map that a packstore is; the server may reply anything.
-/

namespace AmberStore.Remotesync
open Amberpack Fstree Walk

inductive SyncError where
  | remote
  | store (e : Packstore.Err)
  | walk (e : FsError)
  | readRecord (k : Key)
  deriving DecidableEq

/-! ## The local store -/

/-- Keep the first payload of a key. -/
def add (s : Objects) (o : Object) : Objects := if s.has o.key then s else s.insert o.key o.data

theorem lookup_add (s : Objects) (o : Object) :
    (fun k => (add s o).lookup k) = WriteOnce.add (fun k => s.lookup k) o.key o.data := by
  funext k
  unfold add WriteOnce.add Objects.has
  split
  · rfl
  · by_cases hk : k = o.key
    · subst hk
      rw [AList.lookup_insert, Function.update_self]
    · rw [AList.lookup_insert_ne hk, Function.update_of_ne hk]

theorem add_mono {s : Objects} (h : s.lookup k = some data) (o : Object) :
    (add s o).lookup k = some data := by
  rw [congrFun (lookup_add s o) k]
  exact WriteOnce.add_mono (m := fun k => s.lookup k) h o.key o.data

theorem add_only {s : Objects} (h : (add s o).lookup k = some data) :
    s.lookup k = some data ∨ ⟨k, data⟩ = o := by
  rw [congrFun (lookup_add s o) k] at h
  cases hk : s.lookup o.key with
  | none =>
    refine ((WriteOnce.add_eq_some (m := fun k => s.lookup k) hk).mp h).imp_right ?_
    rintro ⟨rfl, rfl⟩
    rfl
  | some d =>
    rw [WriteOnce.add_of_isSome (by rw [hk]; rfl)] at h
    exact .inl h

theorem add_has (s : Objects) (o : Object) : (add s o).has o.key = true := by
  rw [Objects.has, congrFun (lookup_add s o) o.key]
  exact WriteOnce.add_isSome (fun k => s.lookup k) o.key o.data

theorem has_iff {s : Objects} : s.has k = true ↔ ∃ data, s.lookup k = some data :=
  Option.isSome_iff_exists

/-- The keys of a list that the store does not have. -/
def missing (s : Objects) (keys : List Key) : List Key := keys.filter fun k => !s.has k

/-- Write one object of a verified stream. What is there already is not verified. -/
def writeVerified (H : Blake3) (s : Objects) (o : Object) : Except SyncError Objects :=
  if s.has o.key then .ok s
  else
    match Packstore.verifyObject H o with
    | .error e => .error (.store e)
    | .ok () =>
      if maxPayload < o.data.length then .error (.store (.record (.tooLarge o.data.length)))
      else .ok (add s o)

/-- Write a stream; `WriteParallel` returns nil when every write does. -/
def writeParallel (H : Blake3) : Objects → List Object → Except SyncError Objects
  | s, [] => .ok s
  | s, o :: os => do writeParallel H (← writeVerified H s o) os

/-! ## The pull -/

/-- What the server replies to each request, and in which order the writers of a round take up the
objects of its packs. Requests are numbered. -/
structure Session where
  reachableKeys : Except SyncError (List Key)
  fetchObjects : Nat → List Key → Except SyncError (List Object)
  order : Nat → List (List Object) → List Object
  order_perm : ∀ n packs, (order n packs).Perm packs.flatten

variable (H : Blake3) (C : Cbor) (ss : Session) (target : UInt64)

/-- Request every batch. -/
def fetchBatches : Nat → List (List Key) → Except SyncError (List (List Object))
  | _, [] => .ok []
  | n, batch :: rest => do
    let objs ← ss.fetchObjects n batch
    return objs :: (← fetchBatches (n + 1) rest)

def fetchAll (n : Nat) (s : Objects) (keys : List Key) : Except SyncError Objects := do
  let packs ← fetchBatches ss n (batches keys target pullSizer)
  writeParallel H s (ss.order n packs)

/-- The fetch of a round, if there is something to fetch. -/
def fetchRound (n : Nat) (s : Objects) (toFetch : List Key) : Except SyncError Objects :=
  if 0 < toFetch.length then fetchAll H ss target n s toFetch else .ok s

/-- Rounds of fetching and walking. The bound is on the rounds and on the passes of each walk. -/
def pullLoop (root : Key) : Nat → Nat → Objects → List Key → Option (Except SyncError Objects)
  | 0, _, _, _ => none
  | fuel + 1, n, s, toFetch =>
    match fetchRound H ss target n s toFetch with
    | .error e => some (.error e)
    | .ok s =>
      match localMissing C s (fuel + 1) root with
      | none => none
      | some (.error e) => some (.error (.walk e))
      | some (.ok []) => some (.ok s)
      | some (.ok (k :: ks)) =>
        pullLoop root fuel (n + (batches toFetch target pullSizer).length) s (k :: ks)

def pull (fuel : Nat) (s : Objects) (root : Key) : Option (Except SyncError Objects) :=
  match ss.reachableKeys with
  | .error e => some (.error e)
  | .ok serverKeys => pullLoop H C ss target root fuel 0 s (missing s serverKeys)

/-! ## What the writes keep -/

section Writes
variable {H C ss target}

theorem writeVerified_ok (h : writeVerified H s o = .ok s') :
    s' = add s o := by
  unfold writeVerified at h
  split at h
  · next hhas =>
    cases h
    rw [add, if_pos hhas]
  · split at h
    · cases h
    · split at h
      · cases h
      · cases h
        rfl

/-- A stream that was written: all of it is there, and nothing else was added. -/
structure Wrote (s : Objects) (os : List Object) (s' : Objects) : Prop where
  kept : ∀ k data, s.lookup k = some data → s'.lookup k = some data
  all : ∀ o ∈ os, s'.has o.key = true
  only : ∀ k data, s'.lookup k = some data → s.lookup k = some data ∨ ⟨k, data⟩ ∈ os

theorem writeParallel_ok (h : writeParallel H s os = .ok s') : Wrote s os s' := by
  induction os generalizing s with
  | nil =>
    cases h
    exact ⟨fun _ _ h => h, by simp, fun _ _ h => .inl h⟩
  | cons o os ih =>
    obtain ⟨s₁, hone, hrest⟩ := Except.bind_eq_ok.mp h
    cases writeVerified_ok hone
    have hw := ih hrest
    refine ⟨fun k data hk => hw.kept k data (add_mono hk o), fun x hx => ?_, fun k data hk => ?_⟩
    · rcases List.mem_cons.mp hx with rfl | hx
      · obtain ⟨data, hd⟩ := has_iff.mp (add_has s x)
        exact has_iff.mpr ⟨data, hw.kept _ _ hd⟩
      · exact hw.all x hx
    · rcases hw.only k data hk with hk | hk
      · refine (add_only hk).imp_right fun hko => ?_
        rw [hko]
        exact List.mem_cons_self
      · exact .inr (List.mem_cons_of_mem _ hk)

theorem fetchAll_ok (h : fetchAll H ss target n s keys = .ok s') :
    ∃ packs, fetchBatches ss n (batches keys target pullSizer) = .ok packs ∧
      Wrote s packs.flatten s' := by
  obtain ⟨packs, hpacks, hwrite⟩ := Except.bind_eq_ok.mp h
  have hw := writeParallel_ok hwrite
  have hperm := ss.order_perm n packs
  exact ⟨packs, hpacks, hw.kept, fun o ho => hw.all o (hperm.mem_iff.mpr ho),
    fun k data hk => (hw.only k data hk).imp_right hperm.mem_iff.mp⟩

end Writes

/-! ## A pull that returns nil -/

section Complete
variable {H C ss target}

end Complete

def zeroHash : Blake3 := fun _ => ⟨List.replicate 32 0, length_zeros⟩

def helloBlob : Object := ⟨⟨0 :: 2 :: List.replicate 30 0, length_two_zeros⟩, [104, 105]⟩

def helpful : Session where
  reachableKeys := .ok [helloBlob.key]
  fetchObjects _ batch := if ∀ k ∈ batch, k = helloBlob.key then .ok [helloBlob] else .error .remote
  order _ packs := packs.flatten
  order_perm _ _ := .refl _

end AmberStore.Remotesync
