import AmberStore.Lib.System
import AmberStore.Remotesync.Pull

/-!
# Push

Upload what a server lacks of a tree: the reachable keys are checked against the server in chunks,
the keys of the replies are gathered, sorted by their place on disk and cut into batches, and readers
and uploaders work through the batches side by side. The server's replies are taken as they come.
-/

namespace AmberStore.Remotesync
open Amberpack Fstree Walk List

/-! ## The parts -/

/-- The request bodies of the negotiation. -/
def checkChunks (keys : List Key) : List (List Key) :=
  if _h : maxBatchKeys < keys.length then
    keys.take maxBatchKeys :: checkChunks (keys.drop maxBatchKeys)
  else if 0 < keys.length then [keys] else []
termination_by keys.length
decreasing_by
  have : 0 < maxBatchKeys := by decide
  rw [length_drop]
  omega

theorem checkChunks_flatten (keys : List Key) : (checkChunks keys).flatten = keys := by
  induction keys using checkChunks.induct with
  | case1 keys h ih => rw [checkChunks, dif_pos h, flatten_cons, ih, take_append_drop]
  | case2 keys h h' => rw [checkChunks, dif_neg h, if_pos h', flatten_singleton]
  | case3 keys h h' =>
    rw [checkChunks, dif_neg h, if_neg h']
    exact (length_eq_zero_iff.mp (by omega)).symm

/-- Where the store keeps a key: segment and offset. -/
abbrev Location := Key → Option (Nat × Nat)

/-- The order on disk; absent keys come last. -/
def Location.le (loc : Location) (a b : Key) : Bool :=
  match loc a, loc b with
  | some (seg, off), some (seg', off') => decide (seg < seg' ∨ seg = seg' ∧ off ≤ off')
  | some _, none => true
  | none, some _ => false
  | none, none => true

/-- A result of sorting keys by their location. -/
def SortedByLocation (loc : Location) (keys sorted : List Key) : Prop :=
  sorted.Perm keys ∧ sorted.Pairwise fun a b => loc.le a b = true

/-- The stored size, or the nominal one if the object is absent. -/
def pushSizer (Z : Zstd) (s : Objects) (k : Key) : UInt64 :=
  match s.lookup k with
  | some data => .ofNat ((objectRecord Z ⟨k, data⟩).length - recHeaderSize)
  | none => nominalNodeSize

/-- The objects whose records a pack holds. -/
abbrev AssembledPack := List Object

/-- Read the records of a batch. -/
def assemblePack (s : Objects) : List Key → Except SyncError AssembledPack
  | [] => .ok []
  | k :: ks =>
    match s.lookup k with
    | none => .error (.readRecord k)
    | some data => do return ⟨k, data⟩ :: (← assemblePack s ks)

theorem assemblePack_ok (h : assemblePack s batch = .ok pack) : pack.map Object.key = batch := by
  induction batch generalizing pack with
  | nil =>
    cases h
    rfl
  | cons k ks ih =>
    rw [assemblePack] at h
    split at h
    · cases h
    · obtain ⟨rest, hrest, h⟩ := Except.bind_eq_ok.mp h
      cases h
      rw [map_cons, ih hrest]

/-! ## Runs of a push -/

inductive PushPhase where
  | negotiating
  | uploading
  | returned (r : Except SyncError Unit)

/-- A push under way. `replies` and `handed` are what the server has sent and been sent so far. -/
structure PushState where
  phase : PushPhase
  waiting : List (List Key)
  replies : List (List Key)
  missing : List Key
  batches : List (List Key)
  ready : List AssembledPack
  sending : List AssembledPack
  handed : List AssembledPack
  accepted : List AssembledPack
  failed : Option SyncError

structure PushOpts where
  batchBytes : UInt64
  jobs : Nat
  prefetch : Nat

/-- A push of the given reachable keys begins. -/
def PushState.start (keys : List Key) : PushState :=
  ⟨.negotiating, checkChunks keys, [], [], [], [], [], [], [], none⟩

/-- What the environment decides in a step. -/
inductive PushLabel where
  | reply (chunk miss : List Key)
  | internal

/-- Negotiation, assembly and upload, in any order that the workers can take. After a failure the
other workers may go on until the push returns. -/
inductive PushStep (Z : Zstd) (loc : Location) (store : Objects) (opts : PushOpts) :
    PushState → PushLabel → PushState → Prop
  | reply {a b : List (List Key)} {chunk miss : List Key} : s.phase = .negotiating → s.waiting = a ++ chunk :: b →
    PushStep Z loc store opts s (.reply chunk miss)
      { s with waiting := a ++ b, replies := s.replies ++ [miss], missing := s.missing ++ miss }
  | refuse : s.phase = .negotiating → s.waiting ≠ [] →
    PushStep Z loc store opts s .internal { s with phase := .returned (.error .remote) }
  | negotiated : s.phase = .negotiating → s.waiting = [] → SortedByLocation loc s.missing sorted →
    PushStep Z loc store opts s .internal { s with
      phase := .uploading, batches := batches sorted opts.batchBytes (pushSizer Z store) }
  | assemble {a b : List (List Key)} {batch : List Key} {pack : AssembledPack} :
    s.phase = .uploading → s.batches = a ++ batch :: b → s.ready.length < opts.prefetch →
    assemblePack store batch = .ok pack →
    PushStep Z loc store opts s .internal { s with batches := a ++ b, ready := s.ready ++ [pack] }
  | unreadable {a b : List (List Key)} {batch : List Key} {e : SyncError} : s.phase = .uploading → s.batches = a ++ batch :: b →
    assemblePack store batch = .error e →
    PushStep Z loc store opts s .internal { s with
      batches := a ++ b, failed := some (s.failed.getD e) }
  | hand {pack : AssembledPack} {rest : List AssembledPack} : s.phase = .uploading → s.ready = pack :: rest → s.sending.length < opts.jobs →
    PushStep Z loc store opts s .internal { s with
      ready := rest, sending := s.sending ++ [pack], handed := s.handed ++ [pack] }
  | accept {a b : List AssembledPack} {pack : AssembledPack} : s.phase = .uploading → s.sending = a ++ pack :: b →
    PushStep Z loc store opts s .internal { s with
      sending := a ++ b, accepted := s.accepted ++ [pack] }
  | reject {a b : List AssembledPack} {pack : AssembledPack} : s.phase = .uploading → s.sending = a ++ pack :: b →
    PushStep Z loc store opts s .internal { s with
      sending := a ++ b, failed := some (s.failed.getD .remote) }
  | fail : s.phase = .uploading → s.failed = some e →
    PushStep Z loc store opts s .internal { s with phase := .returned (.error e) }
  | finish : s.phase = .uploading → s.batches = [] → s.ready = [] → s.sending = [] →
    s.failed = none → PushStep Z loc store opts s .internal { s with phase := .returned (.ok ()) }

/-- The keys of the objects that packs hold. -/
def packKeys (packs : List AssembledPack) : List Key := packs.flatten.map Object.key

/-- The states that a push of a tree can be in, with a condition on the replies. -/
abbrev Pushed (Z : Zstd) (loc : Location) (store : Objects) (opts : PushOpts) (keys : List Key)
    (P : List Key → List Key → Prop) : PushState → Prop :=
  Reach (· = .start keys) fun s s' =>
    ∃ l, PushStep Z loc store opts s l s' ∧ ∀ chunk miss, l = .reply chunk miss → P chunk miss

/-- The reply names keys of its chunk, each at most once. -/
def InChunk (chunk miss : List Key) : Prop := miss.Nodup ∧ ∀ k ∈ miss, k ∈ chunk

/-! ## What is handed over -/

section Runs
variable {Z : Zstd} {loc : Location} {store : Objects} {opts : PushOpts} {keys : List Key}

/-- The keys that are still on their way to a pack. -/
def PushState.pending (s : PushState) : List Key :=
  match s.phase with
  | .negotiating => s.missing ++ s.waiting.flatten
  | .uploading => s.batches.flatten
  | .returned _ => []

@[simp] theorem packKeys_append (a b : List AssembledPack) :
    packKeys (a ++ b) = packKeys a ++ packKeys b := by simp [packKeys]

@[simp] theorem packKeys_singleton (p : AssembledPack) : packKeys [p] = p.map Object.key := by
  simp [packKeys]

/-- All keys handed over or on their way are keys of the tree, each at most once. -/
def PushState.Exact (keys : List Key) (s : PushState) : Prop :=
  (packKeys s.handed ++ packKeys s.ready ++ s.pending).Subperm keys

theorem perm_extract (l c : List Key) (a b : List (List Key)) :
    (l ++ (a ++ c :: b).flatten).Perm (l ++ c ++ (a ++ b).flatten) := by
  simp only [flatten_append, flatten_cons, append_assoc]
  refine List.Perm.append_left l ?_
  rw [← append_assoc, ← append_assoc]
  exact perm_append_comm.append_right _

theorem PushState.Exact.step (h : s.Exact keys) (hstep : PushStep Z loc store opts s l s')
    (hl : ∀ chunk miss, l = .reply chunk miss → InChunk chunk miss) : s'.Exact keys := by
  unfold Exact at h ⊢
  cases hstep with
  | @reply _ a b chunk miss hp hw =>
    have hmiss : miss.Subperm chunk := (hl chunk miss rfl).1.subperm (hl chunk miss rfl).2
    simp only [pending, hp, hw, ← append_assoc] at h ⊢
    refine .trans ?_ ((perm_extract _ chunk a b).symm.subperm.trans h)
    exact (subperm_append_right _).mpr ((subperm_append_left _).mpr hmiss)
  | refuse hp hw =>
    simp only [pending, hp] at h ⊢
    exact ((subperm_append_left _).mpr (nil_subperm)).trans h
  | @negotiated _ sorted hp hw hsorted =>
    simp only [pending, hp, hw, flatten_nil, append_nil, batches_flatten] at h ⊢
    exact (hsorted.1.append_left _).subperm.trans h
  | @assemble _ a b batch pack hp hb _ hpack =>
    simp only [pending, hp, hb, packKeys_append, packKeys_singleton, assemblePack_ok hpack,
      ← append_assoc] at h ⊢
    exact (perm_extract _ batch a b).symm.subperm.trans h
  | @unreadable _ a b batch e hp hb _ =>
    simp only [pending, hp, hb] at h ⊢
    refine .trans ?_ ((perm_extract _ batch a b).symm.subperm.trans h)
    refine (subperm_append_right _).mpr (List.Sublist.subperm ?_)
    exact sublist_append_left _ _
  | @hand _ pack rest hp hr _ =>
    have hready : packKeys s.ready = pack.map Object.key ++ packKeys rest := by
      rw [hr, ← singleton_append, packKeys_append, packKeys_singleton]
    simp only [pending, hp, hready, packKeys_append, packKeys_singleton, ← append_assoc] at h ⊢
    exact h
  | accept hp _ | reject hp _ =>
    simp only [pending, hp] at h ⊢
    exact h
  | fail hp _ | finish hp _ _ _ _ =>
    simp only [pending, hp] at h ⊢
    exact ((subperm_append_left _).mpr (nil_subperm)).trans h

/-- Where the keys of the replies are: among those to be packed, or in a pack not yet refused. -/
def PushState.Covers (s : PushState) : Prop :=
  match s.phase with
  | .negotiating => ∀ r ∈ s.replies, ∀ k ∈ r, k ∈ s.missing
  | .uploading => s.failed = none → ∀ r ∈ s.replies, ∀ k ∈ r,
    k ∈ s.batches.flatten ++ packKeys s.ready ++ packKeys s.sending ++ packKeys s.accepted
  | .returned (.ok ()) => ∀ r ∈ s.replies, ∀ k ∈ r, k ∈ packKeys s.accepted
  | .returned (.error _) => True

theorem PushState.Covers.step (h : s.Covers) (hstep : PushStep Z loc store opts s l s') :
    s'.Covers := by
  unfold Covers at h
  cases hstep with
  | @reply _ a b chunk miss hp hw =>
    simp only [Covers, hp, mem_append, mem_singleton] at h ⊢
    rintro r (hr | rfl) k hk
    · exact .inl (h r hr k hk)
    · exact .inr hk
  | refuse hp hw => trivial
  | @negotiated _ sorted hp hw hsorted =>
    simp only [Covers, hp, batches_flatten, mem_append] at h ⊢
    exact fun _ r hr k hk => .inl (.inl (.inl (hsorted.1.mem_iff.mpr (h r hr k hk))))
  | @assemble _ a b batch pack hp hb _ hpack =>
    simp only [Covers, hp, hb, packKeys_append, packKeys_singleton, assemblePack_ok hpack,
      flatten_append, flatten_cons, mem_append] at h ⊢
    intro hf r hr k hk
    have := h hf r hr k hk
    tauto
  | @unreadable _ a b batch e hp hb _ =>
    simp only [Covers, hp]
    exact nofun
  | @hand _ pack rest hp hr _ =>
    have hready : packKeys s.ready = pack.map Object.key ++ packKeys rest := by
      rw [hr, ← singleton_append, packKeys_append, packKeys_singleton]
    simp only [Covers, hp, hready, packKeys_append, packKeys_singleton, mem_append] at h ⊢
    intro hf r hr k hk
    have := h hf r hr k hk
    tauto
  | @accept _ a b pack hp hs =>
    have hsending : packKeys s.sending = packKeys a ++ (pack.map Object.key ++ packKeys b) := by
      rw [hs, ← singleton_append, packKeys_append, packKeys_append, packKeys_singleton]
    simp only [Covers, hp, hsending, packKeys_append, packKeys_singleton, mem_append] at h ⊢
    intro hf r hr k hk
    have := h hf r hr k hk
    tauto
  | reject hp _ =>
    simp only [Covers, hp]
    exact nofun
  | fail hp _ => trivial
  | finish hp hb hr hs hf =>
    simp only [Covers, hp, hb, hr, hs] at h ⊢
    intro r hr k hk
    simpa [packKeys] using h hf r hr k hk

/-- With a server whose replies name keys of their chunk, each once, a push hands over objects of the
tree only, each at most once, and when it returns nil every key a reply named was accepted. -/
theorem push_exact (C : Cbor) (root : Key)
    (hkeys : Loop.Yields (reachableKeys C store · root) (.ok keys))
    (hrun : Pushed Z loc store opts keys InChunk s) :
    (packKeys s.handed).Nodup ∧ (∀ k ∈ packKeys s.handed, Reachable C store root k) ∧
      (s.phase = .returned (.ok ()) → ∀ k, Reachable C store root k →
        (∀ r ∈ s.replies, k ∉ r) ∨ k ∈ packKeys s.accepted) := by
  obtain ⟨-, hnd, hmem, -⟩ := BfsReturns.ok (Loop.yields_run.mp hkeys)
  have hinv : s.Exact keys ∧ s.Covers := by
    refine Reach.invariant (I := fun s => s.Exact keys ∧ s.Covers) hrun ?_ ?_
    · rintro s rfl
      refine ⟨?_, nofun⟩
      simp [PushState.Exact, PushState.start, PushState.pending, packKeys, checkChunks_flatten,
        List.Subperm.refl]
    · rintro s s' ⟨hexact, hcovers⟩ ⟨l, hstep, hl⟩
      exact ⟨hexact.step hstep hl, hcovers.step hstep⟩
  obtain ⟨hexact, hcovers⟩ := hinv
  have hsub : (packKeys s.handed).Subperm keys :=
    (List.Sublist.subperm (by simp)).trans hexact
  refine ⟨?_, fun k hk => ?_, fun hdone k _ => ?_⟩
  · obtain ⟨l, hperm, hl⟩ := hsub
    exact hperm.nodup_iff.mp (hl.nodup hnd)
  · have := (hmem k).mp (hsub.subset hk)
    rwa [Reaches, edge_expand] at this
  · rw [PushState.Covers, hdone] at hcovers
    by_cases hin : ∃ r ∈ s.replies, k ∈ r
    · obtain ⟨r, hr, hk⟩ := hin
      exact .inr (hcovers r hr k hk)
    · exact .inl fun r hr hk => hin ⟨r, hr, hk⟩

end Runs

/-! A store with two blobs, of which one is pushed. -/

def privateBlob : Object := ⟨⟨0 :: 3 :: List.replicate 30 0, rfl⟩, [1, 2, 3]⟩

def twoBlobs : Objects := add (add ∅ helloBlob) privateBlob

def oneSegment : Location := fun k =>
  if k = helloBlob.key then some (1, 8) else if k = privateBlob.key then some (1, 56) else none

/-- The runs of a push of the first blob. -/
abbrev PushedHello (P : List Key → List Key → Prop) : PushState → Prop :=
  Pushed .stored oneSegment twoBlobs ⟨defaultBatchBytes, 1, 1⟩ [helloBlob.key] P

/-- A pack of one blob that a reply asks for is handed over. -/
theorem PushedHello.hand (hread : assemblePack twoBlobs [k] = .ok [o]) (hP : P [helloBlob.key] [k]) :
    PushedHello P ⟨.uploading, [], [[k]], [k], [], [], [[o]], [[o]], [], none⟩ := by
  have h0 : PushedHello P (.start [helloBlob.key]) := .start rfl
  have hchunks : checkChunks [helloBlob.key] = [[helloBlob.key]] := by
    rw [checkChunks, dif_neg (by decide), if_pos (by decide)]
  rw [PushState.start, hchunks] at h0
  have h1 : PushedHello P ⟨.negotiating, [], [[k]], [k], [], [], [], [], [], none⟩ :=
    h0.next ⟨_, .reply (a := []) (b := []) rfl rfl, fun _ _ h => by cases h; exact hP⟩
  have hsorted : SortedByLocation oneSegment [k] [k] := ⟨.refl _, pairwise_singleton _ _⟩
  have h2 : PushedHello P ⟨.uploading, [], [[k]], [k], [[k]], [], [], [], [], none⟩ := by
    have h := h1.next ⟨_, .negotiated rfl rfl hsorted, nofun⟩
    rwa [batches_singleton] at h
  have h3 : PushedHello P ⟨.uploading, [], [[k]], [k], [], [[o]], [], [], [], none⟩ :=
    h2.next ⟨_, .assemble (a := []) (b := []) rfl rfl Nat.one_pos hread, nofun⟩
  exact h3.next ⟨_, .hand rfl rfl Nat.one_pos, nofun⟩

theorem reachable_helloBlob (h : Reachable C objects helloBlob.key k) : k = helloBlob.key := by
  induction h with
  | refl => rfl
  | tail _ hc ih =>
    obtain ⟨data, cs, -, hcs, hc⟩ := hc
    rw [ih, childKeys_leaf (by decide)] at hcs
    cases hcs
    cases hc

theorem reachableKeys_hello :
    Loop.Yields (reachableKeys .counting twoBlobs · helloBlob.key) (.ok [helloBlob.key]) :=
  Loop.yields_run.mpr (Loop.returns_iff_run.mpr ⟨3, rfl⟩)

theorem push_exact_hello : ∃ s, PushedHello InChunk s ∧ packKeys s.handed = [helloBlob.key] ∧
    (packKeys s.handed).Nodup ∧
    ∀ k ∈ packKeys s.handed, Reachable .counting twoBlobs helloBlob.key k := by
  have hrun : PushedHello InChunk _ := PushedHello.hand rfl ⟨nodup_singleton _, fun _ h => h⟩
  obtain ⟨hnd, hreach, -⟩ := push_exact .counting helloBlob.key reachableKeys_hello hrun
  exact ⟨_, hrun, rfl, hnd, hreach⟩

/-- A server that names an object outside the tree is sent it. -/
theorem push_leaks :
    Loop.Yields (reachableKeys .counting twoBlobs · helloBlob.key) (.ok [helloBlob.key]) ∧
    ∃ s, PushedHello (fun _ _ => True) s ∧ privateBlob.key ∈ packKeys s.handed ∧
      ¬Reachable .counting twoBlobs helloBlob.key privateBlob.key := by
  have hread : assemblePack twoBlobs [privateBlob.key] = .ok [privateBlob] := rfl
  refine ⟨reachableKeys_hello, _, PushedHello.hand hread trivial, mem_cons_self, fun h => ?_⟩
  exact absurd (reachable_helloBlob h) (by decide)

end AmberStore.Remotesync
