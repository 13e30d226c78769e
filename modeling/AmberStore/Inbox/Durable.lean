import AmberStore.Inbox.Barrier

/-!
# What was acknowledged is not lost

An entry that is durable is found again after a crash, and its file is removed only once its objects
are stored. A valid pack is lost where the code takes something else for a bad pack (a store that
fails, a header that does not decode), and where `Commit` finds an entry that is not durable yet.
-/

namespace AmberStore.Inbox
open Amberpack List Function

section Durable
variable (Z : Zstd) (H : Blake3) (headerOk : Meta → Bool)

/-- All objects of the body are in the store. -/
def Stored (s : State) (b : Bytes) : Prop := ∀ o ∈ (readAll Z b).1, o.key ∈ s.stored

/-- Every crash leaves the entry, or its objects are stored. -/
def Held (s : State) (b : Bytes) : Prop := none ∉ s.remains b ∨ Stored Z s b

def Worker.Keeping (s : State) : Worker → Prop
  | .written it => Stored Z s it.body
  | .failing it => ¬Valid Z H it.body
  | _ => True

def Call.Keeping (s : State) (c : Call) : Prop :=
  Valid Z H c.staged.body →
    match c.pc with
    | .sync => (s.dir c.staged.body).isSome ∨ Stored Z s c.staged.body
    | .enqueue => Held Z s c.staged.body
    | _ => True

/-- What is acknowledged is held, and nothing valid was moved to `failed`. -/
structure Keeping (s : State) : Prop where
  current : ∀ b, s.dir b ∈ s.remains b
  headers : ∀ b m, some m ∈ s.remains b → (readRoot headerOk m).isSome
  workers : ∀ w ∈ s.workers, w.Keeping Z H s
  calls : ∀ c ∈ s.calls, c.Keeping Z H s
  acked : ∀ p ∈ s.acked, Valid Z H p.1 → Held Z s p.1
  failed : ∀ b ∈ s.failed, ¬Valid Z H b

end Durable

/-- How a step may change the entries: what is valid stays where it was, or is stored. -/
structure Preserves (Z : Zstd) (H : Blake3) (s t : State) : Prop where
  stored : ∀ k ∈ s.stored, k ∈ t.stored
  dir : ∀ b, Valid Z H b → (s.dir b).isSome → (t.dir b).isSome ∨ Stored Z t b
  held : ∀ b, Valid Z H b → none ∉ s.remains b → none ∉ t.remains b ∨ Stored Z t b

section Preserves
variable {Z : Zstd} {H : Blake3} {headerOk : Meta → Bool} {s t : State}

theorem Preserves.of_eq (hstored : ∀ k ∈ s.stored, k ∈ t.stored) (hdir : t.dir = s.dir)
    (hremains : t.remains = s.remains) : Preserves Z H s t :=
  ⟨hstored, fun _ _ h => .inl (hdir ▸ h), fun _ _ h => .inl (hremains ▸ h)⟩

theorem Preserves.storedBody (h : Preserves Z H s t) (hb : Stored Z s b) : Stored Z t b :=
  fun o ho => h.stored _ (hb o ho)

theorem Preserves.heldBody (h : Preserves Z H s t) (hvalid : Valid Z H b) (hb : Held Z s b) :
    Held Z t b := by
  rcases hb with hb | hb
  · exact h.held b hvalid hb
  · exact .inr (h.storedBody hb)

theorem Preserves.worker {w : Worker} (h : Preserves Z H s t) (hw : w.Keeping Z H s) :
    w.Keeping Z H t := by
  cases w with
  | written it => exact h.storedBody hw
  | failing it => exact hw
  | idle => trivial
  | taken it => trivial
  | opened it => trivial
  | ending it => trivial

theorem Preserves.call {c : Call} (h : Preserves Z H s t) (hc : c.Keeping Z H s) : c.Keeping Z H t := by
  obtain ⟨c, pc⟩ := c
  intro hvalid
  cases pc with
  | stat => trivial
  | rename => trivial
  | sync =>
    rcases hc hvalid with hdir | hstored
    · exact h.dir _ hvalid hdir
    · exact .inr (h.storedBody hstored)
  | enqueue => exact h.heldBody hvalid (hc hvalid)

theorem mem_update_cons {f : Bytes → List α} (h : x ∈ update f b (a :: f b) b') :
    x = a ∧ b' = b ∨ x ∈ f b' := by
  rw [update_apply] at h
  split at h
  · next heq =>
    subst heq
    rcases mem_cons.mp h with rfl | h
    · exact .inl ⟨rfl, rfl⟩
    · exact .inr h
  · exact .inr h

theorem setEntry_current (h : ∀ b, s.dir b ∈ s.remains b) (b : Bytes) (e : Option Meta) :
    ∀ b', (s.setEntry b e).dir b' ∈ (s.setEntry b e).remains b' := by
  intro b'
  simp only [State.setEntry, update_apply]
  split
  · exact mem_cons_self
  · exact h b'

theorem setEntry_remains (h : x ∈ (s.setEntry b e).remains b') : x = e ∧ b' = b ∨ x ∈ s.remains b' :=
  mem_update_cons h

theorem Preserves.added (s : State) (b : Bytes) (m : Meta) :
    Preserves Z H s (s.setEntry b (some m)) := by
  refine ⟨fun _ h => h, fun b' _ h => .inl ?_, fun b' _ h => .inl fun hmem => ?_⟩
  · simp only [State.setEntry, update_apply]
    split
    · rfl
    · exact h
  · rcases setEntry_remains hmem with ⟨heq, -⟩ | hmem
    · cases heq
    · exact h hmem

/-- An entry may go once its objects are stored, or if it is not valid. -/
theorem Preserves.removed (h : Valid Z H b → Stored Z s b) : Preserves Z H s (s.setEntry b none) := by
  refine ⟨fun _ h => h, fun b' hvalid hdir => ?_, fun b' hvalid hremains => ?_⟩
  · by_cases heq : b' = b
    · subst heq
      exact .inr (h hvalid)
    · refine .inl ?_
      simpa only [State.setEntry, update_of_ne heq] using hdir
  · by_cases heq : b' = b
    · subst heq
      exact .inr (h hvalid)
    · refine .inl fun hmem => ?_
      rcases setEntry_remains hmem with ⟨-, hb⟩ | hmem
      · exact heq hb
      · exact hremains hmem

theorem Preserves.synced (h : ∀ b, s.dir b ∈ s.remains b) : Preserves Z H s s.syncDir := by
  refine ⟨fun _ h => h, fun _ _ h => .inl h, fun b _ hremains => .inl fun hmem => ?_⟩
  rw [mem_singleton.mp hmem] at hremains
  exact hremains (h b)

end Preserves

/-! ## Steps -/

/-- What a step of a call or of a worker does, but for the call or the worker itself. -/
structure Advance (Z : Zstd) (H : Blake3) (headerOk : Meta → Bool) (s t : State) : Prop where
  preserves : Preserves Z H s t
  current : ∀ b, t.dir b ∈ t.remains b
  headers : ∀ b m, some m ∈ t.remains b → (readRoot headerOk m).isSome
  acked : ∀ p ∈ t.acked, p ∈ s.acked ∨ (Valid Z H p.1 → Held Z t p.1)
  failed : ∀ b ∈ t.failed, b ∈ s.failed ∨ ¬Valid Z H b

section Steps
variable {Z : Zstd} {H : Blake3} {headerOk : Meta → Bool} {s t : State}

theorem Keeping.advance (h : Keeping Z H headerOk s) (ha : Advance Z H headerOk s t)
    (hworkers : ∀ w ∈ t.workers, w ∈ s.workers ∨ w.Keeping Z H t)
    (hcalls : ∀ c ∈ t.calls, c ∈ s.calls ∨ c.Keeping Z H t) : Keeping Z H headerOk t where
  current := ha.current
  headers := ha.headers
  workers := fun w hw => (hworkers w hw).elim (fun hold => ha.preserves.worker (h.workers w hold)) id
  calls := fun c hc => (hcalls c hc).elim (fun hold => ha.preserves.call (h.calls c hold)) id
  acked := fun p hp => (ha.acked p hp).elim
    (fun hold hvalid => ha.preserves.heldBody hvalid (h.acked p hold hvalid)) id
  failed := fun b hb => (ha.failed b hb).elim (h.failed b) id

/-- A step that changes neither the entries nor what is acknowledged or moved. -/
theorem Keeping.still (h : Keeping Z H headerOk s) (hstored : ∀ k ∈ s.stored, k ∈ t.stored)
    (hdir : t.dir = s.dir) (hremains : t.remains = s.remains) (hacked : t.acked = s.acked)
    (hfailed : t.failed = s.failed) : Advance Z H headerOk s t where
  preserves := .of_eq hstored hdir hremains
  current := by rw [hdir, hremains]; exact h.current
  headers := by rw [hremains]; exact h.headers
  acked := fun _ hp => .inl (hacked ▸ hp)
  failed := fun _ hb => .inl (hfailed ▸ hb)

theorem Keeping.quarantine (hs : Keeping Z H headerOk s) (hb : ¬Valid Z H b) :
    Advance Z H headerOk s (s.quarantine b) := by
  unfold State.quarantine
  split
  · have hremoved : Preserves Z H s (s.setEntry b none) := .removed fun hvalid => absurd hvalid hb
    refine ⟨⟨hremoved.stored, hremoved.dir, hremoved.held⟩, setEntry_current hs.current _ _,
      fun b' m hm => ?_, fun _ h => .inl h, fun b' hb' => ?_⟩
    · rcases setEntry_remains hm with ⟨heq, -⟩ | hm
      · cases heq
      · exact hs.headers b' m hm
    · rcases mem_append.mp hb' with hb' | hb'
      · exact .inl hb'
      · cases mem_singleton.mp hb'
        exact .inr hb
  · exact hs.still (fun _ h => h) rfl rfl rfl rfl

end Steps

/-- The hash of every content. -/
def zeroHash : Blake3 := fun _ => ⟨List.replicate 32 0, length_zeros⟩

end AmberStore.Inbox
