import AmberStore.Lib.System
import Mathlib.Data.List.Nodup

/-!
# Reclaiming what others may read

Resources stand in a pool. Processes read resources of the pool, under a lock they share, under the lock of
the writers, or pinned by a count. A writer takes resources out of the pool while no one shares the lock,
waits until the count is zero, and reclaims them. What is reclaimed is read by no one, then or later.
-/

namespace Reclaim
open Function
variable {ι R : Type}

/-- What a process holds. -/
structure Proc (R : Type) where
  /-- the lock of the writers -/
  writer : Bool
  /-- the pool's lock, shared -/
  shared : Bool
  /-- the pool's lock, exclusive -/
  exclusive : Bool
  /-- counted among the pins -/
  pinned : Bool
  /-- has seen the pool open, and holds a lock that keeps it open -/
  trusts : Bool
  /-- has seen the count at zero since it took its resources out -/
  drained : Bool
  reads : List R
  /-- resources of the pool that only this process could take out -/
  keeps : List R
  /-- resources taken out, to be reclaimed -/
  drops : List R

structure State (ι R : Type) where
  pool : List R
  closed : Bool
  count : Nat
  gone : List R
  /-- every resource there ever was -/
  known : List R
  procs : ι → Proc R

/-- The count is that of the pinned processes. -/
def Counts (procs : ι → Proc R) (count : Nat) : Prop :=
  ∃ l : List ι, l.Nodup ∧ (∀ i, i ∈ l ↔ (procs i).pinned = true) ∧ l.length = count

/-- The locks exclude each other, and a process that trusts the pool to be open holds one. -/
structure Locks (procs : ι → Proc R) (closed : Bool) : Prop where
  writer : ∀ i j, (procs i).writer = true → (procs j).writer = true → i = j
  exclusive : ∀ i j, (procs i).exclusive = true →
    (procs j).shared = false ∧ ((procs j).exclusive = true → i = j)
  trusts : ∀ i, (procs i).trusts = true → closed = false ∧ ((procs i).shared = true ∨ (procs i).writer = true)

structure Inv (s : State ι R) : Prop where
  locks : Locks s.procs s.closed
  reads : ∀ i, (s.procs i).reads ≠ [] → (s.procs i).trusts = true ∨ (s.procs i).pinned = true
  keeps : ∀ i, (s.procs i).keeps.Nodup ∧ ∀ r ∈ (s.procs i).keeps, r ∈ s.pool ∧ (s.procs i).writer = true
  counts : Counts s.procs s.count
  pool : s.pool.Nodup ∧ ∀ r ∈ s.pool, r ∉ s.gone ∧ ∀ i, r ∉ (s.procs i).drops
  drops : ∀ i, (s.procs i).drops.Nodup ∧ ∀ r ∈ (s.procs i).drops, r ∉ s.gone ∧
    ∀ j, r ∈ (s.procs j).drops → i = j
  gone : s.gone.Nodup
  unread : ∀ r ∈ s.gone, ∀ i, r ∉ (s.procs i).reads
  drained : ∀ i, (s.procs i).drained = true → ∀ r ∈ (s.procs i).drops, ∀ j, r ∉ (s.procs j).reads
  waits : ∀ i, ∀ r ∈ (s.procs i).drops, ∀ j, r ∈ (s.procs j).reads →
    (s.procs j).pinned = true ∧ (s.procs j).trusts = false
  known : ∀ r, (r ∈ s.pool ∨ r ∈ s.gone ∨ ∃ i, r ∈ (s.procs i).reads ∨ r ∈ (s.procs i).drops) → r ∈ s.known

/-! ## Steps -/

variable [DecidableEq ι]

/-- What a process holds after a step: it gets a lock only if the lock is free for it, and trusts that the pool
is open only if it has seen it open and holds a lock. -/
structure Takes (s : State ι R) (i : ι) (p : Proc R) : Prop where
  writer : p.writer = true → (s.procs i).writer = true ∨ ∀ j, (s.procs j).writer = false
  shared : p.shared = true → (s.procs i).shared = true ∨ ∀ j, (s.procs j).exclusive = false
  exclusive : p.exclusive = true → (s.procs i).exclusive = true ∨
    ∀ j, (s.procs j).shared = false ∧ (s.procs j).exclusive = false
  single : p.exclusive = true → p.shared = false
  trusts : p.trusts = true → ((s.procs i).trusts = true ∨ s.closed = false) ∧ (p.shared = true ∨ p.writer = true)

/-- What a process reads and keeps after a step that takes nothing out of the pool. -/
structure Reads (s : State ι R) (i : ι) (p : Proc R) : Prop where
  reads : ∀ r ∈ p.reads, r ∈ (s.procs i).reads ∧ (s.procs i).trusts = true ∨ r ∈ s.pool
  safe : p.reads ≠ [] → p.trusts = true ∨ p.pinned = true
  keeps : p.keeps.Nodup ∧ ∀ r ∈ p.keeps, (r ∈ (s.procs i).keeps ∨ r ∈ s.pool) ∧ p.writer = true
  drops : p.drops = (s.procs i).drops
  drained : p.drained = true → (s.procs i).drained = true

inductive Step (s : State ι R) : State ι R → Prop
  /-- a step of a process that may add resources to the pool -/
  | act : Takes s i p → Reads s i p → Counts (update s.procs i p) count →
    fresh.Nodup → (∀ r ∈ fresh, r ∉ s.known) →
    Step s { s with pool := s.pool ++ fresh, count, known := s.known ++ fresh, procs := update s.procs i p }
  /-- resources leave the pool -/
  | detach : Takes s i p → p.writer = true → p.exclusive = true → p.pinned = (s.procs i).pinned →
    p.reads = [] → p.keeps = [] → p.drained = false → p.drops.Nodup → (s.procs i).drops = [] →
    (∀ r ∈ p.drops, r ∈ s.pool ∧ r ∉ pool) → pool.Sublist s.pool →
    Step s { s with pool, procs := update s.procs i p }
  | drain : s.count = 0 → Step s { s with procs := update s.procs i { s.procs i with drained := true } }
  | reclaim : (s.procs i).drained = true → (s.procs i).drops = r :: l →
    Step s { s with gone := r :: s.gone, procs := update s.procs i { s.procs i with drops := l } }
  | close : Takes s i p → p.writer = true → p.exclusive = true → p.pinned = (s.procs i).pinned →
    p.trusts = false → p.reads = [] → p.keeps = [] → p.drops = (s.procs i).drops →
    (p.drained = true → (s.procs i).drained = true) →
    Step s { s with closed := true, procs := update s.procs i p }
  /-- a closed pool is taken out as a whole -/
  | seize : s.closed = true → s.count = 0 → (s.procs i).writer = true → (s.procs i).drops = [] →
    (s.procs i).keeps = [] →
    Step s { s with pool := [], procs := update s.procs i { s.procs i with drops := s.pool, drained := true } }

section Rules
variable {s : State ι R} {i : ι} {p q : Proc R}

theorem Step.plain {count : Nat} (ht : Takes s i p) (hr : Reads s i p)
    (hc : Counts (update s.procs i p) count) :
    Step s { s with count, procs := update s.procs i p } := by
  have hstep := Step.act ht hr hc List.nodup_nil nofun
  rw [List.append_nil, List.append_nil] at hstep
  exact hstep

omit [DecidableEq ι] in
theorem Takes.of (hq : s.procs i = q) (hw : p.writer = true → q.writer = true ∨ ∀ j, (s.procs j).writer = false)
    (hs : p.shared = true → q.shared = true ∨ ∀ j, (s.procs j).exclusive = false)
    (hx : p.exclusive = true → q.exclusive = true ∨ ∀ j, (s.procs j).shared = false ∧ (s.procs j).exclusive = false)
    (h1 : p.exclusive = true → p.shared = false)
    (ht : p.trusts = true → (q.trusts = true ∨ s.closed = false) ∧ (p.shared = true ∨ p.writer = true)) :
    Takes s i p := by
  subst hq
  exact ⟨hw, hs, hx, h1, ht⟩

omit [DecidableEq ι] in
theorem Takes.release (h : Inv s) (hq : s.procs i = q) (hw : p.writer = true → q.writer = true)
    (hs : p.shared = true → q.shared = true) (hx : p.exclusive = true → q.exclusive = true)
    (ht : p.trusts = true → q.trusts = true ∧ (p.shared = true ∨ p.writer = true)) : Takes s i p := by
  refine .of hq (fun hp => .inl (hw hp)) (fun hp => .inl (hs hp)) (fun hp => .inl (hx hp)) (fun hp => ?_)
    (fun hp => (ht hp).imp_left .inl)
  have hnot := (h.locks.exclusive i i (by rw [hq]; exact hx hp)).1
  rw [hq] at hnot
  rw [Bool.eq_false_iff]
  intro hshared
  rw [hs hshared] at hnot
  cases hnot

omit [DecidableEq ι] in
theorem Reads.of (hq : s.procs i = q) (hr : ∀ r ∈ p.reads, r ∈ q.reads ∧ q.trusts = true ∨ r ∈ s.pool)
    (hsafe : p.reads ≠ [] → p.trusts = true ∨ p.pinned = true)
    (hk : p.keeps.Nodup ∧ ∀ r ∈ p.keeps, (r ∈ q.keeps ∨ r ∈ s.pool) ∧ p.writer = true)
    (hd : p.drops = q.drops) (hdrained : p.drained = true → q.drained = true) : Reads s i p := by
  subst hq
  exact ⟨hr, hsafe, hk, hd, hdrained⟩

omit [DecidableEq ι] in
theorem Reads.none (hq : s.procs i = q) (hr : p.reads = []) (hk : p.keeps = []) (hd : p.drops = q.drops)
    (hdrained : p.drained = true → q.drained = true) : Reads s i p := by
  refine .of hq ?_ (fun hne => absurd hr hne) ?_ hd hdrained
  · rw [hr]
    exact nofun
  · rw [hk]
    exact ⟨List.nodup_nil, nofun⟩

end Rules

/-! ## The invariant -/

section Update
variable {procs : ι → Proc R} {i j : ι} {p : Proc R}

/-- A property of all processes, after one of them has changed. -/
theorem forall_update {P : ι → Proc R → Prop} (hi : P i p) (hother : ∀ j, j ≠ i → P j (procs j)) (j : ι) :
    P j (update procs i p j) := by
  by_cases hj : j = i
  · subst hj
    rw [update_self]
    exact hi
  · rw [update_of_ne hj]
    exact hother j hj

theorem unread_update (hi : r ∉ p.reads) (hother : ∀ j, r ∉ (procs j).reads) (j : ι) :
    r ∉ (update procs i p j).reads := by
  apply forall_update (P := fun _ q => r ∉ q.reads)
  · exact hi
  · exact fun j _ => hother j

theorem Counts.same {count : Nat} (h : Counts procs count) (hp : p.pinned = (procs i).pinned) :
    Counts (update procs i p) count := by
  obtain ⟨l, hnodup, hmem, hlen⟩ := h
  refine ⟨l, hnodup, fun j => ?_, hlen⟩
  rw [hmem]
  apply forall_update (P := fun j q => (procs j).pinned = true ↔ q.pinned = true)
  · rw [hp]
  · exact fun _ _ => .rfl

theorem Counts.pin {count : Nat} (h : Counts procs count) (hold : (procs i).pinned = false) (hp : p.pinned = true) :
    Counts (update procs i p) (count + 1) := by
  obtain ⟨l, hnodup, hmem, hlen⟩ := h
  have hi : i ∉ l := by
    rw [hmem, hold]
    nofun
  refine ⟨i :: l, List.nodup_cons.mpr ⟨hi, hnodup⟩, fun j => ?_, congrArg Nat.succ hlen⟩
  rw [List.mem_cons, hmem]
  apply forall_update (P := fun j q => j = i ∨ (procs j).pinned = true ↔ q.pinned = true)
  · exact ⟨fun _ => hp, fun _ => .inl rfl⟩
  · exact fun j hj => ⟨fun h => h.resolve_left hj, .inr⟩

theorem Counts.unpin {count : Nat} (h : Counts procs (count + 1)) (hold : (procs i).pinned = true)
    (hp : p.pinned = false) : Counts (update procs i p) count := by
  obtain ⟨l, hnodup, hmem, hlen⟩ := h
  have hi : i ∈ l := (hmem i).mpr hold
  refine ⟨l.erase i, hnodup.erase i, fun j => ?_, ?_⟩
  · rw [hnodup.mem_erase_iff, hmem]
    apply forall_update (P := fun j q => j ≠ i ∧ (procs j).pinned = true ↔ q.pinned = true)
    · rw [hp]
      exact ⟨fun h => absurd rfl h.1, nofun⟩
    · exact fun j hj => ⟨And.right, fun h => ⟨hj, h⟩⟩
  · rw [List.length_erase_of_mem hi, hlen]
    rfl

omit [DecidableEq ι] in
theorem Counts.zero (h : Counts procs 0) (i : ι) : (procs i).pinned = false := by
  obtain ⟨l, -, hmem, hlen⟩ := h
  rw [List.length_eq_zero_iff.mp hlen] at hmem
  rw [Bool.eq_false_iff]
  exact fun hi => nomatch (hmem i).mpr hi

end Update

section Inv
variable {s s' : State ι R} {i : ι} {p : Proc R}

theorem Takes.locks (ht : Takes s i p) (h : Locks s.procs s.closed) :
    Locks (update s.procs i p) s.closed := by
  -- what the lock gives to the process, seen by another one
  have hwriter : ∀ k, k ≠ i → p.writer = true → (s.procs k).writer = true → False := by
    intro k hk hp hw
    rcases ht.writer hp with hi | hfree
    · exact hk (h.writer k i hw hi)
    · rw [hfree k] at hw
      cases hw
  have hexclusive : ∀ k, k ≠ i → p.exclusive = true → (s.procs k).shared = false ∧ (s.procs k).exclusive = false := by
    intro k hk hp
    rcases ht.exclusive hp with hi | hfree
    · obtain ⟨hshared, heq⟩ := h.exclusive i k hi
      exact ⟨hshared, Bool.eq_false_iff.mpr fun hx => hk (heq hx).symm⟩
    · exact hfree k
  have hshared : ∀ k, k ≠ i → (s.procs k).exclusive = true → p.shared = false := by
    intro k hk hx
    rw [Bool.eq_false_iff]
    intro hp
    rcases ht.shared hp with hi | hfree
    · rw [(h.exclusive k i hx).1] at hi
      cases hi
    · rw [hfree k] at hx
      cases hx
  refine ⟨fun j k => ?_, fun j k => ?_, fun j => ?_⟩
  · by_cases hj : j = i
    · by_cases hk : k = i
      · exact fun _ _ => hj.trans hk.symm
      · subst hj
        rw [update_self, update_of_ne hk]
        exact fun hp hw => (hwriter k hk hp hw).elim
    · rw [update_of_ne hj]
      apply forall_update (P := fun k q => (s.procs j).writer = true → q.writer = true → j = k)
      · exact fun hw hp => (hwriter j hj hp hw).elim
      · exact fun k _ => h.writer j k
  · by_cases hj : j = i
    · subst hj
      rw [update_self]
      intro hp
      apply forall_update (P := fun k q => q.shared = false ∧ (q.exclusive = true → j = k))
      · exact ⟨ht.single hp, fun _ => rfl⟩
      · intro k hk
        refine ⟨(hexclusive k hk hp).1, fun hx => ?_⟩
        rw [(hexclusive k hk hp).2] at hx
        cases hx
    · rw [update_of_ne hj]
      intro hx
      apply forall_update (P := fun k q => q.shared = false ∧ (q.exclusive = true → j = k))
      · refine ⟨hshared j hj hx, fun hp => ?_⟩
        rw [(hexclusive j hj hp).2] at hx
        cases hx
      · exact fun k _ => h.exclusive j k hx
  · apply forall_update (P := fun _ q => q.trusts = true → s.closed = false ∧ (q.shared = true ∨ q.writer = true))
    · intro hp
      obtain ⟨hopen, hlock⟩ := ht.trusts hp
      exact ⟨hopen.elim (fun hi => (h.trusts i hi).1) id, hlock⟩
    · exact fun j _ => h.trusts j

/-- While a writer holds the pool's lock exclusively, no other process trusts it to be open or keeps any of it. -/
theorem Takes.alone (ht : Takes s i p) (h : Inv s) (hw : p.writer = true) (hx : p.exclusive = true) (k : ι)
    (hk : k ≠ i) : (s.procs k).trusts = false ∧ (s.procs k).keeps = [] := by
  have hlocks := ht.locks h.locks
  have hwriter : (s.procs k).writer = false := by
    rw [Bool.eq_false_iff]
    intro hwk
    have heq := hlocks.writer k i
    rw [update_of_ne hk, update_self] at heq
    exact hk (heq hwk hw)
  have hshared : (s.procs k).shared = false := by
    have heq := hlocks.exclusive i k
    rw [update_of_ne hk, update_self] at heq
    exact (heq hx).1
  refine ⟨Bool.eq_false_iff.mpr fun htrust => ?_, List.eq_nil_iff_forall_not_mem.mpr fun r hr => ?_⟩
  · rcases (h.locks.trusts k htrust).2 with hl | hl
    · rw [hshared] at hl
      cases hl
    · rw [hwriter] at hl
      cases hl
  · have hl := ((h.keeps k).2 r hr).2
    rw [hwriter] at hl
    cases hl

namespace Inv

theorem act {fresh : List R} {count : Nat} (h : Inv s) (ht : Takes s i p) (hr : Reads s i p)
    (hc : Counts (update s.procs i p) count) (hfresh : fresh.Nodup) (hnew : ∀ r ∈ fresh, r ∉ s.known) :
    Inv { s with
      pool := s.pool ++ fresh, count, known := s.known ++ fresh, procs := update s.procs i p } := by
  -- what the process reads now is on nobody's list
  have hpool : ∀ r ∈ p.reads, r ∉ s.gone ∧ ∀ k, r ∉ (s.procs k).drops := by
    intro r hrp
    rcases hr.reads r hrp with ⟨hold, htrust⟩ | hin
    · refine ⟨fun hg => h.unread r hg i hold, fun k hk => ?_⟩
      have := (h.waits k r hk i hold).2
      rw [htrust] at this
      cases this
    · exact h.pool.2 r hin
  have hdrops : ∀ j, (update s.procs i p j).drops = (s.procs j).drops := by
    apply forall_update (P := fun j q => q.drops = (s.procs j).drops)
    · exact hr.drops
    · exact fun _ _ => rfl
  exact {
    locks := ht.locks h.locks
    reads := by
      apply forall_update (P := fun _ q => q.reads ≠ [] → q.trusts = true ∨ q.pinned = true)
      · exact hr.safe
      · exact fun j _ => h.reads j
    keeps := by
      apply forall_update (P := fun _ q => q.keeps.Nodup ∧ ∀ r ∈ q.keeps, r ∈ s.pool ++ fresh ∧ q.writer = true)
      · refine ⟨hr.keeps.1, fun r hk => ?_⟩
        obtain ⟨hin, hw⟩ := hr.keeps.2 r hk
        exact ⟨List.mem_append_left _ (hin.elim (fun hi => ((h.keeps i).2 r hi).1) id), hw⟩
      · intro j _
        refine ⟨(h.keeps j).1, fun r hk => ?_⟩
        exact ⟨List.mem_append_left _ ((h.keeps j).2 r hk).1, ((h.keeps j).2 r hk).2⟩
    counts := hc
    pool := by
      have hout : ∀ r ∈ fresh, r ∉ s.gone ∧ ∀ k, r ∉ (s.procs k).drops := fun r hrf =>
        ⟨fun hg => hnew r hrf (h.known r (.inr (.inl hg))),
          fun k hk => hnew r hrf (h.known r (.inr (.inr ⟨k, .inr hk⟩)))⟩
      refine ⟨List.nodup_append'.mpr ⟨h.pool.1, hfresh, fun r hrp hrf => hnew r hrf (h.known r (.inl hrp))⟩, ?_⟩
      intro r hrp
      simp only [hdrops]
      rcases List.mem_append.mp hrp with hrp | hrp
      · exact h.pool.2 r hrp
      · exact hout r hrp
    drops := fun j => by
      simp only [hdrops]
      exact h.drops j
    gone := h.gone
    unread := fun r hg => unread_update (fun hrp => (hpool r hrp).1 hg) (h.unread r hg)
    drained := by
      apply forall_update (P := fun j q => q.drained = true → ∀ r ∈ q.drops, ∀ k, r ∉ (update s.procs i p k).reads)
      · intro hd r hrd
        rw [hr.drops] at hrd
        exact unread_update (fun hrp => (hpool r hrp).2 i hrd) (h.drained i (hr.drained hd) r hrd)
      · intro j _ hd r hrd
        exact unread_update (fun hrp => (hpool r hrp).2 j hrd) (h.drained j hd r hrd)
    waits := fun j r => by
      rw [hdrops]
      intro hrd
      apply forall_update (P := fun _ q => r ∈ q.reads → q.pinned = true ∧ q.trusts = false)
      · exact fun hrp => absurd hrd ((hpool r hrp).2 j)
      · exact fun k _ => h.waits j r hrd k
    known := fun r hin => by
      rcases hin with hin | hin | ⟨j, hin⟩
      · rcases List.mem_append.mp hin with hin | hin
        · exact List.mem_append_left _ (h.known r (.inl hin))
        · exact List.mem_append_right _ hin
      · exact List.mem_append_left _ (h.known r (.inr (.inl hin)))
      · rw [hdrops] at hin
        rcases hin with hin | hin
        · revert hin
          apply forall_update (P := fun _ q => r ∈ q.reads → r ∈ s.known ++ fresh)
          · intro hrp
            rcases hr.reads r hrp with ⟨hold, -⟩ | hin
            · exact List.mem_append_left _ (h.known r (.inr (.inr ⟨i, .inl hold⟩)))
            · exact List.mem_append_left _ (h.known r (.inl hin))
          · exact fun k _ hk => List.mem_append_left _ (h.known r (.inr (.inr ⟨k, .inl hk⟩)))
        · exact List.mem_append_left _ (h.known r (.inr (.inr ⟨j, .inr hin⟩))) }

/-- A process takes out other resources, or reclaims some. Who still reads what it has taken out is pinned. -/
theorem redrop {pool gone drops : List R} {drained : Bool} (h : Inv s) (hkeeps : ∀ j, ∀ r ∈ (s.procs j).keeps, r ∈ pool)
    (hpool : pool.Nodup ∧ ∀ r ∈ pool, r ∈ s.pool ∧ r ∉ gone ∧ r ∉ drops)
    (hdrops : drops.Nodup ∧ ∀ r ∈ drops, r ∉ gone ∧ (r ∈ s.pool ∨ r ∈ (s.procs i).drops))
    (hgone : gone.Nodup ∧ ∀ r ∈ gone, r ∈ s.gone ∨ r ∈ (s.procs i).drops)
    (hunread : ∀ r, r ∈ gone ∨ drained = true ∧ r ∈ drops → ∀ j, r ∉ (s.procs j).reads)
    (hwaits : ∀ r ∈ drops, ∀ j, r ∈ (s.procs j).reads → (s.procs j).pinned = true ∧ (s.procs j).trusts = false) :
    Inv { s with
      pool, gone, procs := update s.procs i { s.procs i with drops, drained } } := by
  -- all the rest is as it was
  have hsame : ∀ (j : ι) (P : Proc R → Prop), (∀ q l b, P q → P { q with drops := l, drained := b }) →
      P (s.procs j) → P (update s.procs i { s.procs i with drops, drained } j) := by
    intro j P hP
    apply forall_update (P := fun j q => P (s.procs j) → P q)
    · exact hP _ _ _
    · exact fun _ _ => id
  -- what the process has taken out is on no other list
  have hmine : ∀ r, r ∈ s.pool ∨ r ∈ (s.procs i).drops → ∀ k, k ≠ i → r ∉ (s.procs k).drops := by
    rintro r (hr | hr) k hk hrk
    · exact (h.pool.2 r hr).2 k hrk
    · exact hk (((h.drops i).2 r hr).2 k hrk).symm
  have hreads : ∀ j r, r ∉ (s.procs j).reads →
      r ∉ (update s.procs i { s.procs i with drops, drained } j).reads :=
    fun j r => hsame j (fun q => r ∉ q.reads) fun _ _ _ hq => hq
  have htakes : Takes s i { s.procs i with drops, drained } :=
    ⟨.inl, .inl, .inl, fun hx => (h.locks.exclusive i i hx).1, fun ht => ⟨.inl ht, (h.locks.trusts i ht).2⟩⟩
  exact {
    locks := htakes.locks h.locks
    reads := fun j => hsame j (fun q => q.reads ≠ [] → q.trusts = true ∨ q.pinned = true) (fun _ _ _ hq => hq) (h.reads j)
    keeps := fun j => hsame j (fun q => q.keeps.Nodup ∧ ∀ r ∈ q.keeps, r ∈ pool ∧ q.writer = true) (fun _ _ _ hq => hq)
      ⟨(h.keeps j).1, fun r hr => ⟨hkeeps j r hr, ((h.keeps j).2 r hr).2⟩⟩
    counts := h.counts.same rfl
    pool := by
      refine ⟨hpool.1, fun r hr => ⟨(hpool.2 r hr).2.1, ?_⟩⟩
      apply forall_update (P := fun _ q => r ∉ q.drops)
      · exact (hpool.2 r hr).2.2
      · exact fun k _ => (h.pool.2 r (hpool.2 r hr).1).2 k
    drops := by
      apply forall_update (P := fun j q => q.drops.Nodup ∧ ∀ r ∈ q.drops, r ∉ gone ∧
        ∀ k, r ∈ (update s.procs i { s.procs i with drops, drained } k).drops → j = k)
      · refine ⟨hdrops.1, fun r hr => ⟨(hdrops.2 r hr).1, ?_⟩⟩
        apply forall_update (P := fun k q => r ∈ q.drops → i = k)
        · exact fun _ => rfl
        · exact fun k hk hrk => absurd hrk (hmine r (hdrops.2 r hr).2 k hk)
      · intro j hj
        refine ⟨(h.drops j).1, fun r hr => ⟨fun hg => ?_, ?_⟩⟩
        · rcases hgone.2 r hg with hg | hg
          · exact ((h.drops j).2 r hr).1 hg
          · exact hmine r (.inr hg) j hj hr
        · apply forall_update (P := fun k q => r ∈ q.drops → j = k)
          · exact fun hri => absurd hr (hmine r (hdrops.2 r hri).2 j hj)
          · exact fun k _ => ((h.drops j).2 r hr).2 k
    gone := hgone.1
    unread := fun r hr j => hreads j r (hunread r (.inl hr) j)
    drained := by
      apply forall_update (P := fun j q => q.drained = true → ∀ r ∈ q.drops, ∀ k,
        r ∉ (update s.procs i { s.procs i with drops, drained } k).reads)
      · exact fun hd r hr k => hreads k r (hunread r (.inr ⟨hd, hr⟩) k)
      · exact fun j _ hd r hr k => hreads k r (h.drained j hd r hr k)
    waits := fun j r hr k => by
      apply hsame k (fun q => r ∈ q.reads → q.pinned = true ∧ q.trusts = false) fun _ _ _ hq => hq
      revert hr
      apply forall_update (P := fun _ q => r ∈ q.drops → r ∈ (s.procs k).reads →
        (s.procs k).pinned = true ∧ (s.procs k).trusts = false)
      · exact fun hr => hwaits r hr k
      · exact fun j _ hr => h.waits j r hr k
    known := fun r hin => by
      rcases hin with hin | hin | ⟨j, hin⟩
      · exact h.known r (.inl (hpool.2 r hin).1)
      · rcases hgone.2 r hin with hg | hg
        · exact h.known r (.inr (.inl hg))
        · exact h.known r (.inr (.inr ⟨i, .inr hg⟩))
      · revert hin
        apply forall_update (P := fun _ q => r ∈ q.reads ∨ r ∈ q.drops → r ∈ s.known)
        · rintro (hr | hr)
          · exact h.known r (.inr (.inr ⟨i, .inl hr⟩))
          · rcases (hdrops.2 r hr).2 with hp | hd
            · exact h.known r (.inl hp)
            · exact h.known r (.inr (.inr ⟨i, .inr hd⟩))
        · exact fun k _ hk => h.known r (.inr (.inr ⟨k, hk⟩)) }

theorem detach {pool : List R} (h : Inv s) (ht : Takes s i p) (hw : p.writer = true) (hx : p.exclusive = true)
    (hpin : p.pinned = (s.procs i).pinned) (hreads : p.reads = []) (hkeeps : p.keeps = []) (hdrained : p.drained = false)
    (hnodup : p.drops.Nodup) (hdrops : ∀ r ∈ p.drops, r ∈ s.pool ∧ r ∉ pool) (hsub : pool.Sublist s.pool) :
    Inv { s with pool, procs := update s.procs i p } := by
  -- it gets its locks first, and takes the resources out then
  let q : Proc R := { p with drops := (s.procs i).drops, drained := false }
  have ht' : Takes s i q := ⟨ht.writer, ht.shared, ht.exclusive, ht.single, ht.trusts⟩
  have hr : Reads s i q := .none rfl hreads hkeeps rfl nofun
  have hact := h.act ht' hr (h.counts.same hpin) List.nodup_nil nofun
  rw [List.append_nil, List.append_nil] at hact
  have htwice : update s.procs i p =
      update (update s.procs i q) i { update s.procs i q i with drops := p.drops, drained := false } := by
    rw [update_idem, update_self, ← hdrained]
  rw [htwice]
  refine hact.redrop ?_
    ⟨hsub.nodup h.pool.1, fun r hr => ⟨hsub.subset hr, (h.pool.2 r (hsub.subset hr)).1, fun hd => (hdrops r hd).2 hr⟩⟩
    ⟨hnodup, fun r hr => ⟨(h.pool.2 r (hdrops r hr).1).1, .inl (hdrops r hr).1⟩⟩ ⟨h.gone, fun _ => .inl⟩ ?_ ?_
  · intro j
    apply forall_update (P := fun _ q => ∀ r ∈ q.keeps, r ∈ pool)
    · rw [hkeeps]
      exact nofun
    · intro k hk
      rw [(ht.alone h hw hx k hk).2]
      exact nofun
  · rintro r (hg | ⟨hd, -⟩)
    · exact hact.unread r hg
    · cases hd
  · intro r _ j
    apply forall_update (P := fun _ q => r ∈ q.reads → q.pinned = true ∧ q.trusts = false)
    · rw [hreads]
      exact nofun
    · -- a reader that is left is pinned: no one shares the lock, and there is one writer
      intro k hk hr
      have htrust := (ht.alone h hw hx k hk).1
      refine ⟨(h.reads k (List.ne_nil_of_mem hr)).resolve_left fun hx => ?_, htrust⟩
      rw [htrust] at hx
      cases hx

/-- With the count at zero, what was taken out is read by no one. -/
theorem drain (h : Inv s) (hcount : s.count = 0) :
    Inv { s with procs := update s.procs i { s.procs i with drained := true } } := by
  refine h.redrop (fun j r hr => ((h.keeps j).2 r hr).1) ⟨h.pool.1, fun r hr => ⟨hr, (h.pool.2 r hr).1, (h.pool.2 r hr).2 i⟩⟩
    ⟨(h.drops i).1, fun r hr => ⟨((h.drops i).2 r hr).1, .inr hr⟩⟩ ⟨h.gone, fun _ => .inl⟩ ?_
    (h.waits i)
  rintro r (hr | ⟨-, hr⟩) j hrj
  · exact h.unread r hr j hrj
  · have hpin := (h.waits i r hr j hrj).1
    have hcounts := h.counts
    rw [hcount] at hcounts
    rw [hcounts.zero j] at hpin
    cases hpin

theorem reclaim (h : Inv s) (hdrained : (s.procs i).drained = true) (hdrops : (s.procs i).drops = r :: l) :
    Inv { s with
      gone := r :: s.gone, procs := update s.procs i { s.procs i with drops := l } } := by
  obtain ⟨hnodup, hdisjoint⟩ := h.drops i
  rw [hdrops] at hnodup
  obtain ⟨hrl, hl⟩ := List.nodup_cons.mp hnodup
  have hr : r ∈ (s.procs i).drops := by rw [hdrops]; exact List.mem_cons_self
  have hsub : ∀ x ∈ l, x ∈ (s.procs i).drops := fun x hx => by rw [hdrops]; exact List.mem_cons_of_mem _ hx
  have hnotgone : ∀ x ∈ l, x ∉ r :: s.gone := by
    intro x hx hxg
    rcases List.mem_cons.mp hxg with rfl | hxg
    · exact hrl hx
    · exact (hdisjoint x (hsub x hx)).1 hxg
  have hproc : { s.procs i with drops := l } = { s.procs i with drops := l, drained := true } := by rw [← hdrained]
  rw [hproc]
  refine h.redrop (fun j x hx => ((h.keeps j).2 x hx).1) ⟨h.pool.1, fun x hx => ⟨hx, ?_, fun hxl => ?_⟩⟩
    ⟨hl, fun x hx => ⟨hnotgone x hx, .inr (hsub x hx)⟩⟩ ⟨List.nodup_cons.mpr ⟨(hdisjoint r hr).1, h.gone⟩, ?_⟩ ?_
    fun x hx => h.waits i x (hsub x hx)
  · intro hxg
    rcases List.mem_cons.mp hxg with rfl | hxg
    · exact (h.pool.2 x hx).2 i hr
    · exact (h.pool.2 x hx).1 hxg
  · exact (h.pool.2 x hx).2 i (hsub x hxl)
  · intro x hx
    rcases List.mem_cons.mp hx with rfl | hx
    · exact .inr hr
    · exact .inl hx
  · rintro x (hx | ⟨-, hx⟩)
    · rcases List.mem_cons.mp hx with rfl | hx
      · exact h.drained i hdrained x hr
      · exact h.unread x hx
    · exact h.drained i hdrained x (hsub x hx)

theorem seize (h : Inv s) (hclosed : s.closed = true) (hcount : s.count = 0) (hw : (s.procs i).writer = true)
    (hdrops : (s.procs i).drops = []) (hkeeps : (s.procs i).keeps = []) :
    Inv { s with
      pool := [], procs := update s.procs i { s.procs i with drops := s.pool, drained := true } } := by
  -- the readers trust the pool to be open, or are pinned: there are none
  have hnone : ∀ j, (s.procs j).reads = [] := by
    intro j
    by_contra hne
    rcases h.reads j hne with htrust | hpin
    · have hopen := (h.locks.trusts j htrust).1
      rw [hclosed] at hopen
      cases hopen
    · have hcounts := h.counts
      rw [hcount] at hcounts
      rw [hcounts.zero j] at hpin
      cases hpin
  refine h.redrop (fun j r hr => ?_) ⟨List.nodup_nil, nofun⟩ ⟨h.pool.1, fun r hr => ⟨(h.pool.2 r hr).1, .inl hr⟩⟩
    ⟨h.gone, fun _ => .inl⟩ (fun r _ j hrj => ?_) fun r _ j hrj => ?_
  · obtain rfl := h.locks.writer j i ((h.keeps j).2 r hr).2 hw
    rw [hkeeps] at hr
    exact hr
  all_goals
    rw [hnone j] at hrj
    cases hrj

omit [DecidableEq ι] in
/-- Closing the pool, when no process trusts it to be open. -/
theorem shut (h : Inv s) (hnone : ∀ j, (s.procs j).trusts = false) : Inv { s with closed := true } := by
  have hlocks : Locks s.procs true := by
    refine ⟨h.locks.writer, h.locks.exclusive, fun j htrust => ?_⟩
    rw [hnone j] at htrust
    cases htrust
  exact ⟨hlocks, h.reads, h.keeps, h.counts, h.pool, h.drops, h.gone, h.unread, h.drained, h.waits, h.known⟩

theorem close (h : Inv s) (ht : Takes s i p) (hw : p.writer = true) (hx : p.exclusive = true)
    (hpin : p.pinned = (s.procs i).pinned) (htrusts : p.trusts = false) (hreads : p.reads = []) (hkeeps : p.keeps = [])
    (hdrops : p.drops = (s.procs i).drops) (hdrained : p.drained = true → (s.procs i).drained = true) :
    Inv { s with closed := true, procs := update s.procs i p } := by
  have hact := h.act ht ⟨by rw [hreads]; exact nofun, fun hne => absurd hreads hne,
    by rw [hkeeps]; exact ⟨List.nodup_nil, nofun⟩, hdrops, hdrained⟩ (h.counts.same hpin) List.nodup_nil nofun
  rw [List.append_nil, List.append_nil] at hact
  apply hact.shut
  apply forall_update (P := fun _ q => q.trusts = false)
  · exact htrusts
  · exact fun k hk => (ht.alone h hw hx k hk).1

theorem step (h : Inv s) (hs : Step s s') : Inv s' := by
  cases hs with
  | act ht hr hc hfresh hnew => exact h.act ht hr hc hfresh hnew
  | detach ht hw hx hpin hreads hkeeps hdrained hnodup _ hdrops hsub =>
    exact h.detach ht hw hx hpin hreads hkeeps hdrained hnodup hdrops hsub
  | drain hcount => exact h.drain hcount
  | reclaim hdrained hdrops => exact h.reclaim hdrained hdrops
  | close ht hw hx hpin htrusts hreads hkeeps hdrops hdrained =>
    exact h.close ht hw hx hpin htrusts hreads hkeeps hdrops hdrained
  | seize hclosed hcount hw hdrops hkeeps => exact h.seize hclosed hcount hw hdrops hkeeps

end Inv
end Inv

end Reclaim
