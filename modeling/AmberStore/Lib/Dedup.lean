import AmberStore.Lib.System
import Mathlib.Data.List.Dedup
import Mathlib.Data.Multiset.UnionInter

/-!
# Writing the keys of a stream once

Workers take the items of a stream in any order. A worker claims the key of its item in a shared set and
gives up on a key that was claimed; for a key it has claimed it looks whether the store holds it, and writes
the item if not. However the steps interleave, every key that was absent is written once.
-/

namespace Dedup
open List
variable {α κ : Type}

/-- How far an item has come. -/
inductive Stage where
  | pending
  | claimed
  | absent
  | written
  deriving DecidableEq

/-- The items on their way, the keys claimed, the items written (the last one first), and the counts. -/
@[ext] structure State (α κ : Type) where
  items : Multiset (Stage × α)
  seen : List κ
  log : List α
  stored : Nat
  skipped : Nat

/-- The key is claimed and not written. -/
def Stage.Works : Stage → Prop
  | .claimed | .absent => True
  | .pending | .written => False

instance : DecidablePred Stage.Works
  | .claimed | .absent => .isTrue trivial
  | .pending | .written => .isFalse id

/-- The keys that workers have claimed and not written. -/
def working (key : α → κ) (I : Multiset (Stage × α)) : Multiset κ :=
  (I.filter fun p => p.1.Works).map fun p => key p.2

theorem working_cons_pos (key : α → κ) (h : st.Works) (o : α) (I : Multiset (Stage × α)) :
    working key ((st, o) ::ₘ I) = key o ::ₘ working key I := by
  have hfilter := Multiset.filter_cons_of_pos (p := fun p : Stage × α => p.1.Works) (a := (st, o)) I h
  rw [working, hfilter, Multiset.map_cons]
  rfl

theorem working_cons_neg (key : α → κ) (h : ¬st.Works) (o : α) (I : Multiset (Stage × α)) :
    working key ((st, o) ::ₘ I) = working key I := by
  have hfilter := Multiset.filter_cons_of_neg (p := fun p : Stage × α => p.1.Works) (a := (st, o)) I h
  rw [working, hfilter]
  rfl

@[simp] theorem working_pending (key : α → κ) (o : α) (I : Multiset (Stage × α)) :
    working key ((.pending, o) ::ₘ I) = working key I := working_cons_neg key id o I

@[simp] theorem working_claimed (key : α → κ) (o : α) (I : Multiset (Stage × α)) :
    working key ((.claimed, o) ::ₘ I) = key o ::ₘ working key I := working_cons_pos key (by exact trivial) o I

@[simp] theorem working_absent (key : α → κ) (o : α) (I : Multiset (Stage × α)) :
    working key ((.absent, o) ::ₘ I) = key o ::ₘ working key I := working_cons_pos key (by exact trivial) o I

@[simp] theorem working_written (key : α → κ) (o : α) (I : Multiset (Stage × α)) :
    working key ((.written, o) ::ₘ I) = working key I := working_cons_neg key id o I

theorem countP_written (o : α) (I : Multiset (Stage × α)) :
    ((Stage.written, o) ::ₘ I).countP (fun p => p.1 = .written) = I.countP (fun p => p.1 = .written) + 1 :=
  Multiset.countP_cons_of_pos _ (by exact rfl)

/-- The invariant of the protocol, for a stream. -/
structure Inv (key : α → κ) (old : κ → Prop) (stream : List α) (s : State α κ) : Prop where
  total : s.items.card + s.stored + s.skipped = stream.length
  items : ∀ p ∈ s.items, p.2 ∈ stream
  log : ∀ o ∈ s.log, o ∈ stream ∧ ¬old (key o) ∧ key o ∈ s.seen
  once : (s.log.map key).Nodup
  cover : ∀ o ∈ stream, (.pending, o) ∈ s.items ∨ key o ∈ s.seen
  seen : ∀ k ∈ s.seen, k ∈ working key s.items ∨ old k ∨ k ∈ s.log.map key
  claimed : ∀ k ∈ working key s.items, k ∈ s.seen ∧ k ∉ s.log.map key
  distinct : (working key s.items).Nodup
  absent : ∀ o, (.absent, o) ∈ s.items → ¬old (key o)
  stored : s.stored + s.items.countP (fun p => p.1 = .written) = s.log.length

namespace Inv
variable {key : α → κ} {old : κ → Prop} {stream : List α} {s s' : State α κ}

theorem start (key : α → κ) (old : κ → Prop) (stream : List α) :
    Inv key old stream ⟨(stream : Multiset α).map (Stage.pending, ·), [], [], 0, 0⟩ := by
  have hpending : ∀ p ∈ (stream : Multiset α).map (Stage.pending, ·), p.1 = .pending ∧ p.2 ∈ stream := by
    intro p hp
    obtain ⟨o, ho, rfl⟩ := Multiset.mem_map.mp hp
    exact ⟨rfl, ho⟩
  have hworking : working key ((stream : Multiset α).map (Stage.pending, ·)) = 0 := by
    rw [working, Multiset.filter_eq_nil.mpr, Multiset.map_zero]
    intro p hp hw
    rw [(hpending p hp).1] at hw
    exact hw
  have hwritten : ((stream : Multiset α).map (Stage.pending, ·)).countP (fun p => p.1 = .written) = 0 := by
    rw [Multiset.countP_eq_zero]
    intro p hp hw
    rw [(hpending p hp).1] at hw
    cases hw
  exact {
    total := by rw [Multiset.card_map]; rfl
    items := fun p hp => (hpending p hp).2
    log := nofun
    once := nodup_nil
    cover := fun o ho => .inl (Multiset.mem_map.mpr ⟨o, Multiset.mem_coe.mpr ho, rfl⟩)
    seen := nofun
    claimed := fun k hk => by
      rw [hworking] at hk
      exact absurd hk (Multiset.notMem_zero k)
    distinct := by rw [hworking]; exact Multiset.nodup_zero
    absent := fun o ho => nomatch (hpending _ ho).1
    stored := by rw [hwritten]; rfl }

theorem congr (h : Inv key old stream s) (hi : s.items = I) :
    Inv key old stream ⟨I, s.seen, s.log, s.stored, s.skipped⟩ := by
  subst hi
  exact h

section Moves
variable {o : α} {I J : Multiset (Stage × α)} {seen seen' : List κ} {log : List α} {m n : Nat}

theorem items_moved (h : ∀ p ∈ (st, o) ::ₘ I, p.2 ∈ stream) (st' : Stage) : ∀ p ∈ (st', o) ::ₘ I, p.2 ∈ stream := by
  intro p hp
  rcases Multiset.mem_cons.mp hp with rfl | hp
  · exact h (st, o) (Multiset.mem_cons_self ..)
  · exact h p (Multiset.mem_cons_of_mem hp)

/-- An item that is no longer pending has its key claimed. -/
theorem cover_moved (h : ∀ x ∈ stream, (.pending, x) ∈ (st, o) ::ₘ I ∨ key x ∈ seen) (ho : st = .pending → key o ∈ seen')
    (hseen : seen ⊆ seen') (hI : I ⊆ J) : ∀ x ∈ stream, (.pending, x) ∈ J ∨ key x ∈ seen' := by
  intro x hx
  rcases h x hx with hp | hk
  · rcases Multiset.mem_cons.mp hp with heq | hp
    · cases heq
      exact .inr (ho rfl)
    · exact .inl (hI hp)
  · exact .inr (hseen hk)

theorem absent_moved (h : ∀ x, (.absent, x) ∈ (st, o) ::ₘ I → ¬old (key x)) (ho : st' = .absent → ¬old (key o)) :
    ∀ x, (.absent, x) ∈ (st', o) ::ₘ I → ¬old (key x) := by
  intro x hx
  rcases Multiset.mem_cons.mp hx with heq | hx
  · cases heq
    exact ho rfl
  · exact h x (Multiset.mem_cons_of_mem hx)

theorem subset_moved (p : Stage × α) : I ⊆ p ::ₘ I := Multiset.subset_cons I p

/-- An item leaves: its key is claimed, and what its worker had claimed is in the store. -/
theorem leave {m' n' : Nat} (h : Inv key old stream ⟨(st, o) ::ₘ I, seen, log, m, n⟩)
    (hpending : st = .pending → key o ∈ seen) (hworks : st.Works → old (key o) ∨ key o ∈ log.map key)
    (hm : m' = m + if st = .written then 1 else 0) (hn : m' + n' = m + n + 1) :
    Inv key old stream ⟨I, seen, log, m', n'⟩ := by
  obtain ⟨htotal, hitems, hlog, honce, hcover, hseen, hclaimed, hdistinct, habsent, hstored⟩ := h
  dsimp only at *
  have hle : working key I ≤ working key ((st, o) ::ₘ I) :=
    Multiset.map_le_map (Multiset.filter_le_filter _ (Multiset.le_cons_self I _))
  exact {
    total := by rw [Multiset.card_cons] at htotal; dsimp only; omega
    items := fun p hp => hitems p (Multiset.mem_cons_of_mem hp)
    log := hlog
    once := honce
    cover := cover_moved hcover hpending (List.Subset.refl _) (Multiset.Subset.refl _)
    seen := fun k hk => by
      rcases hseen k hk with hw | hk
      · by_cases hst : st.Works
        · rw [working_cons_pos key hst] at hw
          rcases Multiset.mem_cons.mp hw with rfl | hw
          · exact .inr (hworks hst)
          · exact .inl hw
        · rw [working_cons_neg key hst] at hw
          exact .inl hw
      · exact .inr hk
    claimed := fun k hk => hclaimed k (Multiset.mem_of_le hle hk)
    distinct := Multiset.nodup_of_le hle hdistinct
    absent := fun x hx => habsent x (Multiset.mem_cons_of_mem hx)
    stored := by
      rw [Multiset.countP_cons] at hstored
      dsimp only at hstored ⊢
      omega }

theorem dup (h : Inv key old stream ⟨(.pending, o) ::ₘ I, seen, log, m, n⟩) (hseen : key o ∈ seen) :
    Inv key old stream ⟨I, seen, log, m, n + 1⟩ :=
  h.leave (fun _ => hseen) False.elim rfl rfl

theorem claim (h : Inv key old stream ⟨(.pending, o) ::ₘ I, seen, log, m, n⟩) (hseen : key o ∉ seen) :
    Inv key old stream ⟨(.claimed, o) ::ₘ I, key o :: seen, log, m, n⟩ := by
  obtain ⟨htotal, hitems, hlog, honce, hcover, hseen', hclaimed, hdistinct, habsent, hstored⟩ := h
  dsimp only at *
  rw [working_pending] at hseen' hclaimed hdistinct
  have hunlogged : key o ∉ log.map key := by
    intro hk
    obtain ⟨x, hx, hxk⟩ := mem_map.mp hk
    exact hseen (hxk ▸ (hlog x hx).2.2)
  exact {
    total := by rw [Multiset.card_cons] at htotal ⊢; exact htotal
    items := items_moved hitems .claimed
    log := fun x hx => ⟨(hlog x hx).1, (hlog x hx).2.1, mem_cons_of_mem _ (hlog x hx).2.2⟩
    once := honce
    cover := cover_moved hcover (fun _ => mem_cons_self ..) (subset_cons_self ..) (subset_moved _)
    seen := fun k hk => by
      rw [working_claimed]
      rcases mem_cons.mp hk with rfl | hk
      · exact .inl (Multiset.mem_cons_self ..)
      · exact (hseen' k hk).imp_left Multiset.mem_cons_of_mem
    claimed := fun k hk => by
      rw [working_claimed] at hk
      rcases Multiset.mem_cons.mp hk with rfl | hk
      · exact ⟨mem_cons_self .., hunlogged⟩
      · exact ⟨mem_cons_of_mem _ (hclaimed k hk).1, (hclaimed k hk).2⟩
    distinct := by
      rw [working_claimed]
      exact Multiset.nodup_cons.mpr ⟨fun hk => hseen (hclaimed _ hk).1, hdistinct⟩
    absent := absent_moved habsent nofun
    stored := by
      rw [Multiset.countP_cons_of_neg _ nofun] at hstored ⊢
      exact hstored }

theorem hit (h : Inv key old stream ⟨(.claimed, o) ::ₘ I, seen, log, m, n⟩) (hold : old (key o) ∨ key o ∈ log.map key) :
    Inv key old stream ⟨I, seen, log, m, n + 1⟩ :=
  h.leave nofun (fun _ => hold) rfl rfl

theorem miss (h : Inv key old stream ⟨(.claimed, o) ::ₘ I, seen, log, m, n⟩) (hnew : ¬old (key o)) :
    Inv key old stream ⟨(.absent, o) ::ₘ I, seen, log, m, n⟩ := by
  obtain ⟨htotal, hitems, hlog, honce, hcover, hseen, hclaimed, hdistinct, habsent, hstored⟩ := h
  dsimp only at *
  have hworking : working key ((Stage.absent, o) ::ₘ I) = working key ((Stage.claimed, o) ::ₘ I) := by
    rw [working_absent, working_claimed]
  rw [← hworking] at hseen hclaimed hdistinct
  exact {
    total := by rw [Multiset.card_cons] at htotal ⊢; exact htotal
    items := items_moved hitems .absent
    log := hlog
    once := honce
    cover := cover_moved hcover nofun (List.Subset.refl _) (subset_moved _)
    seen := hseen
    claimed := hclaimed
    distinct := hdistinct
    absent := absent_moved habsent fun _ => hnew
    stored := by
      rw [Multiset.countP_cons_of_neg _ nofun] at hstored ⊢
      exact hstored }

theorem write (h : Inv key old stream ⟨(.absent, o) ::ₘ I, seen, log, m, n⟩) :
    Inv key old stream ⟨(.written, o) ::ₘ I, seen, o :: log, m, n⟩ := by
  obtain ⟨htotal, hitems, hlog, honce, hcover, hseen, hclaimed, hdistinct, habsent, hstored⟩ := h
  dsimp only at *
  rw [working_absent] at hseen hclaimed hdistinct
  obtain ⟨hkseen, hkunlogged⟩ := hclaimed (key o) (Multiset.mem_cons_self ..)
  exact {
    total := by rw [Multiset.card_cons] at htotal ⊢; exact htotal
    items := items_moved hitems .written
    log := fun x hx => by
      rcases mem_cons.mp hx with rfl | hx
      · exact ⟨hitems (.absent, x) (Multiset.mem_cons_self ..), habsent x (Multiset.mem_cons_self ..), hkseen⟩
      · exact hlog x hx
    once := nodup_cons.mpr ⟨hkunlogged, honce⟩
    cover := cover_moved hcover nofun (List.Subset.refl _) (subset_moved _)
    seen := fun k hk => by
      rw [working_written]
      rcases hseen k hk with hw | hold | hk
      · rcases Multiset.mem_cons.mp hw with rfl | hw
        · exact .inr (.inr (mem_cons_self ..))
        · exact .inl hw
      · exact .inr (.inl hold)
      · exact .inr (.inr (mem_cons_of_mem _ hk))
    claimed := fun k hk => by
      rw [working_written] at hk
      obtain ⟨hks, hkl⟩ := hclaimed k (Multiset.mem_cons_of_mem hk)
      refine ⟨hks, fun hmem => ?_⟩
      -- another worker at this key would have claimed it twice
      rcases mem_cons.mp hmem with rfl | hmem
      · exact (Multiset.nodup_cons.mp hdistinct).1 hk
      · exact hkl hmem
    distinct := by
      rw [working_written]
      exact (Multiset.nodup_cons.mp hdistinct).2
    absent := absent_moved habsent nofun
    stored := by
      rw [Multiset.countP_cons_of_neg _ nofun] at hstored
      rw [countP_written, ← Nat.add_assoc, hstored]
      rfl }

theorem finish (h : Inv key old stream ⟨(.written, o) ::ₘ I, seen, log, m, n⟩) :
    Inv key old stream ⟨I, seen, log, m + 1, n⟩ :=
  h.leave nofun False.elim rfl (Nat.add_right_comm m 1 n)

end Moves

/-- Once no item is on its way, every key of the stream that was absent has been written, once. -/
theorem done (h : Inv key old stream s) (hi : s.items = 0) :
    s.stored = s.log.length ∧ s.stored + s.skipped = stream.length ∧
      ∀ k, k ∈ s.log.map key ↔ k ∈ stream.map key ∧ ¬old k := by
  obtain ⟨items, seen, log, stored, skipped⟩ := s
  subst hi
  have htotal := h.total
  rw [Multiset.card_zero, Nat.zero_add] at htotal
  refine ⟨h.stored, htotal, fun k => ⟨fun hk => ?_, fun ⟨hk, hnew⟩ => ?_⟩⟩
  · obtain ⟨o, ho, rfl⟩ := mem_map.mp hk
    exact ⟨mem_map_of_mem (h.log o ho).1, (h.log o ho).2.1⟩
  · obtain ⟨o, ho, rfl⟩ := mem_map.mp hk
    have hseen := (h.cover o ho).resolve_left (Multiset.notMem_zero _)
    rcases h.seen _ hseen with hw | hold | hlog
    · exact absurd hw (Multiset.notMem_zero _)
    · exact absurd hold hnew
    · exact hlog

end Inv
end Dedup
