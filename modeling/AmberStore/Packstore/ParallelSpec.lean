import AmberStore.Lib.Dedup
import AmberStore.Packstore.CallersSystem
import AmberStore.Packstore.Overfull
import AmberStore.Packstore.Parallel
import AmberStore.Packstore.Verify

/-!
# What WriteParallel does, whatever the interleaving

The writers of one call follow the protocol of `Dedup`: `seen` is the set of claimed keys and `Has` looks
whether the store holds one. While no file operation fails, every run returns nil with the same store.
-/

namespace AmberStore.Packstore
open Bytes Amberpack Act WriteOnce List

variable {Z : Zstd} {F : FuseLib} {m : PayloadMap} {w w' : World} {G : Written} {o : Object}

/-! ## The map of what was appended -/

/-- A map with the objects of a log, the last one first. -/
def appended (m : PayloadMap) (log : List Object) : PayloadMap := log.foldr (fun o m => add m o.key o.data) m

theorem appended_of_some (h : m k = some d) (log : List Object) : appended m log k = some d := by
  induction log with
  | nil => exact h
  | cons o log ih => exact add_mono ih o.key o.data

theorem appended_isSome (m : PayloadMap) (log : List Object) (k : Key) :
    (appended m log k).isSome ↔ (m k).isSome ∨ k ∈ log.map Object.key := by
  induction log with
  | nil => simp [appended]
  | cons o log ih =>
    change (add (appended m log) o.key o.data k).isSome ↔ _
    rw [map_cons, mem_cons]
    by_cases hk : k = o.key
    · subst hk
      exact ⟨fun _ => .inr (.inl rfl), fun _ => add_isSome ..⟩
    · have hsame : add (appended m log) o.key o.data k = appended m log k := by
        unfold add
        split
        · rfl
        · exact Function.update_of_ne hk ..
      rw [hsame, ih]
      exact ⟨fun h => h.imp_right .inr, fun h => h.imp_right fun h => h.resolve_left hk⟩

theorem appended_of_mem (hnodup : (log.map Object.key).Nodup) (ho : o ∈ log) (hnew : m o.key = none) :
    appended m log o.key = some o.data := by
  induction log with
  | nil => cases ho
  | cons x log ih =>
    obtain ⟨hx, hnodup⟩ := nodup_cons.mp hnodup
    rcases mem_cons.mp ho with rfl | ho
    · have hnone : appended m log o.key = none := by
        rw [← Option.not_isSome_iff_eq_none, appended_isSome, hnew]
        rintro (h | h)
        · cases h
        · exact hx h
      exact (add_eq_some hnone).mpr (.inr ⟨rfl, rfl⟩)
    · exact add_mono (ih hnodup ho) x.key x.data

/-! ## The items of a call -/

/-- The object in a writer's hands. -/
def Writer.items (g : Writer) : List (Dedup.Stage × Object) :=
  match g.pc with
  | .observe o | .seen o => [(.pending, o)]
  | .work o .has _ => [(.claimed, o)]
  | .work o (.append _) _ => [(.absent, o)]
  | .work o (.fsync _) _ | .work o (.rotate _) _ => [(.written, o)]
  | .recv | .flush | .ret => []

/-- What the call is as a state of the protocol, with the part of the stream that the distributor has not
sent yet. -/
def Parallel.protocol (rest : List Object) (s : Parallel) : Dedup.State Object Key where
  items := (s.writers.flatMap Writer.items ++ (rest ++ s.run.chan).map (Dedup.Stage.pending, ·) : List _)
  seen := s.run.seen
  log := s.appends
  stored := s.stats.stored
  skipped := s.stats.deduped

/-- What a writer knows about the store. -/
def Writer.Knows (Z : Zstd) (w : World) (g : Writer) : Prop :=
  match g.pc with
  | .work o (.append rec) _ => rec = objectRecord Z o
  | .work _ (.fsync a) _ | .work _ (.rotate a) _ => w.s.active = some a
  | _ => True

theorem Writer.Knows.stable {g : Writer} (h : g.Knows Z w) (hact : g.holds → w'.s.active = w.s.active) :
    g.Knows Z w' := by
  obtain ⟨pending, pc⟩ := g
  cases pc with
  | work o p n =>
    cases p with
    | has => exact trivial
    | append rec => exact h
    | fsync a | rotate a => exact (hact rfl).trans h
  | _ => exact trivial

/-- The invariant of a call that has not failed. -/
structure Parallel.Inv (Z : Zstd) (F : FuseLib) (m : PayloadMap) (stream rest : List Object) (G : Written)
    (s : Parallel) : Prop where
  todo : s.run.todo = rest.map .ok
  closed : s.run.closed = true → rest = []
  alive : s.run.cancelled = false ∧ s.run.err = none
  manned : 0 < s.run.writers ∧ s.writers ≠ []
  refines : Refines Z F s.w (appended m s.appends) G
  protocol : Dedup.Inv Object.key (fun k => (m k).isSome) stream (s.protocol rest)
  knows : ∀ g ∈ s.writers, g.Knows Z s.w
  one : s.writers.Pairwise fun g g' => ¬(g.holds = true ∧ g'.holds = true)
  ret : ∀ g ∈ s.writers, g.pc = .ret → s.run.chan = [] ∧ s.run.closed = true
  joined : s.pc ≠ .wait → s.run.closed = true ∧ ∀ g ∈ s.writers, g.pc = .ret
  result : ∀ r, s.pc = .ret r → r = .ok ()

/-! ## The work on one object -/

section Work
variable {verify : Object → Except Err Unit} {b : Bool}

theorem Refines.work_has (h : Refines Z F w m G) (hfit : o.data.length ≤ maxPayload) (hverify : verify o = .ok ()) :
    (Work.has.run Z F verify o b).Gives (Post (fun r w' => w' = w ∧
      if (m o.key).isSome then r = .done .dedup else r = .goto (.append (objectRecord Z o))) fun _ _ => False) w := by
  unfold Work.run
  refine wp_bind.mpr (wp_reading (h.agrees.has o.key) (wp_ite (fun hin => ?_) fun hout => ?_))
  · exact .pure ⟨rfl, by rw [if_pos hin]⟩
  · simp only [wp_bind, lift, hverify, encode, encodeRecord_eq hfit, wp_pure, post_ok]
    rw [if_neg hout]
    exact ⟨trivial, trivial⟩

theorem Refines.work_append (h : Refines Z F w m G) (ho : o.key.Canonical ∧ o.data.length ≤ maxPayload)
    (habs : m o.key = none) :
    ((Work.append (objectRecord Z o)).run Z F verify o b).Gives (Post (fun r w' => ∃ a G',
      r = .goto (.fsync a) ∧ w'.s.active = some a ∧ Refines Z F w' (add m o.key o.data) G') fun _ _ => False) w := by
  unfold Work.run
  refine wp_bind.mpr ((claim_spec h.good o.key).mono (fun _ _ => trivial) ?_)
  intro r t ht
  match r with
  | .error e => exact absurd h.ready (ht.1 trivial)
  | .ok none =>
    obtain ⟨-, -, -, -, hin⟩ := ht
    exact absurd hin (h.not_inActive habs)
  | .ok (some a) =>
    obtain ⟨-, hft, -, -, ha, hk, -, -, G', hg, hdisk⟩ := ht
    refine wp_bind.mpr ((writeRecord_spec hg hft ha hk ho trivial).mono (fun _ _ => trivial) ?_)
    intro r u hu
    cases r with
    | error e => exact hu.elim
    | ok a' =>
      obtain ⟨-, hus, -, G2, hg2, hdisk2⟩ := hu
      have hmem : ∀ x, OnDisk u.fs G2 x ↔ add m o.key o.data x.key = some x.data := by
        intro x
        rw [hdisk2, hdisk, h.objects_add habs]
      refine .pure ⟨a', G2, rfl, by rw [hus], hg2, by rw [hus]; exact hft, hmem⟩

theorem Refines.work_fsync (h : Refines Z F w m G) (ha : w.s.active = some a) :
    ((Work.fsync a).run Z F verify o b).Gives (Post (fun r w' =>
      r = .goto (.rotate a) ∧ w'.s.active = some a ∧ Refines Z F w' m G) fun _ _ => False) w := by
  unfold Work.run
  refine wp_bind.mpr ((fsyncRecord_spec h.good h.ready ha b).mono (fun _ _ => trivial) ?_)
  intro r t ht
  cases r with
  | error e => exact absurd trivial ht.1
  | ok u =>
    obtain ⟨hts, hg, hdisk⟩ := ht
    refine .pure ⟨rfl, by rw [hts]; exact ha, hg.mono fun _ hx => hx.elim, by rw [hts]; exact h.ready, ?_⟩
    exact fun x => (hdisk x).trans (h.objects x)

theorem Refines.work_rotate (h : Refines Z F w m G) (ha : w.s.active = some a) (hsmall : DueSmall w.s a) :
    ((Work.rotate a).run Z F verify o b).Gives (Post (fun r w' =>
      r = .done .stored ∧ Refines Z F w' m G) fun _ _ => False) w := by
  unfold Work.run
  refine wp_bind.mpr ((rotate_spec h.good h.ready ha hsmall).mono (fun _ _ => trivial) ?_)
  intro r t ht
  cases r with
  | error e => exact absurd trivial ht.1
  | ok u =>
    obtain ⟨hg, hft, -, hdisk⟩ := ht
    exact .pure ⟨rfl, hg, hft, fun x => (hdisk x).trans (h.objects x)⟩

end Work

/-! ## Steps of the writers -/

namespace Parallel
variable {s : Parallel} {stream rest : List Object} {g g' : Writer} {before after : List Writer}

/-- What is on its way besides the object of one writer. -/
def others (before after : List Writer) (rest chan : List Object) : List (Dedup.Stage × Object) :=
  (before ++ after).flatMap Writer.items ++ (rest ++ chan).map (Dedup.Stage.pending, ·)

theorem protocol_items (hw : s.writers = before ++ g :: after) (rest : List Object) :
    (s.protocol rest).items = (g.items ++ others before after rest s.run.chan : List _) := by
  rw [protocol, others, hw]
  apply Multiset.coe_eq_coe.mpr
  simp only [flatMap_append, flatMap_cons, append_assoc]
  exact perm_append_comm_assoc ..

/-- A step of one writer: the others hold on to what they know, as one that holds `appendMu` keeps this step
away from the active segment. -/
theorem Inv.writer (h : Inv Z F m stream rest G s) (hw : s.writers = before ++ g :: after) (hg : g.pc ≠ .ret)
    {chan log : List Object} {seen : List Key} {counts : WriteStats} (hnil : s.run.chan = [] → chan = [])
    (href : Refines Z F w' (appended m log) G')
    (hprot : Dedup.Inv Object.key (fun k => (m k).isSome) stream
      ⟨(g'.items ++ others before after rest chan : List _), seen, log, counts.stored, counts.deduped⟩)
    (hknows : g'.Knows Z w') (hact : g.takes = false → g.holds = false → w'.s.active = s.w.s.active)
    (hfree : g.takes = true → ∀ g ∈ s.writers, g.holds = false)
    (hholds : g'.holds = true → g.takes = true ∨ g.holds = true)
    (hret : g'.pc = .ret → chan = [] ∧ s.run.closed = true) :
    Inv Z F m stream rest G' { s with
      w := w', run := { s.run with chan, seen }, writers := before ++ g' :: after,
      stats := counts, appends := log } := by
  have hmem : g ∈ s.writers := by rw [hw]; exact mem_append_right _ mem_cons_self
  have hother : ∀ x ∈ before ++ after, x ∈ s.writers := by
    intro x hx
    rw [hw]
    rcases mem_append.mp hx with hx | hx
    · exact mem_append_left _ hx
    · exact mem_append_right _ (mem_cons_of_mem _ hx)
  have hone := h.one
  rw [hw, pairwise_append, pairwise_cons] at hone
  obtain ⟨hbefore, ⟨hgafter, hafter⟩, hcross⟩ := hone
  have hapart : ∀ x ∈ before ++ after, ¬(x.holds = true ∧ g.holds = true) := by
    intro x hx hboth
    rcases mem_append.mp hx with hx | hx
    · exact hcross x hx g mem_cons_self hboth
    · exact hgafter x hx hboth.symm
  have hidle : ∀ x ∈ before ++ after, x.holds = true → g.takes = false ∧ g.holds = false := by
    intro x hx hxh
    refine ⟨?_, ?_⟩
    · by_contra ht
      rw [hfree (by simpa using ht) x (hother x hx)] at hxh
      cases hxh
    · by_contra hh
      exact hapart x hx ⟨hxh, by simpa using hh⟩
  have hnew : ∀ x ∈ before ++ after, ¬(x.holds = true ∧ g'.holds = true) := by
    rintro x hx ⟨hxh, hgh⟩
    obtain ⟨ht, hh⟩ := hidle x hx hxh
    rcases hholds hgh with hc | hc
    · rw [ht] at hc
      cases hc
    · rw [hh] at hc
      cases hc
  have hmem' : ∀ x ∈ before ++ g' :: after, x = g' ∨ x ∈ before ++ after := by
    intro x hx
    simp only [mem_append, mem_cons] at hx ⊢
    tauto
  exact {
    todo := h.todo
    closed := h.closed
    alive := h.alive
    manned := ⟨h.manned.1, by simp⟩
    refines := href
    protocol := by
      have hitems := protocol_items (s := ⟨w', { s.run with chan, seen }, before ++ g' :: after, s.pc, counts, log⟩)
        rfl rest
      exact hprot.congr hitems.symm
    knows := fun x hx => by
      rcases hmem' x hx with rfl | hx
      · exact hknows
      · exact (h.knows x (hother x hx)).stable fun hxh => hact (hidle x hx hxh).1 (hidle x hx hxh).2
    one := by
      rw [pairwise_append, pairwise_cons]
      refine ⟨hbefore, ⟨fun x hx hboth => ?_, hafter⟩, fun x hx y hy => ?_⟩
      · exact hnew x (mem_append_right _ hx) hboth.symm
      · rcases mem_cons.mp hy with rfl | hy
        · exact hnew x (mem_append_left _ hx)
        · exact hcross x hx y (mem_cons_of_mem _ hy)
    ret := fun x hx hpc => by
      rcases hmem' x hx with rfl | hx
      · exact hret hpc
      · exact ⟨hnil (h.ret x (hother x hx) hpc).1, (h.ret x (hother x hx) hpc).2⟩
    joined := fun hpc => absurd ((h.joined hpc).2 g hmem) hg
    result := h.result }

theorem protocol_eq (rest : List Object) (hw : s.writers = before ++ g :: after) (hg : g.items = [p]) :
    (s.protocol rest).items = p ::ₘ (others before after rest s.run.chan : List _) := by
  rw [protocol_items hw, hg]
  rfl

theorem Inv.stutter (h : Inv Z F m stream rest G s) (hw : s.writers = before ++ g :: after)
    (hitems : g.items = g'.items) :
    Dedup.Inv Object.key (fun k => (m k).isSome) stream ⟨(g'.items ++ others before after rest s.run.chan : List _),
      s.run.seen, s.appends, s.stats.stored, s.stats.deduped⟩ := by
  rw [← hitems]
  exact h.protocol.congr (protocol_items hw rest)

section Step
variable {verify : Object → Except Err Unit} {n c : Nat} {run' : Run}
  (h : Inv Z F m stream rest G s) (hw : s.writers = before ++ g :: after)
  (hm : act ∈ g.run Z F verify s.run) (hrun : act s.w = ⟨tr, .ok (run', g'), w'⟩)

/-- The invariant after a step of a writer. -/
def Next (Z : Zstd) (F : FuseLib) (m : PayloadMap) (stream rest : List Object) (s : Parallel) (before after : List Writer)
    (g g' : Writer) (run' : Run) (w' : World) : Prop :=
  ∃ G', Inv Z F m stream rest G' { s with
    w := w', run := run', writers := before ++ g' :: after,
    stats := g.tally g' s.stats, appends := g.appends g' ++ s.appends }

theorem Next.of_run (hnext : act.Gives (Post (fun q w' => Next Z F m stream rest s before after g q.2 q.1 w')
    fun _ _ => False) s.w) (hrun : act s.w = ⟨tr, .ok (run', g'), w'⟩) :
    Next Z F m stream rest s before after g g' run' w' := (Wp.of_run hnext hrun).2

include h hw hm hrun

theorem Inv.recv (hg : g = ⟨n, .recv⟩) : Next Z F m stream rest s before after g g' run' w' := by
  subst hg
  rcases mem_append.mp hm with hm | hm
  · rw [h.alive.1] at hm
    cases hm
  · split at hm
    · next o chan hchan =>
      obtain rfl := mem_singleton.mp hm
      cases hrun
      refine ⟨G, h.writer hw nofun (fun hnil => ?_) h.refines ?_ trivial (fun _ _ => rfl) nofun nofun nofun⟩
      · rw [hchan] at hnil
        cases hnil
      · -- the object goes from the channel to the writer
        have hitems : (s.protocol rest).items =
            (Writer.items ⟨n, .observe o⟩ ++ others before after rest chan : List _) := by
          rw [protocol_items hw, hchan]
          apply Multiset.coe_eq_coe.mpr
          simp only [others, Writer.items, nil_append, map_append, map_cons, cons_append]
          exact (perm_middle.append_left _).trans perm_middle
        exact h.protocol.congr hitems
    · next hchan =>
      split at hm
      · next hclosed =>
        obtain rfl := mem_singleton.mp hm
        cases hrun
        exact ⟨G, h.writer hw nofun id h.refines (h.stutter hw rfl) trivial (fun _ _ => rfl) nofun nofun
          fun _ => ⟨hchan, hclosed⟩⟩
      · cases hm

theorem Inv.observe (hg : g = ⟨n, .observe o⟩) : Next Z F m stream rest s before after g g' run' w' := by
  subst hg
  obtain rfl := mem_singleton.mp hm
  cases hrun
  exact ⟨G, h.writer hw nofun id (h.refines.setGrey _) (h.stutter hw rfl) trivial (fun _ _ => rfl) nofun nofun nofun⟩

theorem Inv.seen (hg : g = ⟨n, .seen o⟩) : Next Z F m stream rest s before after g g' run' w' := by
  subst hg
  have hitems := protocol_eq rest hw rfl
  simp only [Writer.run] at hm
  split at hm
  · next hin =>
    obtain rfl := mem_singleton.mp hm
    cases hrun
    exact ⟨G, h.writer hw (by simp) id h.refines ((h.protocol.congr hitems).dup hin) trivial (fun _ _ => rfl)
      (by rintro ⟨⟩) (by rintro ⟨⟩) (by simp)⟩
  · next hout =>
    obtain rfl := mem_singleton.mp hm
    cases hrun
    exact ⟨G, h.writer hw (by simp) id h.refines ((h.protocol.congr hitems).claim hout) trivial (fun _ _ => rfl)
      (by rintro ⟨⟩) (by rintro ⟨⟩) (by simp)⟩

omit hm hrun in
theorem Inv.known : g.Knows Z s.w := by
  apply h.knows
  rw [hw]
  exact mem_append_right _ mem_cons_self

omit hm hrun in
theorem Inv.mem_stream (hi : g.items = [p]) : p.2 ∈ stream := by
  apply h.protocol.items p
  rw [protocol_eq rest hw hi]
  exact Multiset.mem_cons_self ..

theorem Inv.work_has (hg : g = ⟨n, .work o .has c⟩) (hfit : o.data.length ≤ maxPayload)
    (hverify : verify o = .ok ()) : Next Z F m stream rest s before after g g' run' w' := by
  subst hg
  have hitems := protocol_eq rest hw rfl
  have hverify' : (if s.run.verify then verify else noVerify) o = .ok () := by
    split
    · exact hverify
    · rfl
  obtain rfl := mem_singleton.mp hm
  refine Next.of_run ((h.refines.work_has hfit hverify').surely fun r t ht => ?_) hrun
  obtain ⟨rfl, hr⟩ := ht
  split at hr
  · next hfound =>
    subst hr
    have hold := (appended_isSome m s.appends o.key).mp hfound
    exact .pure ⟨G, h.writer hw nofun id h.refines ((h.protocol.congr hitems).hit hold) trivial (fun _ _ => rfl) nofun
      nofun nofun⟩
  · next hfound =>
    subst hr
    have hnew : ¬(m o.key).isSome := fun hold => hfound ((appended_isSome m s.appends o.key).mpr (.inl hold))
    exact .pure ⟨G, h.writer hw nofun id h.refines ((h.protocol.congr hitems).miss hnew) rfl (fun _ _ => rfl) nofun
      nofun nofun⟩

theorem Inv.work_append (hg : g = ⟨n, .work o (.append record) c⟩) (ho : o.key.Canonical ∧ o.data.length ≤ maxPayload)
    (hfree : ∀ g ∈ s.writers, g.holds = false) : Next Z F m stream rest s before after g g' run' w' := by
  subst hg
  have hitems := protocol_eq rest hw rfl
  obtain rfl : record = objectRecord Z o := h.known hw
  -- the key was absent, and no other writer can have appended it
  have habs : appended m s.appends o.key = none := by
    rw [← Option.not_isSome_iff_eq_none, appended_isSome]
    have hclaimed := h.protocol.claimed o.key (by rw [hitems, Dedup.working_absent]; exact Multiset.mem_cons_self ..)
    rintro (hold | hlog)
    · exact h.protocol.absent o (by rw [hitems]; exact Multiset.mem_cons_self ..) hold
    · exact hclaimed.2 hlog
  obtain rfl := mem_singleton.mp hm
  refine Next.of_run ((h.refines.work_append ho habs).surely fun r t ht => ?_) hrun
  obtain ⟨a, G', rfl, ha, href⟩ := ht
  exact .pure ⟨G', h.writer hw nofun id href ((h.protocol.congr hitems).write) ha nofun (fun _ => hfree)
    (fun _ => .inl rfl) nofun⟩

theorem Inv.work_fsync (hg : g = ⟨n, .work o (.fsync a) c⟩) : Next Z F m stream rest s before after g g' run' w' := by
  subst hg
  have ha : s.w.s.active = some a := h.known hw
  obtain rfl := mem_singleton.mp hm
  refine Next.of_run ((h.refines.work_fsync ha).surely fun r t ht => ?_) hrun
  obtain ⟨rfl, hta, href⟩ := ht
  exact .pure ⟨G, h.writer hw nofun id href (h.stutter hw rfl) hta nofun nofun (fun _ => .inr rfl) nofun⟩

theorem Inv.work_rotate (hg : g = ⟨n, .work o (.rotate a) c⟩) (hsmall : DueSmall s.w.s a) :
    Next Z F m stream rest s before after g g' run' w' := by
  subst hg
  have hitems := protocol_eq rest hw rfl
  have ha : s.w.s.active = some a := h.known hw
  obtain rfl := mem_singleton.mp hm
  refine Next.of_run ((h.refines.work_rotate ha hsmall).surely fun r t ht => ?_) hrun
  obtain ⟨rfl, href⟩ := ht
  refine .pure ⟨G, ?_⟩
  simp only [Writer.appended]
  split
  · exact h.writer hw nofun id href ((h.protocol.congr hitems).finish) trivial nofun nofun nofun nofun
  · exact h.writer hw nofun id href ((h.protocol.congr hitems).finish) trivial nofun nofun nofun nofun

theorem Inv.flush (hg : g = ⟨n, .flush⟩) (hfree : ∀ g ∈ s.writers, g.holds = false) :
    Next Z F m stream rest s before after g g' run' w' := by
  subst hg
  obtain rfl := mem_singleton.mp hm
  refine Next.of_run ((syncActive_refines h.refines).surely fun u t ht => ?_) hrun
  exact .pure ⟨G, h.writer hw nofun id ht (h.stutter hw rfl) trivial nofun (fun _ => hfree) nofun nofun⟩

end Step

/-! ## Steps of the call -/

/-- No writer is about to seal a segment of 2³² records or more. -/
def Small (s : Parallel) : Prop := ∀ g ∈ s.writers, g.Small s.w.s

section Call
variable {verify : Object → Except Err Unit} {run' : Run} {s' : Parallel}

theorem Inv.distribute (h : Inv Z F m stream rest G s) (hd : s.run.Distribute run') :
    ∃ rest', Inv Z F m stream rest' G { s with run := run' } := by
  have htodo := h.todo
  cases hd with
  | @send todo _ o hclosed ht _ =>
    cases rest with
    | nil => cases ht.symm.trans htodo
    | cons x rest =>
      obtain ⟨hx, hrest⟩ := List.cons.inj (ht.symm.trans htodo)
      cases hx
      have hopen : ∀ {p : Prop}, s.run.closed = true → p := fun hc => by
        rw [hclosed] at hc
        cases hc
      refine ⟨rest, ⟨hrest, hopen, h.alive, h.manned, h.refines, ?_, h.knows, h.one,
        fun g hg hpc => hopen (h.ret g hg hpc).2, fun hpc => hopen (h.joined hpc).1, h.result⟩⟩
      apply h.protocol.congr
      apply Multiset.coe_eq_coe.mpr
      refine List.Perm.append_left _ (List.Perm.map _ ?_)
      rw [← append_assoc]
      exact (perm_append_singleton o (rest ++ s.run.chan)).symm
  | cancelled _ _ hc =>
    rw [h.alive.1] at hc
    cases hc
  | @fail todo _ e _ ht =>
    cases rest with
    | nil => cases ht.symm.trans htodo
    | cons x rest => cases (List.cons.inj (ht.symm.trans htodo)).1
  | finish hclosed ht =>
    obtain rfl : rest = [] := map_eq_nil_iff.mp (htodo.symm.trans ht)
    exact ⟨[], ⟨h.todo, fun _ => rfl, h.alive, h.manned, h.refines, h.protocol, h.knows, h.one,
      fun g hg hpc => ⟨(h.ret g hg hpc).1, rfl⟩, fun hpc => ⟨rfl, (h.joined hpc).2⟩, h.result⟩⟩

theorem Inv.sync (h : Inv Z F m stream rest G s) (hpc : s.pc = .sync)
    (hrun : syncRun s.run s.w = ⟨tr, .ok pc', w'⟩) : Inv Z F m stream rest G { s with w := w', pc := pc' } := by
  have hspec : (syncRun s.run).Gives (Post (fun pc' w' =>
      pc' = .ret (.ok ()) ∧ Refines Z F w' (appended m s.appends) G) fun _ _ => False) s.w := by
    refine (syncActive_refines h.refines).surely fun u t ht => .pure ⟨?_, ht⟩
    rw [h.alive.2]
  obtain ⟨-, rfl, href⟩ := hspec.of_run hrun
  obtain ⟨hclosed, hall⟩ := h.joined (by rw [hpc]; nofun)
  refine ⟨h.todo, h.closed, h.alive, h.manned, href, h.protocol, fun g hg => ?_, h.one, h.ret,
    fun _ => ⟨hclosed, hall⟩, fun r hr => ?_⟩
  · rw [Writer.Knows, hall g hg]
    exact trivial
  · cases hr
    rfl

variable (hfits : ∀ o ∈ stream, o.key.Canonical ∧ o.data.length ≤ maxPayload)
  (hverify : ∀ o ∈ stream, verify o = .ok ())
include hfits hverify

theorem Inv.step (h : Inv Z F m stream rest G s) (hsmall : s.Small) (hs : Step Z F verify s s') :
    ∃ rest' G', Inv Z F m stream rest' G' s' := by
  cases hs with
  | distribute hd =>
    obtain ⟨rest', h'⟩ := h.distribute hd
    exact ⟨rest', G, h'⟩
  | @writer before g after act tr run' g' w' hw hm hfree hrun =>
    have hg : g ∈ s.writers := by rw [hw]; exact mem_append_right _ mem_cons_self
    have hs := hsmall g hg
    refine ⟨rest, ?_⟩
    obtain ⟨pending, pc⟩ := g
    cases pc with
    | recv => exact h.recv hw hm hrun rfl
    | observe o => exact h.observe hw hm hrun rfl
    | seen o => exact h.seen hw hm hrun rfl
    | work o p n =>
      have ho : ∀ st, Writer.items ⟨pending, .work o p n⟩ = [(st, o)] → o ∈ stream := fun st hi => h.mem_stream hw hi
      cases p with
      | has => exact h.work_has hw hm hrun rfl (hfits o (ho _ rfl)).2 (hverify o (ho _ rfl))
      | append record => exact h.work_append hw hm hrun rfl (hfits o (ho _ rfl)) (hfree rfl)
      | fsync a => exact h.work_fsync hw hm hrun rfl
      | rotate a => exact h.work_rotate hw hm hrun rfl hs
    | flush => exact h.flush hw hm hrun rfl (hfree rfl)
    | ret => cases hm
  | join hpc hclosed hall =>
    exact ⟨rest, G, ⟨h.todo, h.closed, h.alive, h.manned, h.refines, h.protocol, h.knows, h.one, h.ret,
      fun _ => ⟨hclosed, hall⟩, nofun⟩⟩
  | sync hpc hrun => exact ⟨rest, G, h.sync hpc hrun⟩

end Call

/-! ## No run gets stuck -/

section Progress
variable {verify : Object → Except Err Unit}

theorem exists_step (hg : g ∈ s.writers) (hm : act ∈ g.run Z F verify s.run)
    (hfree : g.takes = true → ∀ g ∈ s.writers, g.holds = false) : ∃ s', Step Z F verify s s' := by
  obtain ⟨before, after, hw⟩ := append_of_mem hg
  obtain ⟨-, hpost⟩ := Writer.run_rank hm s.w
  match hout : act s.w with
  | ⟨tr, .ok (run', g'), w'⟩ => exact ⟨_, .writer hw hm hfree hout⟩
  | ⟨tr, .error e, w'⟩ =>
    rw [hout] at hpost
    exact hpost.elim

/-- A writer that neither waits for an object nor has returned can go on, once it gets the lock. -/
theorem exists_act (hrecv : g.pc ≠ .recv) (hret : g.pc ≠ .ret) (run : Run) : ∃ act, act ∈ g.run Z F verify run := by
  obtain ⟨pending, pc⟩ := g
  cases pc with
  | recv => exact absurd rfl hrecv
  | ret => exact absurd rfl hret
  | seen o =>
    simp only [Writer.run]
    split
    · exact ⟨_, mem_singleton.mpr rfl⟩
    · exact ⟨_, mem_singleton.mpr rfl⟩
  | observe o => exact ⟨_, mem_singleton.mpr rfl⟩
  | work o p n => exact ⟨_, mem_singleton.mpr rfl⟩
  | flush => exact ⟨_, mem_singleton.mpr rfl⟩

theorem Writer.not_takes (h : g.holds = true) : g.takes = false ∧ g.pc ≠ .recv ∧ g.pc ≠ .ret := by
  obtain ⟨pending, pc⟩ := g
  cases pc with
  | work o p n =>
    cases p with
    | has | append _ => cases h
    | fsync _ | rotate _ => exact ⟨rfl, nofun, nofun⟩
  | _ => cases h

/-- A writer at the channel gets an object or finds it closed. -/
theorem exists_recv (hg : g ∈ s.writers) (hpc : g.pc = .recv) (h : s.run.chan ≠ [] ∨ s.run.closed = true) :
    ∃ s', Step Z F verify s s' := by
  obtain ⟨pending, pc⟩ := g
  subst hpc
  cases hchan : s.run.chan with
  | cons o chan =>
    have hm : pure ({ s.run with chan }, ⟨pending, .observe o⟩) ∈ Writer.run Z F verify s.run ⟨pending, .recv⟩ := by
      apply mem_append_right
      rw [hchan]
      exact mem_singleton.mpr rfl
    exact exists_step hg hm nofun
  | nil =>
    have hm : pure (s.run, ⟨pending, .ret⟩) ∈ Writer.run Z F verify s.run ⟨pending, .recv⟩ := by
      apply mem_append_right
      rw [hchan, if_pos (h.resolve_left fun hne => hne hchan)]
      exact mem_singleton.mpr rfl
    exact exists_step hg hm nofun

theorem Inv.progress (h : Inv Z F m stream rest G s) (hpc : ∀ r, s.pc ≠ .ret r) : ∃ s', Step Z F verify s s' := by
  cases hp : s.pc with
  | ret r => exact absurd hp (hpc r)
  | sync =>
    obtain ⟨-, hpost⟩ := syncRun_ret s.run s.w
    match hout : syncRun s.run s.w with
    | ⟨tr, .ok pc', w'⟩ => exact ⟨_, .sync hp hout⟩
    | ⟨tr, .error e, w'⟩ =>
      rw [hout] at hpost
      exact hpost.elim
  | wait =>
    -- a writer that holds the lock can go on; if none does, any writer with something to do can
    by_cases hlock : ∃ g ∈ s.writers, g.holds = true
    · obtain ⟨g, hg, hholds⟩ := hlock
      obtain ⟨htakes, hrecv, hret⟩ := Writer.not_takes hholds
      obtain ⟨act, hact⟩ := exists_act hrecv hret s.run
      exact exists_step hg hact fun ht => by rw [htakes] at ht; cases ht
    have hfree : ∀ g ∈ s.writers, g.holds = false := fun g hg =>
      Bool.eq_false_iff.mpr fun hholds => hlock ⟨g, hg, hholds⟩
    by_cases hbusy : ∃ g ∈ s.writers, g.pc ≠ .recv ∧ g.pc ≠ .ret
    · obtain ⟨g, hg, hrecv, hret⟩ := hbusy
      obtain ⟨act, hact⟩ := exists_act hrecv hret s.run
      exact exists_step hg hact fun _ => hfree
    have hidle : ∀ g ∈ s.writers, g.pc = .recv ∨ g.pc = .ret := by
      intro g hg
      by_cases hrecv : g.pc = .recv
      · exact .inl hrecv
      · exact .inr (by_contra fun hret => hbusy ⟨g, hg, hrecv, hret⟩)
    obtain ⟨g, hg⟩ := exists_mem_of_ne_nil _ h.manned.2
    cases hclosed : s.run.closed with
    | true =>
      by_cases hall : ∀ g ∈ s.writers, g.pc = .ret
      · exact ⟨_, .join hp hclosed hall⟩
      · push Not at hall
        obtain ⟨g, hg, hne⟩ := hall
        exact exists_recv hg ((hidle g hg).resolve_right hne) (.inr hclosed)
    | false =>
      have hrecv : g.pc = .recv := (hidle g hg).resolve_right fun hret => by
        have hc := (h.ret g hg hret).2
        rw [hclosed] at hc
        cases hc
      have htodo := h.todo
      cases rest with
      | nil => exact ⟨_, .distribute (.finish hclosed htodo)⟩
      | cons o rest =>
        by_cases hroom : s.run.chan.length < 2 * s.run.writers
        · exact ⟨_, .distribute (.send hclosed htodo hroom)⟩
        · refine exists_recv hg hrecv (.inl fun hnil => hroom ?_)
          rw [hnil]
          exact Nat.mul_pos Nat.two_pos h.manned.1

end Progress

/-! ## The outcome -/

theorem Inv.start (h : Refines Z F w m G) (hprocs : 0 < procs) (stream : List Object) (writers batchSize : Int)
    (vfy : Bool) : Inv Z F m stream stream G (start w procs stream writers batchSize vfy) := by
  have hpos : 0 < (Run.new procs (stream.map .ok) writers batchSize vfy).writers := Run.new_writers hprocs ..
  have hrecv : ∀ g ∈ (Parallel.start w procs stream writers batchSize vfy).writers, g = ⟨0, .recv⟩ :=
    fun g hg => eq_of_mem_replicate hg
  refine ⟨rfl, nofun, ⟨rfl, rfl⟩, ⟨hpos, ?_⟩, h, ?_, ?_, ?_, ?_, fun hne => absurd rfl hne, nofun⟩
  · intro hnil
    have := congrArg List.length hnil
    rw [Parallel.start, length_replicate] at this
    exact hpos.ne' this
  · apply (Dedup.Inv.start Object.key (fun k => (m k).isSome) stream).congr
    have hnone : (Parallel.start w procs stream writers batchSize vfy).writers.flatMap Writer.items = [] :=
      flatMap_eq_nil_iff.mpr fun g hg => by rw [hrecv g hg]; rfl
    have hchan : (Parallel.start w procs stream writers batchSize vfy).run.chan = [] := rfl
    rw [hnone, hchan, append_nil]
    rfl
  · intro g hg
    rw [hrecv g hg]
    exact trivial
  · apply pairwise_of_forall_mem_list
    intro a ha b _ hboth
    rw [hrecv a ha] at hboth
    cases hboth.1
  · intro g hg hpc
    rw [hrecv g hg] at hpc
    cases hpc

end Parallel

/-- The old payloads, and those of the stream for the keys that had none. -/
def addStream (m : PayloadMap) (stream : List Object) : PayloadMap := fun k =>
  match m k with
  | some d => some d
  | none => (stream.find? fun o => o.key = k).map Object.data

theorem appended_eq_addStream (hnodup : (log.map Object.key).Nodup)
    (hlog : ∀ k, k ∈ log.map Object.key ↔ k ∈ stream.map Object.key ∧ ¬(m k).isSome)
    (hsub : ∀ o ∈ log, o ∈ stream) (huniq : ∀ x ∈ stream, ∀ y ∈ stream, x.key = y.key → x.data = y.data) :
    appended m log = addStream m stream := by
  funext k
  unfold addStream
  cases hm : m k with
  | some d => exact appended_of_some hm log
  | none =>
    cases hfind : stream.find? fun o => o.key = k with
    | none =>
      rw [Option.map_none, ← Option.not_isSome_iff_eq_none, appended_isSome, hm]
      rintro (h | h)
      · cases h
      · obtain ⟨o, ho, hk⟩ := mem_map.mp ((hlog k).mp h).1
        exact find?_eq_none.mp hfind o ho (decide_eq_true hk)
    | some o =>
      have hkey : o.key = k := by simpa using find?_some hfind
      have ho := mem_of_find?_eq_some hfind
      subst hkey
      obtain ⟨x, hx, hxk⟩ := mem_map.mp ((hlog o.key).mpr ⟨mem_map_of_mem ho, by rw [hm]; nofun⟩)
      rw [← hxk, appended_of_mem hnodup hx (hxk ▸ hm), huniq x (hsub x hx) o ho hxk]
      rfl

/-- Steps from states in which no writer is about to seal a segment of 2³² records or more. -/
def Parallel.SmallStep (Z : Zstd) (F : FuseLib) (verify : Object → Except Err Unit) (s s' : Parallel) : Prop :=
  s.Small ∧ s.Step Z F verify s'

/-- What a call that returns nil has done. -/
structure Parallel.Outcome (Z : Zstd) (F : FuseLib) (m : PayloadMap) (stream : List Object) (s : Parallel) : Prop where
  result : s.pc = .ret (.ok ())
  store : Agrees Z F s.w.fs s.w.s (addStream m stream)
  appends : (s.appends.map Object.key).Perm ((stream.map Object.key).filter fun k => (m k).isNone).dedup
  stored : s.stats.stored = ((stream.map Object.key).filter fun k => (m k).isNone).dedup.length
  deduped : s.stats.stored + s.stats.deduped = stream.length

theorem Parallel.Inv.outcome (h : Inv Z F m stream rest G s) (hpc : s.pc = .ret r)
    (huniq : ∀ x ∈ stream, ∀ y ∈ stream, x.key = y.key → x.data = y.data) : s.Outcome Z F m stream := by
  obtain ⟨hclosed, hall⟩ := h.joined (by rw [hpc]; nofun)
  obtain ⟨g, hg⟩ := exists_mem_of_ne_nil _ h.manned.2
  have hitems : (s.protocol rest).items = 0 := by
    have hnone : s.writers.flatMap Writer.items = [] := flatMap_eq_nil_iff.mpr fun g hg => by
      rw [Writer.items, hall g hg]
    rw [Parallel.protocol, hnone, h.closed hclosed, (h.ret g hg (hall g hg)).1]
    rfl
  obtain ⟨hstored, htotal, hlog⟩ := h.protocol.done hitems
  have hperm : (s.appends.map Object.key).Perm ((stream.map Object.key).filter fun k => (m k).isNone).dedup := by
    apply (perm_ext_iff_of_nodup h.protocol.once (nodup_dedup _)).mpr
    intro k
    rw [mem_dedup, mem_filter]
    simpa using hlog k
  refine ⟨?_, ?_, hperm, ?_, htotal⟩
  · rw [hpc, h.result r hpc]
  · rw [← appended_eq_addStream h.protocol.once hlog (fun o ho => (h.protocol.log o ho).1) huniq]
    exact h.refines.agrees
  · rw [← hperm.length_eq, length_map]
    exact hstored

/-- `WriteParallel` of objects that fit and pass `verifyObject`, on a store whose file operations do not fail
and that has no other writer: every run ends, and in a run that never seals a segment of 2³² records or more
the call either goes on or has returned nil, with every new key appended once and counted. -/
theorem writeParallel_outcome (H : Blake3) (h : Refines Z F w m G) (hprocs : 0 < procs) (stream : List Object)
    (hstream : ∀ o ∈ stream, o.data.length ≤ maxPayload ∧ verifyObject H o = .ok ())
    (huniq : ∀ x ∈ stream, ∀ y ∈ stream, x.key = y.key → x.data = y.data) (writers batchSize : Int) (vfy : Bool) :
    (∀ f : Nat → Parallel, ∃ n, ¬(f n).Step Z F (verifyObject H) (f (n + 1))) ∧
      ∀ s, Reach (fun s => s = .start w procs stream writers batchSize vfy) (Parallel.SmallStep Z F (verifyObject H)) s →
        (∃ s', s.Step Z F (verifyObject H) s') ∨ s.Outcome Z F m stream := by
  have hfits : ∀ o ∈ stream, o.key.Canonical ∧ o.data.length ≤ maxPayload := fun o ho =>
    ⟨verifyObject_canonical (hstream o ho).2, (hstream o ho).1⟩
  refine ⟨Parallel.ends, fun s hs => ?_⟩
  obtain ⟨rest, G', hinv⟩ : ∃ rest G', Parallel.Inv Z F m stream rest G' s := by
    apply hs.invariant
    · rintro _ rfl
      exact ⟨stream, G, .start h hprocs stream writers batchSize vfy⟩
    · rintro s s' ⟨rest, G', hinv⟩ ⟨hsmall, hstep⟩
      exact hinv.step hfits (fun o ho => (hstream o ho).2) hsmall hstep
  by_cases hpc : ∃ r, s.pc = .ret r
  · obtain ⟨r, hr⟩ := hpc
    exact .inr (hinv.outcome hr huniq)
  · exact .inl (hinv.progress fun r hr => hpc ⟨r, hr⟩)

/-- The empty blob written to an empty store, for a hash that is zero everywhere. -/
theorem writeParallel_outcome_blob : ∃ o : Object, verifyObject (fun _ => ⟨List.replicate 32 0, rfl⟩) o = .ok () ∧
    ∀ s, Reach (fun s => s = .start (freshWorld ⟨0, true⟩) 1 [o, o] 0 0 true)
      (Parallel.SmallStep .stored .full (verifyObject fun _ => ⟨List.replicate 32 0, rfl⟩)) s →
      (∃ s', s.Step .stored .full (verifyObject fun _ => ⟨List.replicate 32 0, rfl⟩) s') ∨
        s.Outcome .stored .full (fun _ => none) [o, o] := by
  have hverify : verifyObject (fun _ => ⟨List.replicate 32 0, rfl⟩) ⟨⟨List.replicate 32 0, rfl⟩, []⟩ = .ok () := by
    decide
  have hrefines := emptyWorld_refines (Z := .stored) (F := .full) ⟨0, true⟩
  rw [← freshWorld_eq] at hrefines
  refine ⟨⟨⟨List.replicate 32 0, rfl⟩, []⟩, hverify, ?_⟩
  refine (writeParallel_outcome _ hrefines Nat.one_pos _ (fun o ho => ?_) (fun x hx y hy _ => ?_) 0 0 true).2
  · simp only [mem_cons, not_mem_nil, or_false, or_self] at ho
    subst ho
    exact ⟨Nat.zero_le _, hverify⟩
  · simp only [mem_cons, not_mem_nil, or_false, or_self] at hx hy
    rw [hx, hy]

/-! ## A segment of 2³² records -/

/-- The payloads of the first objects. -/
def bulkMap (n : Nat) : PayloadMap := fun k => if k ∈ (bulk n).map Object.key then some [] else none

theorem Filling.refines {c : Config} (h : Filling Z F c n w G) : Refines Z F w (bulkMap n) G := by
  refine ⟨h.good, h.ready, fun o => ?_⟩
  rw [h.disk, bulkMap]
  constructor
  · intro ho
    obtain ⟨i, -, rfl⟩ := mem_map.mp ho
    exact if_pos (mem_map_of_mem ho)
  · intro hdata
    split at hdata
    · next hk =>
      obtain ⟨x, hx, hxk⟩ := mem_map.mp hk
      obtain ⟨i, hi, rfl⟩ := mem_map.mp hx
      obtain ⟨k, d⟩ := o
      cases hxk
      cases hdata
      exact mem_map.mpr ⟨i, hi, rfl⟩
    · cases hdata

/-- A hash that gives one of the objects its key. -/
def bulkHash (n : Nat) : Blake3 := fun _ => ⟨putUint 4 n ++ List.replicate 28 0, by simp⟩

theorem verifyObject_bulk (n : Nat) : verifyObject (bulkHash n) (bulkObject n) = .ok () := by
  have h0 : (bulkKey n).byte 0 = 0 := rfl
  have hls : (bulkKey n).lengthSize = 1 := by rw [Key.lengthSize, h0]; rfl
  have hlen : (bulkKey n).length = 0 := by rw [Key.length, hls]; rfl
  have htype : (bulkKey n).type = .blob := by rw [Key.type, h0]; rfl
  have hsize : Key.lengthSizeFor 0 = 1 := rfl
  have htake : (putUint 4 n ++ List.replicate 28 0).take (31 - 1) = putUint 4 n ++ List.replicate 26 0 := by
    rw [take_append, length_putUint, take_of_length_le (by simp), take_replicate]
    rfl
  have hput : (putUint 8 (0 : UInt64).toNat).drop (8 - 1) = [0] := rfl
  have hkey : Key.newFromHash .blob 0 (bulkHash n []) = .ok (bulkKey n) := by
    rw [Key.newFromHash]
    apply congrArg Except.ok
    apply Key.ext
    dsimp only [bulkHash, bulkKey]
    rw [hsize, hput, htake]
    rfl
  simp only [verifyObject, bulkObject, htype, hlen, hkey, ne_eq, not_true_eq_false, if_false]
  rfl

section Overfull
open Parallel
variable {verify : Object → Except Err Unit} {s : Parallel} {g : Writer}

theorem Parallel.Step.only (hw : s.writers = [g]) (hm : act ∈ g.run Z F verify s.run)
    (hfree : g.takes = true → g.holds = false) (hrun : act s.w = ⟨tr, .ok (run', g'), w'⟩) :
    Parallel.Step Z F verify s { s with
      w := w', run := run', writers := [g'], stats := g.tally g' s.stats, appends := g.appends g' ++ s.appends } := by
  have hw' : s.writers = [] ++ g :: [] := hw
  refine .writer hw' hm (fun ht x hx => ?_) hrun
  rw [hw] at hx
  rw [mem_singleton.mp hx]
  exact hfree ht

theorem Parallel.Step.of_wp {Q : Run → Writer → World → Prop} (hw : s.writers = [g])
    (hm : act ∈ g.run Z F verify s.run) (hfree : g.takes = true → g.holds = false)
    (hwp : act.Gives (Post (fun q w' => Q q.1 q.2 w') fun _ _ => False) s.w) :
    ∃ run' g' w', Q run' g' w' ∧ Parallel.Step Z F verify s { s with
      w := w', run := run', writers := [g'], stats := g.tally g' s.stats, appends := g.appends g' ++ s.appends } := by
  obtain ⟨-, hpost⟩ := hwp
  match hout : act s.w with
  | ⟨tr, .ok (run', g'), w'⟩ =>
    rw [hout] at hpost
    exact ⟨run', g', w', hpost, .only hw hm hfree hout⟩
  | ⟨tr, .error e, w'⟩ =>
    rw [hout] at hpost
    exact hpost.elim

/-- The call has one writer, and has sent all it was given. -/
structure Parallel.Alone (s : Parallel) (pc : WriterPc) : Prop where
  writers : ∃ c, s.writers = [⟨c, pc⟩]
  todo : s.run.todo = []
  opened : s.run.closed = false
  waits : s.pc = .wait

theorem Work.not_holds (p : Work) (h : p.takes = true) : p.holds = false := by
  cases p with
  | append _ => rfl
  | has | fsync _ | rotate _ => cases h

theorem Parallel.Alone.goto {R : Work → World → Prop} (h : s.Alone (.work o p n)) (hv : verify o = .ok ())
    (hwp : ∀ v : Object → Except Err Unit, v o = .ok () → (p.run Z F v o false).Gives
      (Post (fun r t => ∃ q, r = .goto q ∧ R q t) fun _ _ => False) s.w) :
    ∃ s' q n', Parallel.Step Z F verify s s' ∧ s'.Alone (.work o q n') ∧ R q s'.w := by
  obtain ⟨c, hw⟩ := h.writers
  have hv' : (if s.run.verify then verify else noVerify) o = .ok () := by
    split
    · exact hv
    · rfl
  obtain ⟨_, _, t, ⟨q, rfl, rfl, hR⟩, hstep⟩ := Step.of_wp
    (Q := fun r g t => ∃ q, r = s.run ∧ g = ⟨c, .work o q (q.recLen n)⟩ ∧ R q t) hw (mem_singleton.mpr rfl)
    p.not_holds ((hwp _ hv').surely (by
      intro r t ht
      obtain ⟨q, rfl, hR⟩ := ht
      exact .pure ⟨q, rfl, rfl, hR⟩))
  exact ⟨_, q, _, hstep, ⟨⟨c, rfl⟩, h.todo, h.opened, h.waits⟩, hR⟩

theorem Parallel.Alone.fail (h : s.Alone (.work o p n))
    (hwp : ∀ v : Object → Except Err Unit, (p.run Z F v o false).Gives
      (Post (fun _ _ => False) fun _ _ => True) s.w)
    (hreach : Reach init (Parallel.Step Z F verify) s) : ∃ s e, Reach init (Parallel.Step Z F verify) s ∧ s.pc = .ret (.error e) := by
  obtain ⟨c, hw⟩ := h.writers
  obtain ⟨_, _, t, ⟨e, rfl, rfl⟩, hstep⟩ := Step.of_wp
    (Q := fun r g _ => ∃ e, r = s.run.fail e ∧ g = ⟨c, .ret⟩) hw (mem_singleton.mpr rfl)
    p.not_holds ((hwp _).tries (by
      intro r t ht
      cases r with
      | error e => exact .pure ⟨e, rfl, rfl⟩
      | ok r => exact ht.elim))
  have hfailed := (hreach.next hstep).next (.distribute (.finish h.opened h.todo))
  have hjoined := hfailed.next (.join h.waits rfl fun g hg => by rw [mem_singleton.mp hg])
  obtain ⟨e', he'⟩ := Option.ne_none_iff_exists'.mp (s.run.fail_err e)
  obtain ⟨-, hpost⟩ : (syncRun { s.run.fail e with closed := true }).Gives
      (Post (fun pc _ => pc = .ret (.error e')) fun _ _ => False) t := by
    refine wp_any.tries fun r u _ => .pure ?_
    simp only [he', post_ok]
  rcases hout : syncRun { s.run.fail e with closed := true } t with ⟨tr, e | pc', w'⟩
  · rw [hout] at hpost
    exact hpost.elim
  · rw [hout] at hpost
    exact ⟨_, e', hjoined.next (.sync rfl hout), hpost⟩

/-- With an active segment of 2³² − 1 records and a threshold that the next one reaches, the write of one more
object fails. -/
theorem Filling.parallel_fails (h : Filling Z F bulkConfig n w G) (hn : n + 1 = 2 ^ 32)
    (hv : verify (bulkObject n) = .ok ()) : ∃ s e,
    Reach (fun s => s = .start w 1 [bulkObject n] 1 0 true) (Parallel.Step Z F verify) s ∧ s.pc = .ret (.error e) := by
  have hlt : n < 2 ^ 32 := by omega
  have hfit : (bulkObject n).data.length ≤ maxPayload := Nat.zero_le _
  have hdue : bulkConfig.segmentSize ≤ (8 + 46 * (n + 1) : Nat) := by simp only [bulkConfig]; omega
  have hreach : Reach (fun s => s = .start w 1 [bulkObject n] 1 0 true) (Parallel.Step Z F verify) _ := .start rfl
  -- the object comes to the writer, which claims its key
  replace hreach := hreach.next (.distribute (.send rfl rfl (Nat.zero_lt_succ 1)))
  replace hreach := hreach.next (.only rfl (mem_singleton.mpr rfl) (by rintro ⟨⟩) rfl)
  replace hreach := hreach.next (.only rfl (mem_singleton.mpr rfl) (by rintro ⟨⟩) rfl)
  replace hreach := hreach.next (.only rfl (mem_singleton.mpr rfl) (by rintro ⟨⟩) rfl)
  obtain ⟨s₀, hreach, halone, hw₀⟩ : ∃ s₀, Reach _ (Parallel.Step Z F verify) s₀ ∧ s₀.Alone (.work (bulkObject n) .has 0) ∧
    s₀.w = { w with s := w.s.observe (bulkKey n) } := ⟨_, hreach, ⟨⟨0, rfl⟩, rfl, rfl, rfl⟩, rfl⟩
  have hfill : Filling Z F bulkConfig n s₀.w G := by
    rw [hw₀]
    exact h.setGrey _
  -- the key is absent, and the record is written
  obtain ⟨s₁, _, _, hstep, halone, ⟨G₁, rfl, hfill⟩⟩ := halone.goto (Z := Z) (F := F)
    (R := fun q t => ∃ G, q = .append (objectRecord Z (bulkObject n)) ∧ Filling Z F bulkConfig n t G) hv
    fun v hv => by
      unfold Work.run
      refine wp_bind.mpr (wp_reading (hfill.has_eq hlt) (post_ok.mpr ?_))
      simp only [Bool.false_eq_true, if_false, wp_bind, lift, hv, encode, encodeRecord_eq hfit, wp_pure, post_ok]
      exact ⟨_, rfl, G, rfl, hfill⟩
  replace hreach := hreach.next hstep
  obtain ⟨s₂, _, _, hstep, halone, ⟨a, G₂, rfl, ha, hfill⟩⟩ := halone.goto (Z := Z) (F := F)
    (R := fun q t => ∃ a G, q = .fsync a ∧ t.s.active = some a ∧ Filling Z F bulkConfig (n + 1) t G) hv fun v _ => by
      unfold Work.run
      refine wp_bind.mpr (hfill.claim hlt fun t G a ht ha hk => ?_)
      refine wp_bind.mpr (ht.writeRecord ha hk fun u G a' hu ha' => ?_)
      exact .pure ⟨_, rfl, a', G, rfl, ha', hu⟩
  replace hreach := hreach.next hstep
  obtain ⟨s₃, _, _, hstep, halone, ⟨rfl, ha, hfill⟩⟩ := halone.goto (Z := Z) (F := F)
    (R := fun q t => q = .rotate a ∧ t.s.active = some a ∧ Filling Z F bulkConfig (n + 1) t G₂) hv fun v _ => by
      unfold Work.run
      refine wp_bind.mpr (hfill.fsyncRecord ha false fun t ht hta => ?_)
      exact .pure ⟨_, rfl, rfl, hta, ht⟩
  replace hreach := hreach.next hstep
  -- the segment is due, and its seal fails
  refine halone.fail (fun v => ?_) hreach
  unfold Work.run
  refine (hfill.rotate_overfull ha hn hdue).then (fun u t ht => ?_) fun _ _ _ => trivial
  exact ht.elim

end Overfull

/-- A store opened with a threshold of 8 + 46 · 2³² bytes, after 2³² − 1 puts: `WriteParallel` of one more object that
passes `verifyObject` returns an error. -/
theorem writeParallel_overfull : ∃ n w s e, n + 1 = 2 ^ 32 ∧
    w = (runOps .stored .full (fillOps n) (freshWorld bulkConfig)).2 ∧
    (∃ m G, Refines .stored .full w m G) ∧ verifyObject (bulkHash n) (bulkObject n) = .ok () ∧
    Reach (fun s => s = .start w 1 [bulkObject n] 1 0 true) (Parallel.Step .stored .full (verifyObject (bulkHash n))) s ∧
    s.pc = .ret (.error e) := by
  obtain ⟨n, hn⟩ : ∃ n, n + 1 = 2 ^ 32 := ⟨2 ^ 32 - 1, by decide⟩
  obtain ⟨⟨G, hfill⟩, -⟩ := runOps_fill (Z := .stored) (F := .full) (n := n) (by omega)
  obtain ⟨s, e, hreach, hpc⟩ := hfill.parallel_fails hn (verifyObject_bulk n)
  exact ⟨n, _, s, e, hn, rfl, ⟨_, G, hfill.refines⟩, verifyObject_bulk n, hreach, hpc⟩

end AmberStore.Packstore
