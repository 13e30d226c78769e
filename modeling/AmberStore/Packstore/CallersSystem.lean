import AmberStore.Packstore.CallersInv

/-!
# Every step of the system keeps the invariant

The store is good, at most one goroutine holds `appendMu`, each goroutine and each run has its
part of the invariant, and what has been acknowledged is durable.
-/

namespace AmberStore.Packstore
open Bytes Amberpack Act List

variable {Z : Zstd} {F : FuseLib} {P D D' : Object → Prop} {w w' : World} {G G' : Written}
  {o : Object} {ok : Object → Prop} {verify : Object → Except Err Unit}

/-! ## Runs -/

section Run
variable {procs procs' : Nat → Proc} {i r : Nat} {run run' : Run}

theorem RunOk.distribute (h : RunOk P w G procs r run) (hd : run.Distribute run') :
    RunOk P w G procs r run' := by
  cases hd with
  | @send rest _ o hc ht _ =>
    have ho : Passed P o := h.todo o (by rw [ht]; exact mem_cons_self)
    exact {
      todo := fun x hx => h.todo x (by rw [ht]; exact mem_cons_of_mem _ hx)
      chan := by
        intro x hx
        rcases mem_append.mp hx with hx | hx
        · exact h.chan x hx
        · rwa [mem_singleton.mp hx]
      passed := by
        intro x hx
        rcases mem_cons.mp hx with rfl | hx
        · exact ho
        · exact h.passed x hx
      cancelled := h.cancelled
      given := by
        intro he x hx
        rcases mem_cons.mp hx with rfl | hx
        · exact .inl (mem_append_right _ mem_cons_self)
        · exact (h.given he x hx).imp_left (mem_append_left _)
      seen := h.seen
      ret := fun he hret => by
        have hclosed := (h.ret he hret).2
        rw [hc] at hclosed
        cases hclosed
      manned := h.manned
      joined := fun j hj => by
        have hclosed := (h.joined j hj).1
        rw [hc] at hclosed
        cases hclosed }
  | @cancelled rest _ o hc ht hcan =>
    have herr := h.cancelled hcan
    exact {
      todo := fun x hx => h.todo x (by rw [ht]; exact mem_cons_of_mem _ hx)
      chan := h.chan
      passed := by
        intro x hx
        rcases mem_cons.mp hx with rfl | hx
        · exact h.todo x (by rw [ht]; exact mem_cons_self)
        · exact h.passed x hx
      cancelled := h.cancelled
      given := fun he => absurd he herr
      seen := fun he => absurd he herr
      ret := fun he => absurd he herr
      manned := h.manned
      joined := fun _ _ => ⟨rfl, fun he => absurd he herr⟩ }
  | @fail rest _ e hc ht =>
    have herr := run.fail_err e
    exact {
      todo := fun x hx => h.todo x (by rw [ht]; exact mem_cons_of_mem _ hx)
      chan := h.chan
      passed := h.passed
      cancelled := fun _ => herr
      given := fun he => absurd he herr
      seen := fun he => absurd he herr
      ret := fun he => absurd he herr
      manned := h.manned
      joined := fun _ _ => ⟨rfl, fun he => absurd he herr⟩ }
  | finish hc ht =>
    exact {
      todo := h.todo
      chan := h.chan
      passed := h.passed
      cancelled := h.cancelled
      given := h.given
      seen := h.seen
      ret := fun he hret => ⟨(h.ret he hret).1, rfl⟩
      manned := h.manned
      joined := fun j hj => ⟨rfl, (h.joined j hj).2⟩ }

/-- Once every writer has returned, everything the run was given is on disk. -/
theorem RunOk.all_kept (h : RunOk P w G procs r run) (hg : Good Z F False P D w G)
    (huniq : ∀ x y, P x → P y → x.key = y.key → x = y) (hi : procs i = .parallel r .wait)
    (hret : ∀ j g, procs j = .writer r g → g.pc = .ret) (he : run.err = none) :
    ∀ o ∈ run.given, Kept w G o := by
  have hidle : ∀ {Q : WriterPc → Prop}, ¬Q .ret → ¬Busy procs r Q := by
    rintro Q hQ ⟨j, g, hj, hg⟩
    rw [hret j g hj] at hg
    exact hQ hg
  have hsome : Busy procs r fun pc => pc = .ret := by
    obtain ⟨j, g, hj, -⟩ := h.manned i hi
    exact ⟨j, g, hj, hret j g hj⟩
  intro o ho
  rcases h.given he o ho with hx | hx | hx
  · rw [(h.ret he hsome).1] at hx
    cases hx
  · exact absurd hx (hidle (by rintro (hx | hx) <;> cases hx))
  · rcases h.seen he _ hx with hk | hk
    · exact absurd hk (hidle (by rintro ⟨_, _, _, hx, _⟩; cases hx))
    · intro hf
      obtain ⟨x, hdisk, hxk⟩ := hk hf
      obtain rfl := huniq x o (hdisk.prop hg) (h.passed o ho).1 hxk
      exact hdisk

theorem RunOk.join (h : RunOk P w G procs r run) (hclosed : run.closed = true)
    (hi : procs i = .parallel r .wait) (hkept : run.err = none → ∀ o ∈ run.given, Kept w G o) :
    RunOk P w G (Function.update procs i (.parallel r .sync)) r run := by
  refine h.frame (fun j g => ?_) (fun j hj => Proc.parallel_of_update hj nofun) fun _ _ => ⟨hclosed, hkept⟩
  by_cases hji : j = i
  · subst hji
    rw [Function.update_self, hi]
    exact ⟨nofun, nofun⟩
  · rw [Function.update_of_ne hji]

theorem Run.new_writers (hp : 0 < n) (seq : List (Except Err Object)) (writers batchSize : Int)
    (vfy : Bool) : 0 < (Run.new n seq writers batchSize vfy).writers := by
  simp only [Run.new]
  split
  · exact hp
  · omega

theorem RunOk.start (hseq : ∀ o, .ok o ∈ seq → Passed P o)
    (hwriter : ∀ j g, procs j = .writer r g → g.pc = .recv)
    (hsome : ∀ i, procs i = .parallel r .wait → ∃ j g, procs j = .writer r g)
    (hsync : ∀ j, procs j ≠ .parallel r .sync) :
    RunOk P w G procs r (.new n seq writers batchSize vfy) where
  todo := hseq
  chan := nofun
  passed := nofun
  cancelled := nofun
  given := nofun
  seen := nofun
  ret := by
    rintro - ⟨j, g, hj, hg⟩
    cases (hwriter j g hj).symm.trans hg
  manned := fun i hi => by
    obtain ⟨j, g, hj⟩ := hsome i hi
    exact ⟨j, g, hj, trivial⟩
  joined := fun j hj => absurd hj (hsync j)

end Run

/-! ## Goroutines -/

def ProcOk (Z : Zstd) (P : Object → Prop) (w : World) (G : Written) (D : Object → Prop) :
    Proc → Prop
  | .put o pc => Passed P o ∧ PutOk Z w G D o pc
  | .batch b => BatchOk Z P w G D b
  | .writer _ g => WriterOk Z P w G D g
  | .idle | .parallel _ _ => True

theorem ProcOk.stable (h : ProcOk Z P w G D p) (hg : Grows w G D w' G' D')
    (hs : p.holds → Still w G w' G') : ProcOk Z P w' G' D' p := by
  cases p with
  | put o pc =>
    refine ⟨h.1, ?_⟩
    cases pc with
    | work q => exact WorkOk.stable h.2 hg hs
    | check | observe | ret _ => exact trivial
  | batch b => exact BatchOk.stable h hg hs
  | writer r g => exact WriterOk.stable h hg hs
  | idle | parallel _ _ => exact trivial

/-- If the next step of the goroutine seals a segment, it has fewer than 2³² records. -/
def Proc.Small (s : Store) : Proc → Prop
  | .put _ pc => pc.Small s
  | .batch b => b.Small s
  | .writer _ g => g.Small s
  | .idle | .parallel _ _ => True

/-- No goroutine is about to seal a segment of 2³² records or more. -/
def Sys.Small (s : Sys) : Prop := ∀ i, (s.procs i).Small s.w.s

/-! ## The invariant -/

structure SysInv (Z : Zstd) (F : FuseLib) (P D : Object → Prop) (G : Written) (s : Sys) : Prop where
  good : Good Z F False P D s.w G
  sync : s.w.s.cfg.sync = true
  acked : ∀ o ∈ s.acked, D o
  one : ∀ i j, (s.procs i).holds → (s.procs j).holds → i = j
  procs : ∀ i, ProcOk Z P s.w G D (s.procs i)
  runs : ∀ r, RunOk P s.w G s.procs r (s.runs r)

namespace SysInv
variable {s : Sys} {i r : Nat}

/-- Goroutines change their state without touching the store. -/
theorem quiet (h : SysInv Z F P D G s) (hp : ∀ j, procs' j = s.procs j ∨
      (procs' j).holds = false ∧ ProcOk Z P s.w G D (procs' j))
    (hr : ∀ r, RunOk P s.w G procs' r (runs' r)) :
    SysInv Z F P D G { s with procs := procs', runs := runs' } := by
  have hholds : ∀ j, (procs' j).holds → (s.procs j).holds := by
    intro j hj
    rcases hp j with he | ⟨hf, -⟩
    · rwa [← he]
    · rw [hf] at hj
      cases hj
  refine ⟨h.good, h.sync, h.acked, fun i j hi hj => h.one i j (hholds i hi) (hholds j hj), ?_, hr⟩
  intro j
  rcases hp j with he | ⟨-, hok⟩
  · show ProcOk Z P s.w G D (procs' j)
    rw [he]
    exact h.procs j
  · exact hok

theorem quiet_one (h : SysInv Z F P D G s) (hp : p.holds = false) (hok : ProcOk Z P s.w G D p)
    (hr : ∀ r, RunOk P s.w G (Function.update s.procs i p) r (s.runs r)) :
    SysInv Z F P D G (s.setProc i p) := by
  refine h.quiet (fun j => ?_) hr
  by_cases hji : j = i
  · subst hji
    rw [Function.update_self]
    exact .inr ⟨hp, hok⟩
  · exact .inl (Function.update_of_ne hji ..)

/-- A goroutine takes a step on the store. The others hold on to what they know: one that holds
`appendMu` keeps this step away from the active segment. -/
theorem step (h : SysInv Z F P D G s) (takes : Bool)
    (hfits : Fits s.w G w' G' takes (s.procs i).holds p.holds)
    (hfree : takes = true → s.Free) (ha : After Z F P s.w G D w' G' D')
    (hp : ProcOk Z P w' G' D' p) (hacked : ∀ o ∈ acked', D' o)
    (hr : ∀ r, RunOk P w' G' (Function.update s.procs i p) r (runs' r)) :
    SysInv Z F P D' G' ⟨w', Function.update s.procs i p, runs', acked'⟩ := by
  have hother : ∀ j, j ≠ i → (s.procs j).holds = true → takes = false ∧ (s.procs i).holds = false := by
    intro j hji hj
    constructor
    · rw [← Bool.not_eq_true]
      intro ht
      rw [hfree ht j] at hj
      cases hj
    · rw [← Bool.not_eq_true]
      intro hi
      exact hji (h.one j i hj hi)
  have hnot : ∀ j, j ≠ i → p.holds = true → (s.procs j).holds = true → False := by
    intro j hji hp hj
    obtain ⟨ht, hi⟩ := hother j hji hj
    rcases hfits.holds hp with hx | hx
    · rw [ht] at hx
      cases hx
    · rw [hi] at hx
      cases hx
  refine ⟨ha.good, ha.grows.cfg ▸ h.sync, hacked, ?_, ?_, hr⟩
  · intro j k hj hk
    simp only [Function.update_apply] at hj hk
    split at hj <;> split at hk
    · next hji hki => rw [hji, hki]
    · next hji hki => exact (hnot k hki hj hk).elim
    · next hji hki => exact (hnot j hji hk hj).elim
    · exact h.one j k hj hk
  · intro j
    simp only [Function.update_apply]
    split
    · exact hp
    · next hji =>
      refine (h.procs j).stable ha.grows fun hj => ?_
      obtain ⟨ht, hi⟩ := hother j hji hj
      exact hfits.still ht hi

/-! ## Moves -/

/-- What a step of the system keeps: a crash in the middle loses nothing acknowledged before, and
the invariant holds at its end. -/
def Keeps (Z : Zstd) (F : FuseLib) (P D : Object → Prop) (tr : List World) (s' : Sys) : Prop :=
  (∀ t ∈ tr, Safe Z F P D t) ∧ ∃ G' D', SysInv Z F P D' G' s'

section
variable (h : SysInv Z F P D G s)
include h

theorem acks (hg : Grows s.w G D w' G' D') (hacks : ∀ o ∈ l, D' o) :
    ∀ o ∈ l ++ s.acked, D' o := by
  intro o ho
  rcases mem_append.mp ho with ho | ho
  · exact hacks o ho
  · exact hg.durable o (h.acked o ho)

section
variable (huniq : ∀ x y, P x → P y → x.key = y.key → x = y)
include huniq

theorem put
    (hsmall : s.Small) (hi : s.procs i = .put o pc) (hm : pc.run Z F o = some m)
    (hfree : pc.takes → s.Free) (hrun : m s.w = ⟨tr, .ok pc', w'⟩) :
    Keeps Z F P D tr { s.setProc i (.put o pc') with w := w', acked := pc'.acks o ++ s.acked } := by
  have hp := h.procs i
  have hs := hsmall i
  rw [hi] at hp hs
  obtain ⟨htr, G', D', ha, hok, hacks, hfits⟩ :=
    (PutPc.run_spec h.good h.sync huniq hp.1 hp.2 hs hm).of_run hrun
  refine ⟨htr, G', D', h.step pc.takes (by rw [hi]; exact hfits) hfree ha ⟨hp.1, hok⟩ ?_ ?_⟩
  · exact h.acks ha.grows hacks
  · intro r
    exact ((h.runs r).grows ha.grows).update (by rw [hi]; exact nofun) nofun nofun nofun

theorem batch
    (hsmall : s.Small) (hi : s.procs i = .batch b) (hm : b.run Z F = some m)
    (hfree : b.takes → s.Free) (hrun : m s.w = ⟨tr, .ok b', w'⟩) :
    Keeps Z F P D tr { s.setProc i (.batch b') with w := w', acked := b'.acks ++ s.acked } := by
  have hp := h.procs i
  have hs := hsmall i
  rw [hi] at hp hs
  obtain ⟨htr, G', D', ha, hok, hacks, hfits⟩ :=
    (Batch.run_spec h.good h.sync huniq hp hs hm).of_run hrun
  refine ⟨htr, G', D', h.step b.takes (by rw [hi]; exact hfits) hfree ha hok ?_ ?_⟩
  · exact h.acks ha.grows hacks
  · intro r
    exact ((h.runs r).grows ha.grows).update (by rw [hi]; exact nofun) nofun nofun nofun

theorem writer
    (hsmall : s.Small) (hi : s.procs i = .writer r g) (hm : m ∈ g.run Z F verify (s.runs r))
    (hfree : g.takes → s.Free) (hrun : m s.w = ⟨tr, .ok (run, g'), w'⟩) :
    Keeps Z F P D tr { (s.setProc i (.writer r g')).setRun r run with w := w' } := by
  have hp := h.procs i
  have hs := hsmall i
  rw [hi] at hp hs
  obtain ⟨htr, G', D', ha, hw⟩ :=
    (Writer.run_spec h.good h.sync huniq hi hp (h.runs r) hs hm).of_run hrun
  refine ⟨htr, G', D', h.step g.takes (by rw [hi]; exact hw.fits) hfree ha hw.writer
    (fun x hx => ha.grows.durable x (h.acked x hx)) fun r' => ?_⟩
  by_cases hr : r' = r
  · subst hr
    simp only [Sys.setProc, Sys.setRun, Function.update_self]
    exact hw.run
  · simp only [Sys.setProc, Sys.setRun, Function.update_of_ne hr]
    refine ((h.runs r').grows ha.grows).update ?_ ?_ nofun nofun
    · intro g0 hg0
      rw [hi] at hg0
      cases hg0
      exact hr rfl
    · intro g0 hg0
      cases hg0
      exact hr rfl

end

theorem sync_run (hi : s.procs i = .parallel r .sync) (hfree : s.Free)
    (hrun : syncRun (s.runs r) s.w = ⟨tr, .ok pc', w'⟩) :
    Keeps Z F P D tr { s.setProc i (.parallel r pc') with
      w := w', acked := pc'.acks (s.runs r) ++ s.acked } := by
  have hspec : (syncRun (s.runs r)).Wp (Safe Z F P D) (Post (fun pc' w' => ∃ G' D',
      After Z F P s.w G D w' G' D' ∧ (∀ x ∈ pc'.acks (s.runs r), D' x) ∧ ∃ e, pc' = .ret e)
      fun _ _ => False) s.w := by
    refine (syncActive_after h.good h.sync).tries ?_
    rintro e t ⟨G', D', ha, hD⟩
    refine wp_pure.mpr ⟨G', D', ha, ?_, _, rfl⟩
    cases herr : (s.runs r).err with
    | some e => exact nofun
    | none =>
      cases e with
      | error e => exact nofun
      | ok u => exact fun x hx => hD rfl x (((h.runs r).joined i hi).2 herr x hx)
  obtain ⟨htr, G', D', ha, hacks, e, rfl⟩ := hspec.of_run hrun
  refine ⟨htr, G', D', h.step true ⟨nofun, nofun⟩ (fun _ => hfree) ha trivial ?_ ?_⟩
  · intro x hx
    rcases mem_append.mp hx with hx | hx
    · exact hacks x hx
    · exact ha.grows.durable x (h.acked x hx)
  · intro r'
    exact ((h.runs r').grows ha.grows).update (by rw [hi]; exact nofun) nofun nofun nofun

theorem start_parallel {ws : List Nat} {procs : Nat → Proc}
    (hseq : ∀ o, .ok o ∈ seq → Passed P o) (hi : s.procs i = .idle) (hr : s.Unused r)
    (hws : ws ≠ []) (hiw : i ∉ ws) (hidle : ∀ j ∈ ws, s.procs j = .idle)
    (hprocs : procs = fun j => if j ∈ ws then .writer r ⟨0, .recv⟩
      else Function.update s.procs i (.parallel r .wait) j) :
    SysInv Z F P D G { s with
      procs := procs, runs := Function.update s.runs r (.new n seq writers batchSize vfy) } := by
  -- A goroutine of the new state is a writer of the new run, its caller, or one that was there.
  have hcases : ∀ j, procs j = .writer r ⟨0, .recv⟩ ∧ s.procs j = .idle ∨
      procs j = .parallel r .wait ∧ s.procs j = .idle ∨ procs j = s.procs j := by
    intro j
    rw [hprocs]
    by_cases hj : j ∈ ws
    · exact .inl ⟨if_pos hj, hidle j hj⟩
    · simp only [if_neg hj]
      by_cases hji : j = i
      · subst hji
        exact .inr (.inl ⟨Function.update_self .., hi⟩)
      · exact .inr (.inr (Function.update_of_ne hji ..))
  refine h.quiet (fun j => ?_) fun r' => ?_
  · rcases hcases j with ⟨hj, -⟩ | ⟨hj, -⟩ | hj
    · exact .inr (by rw [hj]; exact ⟨rfl, trivial⟩)
    · exact .inr (by rw [hj]; exact ⟨rfl, trivial⟩)
    · exact .inl hj
  by_cases hrr : r' = r
  · subst hrr
    rw [Function.update_self]
    refine .start hseq ?_ ?_ ?_
    · intro j g hg
      rcases hcases j with ⟨hj, -⟩ | ⟨hj, -⟩ | hj
      · cases hj.symm.trans hg
        rfl
      · cases hj.symm.trans hg
      · exact absurd (hj.symm.trans hg) ((hr j).1 g)
    · intro _ _
      obtain ⟨j, hj⟩ := exists_mem_of_ne_nil ws hws
      exact ⟨j, ⟨0, .recv⟩, by rw [hprocs]; exact if_pos hj⟩
    · intro j hg
      rcases hcases j with ⟨hj, -⟩ | ⟨hj, -⟩ | hj
      · cases hj.symm.trans hg
      · cases hj.symm.trans hg
      · exact (hr j).2 _ (hj.symm.trans hg)
  · rw [Function.update_of_ne hrr]
    have hsame : ∀ j p, p ≠ .idle → (∀ g, p ≠ .writer r g) → (∀ pc, p ≠ .parallel r pc) →
        (procs j = p ↔ s.procs j = p) := by
      intro j p hp hw hpar
      rcases hcases j with ⟨hj, hj'⟩ | ⟨hj, hj'⟩ | hj <;> rw [hj]
      · exact ⟨fun he => absurd he.symm (hw _), fun he => absurd (he.symm.trans hj') hp⟩
      · exact ⟨fun he => absurd he.symm (hpar _), fun he => absurd (he.symm.trans hj') hp⟩
    have hpar : ∀ pc pc', Proc.parallel r' pc ≠ .parallel r pc' := by
      intro pc pc' he
      cases he
      exact hrr rfl
    refine (h.runs r').frame (fun j g => hsame j _ nofun ?_ nofun)
      (fun j => (hsame j (.parallel r' .wait) nofun nofun (hpar _)).mp)
      fun j hj => (h.runs r').joined j ((hsame j (.parallel r' .sync) nofun nofun (hpar _)).mp hj)
    intro g' hg'
    cases hg'
    exact hrr rfl

theorem distribute (hd : (s.runs r).Distribute run) :
    SysInv Z F P D G (s.setRun r run) := by
  refine h.quiet (fun _ => .inl rfl) fun r' => ?_
  by_cases hr : r' = r
  · subst hr
    rw [Function.update_self]
    exact (h.runs r').distribute hd
  · rw [Function.update_of_ne hr]
    exact h.runs r'

theorem join (huniq : ∀ x y, P x → P y → x.key = y.key → x = y)
    (hi : s.procs i = .parallel r .wait) (hclosed : (s.runs r).closed)
    (hret : ∀ j g, s.procs j = .writer r g → g.pc = .ret) :
    SysInv Z F P D G (s.setProc i (.parallel r .sync)) := by
  refine h.quiet_one rfl trivial fun r' => ?_
  by_cases hr : r' = r
  · subst hr
    exact (h.runs r').join hclosed hi fun he => (h.runs r').all_kept h.good huniq hi hret he
  · refine (h.runs r').update (by rw [hi]; exact nofun) nofun nofun ?_
    intro he
    cases he
    exact hr rfl

theorem move (hok : ∀ o, ok o → Passed P o)
    (huniq : ∀ x y, P x → P y → x.key = y.key → x = y) (hsmall : s.Small)
    (hm : Move Z F verify ok s tr s') : Keeps Z F P D tr s' := by
  have hstart : ∀ {i p}, s.procs i = .idle → (∀ r g, p ≠ .writer r g) →
      (∀ r pc, p ≠ .parallel r pc) → ∀ r, RunOk P s.w G (Function.update s.procs i p) r (s.runs r) := by
    intro i p hi hw hp r
    exact (h.runs r).update (by rw [hi]; exact nofun) (hw r) (hp r _) (hp r _)
  cases hm with
  | startPut hi ho =>
    exact ⟨nofun, G, D, h.quiet_one rfl ⟨hok _ ho, trivial⟩ (hstart hi nofun nofun)⟩
  | startBatch hi hseq =>
    refine ⟨nofun, G, D, h.quiet_one rfl ?_ (hstart hi nofun nofun)⟩
    exact ⟨fun o ho => hok o (hseq o ho), nofun, nofun, nofun⟩
  | startParallel hi hr hn hseq hrun hlen hnd hiw hidle =>
    subst hrun
    refine ⟨nofun, G, D, h.start_parallel (fun o ho => hok o (hseq o ho)) hi hr ?_ hiw hidle rfl⟩
    rintro rfl
    exact absurd hlen (Run.new_writers hn ..).ne
  | put hi hm hfree hrun => exact h.put huniq hsmall hi hm hfree hrun
  | batch hi hm hfree hrun => exact h.batch huniq hsmall hi hm hfree hrun
  | distribute hd => exact ⟨nofun, G, D, h.distribute hd⟩
  | writer hi hm hfree hrun => exact h.writer huniq hsmall hi hm hfree hrun
  | join hi hclosed hret => exact ⟨nofun, G, D, h.join huniq hi hclosed hret⟩
  | sync hi hfree hrun => exact h.sync_run hi hfree hrun

end

end SysInv

end AmberStore.Packstore
