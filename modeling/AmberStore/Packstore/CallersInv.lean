import AmberStore.Packstore.CallersSpec

/-!
# The invariant of a store and its callers

Each goroutine's part of the invariant says what it has found or put on disk so far. It is stable
under the steps of the others: they take nothing away, and while a goroutine holds `appendMu` they
leave the active segment alone.
-/

namespace AmberStore.Packstore
open Bytes Amberpack Act List

variable {Z : Zstd} {F : FuseLib} {P D D' : Object → Prop} {w w' : World} {G G' : Written}
  {o : Object}

/-- An object with a canonical key that satisfies `P`. -/
def Passed (P : Object → Prop) (o : Object) : Prop := P o ∧ o.key.Canonical

/-- How a step of a goroutine that does or does not take or hold `appendMu` fits in. -/
structure Fits (w : World) (G : Written) (w' : World) (G' : Written) (takes holds holds' : Bool) :
    Prop where
  still : takes = false → holds = false → Still w G w' G'
  holds : holds' = true → takes = true ∨ holds = true

/-! ## Put -/

def PutOk (Z : Zstd) (w : World) (G : Written) (D : Object → Prop) (o : Object) : PutPc → Prop
  | .work p => WorkOk Z w G D o true p
  | _ => True

def PutPc.Small (s : Store) : PutPc → Prop
  | .work p => p.Small s
  | _ => True

theorem Good.observe (h : Good Z F clean P A w G) (k : Key) :
    Good Z F clean P A { w with s := w.s.observe k } G := h.setGrey _

theorem Work.run_fits {p : Work} {verify : Object → Except Err Unit}
    (h : Good Z F False P D w G) (hsync : w.s.cfg.sync = true)
    (huniq : ∀ x y, P x → P y → x.key = y.key → x = y) (ho : Passed P o)
    (hw : WorkOk Z w G D o b p) (hsmall : p.Small w.s) :
    (p.run Z F verify o b).Wp (Safe Z F P D) (fun r w' => ∃ G' D', After Z F P w G D w' G' D' ∧
      match r with
      | .error _ => Fits w G w' G' p.takes p.holds false
      | .ok (.goto q) => WorkOk Z w' G' D' o b q ∧ Fits w G w' G' p.takes p.holds q.holds
      | .ok (.done r) => WorkDone w' G' D' o b r ∧ Fits w G w' G' p.takes p.holds false) w := by
  cases p with
  | has =>
    refine (Work.has_spec h huniq ho.1).post_mono ?_
    rintro (e | (p | r)) t ht
    · obtain rfl := ht
      exact ⟨G, D, ⟨h, .refl ..⟩, fun _ _ => .refl .., nofun⟩
    · obtain ⟨rfl, hp, hq⟩ := ht
      exact ⟨G, D, ⟨h, .refl ..⟩, hp, fun _ _ => .refl .., fun hh => by rw [hq] at hh; cases hh⟩
    · obtain ⟨rfl, hr⟩ := ht
      exact ⟨G, D, ⟨h, .refl ..⟩, hr, fun _ _ => .refl .., nofun⟩
  | append rec | fsync a | rotate a =>
    refine (Work.run_spec h hsync huniq ho.1 ho.2 hw hsmall).post_mono ?_
    rintro (e | (p | r)) t ht
    · obtain ⟨G', D', ha⟩ := ht
      exact ⟨G', D', ha, nofun, nofun⟩
    · obtain ⟨G', D', ha, hp⟩ := ht
      exact ⟨G', D', ha, hp, nofun, fun _ => by simp [Work.takes, Work.holds]⟩
    · obtain ⟨G', D', ha, hr⟩ := ht
      exact ⟨G', D', ha, hr, nofun, nofun⟩

theorem PutPc.run_spec {pc : PutPc} (h : Good Z F False P D w G) (hsync : w.s.cfg.sync = true)
    (huniq : ∀ x y, P x → P y → x.key = y.key → x = y) (ho : Passed P o)
    (hpc : PutOk Z w G D o pc) (hsmall : pc.Small w.s) (hm : pc.run Z F o = some m) :
    m.Wp (Safe Z F P D) (Post (fun pc' w' => ∃ G' D', After Z F P w G D w' G' D' ∧
      PutOk Z w' G' D' o pc' ∧ (∀ x ∈ pc'.acks o, D' x) ∧
      Fits w G w' G' pc.takes pc.holds pc'.holds) fun _ _ => False) w := by
  cases pc with
  | check =>
    cases hm
    simp only [wp_bind, wp_getStore, post_ok]
    cases w.s.failed with
    | some e => exact wp_pure.mpr ⟨G, D, ⟨h, .refl ..⟩, trivial, by rintro _ ⟨⟩, fun _ _ => .refl .., by rintro ⟨⟩⟩
    | none => exact wp_pure.mpr ⟨G, D, ⟨h, .refl ..⟩, trivial, by rintro _ ⟨⟩, fun _ _ => .refl .., by rintro ⟨⟩⟩
  | observe =>
    cases hm
    simp only [wp_bind, Packstore.observe, wp_setStore, post_ok, wp_pure]
    exact ⟨G, D, ⟨h.observe _, .of_eq rfl rfl (fun _ => .rfl) fun _ hx => hx⟩, trivial, by rintro _ ⟨⟩,
      fun _ _ => ⟨rfl, rfl, rfl, rfl⟩, by rintro ⟨⟩⟩
  | work p =>
    cases hm
    refine (Work.run_fits h hsync huniq ho hpc hsmall).tries ?_
    rintro (e | (q | r)) t ⟨G', D', ha, hr⟩
    · exact wp_pure.mpr ⟨G', D', ha, trivial, by rintro _ ⟨⟩, hr⟩
    · exact wp_pure.mpr ⟨G', D', ha, hr.1, by rintro _ ⟨⟩, hr.2⟩
    · refine wp_pure.mpr ⟨G', D', ha, trivial, ?_, hr.2⟩
      intro x hx
      cases r with
      | stored =>
        rw [mem_singleton.mp hx]
        exact hr.1.2 rfl rfl
      | dedup | lost => cases hx
  | ret r => cases hm

/-! ## WriteBatch -/

/-- The invariant of a batch: what it has been given is on disk, except for the object it is at work
on. -/
structure BatchOk (Z : Zstd) (P : Object → Prop) (w : World) (G : Written) (D : Object → Prop)
    (b : Batch) : Prop where
  todo : ∀ o, .ok o ∈ b.todo → Passed P o
  given : ∀ o ∈ b.given, Passed P o
  seen : ∀ k ∈ b.seen, ∃ o ∈ b.given, o.key = k
  kept : match b.pc with
    | .next | .sync => ∀ x ∈ b.given, Kept w G x
    | .observe o => Passed P o ∧ ∀ x ∈ b.given, x = o ∨ Kept w G x
    | .work o p => Passed P o ∧ (∀ x ∈ b.given, x = o ∨ Kept w G x) ∧ WorkOk Z w G D o false p
    | .fail _ | .ret _ => True

def Batch.Small (s : Store) (b : Batch) : Prop :=
  match b.pc with
  | .work _ p => p.Small s
  | _ => True

theorem BatchOk.stable {b : Batch} (h : BatchOk Z P w G D b) (hg : Grows w G D w' G' D')
    (hs : b.holds → Still w G w' G') : BatchOk Z P w' G' D' b := by
  obtain ⟨todo, given, seen, appended, pc⟩ := b
  refine ⟨h.todo, h.given, h.seen, ?_⟩
  have hk := h.kept
  cases pc with
  | next | sync => exact fun x hx => (hk x hx).grows hg
  | observe o => exact ⟨hk.1, fun x hx => (hk.2 x hx).imp_right fun h => h.grows hg⟩
  | work o p =>
    exact ⟨hk.1, fun x hx => (hk.2.1 x hx).imp_right fun h => h.grows hg, hk.2.2.stable hg hs⟩
  | fail _ | ret _ => exact trivial

theorem BatchOk.advance {b : Batch} (huniq : ∀ x y, P x → P y → x.key = y.key → x = y)
    (h : BatchOk Z P w G D b) (hpc : b.pc = .next) : BatchOk Z P w G D b.advance := by
  obtain ⟨todo, given, seen, appended, pc⟩ := b
  subst hpc
  obtain ⟨htodo, hgiven, hseen, hkept⟩ := h
  unfold Batch.advance
  match todo with
  | [] => exact ⟨htodo, hgiven, hseen, hkept⟩
  | .error e :: todo => exact ⟨htodo, hgiven, hseen, trivial⟩
  | .ok o :: todo =>
    have ho : Passed P o := htodo o mem_cons_self
    have hrest : ∀ x, .ok x ∈ todo → Passed P x := fun x hx => htodo x (mem_cons_of_mem _ hx)
    have hall : ∀ x ∈ o :: given, Passed P x := by
      intro x hx
      rcases mem_cons.mp hx with rfl | hx
      · exact ho
      · exact hgiven x hx
    simp only
    split
    · next hin =>
      refine ⟨hrest, hall, fun k hk => ?_, fun x hx => ?_⟩
      · obtain ⟨x, hx, hxk⟩ := hseen k hk
        exact ⟨x, mem_cons_of_mem _ hx, hxk⟩
      · rcases mem_cons.mp hx with rfl | hx
        · obtain ⟨y, hy, hyk⟩ := hseen _ hin
          obtain rfl := huniq y x (hgiven y hy).1 ho.1 hyk
          exact hkept y hy
        · exact hkept x hx
    · refine ⟨hrest, hall, fun k hk => ?_, ho, fun x hx => ?_⟩
      · rcases mem_cons.mp hk with rfl | hk
        · exact ⟨o, mem_cons_self, rfl⟩
        · obtain ⟨x, hx, hxk⟩ := hseen k hk
          exact ⟨x, mem_cons_of_mem _ hx, hxk⟩
      · exact (mem_cons.mp hx).imp_right fun hx => hkept x hx

theorem Batch.advance_quiet {b : Batch} (hpc : b.pc = .next) :
    b.advance.acks = [] ∧ b.advance.holds = false := by
  obtain ⟨todo, given, seen, appended, pc⟩ := b
  subst hpc
  unfold Batch.advance
  match todo with
  | [] => exact ⟨rfl, rfl⟩
  | .error e :: todo => exact ⟨rfl, rfl⟩
  | .ok o :: todo =>
    simp only
    split <;> exact ⟨rfl, rfl⟩

theorem Batch.run_spec {b : Batch} (h : Good Z F False P D w G) (hsync : w.s.cfg.sync = true)
    (huniq : ∀ x y, P x → P y → x.key = y.key → x = y) (hb : BatchOk Z P w G D b)
    (hsmall : b.Small w.s) (hm : b.run Z F = some m) :
    m.Wp (Safe Z F P D) (Post (fun b' w' => ∃ G' D', After Z F P w G D w' G' D' ∧
      BatchOk Z P w' G' D' b' ∧ (∀ x ∈ b'.acks, D' x) ∧
      Fits w G w' G' b.takes b.holds b'.holds) fun _ _ => False) w := by
  obtain ⟨todo, given, seen, appended, pc⟩ := b
  have hok := hb
  obtain ⟨htodo, hgiven, hseen, hkept⟩ := hok
  cases pc with
  | next =>
    cases hm
    have hadv := hb.advance huniq rfl
    obtain ⟨hacks, hholds⟩ := Batch.advance_quiet (b := ⟨todo, given, seen, appended, .next⟩) rfl
    refine wp_pure.mpr ⟨G, D, ⟨h, .refl ..⟩, hadv, ?_, fun _ _ => .refl .., ?_⟩
    · simp [hacks]
    · simp [hholds]
  | observe o =>
    cases hm
    simp only [wp_bind, Packstore.observe, wp_setStore, post_ok, wp_pure]
    refine ⟨G, D, ⟨h.observe _, .of_eq rfl rfl (fun _ => .rfl) fun _ hx => hx⟩,
      ⟨htodo, hgiven, hseen, hkept.1, hkept.2, trivial⟩, by rintro _ ⟨⟩, fun _ _ => ⟨rfl, rfl, rfl, rfl⟩, by rintro ⟨⟩⟩
  | work o p =>
    cases hm
    obtain ⟨ho, hgk, hw⟩ := hkept
    refine (Work.run_fits h hsync huniq ho hw hsmall).tries ?_
    rintro (e | (q | r)) t ⟨G', D', ha, hr⟩
    · exact wp_pure.mpr ⟨G', D', ha, ⟨htodo, hgiven, hseen, trivial⟩, by rintro _ ⟨⟩, hr⟩
    · refine wp_pure.mpr ⟨G', D', ha, ⟨htodo, hgiven, hseen, ho, ?_, hr.1⟩, by rintro _ ⟨⟩, hr.2⟩
      exact fun x hx => (hgk x hx).imp_right fun h => h.grows ha.grows
    · have hnext : ∀ x ∈ given, Kept t G' x := by
        intro x hx
        rcases hgk x hx with rfl | hx
        · exact hr.1.1
        · exact hx.grows ha.grows
      cases r with
      | dedup | lost | stored =>
        exact wp_pure.mpr ⟨G', D', ha, ⟨htodo, hgiven, hseen, hnext⟩, by rintro _ ⟨⟩, hr.2⟩
  | fail e =>
    cases hm
    refine wp_bind.mpr (wp_runIf (fun _ => ?_) fun _ => ?_)
    · refine (syncActive_after h hsync).tries ?_
      rintro r t ⟨G', D', ha, -⟩
      exact wp_pure.mpr (wp_pure.mpr ⟨G', D', ha, ⟨htodo, hgiven, hseen, trivial⟩, by rintro _ ⟨⟩, by rintro ⟨⟩, by rintro ⟨⟩⟩)
    · exact wp_pure.mpr ⟨G, D, ⟨h, .refl ..⟩, ⟨htodo, hgiven, hseen, trivial⟩, by rintro _ ⟨⟩, by rintro ⟨⟩, by rintro ⟨⟩⟩
  | sync =>
    cases hm
    refine (syncActive_after h hsync).tries ?_
    rintro r t ⟨G', D', ha, hr⟩
    refine wp_pure.mpr ⟨G', D', ha, ⟨htodo, hgiven, hseen, trivial⟩, fun x hx => ?_, by rintro ⟨⟩, by rintro ⟨⟩⟩
    cases r with
    | error e => cases hx
    | ok u => exact hr rfl x (hkept x hx)
  | ret r => cases hm

/-! ## WriteParallel -/

/-- Some writer of the run is in a state with `Q`. -/
def Busy (procs : Nat → Proc) (r : Nat) (Q : WriterPc → Prop) : Prop :=
  ∃ j g, procs j = .writer r g ∧ Q g.pc

section Busy
variable {procs : Nat → Proc} {Q Q' : WriterPc → Prop} {p : Proc} {i r : Nat}

theorem Busy.update (h : Busy procs r Q) (hi : ∀ g, procs i = .writer r g → Q g.pc →
    ∃ g', p = .writer r g' ∧ Q g'.pc) : Busy (Function.update procs i p) r Q := by
  obtain ⟨j, g, hj, hg⟩ := h
  by_cases hji : j = i
  · subst hji
    obtain ⟨g', rfl, hg'⟩ := hi g hj hg
    exact ⟨j, g', Function.update_self .., hg'⟩
  · exact ⟨j, g, by rw [Function.update_of_ne hji, hj], hg⟩

theorem Busy.of_update (h : Busy (Function.update procs i p) r Q) :
    Busy procs r Q ∨ ∃ g, p = .writer r g ∧ Q g.pc := by
  obtain ⟨j, g, hj, hg⟩ := h
  by_cases hji : j = i
  · subst hji
    rw [Function.update_self] at hj
    exact .inr ⟨g, hj, hg⟩
  · rw [Function.update_of_ne hji] at hj
    exact .inl ⟨j, g, hj, hg⟩

theorem Busy.self (procs : Nat → Proc) (i r : Nat) (g : Writer) (hg : Q g.pc) :
    Busy (Function.update procs i (.writer r g)) r Q := ⟨i, g, Function.update_self .., hg⟩

theorem Proc.parallel_of_update (h : Function.update procs i p j = .parallel r pc)
    (hp : p ≠ .parallel r pc) : procs j = .parallel r pc := by
  by_cases hji : j = i
  · subst hji
    rw [Function.update_self] at h
    exact absurd h hp
  · rwa [Function.update_of_ne hji] at h

end Busy

/-- Unless the store is poisoned, the key is on disk. -/
def KeptKey (w : World) (G : Written) (k : Key) : Prop :=
  w.s.failed = none → ∃ x, OnDisk w.fs G x ∧ x.key = k

theorem KeptKey.grows (h : KeptKey w G k) (hg : Grows w G D w' G' D') : KeptKey w' G' k := by
  intro hf
  obtain ⟨hf', hdisk⟩ := hg.disk hf
  obtain ⟨x, hx, hk⟩ := h hf'
  exact ⟨x, hdisk x hx, hk⟩

theorem Kept.key (h : Kept w G o) : KeptKey w G o.key := fun hf => ⟨o, h hf, rfl⟩

/-- The writer is at work on an object with the key. -/
def WriterPc.on (k : Key) (pc : WriterPc) : Prop := ∃ o p n, pc = .work o p n ∧ o.key = k

/-- The writer has received the object and not looked at its key yet. -/
def WriterPc.fresh (o : Object) (pc : WriterPc) : Prop := pc = .observe o ∨ pc = .seen o

/-- The invariant of a run. Unless it has failed, each object it was given is in the channel, with a
writer, or has its key in `seen`; and each key in `seen` is with a writer or on disk. -/
structure RunOk (P : Object → Prop) (w : World) (G : Written) (procs : Nat → Proc) (r : Nat)
    (run : Run) : Prop where
  todo : ∀ o, .ok o ∈ run.todo → Passed P o
  chan : ∀ o ∈ run.chan, Passed P o
  passed : ∀ o ∈ run.given, Passed P o
  cancelled : run.cancelled = true → run.err ≠ none
  given : run.err = none → ∀ o ∈ run.given, o ∈ run.chan ∨
    Busy procs r (·.fresh o) ∨ o.key ∈ run.seen
  seen : run.err = none → ∀ k ∈ run.seen,
    Busy procs r (·.on k) ∨ KeptKey w G k
  ret : run.err = none → Busy procs r (fun pc => pc = .ret) → run.chan = [] ∧ run.closed = true
  manned : ∀ i, procs i = .parallel r .wait → Busy procs r fun _ => True
  joined : ∀ i, procs i = .parallel r .sync →
    run.closed = true ∧ (run.err = none → ∀ o ∈ run.given, Kept w G o)

section RunOk
variable {procs : Nat → Proc} {p : Proc} {i r : Nat} {run : Run}

section
variable (h : RunOk P w G procs r run)
include h

theorem RunOk.grows (hg : Grows w G D w' G' D') :
    RunOk P w' G' procs r run where
  todo := h.todo
  chan := h.chan
  passed := h.passed
  cancelled := h.cancelled
  given := h.given
  seen := fun he k hk => (h.seen he k hk).imp_right fun h => h.grows hg
  ret := h.ret
  manned := h.manned
  joined := fun j hj => ⟨(h.joined j hj).1, fun he o ho => ((h.joined j hj).2 he o ho).grows hg⟩

theorem RunOk.frame
    (hw : ∀ j g, procs' j = .writer r g ↔ procs j = .writer r g)
    (hwait : ∀ j, procs' j = .parallel r .wait → procs j = .parallel r .wait)
    (hsync : ∀ j, procs' j = .parallel r .sync →
      run.closed = true ∧ (run.err = none → ∀ o ∈ run.given, Kept w G o)) :
    RunOk P w G procs' r run := by
  have hbusy : ∀ {Q}, Busy procs' r Q ↔ Busy procs r Q := by
    intro Q
    simp only [Busy, hw]
  exact {
    todo := h.todo
    chan := h.chan
    passed := h.passed
    cancelled := h.cancelled
    given := fun he o ho => (h.given he o ho).imp_right fun h => h.imp_left hbusy.mpr
    seen := fun he k hk => (h.seen he k hk).imp_left hbusy.mpr
    ret := fun he hret => h.ret he (hbusy.mp hret)
    manned := fun j hj => hbusy.mpr (h.manned j (hwait j hj))
    joined := hsync }

theorem RunOk.update (hold : ∀ g, procs i ≠ .writer r g)
    (hnew : ∀ g, p ≠ .writer r g) (hwait : p ≠ .parallel r .wait) (hsync : p ≠ .parallel r .sync) :
    RunOk P w G (Function.update procs i p) r run := by
  refine h.frame (fun j g => ?_) (fun j hj => Proc.parallel_of_update hj hwait)
    fun j hj => h.joined j (Proc.parallel_of_update hj hsync)
  by_cases hji : j = i
  · subst hji
    rw [Function.update_self]
    exact ⟨fun hg => absurd hg (hnew g), fun hg => absurd hg (hold g)⟩
  · rw [Function.update_of_ne hji]

theorem RunOk.failed (g' : Writer) (hrun : run'.todo = run.todo) (hchan : ∀ o ∈ run'.chan, o ∈ run.chan)
    (hgiven : run'.given = run.given) (hclosed : run'.closed = run.closed) (herr : run'.err ≠ none) :
    RunOk P w G (Function.update procs i (.writer r g')) r run' := by
  exact {
    todo := hrun ▸ h.todo
    chan := fun o ho => h.chan o (hchan o ho)
    passed := hgiven ▸ h.passed
    cancelled := fun _ => herr
    given := fun he => absurd he herr
    seen := fun he => absurd he herr
    ret := fun he => absurd he herr
    manned := fun j hj => ⟨i, g', Function.update_self .., trivial⟩
    joined := fun j hj => ⟨hclosed ▸ (h.joined j (Proc.parallel_of_update hj nofun)).1, fun he => absurd he herr⟩ }

theorem RunOk.writer {g g' : Writer} (hi : procs i = .writer r g)
    {chan : List Object} {seen : List Key} (hchan : ∀ o ∈ chan, o ∈ run.chan)
    (hnil : run.chan = [] → chan = []) (hsub : ∀ k ∈ run.seen, k ∈ seen)
    (hgiven : run.err = none → ∀ o ∈ run.given, o ∈ run.chan ∨ g.pc.fresh o →
      o ∈ chan ∨ g'.pc.fresh o ∨ o.key ∈ seen)
    (hseen : run.err = none → ∀ k ∈ seen, k ∈ run.seen ∧ ¬g.pc.on k ∨ g'.pc.on k ∨ KeptKey w G k)
    (hret : run.err = none → g'.pc = .ret → run.chan = [] ∧ run.closed = true) :
    RunOk P w G (Function.update procs i (.writer r g')) r { run with chan, seen } := by
  exact {
    todo := h.todo
    chan := fun o ho => h.chan o (hchan o ho)
    passed := h.passed
    cancelled := h.cancelled
    given := by
      intro he o ho
      have hnew : o ∈ run.chan ∨ g.pc.fresh o → _ := fun hx => (hgiven he o ho hx).imp_right
        fun hx => hx.imp_left fun hx => Busy.self procs i r g' hx
      rcases h.given he o ho with hx | hx | hx
      · exact hnew (.inl hx)
      · by_cases hg : g.pc.fresh o
        · exact hnew (.inr hg)
        · refine .inr (.inl (hx.update fun g0 hg0 hfresh => ?_))
          cases hi.symm.trans hg0
          exact absurd hfresh hg
      · exact .inr (.inr (hsub _ hx))
    seen := by
      intro he k hk
      rcases hseen he k hk with ⟨hk, hno⟩ | hon | hkept
      · refine (h.seen he k hk).imp_left fun hx => hx.update fun g0 hg0 hon => ?_
        cases hi.symm.trans hg0
        exact absurd hon hno
      · exact .inl (Busy.self procs i r g' hon)
      · exact .inr hkept
    ret := by
      intro he hx
      rcases hx.of_update with hx | ⟨g0, hg0, hpc⟩
      · exact ⟨hnil (h.ret he hx).1, (h.ret he hx).2⟩
      · cases hg0
        exact ⟨hnil (hret he hpc).1, (hret he hpc).2⟩
    manned := fun j hj => (h.manned j (Proc.parallel_of_update hj nofun)).update fun _ _ _ => ⟨g', rfl, trivial⟩
    joined := fun j hj => h.joined j (Proc.parallel_of_update hj nofun) }

theorem RunOk.work {g g' : Writer} (hi : procs i = .writer r g)
    (hfresh : ∀ o, ¬g.pc.fresh o) (hret : g'.pc ≠ .ret)
    (hon : ∀ k, g.pc.on k → g'.pc.on k ∨ KeptKey w G k) :
    RunOk P w G (Function.update procs i (.writer r g')) r run := by
  refine h.writer hi (fun _ ho => ho) (fun h => h) (fun _ hk => hk) ?_ ?_ fun _ hpc => absurd hpc hret
  · rintro - x - (hx | hx)
    · exact .inl hx
    · exact absurd hx (hfresh x)
  · intro _ k hk
    by_cases hg : g.pc.on k
    · exact .inr (hon k hg)
    · exact .inl ⟨hk, hg⟩

end

end RunOk

/-! ### The writers -/

theorem Run.fail_err (r : Run) (e : Err) : (r.fail e).err ≠ none := by
  unfold Run.fail
  cases r.err <;> exact nofun

def WriterOk (Z : Zstd) (P : Object → Prop) (w : World) (G : Written) (D : Object → Prop)
    (g : Writer) : Prop :=
  match g.pc with
  | .observe o | .seen o => Passed P o
  | .work o p _ => Passed P o ∧ WorkOk Z w G D o false p
  | .recv | .flush | .ret => True

theorem WriterOk.stable {g : Writer} (h : WriterOk Z P w G D g) (hg : Grows w G D w' G' D')
    (hs : g.holds → Still w G w' G') : WriterOk Z P w' G' D' g := by
  obtain ⟨pending, pc⟩ := g
  cases pc with
  | observe o | seen o => exact h
  | work o p n => exact ⟨h.1, h.2.stable hg hs⟩
  | recv | flush | ret => exact trivial

def Writer.Small (s : Store) (g : Writer) : Prop :=
  match g.pc with
  | .work _ p _ => p.Small s
  | _ => True

/-- The outcome of a writer's step. -/
structure WriterStep (Z : Zstd) (P : Object → Prop) (procs : Nat → Proc) (i r : Nat) (w : World)
    (G : Written) (g : Writer) (run' : Run) (g' : Writer) (w' : World) (G' : Written)
    (D' : Object → Prop) : Prop where
  writer : WriterOk Z P w' G' D' g'
  run : RunOk P w' G' (Function.update procs i (.writer r g')) r run'
  fits : Fits w G w' G' g.takes g.holds g'.holds

def WriterPost (Z : Zstd) (F : FuseLib) (P : Object → Prop) (procs : Nat → Proc) (i r : Nat)
    (w : World) (G : Written) (D : Object → Prop) (g : Writer) : Except Err (Run × Writer) → World →
    Prop :=
  Post (fun q w' => ∃ G' D', After Z F P w G D w' G' D' ∧
    WriterStep Z P procs i r w G g q.1 q.2 w' G' D') fun _ _ => False

theorem Writer.appended_pc (g : Writer) (n m : Nat) :
    (g.appended n m).pc = .flush ∨ (g.appended n m).pc = .recv := by
  unfold Writer.appended
  split
  · exact .inl rfl
  · exact .inr rfl

section Writer
variable {procs : Nat → Proc} {run : Run} {i r : Nat} {verify : Object → Except Err Unit}

section
variable (h : Good Z F False P D w G)
include h

theorem Writer.recv_spec (hi : procs i = .writer r ⟨n, .recv⟩)
    (hr : RunOk P w G procs r run) (hm : m ∈ Writer.run Z F verify run ⟨n, .recv⟩) :
    m.Wp (Safe Z F P D) (WriterPost Z F P procs i r w G D ⟨n, .recv⟩) w := by
  rcases mem_append.mp hm with hm | hm
  · split at hm
    · next hc =>
      obtain rfl := mem_singleton.mp hm
      exact wp_pure.mpr ⟨G, D, ⟨h, .refl ..⟩, trivial,
        hr.failed _ rfl (fun _ ho => ho) rfl rfl (hr.cancelled hc), fun _ _ => .refl .., nofun⟩
    · cases hm
  · obtain ⟨todo, given, chan, closed, seen, cancelled, err, writers, batchSize, vfy⟩ := run
    cases chan with
    | cons o chan =>
      obtain rfl := mem_singleton.mp hm
      refine wp_pure.mpr ⟨G, D, ⟨h, .refl ..⟩, hr.chan o mem_cons_self, ?_,
        fun _ _ => .refl .., nofun⟩
      refine hr.writer hi (fun _ => mem_cons_of_mem _) nofun (fun _ hk => hk) ?_
        (fun _ k hk => .inl ⟨hk, nofun⟩) nofun
      rintro - x - (hx | hx | hx)
      · rcases mem_cons.mp hx with rfl | hx
        · exact .inr (.inl (.inl rfl))
        · exact .inl hx
      · cases hx
      · cases hx
    | nil =>
      cases closed with
      | false => cases hm
      | true =>
        obtain rfl := mem_singleton.mp hm
        refine wp_pure.mpr ⟨G, D, ⟨h, .refl ..⟩, trivial, ?_, fun _ _ => .refl .., nofun⟩
        refine hr.writer hi (fun _ ho => ho) (fun h => h) (fun _ hk => hk) ?_
          (fun _ k hk => .inl ⟨hk, nofun⟩) fun _ _ => ⟨rfl, rfl⟩
        rintro - x - (hx | hx | hx) <;> cases hx

theorem Writer.observe_spec
    (hi : procs i = .writer r ⟨n, .observe o⟩) (ho : Passed P o) (hr : RunOk P w G procs r run)
    (hm : m ∈ Writer.run Z F verify run ⟨n, .observe o⟩) :
    m.Wp (Safe Z F P D) (WriterPost Z F P procs i r w G D ⟨n, .observe o⟩) w := by
  obtain rfl := mem_singleton.mp hm
  simp only [wp_bind, Packstore.observe, wp_setStore, post_ok, wp_pure]
  have hgrow : Grows w G D { w with s := w.s.observe o.key } G D :=
    .of_eq rfl rfl (fun _ => .rfl) fun _ hx => hx
  refine ⟨G, D, ⟨h.observe _, hgrow⟩, ho, ?_, fun _ _ => ⟨rfl, rfl, rfl, rfl⟩, by rintro ⟨⟩⟩
  refine (hr.grows hgrow).writer hi (fun _ ho => ho) (fun h => h) (fun _ hk => hk) ?_
    (fun _ k hk => .inl ⟨hk, by rintro ⟨_, _, _, ⟨⟩, _⟩⟩) (by rintro _ ⟨⟩)
  rintro - x - (hx | hx | hx)
  · exact .inl hx
  · cases hx
    exact .inr (.inl (.inr rfl))
  · cases hx

/-- A writer leaves the object to whoever saw its key first. -/
theorem Writer.seen_spec
    (hi : procs i = .writer r ⟨n, .seen o⟩) (ho : Passed P o) (hr : RunOk P w G procs r run)
    (hm : m ∈ Writer.run Z F verify run ⟨n, .seen o⟩) :
    m.Wp (Safe Z F P D) (WriterPost Z F P procs i r w G D ⟨n, .seen o⟩) w := by
  simp only [Writer.run] at hm
  split at hm
  · next hin =>
    obtain rfl := mem_singleton.mp hm
    refine wp_pure.mpr ⟨G, D, ⟨h, .refl ..⟩, trivial, ?_, fun _ _ => .refl .., nofun⟩
    refine hr.writer hi (fun _ ho => ho) (fun h => h) (fun _ hk => hk) ?_
      (fun _ k hk => .inl ⟨hk, nofun⟩) nofun
    rintro - x - (hx | hx | hx)
    · exact .inl hx
    · cases hx
    · cases hx
      exact .inr (.inr hin)
  · obtain rfl := mem_singleton.mp hm
    refine wp_pure.mpr ⟨G, D, ⟨h, .refl ..⟩, ⟨ho, trivial⟩, ?_, fun _ _ => .refl .., nofun⟩
    refine hr.writer hi (fun _ ho => ho) (fun h => h) (fun _ => mem_cons_of_mem _) ?_ ?_ nofun
    · rintro - x - (hx | hx | hx)
      · exact .inl hx
      · cases hx
      · cases hx
        exact .inr (.inr mem_cons_self)
    · intro _ k hk
      rcases mem_cons.mp hk with rfl | hk
      · exact .inr (.inl ⟨o, .has, 0, rfl, rfl⟩)
      · exact .inl ⟨hk, nofun⟩

theorem Writer.work_spec (hsync : w.s.cfg.sync = true)
    (huniq : ∀ x y, P x → P y → x.key = y.key → x = y)
    (hi : procs i = .writer r ⟨c, .work o p n⟩) (ho : Passed P o)
    (hw : WorkOk Z w G D o false p) (hr : RunOk P w G procs r run) (hsmall : p.Small w.s)
    (hm : m ∈ Writer.run Z F verify run ⟨c, .work o p n⟩) :
    m.Wp (Safe Z F P D) (WriterPost Z F P procs i r w G D ⟨c, .work o p n⟩) w := by
  obtain rfl := mem_singleton.mp hm
  have hfresh : ∀ x, ¬WriterPc.fresh x (.work o p n) := by
    rintro x (hx | hx) <;> cases hx
  refine (Work.run_fits h hsync huniq ho hw hsmall).tries ?_
  rintro (e | (q | d)) t ⟨G', D', ha, hq⟩
  · refine wp_pure.mpr ⟨G', D', ha, trivial, ?_, hq⟩
    exact (hr.grows ha.grows).failed _ rfl (fun _ ho => ho) rfl rfl (run.fail_err e)
  · refine wp_pure.mpr ⟨G', D', ha, ⟨ho, hq.1⟩, ?_, hq.2⟩
    refine (hr.grows ha.grows).work hi hfresh nofun fun k hk => ?_
    obtain ⟨_, _, _, hpc, rfl⟩ := hk
    cases hpc
    exact .inl ⟨o, q, _, rfl, rfl⟩
  · have hdone : ∀ k, WriterPc.on k (.work o p n) → KeptKey t G' k := by
      rintro k ⟨_, _, _, hpc, rfl⟩
      cases hpc
      exact hq.1.1.key
    cases d with
    | dedup =>
      exact wp_pure.mpr ⟨G', D', ha, trivial,
        (hr.grows ha.grows).work hi hfresh nofun fun k hk => .inr (hdone k hk), hq.2⟩
    | lost | stored =>
      refine wp_pure.mpr ⟨G', D', ha, ?_⟩
      rcases Writer.appended_pc ⟨c, .work o p n⟩ run.batchSize n with hpc | hpc
      all_goals
        refine ⟨by simp only [WriterOk, hpc], ?_,
          by simpa only [Writer.holds, Writer.takes, hpc] using hq.2⟩
        exact (hr.grows ha.grows).work hi hfresh (by rw [hpc]; exact nofun)
          fun k hk => .inr (hdone k hk)

theorem Writer.flush_spec (hsync : w.s.cfg.sync = true)
    (hi : procs i = .writer r ⟨n, .flush⟩) (hr : RunOk P w G procs r run)
    (hm : m ∈ Writer.run Z F verify run ⟨n, .flush⟩) :
    m.Wp (Safe Z F P D) (WriterPost Z F P procs i r w G D ⟨n, .flush⟩) w := by
  obtain rfl := mem_singleton.mp hm
  refine (syncActive_after h hsync).tries ?_
  rintro (e | ⟨⟩) t ⟨G', D', ha, -⟩
  · refine wp_pure.mpr ⟨G', D', ha, trivial, ?_, nofun, nofun⟩
    exact (hr.grows ha.grows).failed _ rfl (fun _ ho => ho) rfl rfl (run.fail_err e)
  · refine wp_pure.mpr ⟨G', D', ha, trivial, ?_, nofun, nofun⟩
    exact (hr.grows ha.grows).work hi (by rintro x (hx | hx) <;> cases hx) nofun nofun

theorem Writer.run_spec {g : Writer} (hsync : w.s.cfg.sync = true)
    (huniq : ∀ x y, P x → P y → x.key = y.key → x = y) (hi : procs i = .writer r g)
    (hg : WriterOk Z P w G D g) (hr : RunOk P w G procs r run) (hsmall : g.Small w.s)
    (hm : m ∈ g.run Z F verify run) :
    m.Wp (Safe Z F P D) (WriterPost Z F P procs i r w G D g) w := by
  obtain ⟨pending, pc⟩ := g
  cases pc with
  | recv => exact recv_spec h hi hr hm
  | observe o => exact observe_spec h hi hg hr hm
  | seen o => exact seen_spec h hi hg hr hm
  | work o p n => exact work_spec h hsync huniq hi hg.1 hg.2 hr hsmall hm
  | flush => exact flush_spec h hsync hi hr hm
  | ret => cases hm

end

end Writer

end AmberStore.Packstore
