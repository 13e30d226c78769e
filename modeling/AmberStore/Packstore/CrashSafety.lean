import AmberStore.Packstore.CallersSystem
import AmberStore.Packstore.Overfull

/-!
# Acknowledged writes survive a crash

A store goes up when `Open` succeeds and down when the machine crashes, at any point of any
interleaving of its callers. What a crash leaves can be opened again, and every object that was
acknowledged is there.
-/

namespace AmberStore.Packstore
open Bytes Amberpack Act List Function

/-! ## The system -/

/-- A running store with its callers, or the directory a crash has left. `acked` lists what the
calls that returned nil have acknowledged. -/
inductive State where
  | up (s : Sys)
  | down (fs : FS Name) (acked : List Object)

/-- The state `Open` starts in; `faults` says which fsyncs will fail. -/
def reboot (cfg : Config) (fs : FS Name) (faults : List (Option Nat)) : World := ⟨fs, .new cfg, [], faults⟩

/-- A store that nobody has called yet. -/
def Sys.start (w : World) (acked : List Object) : Sys :=
  ⟨w, fun _ => .idle, fun _ => .new 1 [] 0 0 false, acked⟩

/-- The objects callers write: canonical keys, each with one payload. -/
def Fixed (content : Key → Bytes) (o : Object) : Prop := o.key.Canonical ∧ o.data = content o.key

/-- The image of a crash. No truncated footer in it passes the footer's checks. -/
structure Image (Z : Zstd) (F : FuseLib) (fs fs' : FS Name) : Prop where
  crash : FS.Crash fs fs'
  cut : ∀ id i, (.active id, i) ∈ fs'.cur → ∀ c, CutFooterFails Z F c (fs'.files i).data

inductive Step (Z : Zstd) (F : FuseLib) (verify : Object → Except Err Unit)
    (content : Key → Bytes) : State → State → Prop
  | move : Move Z F verify (Fixed content) s tr s' → Step Z F verify content (.up s) (.up s')
  | crash : Image Z F s.w.fs fs → Step Z F verify content (.up s) (.down fs s.acked)
  | crashIn : Move Z F verify (Fixed content) s tr s' → t ∈ tr → Image Z F t.fs fs →
    Step Z F verify content (.up s) (.down fs s.acked)
  | opened : cfg.sync = true → openStore cfg (reboot cfg fs faults) = ⟨tr, .ok (), w⟩ →
    Step Z F verify content (.down fs acked) (.up (.start w acked))
  | crashOpen : openStore cfg (reboot cfg fs faults) = ⟨tr, r, w⟩ → t ∈ tr ∨ t = w →
    Image Z F t.fs fs' → Step Z F verify content (.down fs acked) (.down fs' acked)

/-- A step before which no goroutine is about to seal a segment of 2³² records or more. -/
def SmallStep (Z : Zstd) (F : FuseLib) (verify : Object → Except Err Unit) (content : Key → Bytes)
    (a b : State) : Prop :=
  Step Z F verify content a b ∧ ∀ s, a = .up s → s.Small

/-- An empty directory. -/
def Fresh (a : State) : Prop := a = .down emptyDir []

/-! ## The invariant -/

variable {Z : Zstd} {F : FuseLib} {P D : Object → Prop} {w : World} {G : Written} {o : Object}
  {verify : Object → Except Err Unit} {content : Key → Bytes}

/-- An object with the payload of its key. -/
def Pairs (content : Key → Bytes) (o : Object) : Prop := o.data = content o.key

theorem Pairs.unique : ∀ x y, Pairs content x → Pairs content y → x.key = y.key → x = y := by
  rintro ⟨k, d⟩ ⟨k', d'⟩ hx hy rfl
  exact congrArg _ (Eq.trans hx hy.symm)

theorem Fixed.passed (h : Fixed content o) : Passed (Pairs content) o := ⟨h.2, h.1⟩

def State.Inv (Z : Zstd) (F : FuseLib) (P : Object → Prop) : State → Prop
  | .up s => ∃ G D, SysInv Z F P D G s
  | .down fs acked => ∃ G, Durable Z F P (· ∈ acked) fs G ∧ Openable Z F fs G

theorem Durable.onDisk (h : Durable Z F P A fs G) (ho : A o) : OnDisk fs G o := by
  obtain ⟨e, he, done, rest, hobjs, hmem, -⟩ := (h.dirs _ mem_cons_self).2 o ho
  exact ⟨e, he, by rw [hobjs]; exact mem_append_left _ hmem⟩

theorem Good.get_eq (h : Good Z F clean P A w G) (hf : w.s.failed = none)
    (huniq : ∀ x y, P x → P y → x.key = y.key → x = y) (ho : OnDisk w.fs G o) :
    get Z F w.fs w.s o.key = .ok o.data := by
  have hm := h.mounted hf
  have hd := h.durable.cur
  obtain ⟨x, hx⟩ := Option.isSome_iff_exists.mp
    (Layout.lookup_isSome.mpr ⟨o, (hm.mem_objects hd).mpr ho, rfl⟩)
  obtain ⟨hmem, hk⟩ := Layout.lookup_mem hx
  have hdisk := (hm.mem_objects hd).mp hmem
  obtain rfl := huniq x o (hdisk.prop h) (ho.prop h) hk
  rw [(hm.rep hd).get_eq hm.closed, hx]

theorem Safe.down (h : Safe Z F P D w) (hi : Image Z F w.fs fs) (hacked : ∀ o ∈ acked, D o) :
    (State.down fs acked).Inv Z F P := by
  obtain ⟨G, hd⟩ := h
  exact ⟨G, (hd.crash hi.crash).mono hacked, .crash hi.crash fun id i hmem => hi.cut id i hmem (G i)⟩

theorem State.Inv.openStore (h : (State.down fs acked).Inv Z F P) (cfg : Config)
    (faults : List (Option Nat)) : (openStore cfg).Wp (Safe Z F P (· ∈ acked))
      (fun r w => Safe Z F P (· ∈ acked) w ∧ (r = .ok () →
        w.s.cfg = cfg ∧ ∃ G, Good Z F False P (· ∈ acked) w G)) (reboot cfg fs faults) := by
  obtain ⟨G, hd, ho⟩ := h
  refine (openStore_spec False cfg rfl nofun hd ho).post_mono ?_
  rintro (e | ⟨⟩) t ht
  · exact ⟨ht.2, nofun⟩
  · obtain ⟨G', hg, -, hcfg, -⟩ := ht
    exact ⟨hg.safe, fun _ => ⟨hcfg, G', hg⟩⟩

theorem SysInv.start {acked : List Object} (h : Good Z F False P (· ∈ acked) w G) (hsync : w.s.cfg.sync = true) :
    SysInv Z F P (· ∈ acked) G (.start w acked) where
  good := h
  sync := hsync
  acked := fun _ ho => ho
  one := nofun
  procs := fun _ => trivial
  runs := fun _ => .start nofun nofun nofun nofun

theorem State.Inv.step (h : a.Inv Z F (Pairs content)) (hs : SmallStep Z F verify content a b) :
    b.Inv Z F (Pairs content) := by
  obtain ⟨hs, hsmall⟩ := hs
  cases hs with
  | move hm =>
    obtain ⟨G, D, hinv⟩ := h
    exact (hinv.move (fun _ => Fixed.passed) Pairs.unique (hsmall _ rfl) hm).2
  | crash hi =>
    obtain ⟨G, D, hinv⟩ := h
    exact hinv.good.safe.down hi hinv.acked
  | crashIn hm ht hi =>
    obtain ⟨G, D, hinv⟩ := h
    have hsafe := (hinv.move (fun _ => Fixed.passed) Pairs.unique (hsmall _ rfl) hm).1
    exact (hsafe _ ht).down hi hinv.acked
  | opened hsync hrun =>
    obtain ⟨-, -, hok⟩ := (h.openStore _ _).of_run hrun
    obtain ⟨hcfg, G, hg⟩ := hok rfl
    exact ⟨G, _, .start hg (by rw [hcfg]; exact hsync)⟩
  | crashOpen hrun ht hi =>
    obtain ⟨htr, hw, -⟩ := (h.openStore _ _).of_run hrun
    rcases ht with ht | rfl
    · exact (htr _ ht).down hi fun _ ho => ho
    · exact hw.down hi fun _ ho => ho

theorem Fresh.inv (h : Fresh a) : a.Inv Z F P := by
  rw [h]
  refine ⟨_, emptyDir_durable _ _ (by simp), ?_, ?_, ?_, ?_⟩
  · rintro d - e ⟨⟩
  · rintro id i ⟨⟩
  · rintro id i ⟨⟩
  · rintro id i ⟨⟩

/-- In every run in which no goroutine ever seals a segment of 2³² records or more, whatever the
interleaving, the failed fsyncs and the crashes: `Open` succeeds on what a crash leaves, and every
acknowledged object can be read. -/
theorem acked_survive_crash (Z : Zstd) (F : FuseLib) (verify : Object → Except Err Unit)
    (content : Key → Bytes) (cfg : Config)
    (h : Reach Fresh (SmallStep Z F verify content) (.down fs acked)) :
    ∃ tr w, openStore cfg (reboot cfg fs []) = ⟨tr, .ok (), w⟩ ∧
      ∀ o ∈ acked, get Z F w.fs w.s o.key = .ok o.data := by
  obtain ⟨G, hd, ho⟩ : (State.down fs acked).Inv Z F (Pairs content) :=
    h.invariant (fun _ => Fresh.inv) fun _ _ => State.Inv.step
  have hopen := openStore_spec True (w := reboot cfg fs []) cfg rfl (fun _ => rfl) hd ho
  obtain ⟨tr, r, w, hrun⟩ : ∃ tr r w, openStore cfg (reboot cfg fs []) = ⟨tr, r, w⟩ :=
    ⟨_, _, _, rfl⟩
  obtain ⟨-, hpost⟩ := hopen.of_run hrun
  cases r with
  | error e => exact absurd trivial hpost.1
  | ok u =>
    obtain ⟨G', hg, hf, -⟩ := hpost
    refine ⟨tr, w, hrun, fun o ho => ?_⟩
    exact hg.get_eq hf Pairs.unique (hg.durable.onDisk ho)

/-! ## Filling a segment, one call after the other -/

/-- Every goroutine is idle or has returned. -/
def Quiet (procs : Nat → Proc) : Prop := ∀ j, procs j = .idle ∨ ∃ o r, procs j = .put o (.ret r)

/-- A single `Put` at work. -/
def Sys.alone (s : Sys) (i : Nat) (o : Object) (pc : PutPc) (w : World) : Sys :=
  { s.setProc i (.put o pc) with w }

section Alone
variable {s : Sys} {i : Nat}

theorem Quiet.free (h : Quiet s.procs) : s.Free := by
  intro j
  rcases h j with hj | ⟨o, r, hj⟩ <;> rw [hj] <;> rfl

theorem Quiet.small (h : Quiet s.procs) : s.Small := by
  intro j
  rcases h j with hj | ⟨o, r, hj⟩ <;> rw [hj] <;> exact trivial

theorem Quiet.update (h : Quiet s.procs) (i : Nat) (o : Object) (r : Except Err WorkEnd) :
    Quiet (update s.procs i (.put o (.ret r))) := by
  intro j
  by_cases hj : j = i
  · subst hj
    exact .inr ⟨o, r, update_self ..⟩
  · rw [update_of_ne hj]
    exact h j

theorem Quiet.alone_free (h : Quiet s.procs) (hpc : pc.holds = false) :
    (s.alone i o pc w).Free := by
  intro j
  by_cases hj : j = i
  · subst hj
    simp only [Sys.alone, Sys.setProc, update_self]
    exact hpc
  · simp only [Sys.alone, Sys.setProc, update_of_ne hj]
    exact h.free j

theorem Quiet.alone_small (h : Quiet s.procs) (hpc : pc.Small w.s) : (s.alone i o pc w).Small := by
  intro j
  by_cases hj : j = i
  · subst hj
    simp only [Sys.alone, Sys.setProc, update_self]
    exact hpc
  · simp only [Sys.alone, Sys.setProc, update_of_ne hj]
    rcases h j with hj | ⟨o, r, hj⟩ <;> rw [hj] <;> exact trivial

theorem Quiet.move (verify : Object → Except Err Unit) (ok : Object → Prop) (h : Quiet s.procs) (hm : pc.run Z F o = some m)
    (htakes : pc.takes = true → pc.holds = false) {Q : PutPc → World → Prop}
    (hrun : m.Gives (Post Q fun _ _ => False) w) : ∃ tr pc' w', Q pc' w' ∧
      Move Z F verify ok (s.alone i o pc w) tr
        { s.alone i o pc' w' with acked := pc'.acks o ++ s.acked } := by
  obtain ⟨tr, r, w', hw'⟩ : ∃ tr r w', m w = ⟨tr, r, w'⟩ := ⟨_, _, _, rfl⟩
  obtain ⟨-, hpost⟩ := hrun.of_run hw'
  cases r with
  | error e => exact hpost.elim
  | ok pc' =>
    have hi : (s.alone i o pc w).procs i = .put o pc := update_self ..
    have hend : { s.alone i o pc' w' with acked := pc'.acks o ++ s.acked } =
        { (s.alone i o pc w).setProc i (.put o pc') with
          w := w', acked := pc'.acks o ++ (s.alone i o pc w).acked } := by
      simp only [Sys.alone, Sys.setProc, update_idem]
    refine ⟨tr, pc', w', hpost, ?_⟩
    rw [hend]
    exact .put hi hm (fun ht => h.alone_free (htakes ht)) hw'

end Alone

/-- The payload of every key of the run. -/
def noContent (_ : Key) : Bytes := []

section Fill
variable {s : Sys} {cfg : Config} {n i : Nat}

/-- The next step of a `Put` of the next object ends in a state with `Q`. -/
def Ends (Z : Zstd) (F : FuseLib) (n : Nat) (pc : PutPc) (w : World) (Q : PutPc → World → Prop) :
    Prop :=
  ∃ m, pc.run Z F (bulkObject n) = some m ∧
    m.Gives (Post Q fun _ _ => False) w

theorem Filling.check_ends (h : Filling Z F cfg n w G) :
    Ends Z F n .check w fun pc t => pc = .observe ∧ t = w := by
  refine ⟨_, rfl, ?_⟩
  simp only [wp_bind, wp_getStore, post_ok, h.ready]
  exact .pure ⟨rfl, rfl⟩

theorem Filling.observe_ends (h : Filling Z F cfg n w G) :
    Ends Z F n .observe w fun pc t => pc = .work .has ∧ Filling Z F cfg n t G := by
  refine ⟨_, rfl, ?_⟩
  simp only [wp_bind, observe, wp_setStore, post_ok, wp_pure]
  exact ⟨trivial, h.setGrey _⟩

theorem Filling.has_ends (h : Filling Z F cfg n w G) (hn : n < 2 ^ 32) :
    Ends Z F n (.work .has) w fun pc t =>
      pc = .work (.append (objectRecord Z (bulkObject n))) ∧ Filling Z F cfg n t G := by
  have hfit : ([] : Bytes).length ≤ maxPayload := Nat.zero_le _
  refine ⟨_, rfl, wp_bind.mpr (wp_attempt.mpr (wp_bind.mpr (wp_reading (h.has_eq hn) ?_)))⟩
  rw [post_ok, if_neg (by decide)]
  simp only [noVerify, lift, encode, bulkObject, encodeRecord_eq hfit, wp_bind, wp_pure, post_ok]
  exact ⟨trivial, h⟩

theorem Filling.append_ends (h : Filling Z F cfg n w G) (hn : n < 2 ^ 32) :
    Ends Z F n (.work (.append (objectRecord Z (bulkObject n)))) w fun pc t =>
      ∃ a, pc = .work (.fsync a) ∧ t.s.active = some a ∧ ∃ G', Filling Z F cfg (n + 1) t G' := by
  refine ⟨_, rfl, wp_bind.mpr (wp_attempt.mpr (wp_bind.mpr ?_))⟩
  refine h.claim hn fun t G1 a ht ha hk => post_ok.mpr (wp_bind.mpr ?_)
  refine ht.writeRecord ha hk fun u G2 a' hu hua => ?_
  simp only [post_ok, wp_pure]
  exact ⟨a', rfl, hua, G2, hu⟩

theorem Filling.fsync_ends (h : Filling Z F cfg (n + 1) w G) (ha : w.s.active = some a) :
    Ends Z F n (.work (.fsync a)) w fun pc t =>
      pc = .work (.rotate a) ∧ t.s.active = some a ∧ Filling Z F cfg (n + 1) t G := by
  refine ⟨_, rfl, wp_bind.mpr (wp_attempt.mpr (wp_bind.mpr ?_))⟩
  refine h.fsyncRecord ha true fun t ht hta => ?_
  simp only [post_ok, wp_pure]
  exact ⟨trivial, hta, ht⟩

theorem Filling.rotate_ends (h : Filling Z F cfg (n + 1) w G) (ha : w.s.active = some a)
    (hdue : ¬cfg.segmentSize ≤ (8 + 46 * (n + 1) : Nat)) :
    Ends Z F n (.work (.rotate a)) w fun pc t => pc = .ret (.ok .stored) ∧ t = w := by
  refine ⟨_, rfl, wp_bind.mpr (wp_attempt.mpr (wp_bind.mpr (h.rotate_skip ha hdue ?_)))⟩
  simp only [post_ok, wp_pure]
  exact ⟨trivial, trivial⟩

/-- The `Put` of the object that makes 2³² fails, and the directory never opens again. -/
theorem Filling.rotate_ends_overfull (h : Filling Z F cfg (n + 1) w G) (ha : w.s.active = some a)
    (hn : n + 1 = 2 ^ 32) (hdue : cfg.segmentSize ≤ (8 + 46 * (n + 1) : Nat)) :
    Ends Z F n (.work (.rotate a)) w fun pc t => (∃ e, pc = .ret (.error e)) ∧
      Bricked t.fs ∧ ∀ id i, (.active id, i) ∉ t.fs.cur := by
  refine ⟨_, rfl, wp_bind.mpr (wp_attempt.mpr (wp_bind.mpr ?_))⟩
  refine (h.rotate_overfull ha hn hdue).post_mono ?_
  rintro (e | ⟨⟩) t ht
  · exact .pure ⟨⟨e, rfl⟩, ht.2.2⟩
  · exact ht.elim

/-- A `Put` of the next object, up to the point where it would seal the segment. -/
theorem Filling.put_moves {R : State → Prop}
    (hR : ∀ s tr s', R (.up s) → s.Small → Move Z F verify (Fixed noContent) s tr s' → R (.up s'))
    (h : Filling Z F cfg n s.w G) (hn : n < 2 ^ 32) (hq : Quiet s.procs) (hi : s.procs i = .idle)
    (hs : R (.up s)) : ∃ w G a, Filling Z F cfg (n + 1) w G ∧ w.s.active = some a ∧
      R (.up (s.alone i (bulkObject n) (.work (.rotate a)) w)) := by
  have hnext : ∀ {pc w} {Q : PutPc → World → Prop}, R (.up (s.alone i (bulkObject n) pc w)) →
      pc.Small w.s → (pc.takes = true → pc.holds = false) →
      (∀ pc' w', Q pc' w' → pc'.acks (bulkObject n) = []) → Ends Z F n pc w Q →
      ∃ pc' w', Q pc' w' ∧ R (.up (s.alone i (bulkObject n) pc' w')) := by
    rintro pc w Q hpc hsmall htakes hacks ⟨m, hm, hwp⟩
    obtain ⟨tr, pc', w', hQ, hmove⟩ := hq.move verify (Fixed noContent) (i := i)
      hm htakes hwp
    refine ⟨pc', w', hQ, ?_⟩
    rw [hacks pc' w' hQ] at hmove
    exact hR _ _ _ hpc (hq.alone_small hsmall) hmove
  have hstart : R (.up (s.alone i (bulkObject n) .check s.w)) :=
    hR _ _ _ hs hq.small (.startPut hi ⟨bulkKey_canonical n, rfl⟩)
  obtain ⟨pc, w, ⟨rfl, rfl⟩, hs⟩ := hnext hstart trivial nofun
    (by rintro _ _ ⟨rfl, -⟩; rfl) h.check_ends
  obtain ⟨pc, w, ⟨rfl, h1⟩, hs⟩ := hnext hs trivial nofun
    (by rintro _ _ ⟨rfl, -⟩; rfl) h.observe_ends
  obtain ⟨pc, w, ⟨rfl, h2⟩, hs⟩ := hnext hs trivial nofun
    (by rintro _ _ ⟨rfl, -⟩; rfl) (h1.has_ends hn)
  obtain ⟨pc, w, ⟨a, rfl, ha, G1, h3⟩, hs⟩ := hnext hs trivial (fun _ => rfl)
    (by rintro _ _ ⟨a, rfl, -⟩; rfl) (h2.append_ends hn)
  obtain ⟨pc, w, ⟨rfl, ha, h4⟩, hs⟩ := hnext hs trivial nofun
    (by rintro _ _ ⟨rfl, -⟩; rfl) (h3.fsync_ends ha)
  exact ⟨w, G1, a, h4, ha, hs⟩

/-- The first `n` objects have been put, one call after the other, and acknowledged. -/
structure Filled (Z : Zstd) (F : FuseLib) (cfg : Config) (n : Nat) (s : Sys) : Prop where
  filling : ∃ G, Filling Z F cfg n s.w G
  quiet : Quiet s.procs
  idle : ∀ j, n ≤ j → s.procs j = .idle
  acked : ∀ o ∈ bulk n, o ∈ s.acked

theorem open_empty_step (cfg : Config) (hsync : cfg.sync = true) :
    Step Z F verify content (.down emptyDir []) (.up (.start (emptyWorld cfg) [])) := by
  obtain ⟨-, hres, hfinal⟩ := openStore_empty cfg
  obtain ⟨tr, r, w, hrun⟩ : ∃ tr r w, openStore cfg (emptyWorld cfg) = ⟨tr, r, w⟩ :=
    ⟨_, _, _, rfl⟩
  rw [hrun] at hres hfinal
  obtain rfl : r = .ok () := hres
  obtain rfl : w = emptyWorld cfg := hfinal
  exact .opened hsync hrun

/-- Short of 2³² objects the run goes through, and no step of it seals a segment. -/
theorem fill_reach (verify : Object → Except Err Unit) (hn : n < 2 ^ 32) : ∃ s, Filled Z F bulkConfig n s ∧
    Reach Fresh (SmallStep Z F verify noContent) (.up s) := by
  induction n with
  | zero =>
    refine ⟨_, ?_, .next (.start rfl) ⟨open_empty_step bulkConfig rfl, by simp⟩⟩
    have hfresh := freshWorld_filling (Z := Z) (F := F) bulkConfig
    rw [freshWorld_eq] at hfresh
    exact ⟨⟨_, hfresh⟩, fun _ => .inl rfl, fun _ _ => rfl, by rintro _ ⟨⟩⟩
  | succ n ih =>
    obtain ⟨s, ⟨⟨G, hfill⟩, hq, hidle, hacked⟩, hreach⟩ := ih (by omega)
    obtain ⟨w, G', a, hw, ha, hrot⟩ := hfill.put_moves
      (R := Reach Fresh (SmallStep Z F verify noContent))
      (fun s tr s' hs hsmall hm => .next hs ⟨.move hm, by rintro _ ⟨⟩; exact hsmall⟩)
      (by omega) hq (hidle n (Nat.le_refl n)) hreach
    have hdue : ¬bulkConfig.segmentSize ≤ (8 + 46 * (n + 1) : Nat) := by
      simp only [bulkConfig]
      omega
    obtain ⟨m, hm, hwp⟩ := hw.rotate_ends ha hdue
    obtain ⟨tr, pc, w', ⟨rfl, rfl⟩, hmove⟩ := hq.move verify (Fixed noContent)
      (i := n) hm (by rintro ⟨⟩) hwp
    have hsmall : PutPc.Small w'.s (.work (.rotate a)) :=
      fun hd => absurd ((hw.due_iff ha).mp hd) hdue
    refine ⟨_, ?_, .next hrot ⟨.move hmove, by rintro _ ⟨⟩; exact hq.alone_small hsmall⟩⟩
    refine ⟨⟨G', hw⟩, hq.update _ _ _, fun j hj => ?_, fun o ho => ?_⟩
    · simp only [Sys.alone, Sys.setProc]
      rw [update_of_ne (by omega)]
      exact hidle j (by omega)
    · rw [bulk_succ] at ho
      rcases mem_append.mp ho with ho | ho
      · exact mem_append_right _ (hacked o ho)
      · exact mem_append_left _ ho

end Fill

/-- A crash that loses nothing. -/
def flushed (fs : FS Name) : FS Name where
  files i := ⟨(fs.files i).data, (fs.files i).data.length, false⟩
  next := fs.next
  cur := fs.cur
  past := []

theorem crash_flushed (fs : FS Name) : FS.Crash fs (flushed fs) where
  dir := mem_cons_self
  past := rfl
  next := rfl
  files := by
    intro i
    refine ⟨max (fs.files i).synced (fs.files i).data.length, Nat.le_max_left .., ?_⟩
    rw [take_of_length_le (Nat.le_max_right ..)]
    rfl

/-- The body of a small segment is too short to pass for a sealed one. -/
theorem Filling.image {cfg : Config} (h : Filling Z F cfg n w G) (hn : n ≤ 20) :
    Image Z F w.fs (flushed w.fs) := by
  refine ⟨crash_flushed _, fun id i hmem c _ v hv => ?_⟩
  have hm := h.good.mounted h.ready
  have hd := h.good.durable.cur
  cases ha : w.s.active with
  | none => exact hm.idle ha id i hmem
  | some a =>
    have hok := hm.active a ha
    obtain rfl := hd.one _ _ _ _ hmem hok.mem
    obtain rfl : i = a.ino := Option.some.inj ((hd.lookup hmem).symm.trans (hd.lookup hok.mem))
    have hlen : ((flushed w.fs).files a.ino).data.length < minSealedSize := by
      have hsize := h.size_eq ha
      rw [hok.size, ← hok.data] at hsize
      refine Nat.lt_of_le_of_lt (hsize.le.trans (Nat.add_le_add_left (Nat.mul_le_mul_left 46 hn) 8)) ?_
      decide
    rw [parseFooter, if_pos hlen] at hv
    cases hv

/-- One object is put, the machine crashes, and the object is there again. -/
theorem acked_survive_crash_bulk : ∃ fs acked tr w,
    Reach Fresh (SmallStep .stored .full noVerify noContent) (.down fs acked) ∧
    bulkObject 0 ∈ acked ∧ openStore bulkConfig (reboot bulkConfig fs []) = ⟨tr, .ok (), w⟩ ∧
    get .stored .full w.fs w.s (bulkKey 0) = .ok [] := by
  obtain ⟨s, ⟨⟨G, hfill⟩, hq, -, hacked⟩, hreach⟩ :=
    fill_reach (Z := .stored) (F := .full) noVerify (n := 1) (by decide)
  have hdown := hreach.next ⟨Step.crash (hfill.image (by decide)), by rintro _ ⟨⟩; exact hq.small⟩
  obtain ⟨tr, w, hrun, hget⟩ :=
    acked_survive_crash .stored .full noVerify noContent bulkConfig hdown
  exact ⟨_, _, tr, w, hdown, hacked _ mem_cons_self, hrun, hget _ (hacked _ mem_cons_self)⟩

/-- With a threshold of 8 + 46 · 2³² bytes, 2³² `Put`s one after the other, of which all but the last
are acknowledged, and a crash: no `Open` succeeds any more. -/
theorem crash_overfull : ∃ fs acked,
    Reach Fresh (Step .stored .full noVerify noContent) (.down fs acked) ∧ bulkObject 0 ∈ acked ∧
    ∀ cfg, ∃ e, (openStore cfg (reboot cfg fs [])).result = .error e := by
  obtain ⟨n, hn⟩ : ∃ n, n + 2 = 2 ^ 32 := ⟨2 ^ 32 - 2, by decide⟩
  obtain ⟨s, ⟨⟨G, hfill⟩, hq, hidle, hacked⟩, hreach⟩ :=
    fill_reach (Z := .stored) (F := .full) noVerify (n := n + 1) (by omega)
  obtain ⟨w, G', a, hw, ha, hrot⟩ := hfill.put_moves
    (R := Reach Fresh (Step .stored .full noVerify noContent))
    (fun s tr s' hs _ hm => .next hs (.move hm)) (by omega) hq (hidle _ (Nat.le_refl _))
    (hreach.mono fun _ _ h => h.1)
  obtain ⟨m, hm, hwp⟩ := hw.rotate_ends_overfull ha hn (by simp only [bulkConfig]; omega)
  obtain ⟨tr, pc, w', ⟨⟨e, rfl⟩, hbrick, hnone⟩, hmove⟩ := hq.move noVerify
    (Fixed noContent) (i := n + 1) hm (by rintro ⟨⟩) hwp
  have himage : Image .stored .full w'.fs (flushed w'.fs) :=
    ⟨crash_flushed _, fun id i hmem => absurd hmem (hnone id i)⟩
  refine ⟨_, _, (hrot.next (.move hmove)).next (.crash himage), ?_, fun cfg => ?_⟩
  · refine mem_append_right _ (hacked _ ?_)
    exact mem_map.mpr ⟨0, mem_range.mpr (Nat.succ_pos n), rfl⟩
  · have hopen := ((hbrick.crash (crash_flushed _)).openStore
      (w := reboot cfg (flushed w'.fs) []) rfl cfg).2
    cases hres : (openStore cfg (reboot cfg (flushed w'.fs) [])).result with
    | error e => exact ⟨e, rfl⟩
    | ok u =>
      rw [hres] at hopen
      exact hopen.elim

end AmberStore.Packstore
