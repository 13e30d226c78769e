import AmberStore.Packstore.Callers
import AmberStore.Packstore.MapRefinement

/-!
# What the steps of callers keep

Every step of a caller keeps the disk durable. While the store is not poisoned nothing leaves the
disk, so what a goroutine has written or found there is still there when it fsyncs at the end.
-/

namespace AmberStore.Packstore
open Bytes Amberpack Act

variable {Z : Zstd} {F : FuseLib} {P D D' : Object → Prop} {w w' : World} {G G' : Written}
  {o : Object}

/-! ## Effects on the rest of the system -/

/-- Unless the store is poisoned, the object is on disk. -/
def Kept (w : World) (G : Written) (o : Object) : Prop := w.s.failed = none → OnDisk w.fs G o

/-- A step that takes nothing away. -/
structure Grows (w : World) (G : Written) (D : Object → Prop) (w' : World) (G' : Written)
    (D' : Object → Prop) : Prop where
  cfg : w'.s.cfg = w.s.cfg
  disk : w'.s.failed = none → w.s.failed = none ∧ ∀ o, OnDisk w.fs G o → OnDisk w'.fs G' o
  durable : ∀ o, D o → D' o

/-- A step that does not touch the active segment. -/
structure Still (w : World) (G : Written) (w' : World) (G' : Written) : Prop where
  fs : w'.fs = w.fs
  written : G' = G
  failed : w'.s.failed = w.s.failed
  active : w'.s.active = w.s.active

theorem Grows.refl (w : World) (G : Written) (D : Object → Prop) : Grows w G D w G D :=
  ⟨rfl, fun h => ⟨h, fun _ ho => ho⟩, fun _ ho => ho⟩

theorem Still.refl (w : World) (G : Written) : Still w G w G := ⟨rfl, rfl, rfl, rfl⟩

theorem Kept.grows (h : Kept w G o) (hg : Grows w G D w' G' D') : Kept w' G' o := by
  intro hf
  obtain ⟨hf', hdisk⟩ := hg.disk hf
  exact hdisk o (h hf')

theorem Grows.of_failed (hcfg : w'.s.cfg = w.s.cfg) (hf : w'.s.failed ≠ none)
    (hD : ∀ o, D o → D' o) : Grows w G D w' G' D' := ⟨hcfg, fun h => absurd h hf, hD⟩

theorem Grows.of_eq (hcfg : w'.s.cfg = w.s.cfg) (hf : w'.s.failed = w.s.failed)
    (hdisk : ∀ o, OnDisk w'.fs G' o ↔ OnDisk w.fs G o) (hD : ∀ o, D o → D' o) :
    Grows w G D w' G' D' := ⟨hcfg, fun h => ⟨hf ▸ h, fun o => (hdisk o).mpr⟩, hD⟩

/-- The store after a step, with everything the rest of the system relies on. -/
structure After (Z : Zstd) (F : FuseLib) (P : Object → Prop) (w : World) (G : Written)
    (D : Object → Prop) (w' : World) (G' : Written) (D' : Object → Prop) : Prop where
  good : Good Z F False P D' w' G'
  grows : Grows w G D w' G' D'

/-! ## Writing one object -/

/-- The invariant of a goroutine at work on an object. -/
def WorkOk (Z : Zstd) (w : World) (G : Written) (D : Object → Prop) (o : Object)
    (syncNow : Bool) : Work → Prop
  | .has => True
  | .append rec => o.data.length ≤ maxPayload ∧ rec = objectRecord Z o
  | .fsync a => w.s.failed = none ∧ w.s.active = some a ∧ OnDisk w.fs G o
  | .rotate a => w.s.failed = none ∧ w.s.active = some a ∧ OnDisk w.fs G o ∧ (syncNow → D o)

theorem WorkOk.stable {p : Work} (h : WorkOk Z w G D o b p) (hg : Grows w G D w' G' D')
    (hs : p.holds → Still w G w' G') : WorkOk Z w' G' D' o b p := by
  cases p with
  | has => exact trivial
  | append rec => exact h
  | fsync a =>
    obtain ⟨hfs, rfl, hf, ha⟩ := hs rfl
    obtain ⟨h1, h2, h3⟩ := h
    exact ⟨hf.trans h1, ha.trans h2, hfs ▸ h3⟩
  | rotate a =>
    obtain ⟨hfs, rfl, hf, ha⟩ := hs rfl
    obtain ⟨h1, h2, h3, h4⟩ := h
    exact ⟨hf.trans h1, ha.trans h2, hfs ▸ h3, fun hb => hg.durable o (h4 hb)⟩

/-- What the end of the work on an object means. -/
def WorkDone (w : World) (G : Written) (D : Object → Prop) (o : Object) (syncNow : Bool)
    (r : WorkEnd) : Prop :=
  Kept w G o ∧ (r = .stored → syncNow → D o)

/-- The outcome of a step of the work. -/
def WorkPost (Z : Zstd) (F : FuseLib) (P : Object → Prop) (w : World) (G : Written)
    (D : Object → Prop) (o : Object) (syncNow : Bool) (r : WorkNext) (w' : World) : Prop :=
  ∃ G' D', After Z F P w G D w' G' D' ∧
    match r with
    | .goto p => WorkOk Z w' G' D' o syncNow p
    | .done r => WorkDone w' G' D' o syncNow r

theorem OnDisk.prop (h : Good Z F clean P A w G) (ho : OnDisk w.fs G o) : P o := by
  obtain ⟨e, -, hoe⟩ := ho
  exact h.durable.objs _ _ hoe

/-- A key that a lookup finds belongs to an object on disk. -/
theorem Good.onDisk_of_has (h : Good Z F clean P A w G) (hf : w.s.failed = none)
    (hhas : has F w.s k = .ok true) : ∃ x, OnDisk w.fs G x ∧ x.key = k := by
  have hm := h.mounted hf
  have hd := h.durable.cur
  rw [(hm.rep hd).has_eq hm.closed, Except.ok.injEq] at hhas
  obtain ⟨x, hx, hk⟩ := Layout.lookup_isSome.mp hhas
  exact ⟨x, (hm.mem_objects hd).mp hx, hk⟩

theorem Good.onDisk_of_inActive (h : Good Z F clean P A w G) (hf : w.s.failed = none)
    (hin : w.s.inActive k = true) : ∃ x, OnDisk w.fs G x ∧ x.key = k := by
  unfold Store.inActive Store.activeLoc at hin
  cases ha : w.s.active with
  | none => rw [ha] at hin; cases hin
  | some a =>
    rw [ha] at hin
    have hok := (h.mounted hf).active a ha
    have hsome : (a.index.lookup k).isSome := by simpa using hin
    obtain ⟨x, hx, hk⟩ := List.mem_map.mp (hok.index.isSome_iff.mp hsome)
    exact ⟨x, ⟨_, hok.mem, hx⟩, hk⟩

section Work
variable {verify : Object → Except Err Unit} {syncNow : Bool}

theorem wp_has (h : Good Z F clean P A w G) {I : World → Prop} {Q : Except Err Bool → World → Prop}
    (hQ : ∀ r, (r = .ok true → w.s.failed = none → ∃ x, OnDisk w.fs G x ∧ x.key = k) → Q r w) :
    (reading fun _ s => has F s k).Wp I Q w := by
  simp only [reading, wp_bind, wp_read, post_ok]
  cases hhas : has F w.s k with
  | error e => exact .throw (hQ _ (by simp))
  | ok b =>
    refine .pure (hQ _ fun hb hf => h.onDisk_of_has hf ?_)
    rw [hhas, hb]

theorem Work.has_spec (h : Good Z F False P D w G)
    (huniq : ∀ x y, P x → P y → x.key = y.key → x = y) (hP : P o) :
    (Work.has.run Z F verify o syncNow).Wp (Safe Z F P D) (Post
      (fun r w' => w' = w ∧ match r with
        | .goto p => WorkOk Z w G D o syncNow p ∧ p.holds = false
        | .done r => WorkDone w G D o syncNow r)
      fun _ w' => w' = w) w := by
  unfold Work.run
  refine wp_bind.mpr (wp_has h ?_)
  rintro (e | (_ | _)) hb
  · exact rfl
  · simp only [post_ok, Bool.false_eq_true, if_false, wp_bind]
    cases hv : verify o with
    | error e => exact .throw rfl
    | ok u =>
      refine .pure ?_
      simp only [post_ok, encode]
      cases henc : encodeRecord Z o.key o.data with
      | error e => exact .throw rfl
      | ok rec =>
        obtain ⟨hlen, hrec⟩ := encodeRecord_ok henc
        exact .pure (.pure ⟨rfl, ⟨hlen, hrec⟩, rfl⟩)
  · refine .pure ⟨rfl, fun hf => ?_, by simp⟩
    obtain ⟨x, hx, hk⟩ := hb rfl hf
    obtain rfl := huniq x o (hx.prop h) hP hk
    exact hx

/-- The segment is sealed with fewer than 2³² records, if this is the step that seals it. -/
def Work.Small (s : Store) : Work → Prop
  | .rotate a => DueSmall s a
  | _ => True

theorem Work.run_spec {p : Work} (h : Good Z F False P D w G) (hsync : w.s.cfg.sync = true)
    (huniq : ∀ x y, P x → P y → x.key = y.key → x = y) (hP : P o) (hk : o.key.Canonical)
    (hw : WorkOk Z w G D o syncNow p) (hsmall : p.Small w.s) :
    (p.run Z F verify o syncNow).Wp (Safe Z F P D) (Post (WorkPost Z F P w G D o syncNow)
      fun _ w' => ∃ G' D', After Z F P w G D w' G' D') w := by
  cases p with
  | has =>
    refine (Work.has_spec h huniq hP).post_mono ?_
    rintro (e | (p | r)) t ht
    · obtain rfl := ht
      exact ⟨G, D, h, .refl ..⟩
    · obtain ⟨rfl, hp, -⟩ := ht
      exact ⟨G, D, ⟨h, .refl ..⟩, hp⟩
    · obtain ⟨rfl, hr⟩ := ht
      exact ⟨G, D, ⟨h, .refl ..⟩, hr⟩
  | append rec =>
    obtain ⟨hlen, rfl⟩ := hw
    unfold Work.run
    refine (claim_spec h o.key).seq ?_
    rintro (e | (_ | a)) t ht
    · obtain ⟨-, hf, hcfg, G', hg, hdisk⟩ := ht
      exact ⟨G', D, hg, .of_eq hcfg hf hdisk fun _ ho => ho⟩
    · obtain ⟨hf, -, -, rfl, hin⟩ := ht
      refine .pure ⟨G, D, ⟨h, .refl ..⟩, fun _ => ?_, nofun⟩
      obtain ⟨x, hx, hxk⟩ := h.onDisk_of_inActive hf hin
      obtain rfl := huniq x o (hx.prop h) hP hxk
      exact hx
    · obtain ⟨hf, hft, hcfg, -, ha, hnone, -, -, G', hg, hdisk⟩ := ht
      refine (writeRecord_spec hg hft ha hnone ⟨hk, hlen⟩ hP).seq ?_
      rintro (e | a') u hu
      · exact hu.elim
      obtain ⟨-, hus, -, G2, hg2, hdisk2⟩ := hu
      refine .pure ⟨G2, D, ⟨hg2, ?_⟩, ?_⟩
      · refine ⟨by rw [hus]; exact hcfg, fun _ => ⟨hf, fun x hx => ?_⟩, fun _ ho => ho⟩
        exact (hdisk2 x).mpr (.inl ((hdisk x).mpr hx))
      · exact ⟨by rw [hus]; exact hft, by rw [hus], (hdisk2 o).mpr (.inr rfl)⟩
  | fsync a =>
    obtain ⟨hf, ha, ho⟩ := hw
    unfold Work.run
    refine (fsyncRecord_spec h hf ha syncNow).seq ?_
    rintro (e | ⟨⟩) t ht
    · obtain ⟨-, hft, hcfg, G', hg⟩ := ht
      exact ⟨G', D, hg, .of_failed hcfg hft fun _ ho => ho⟩
    · obtain ⟨hts, hg, hdisk⟩ := ht
      refine .pure ⟨G, _, ⟨hg, .of_eq (by rw [hts]) (by rw [hts]) hdisk fun _ => .inl⟩, ?_⟩
      refine ⟨by rw [hts]; exact hf, by rw [hts]; exact ha, (hdisk o).mpr ho, fun hb => .inr ⟨?_, ho⟩⟩
      rw [hb, hsync]
      rfl
  | rotate a =>
    obtain ⟨hf, ha, ho, hD⟩ := hw
    unfold Work.run
    refine (rotate_spec h hf ha hsmall).seq ?_
    rintro (e | ⟨⟩) t ht
    · obtain ⟨-, hft, hcfg, G', hg⟩ := ht
      exact ⟨G', D, hg, .of_failed hcfg hft fun _ ho => ho⟩
    · obtain ⟨hg, hft, hcfg, hdisk⟩ := ht
      refine .pure ⟨G, D, ⟨hg, .of_eq hcfg (hft.trans hf.symm) hdisk fun _ ho => ho⟩, ?_⟩
      exact ⟨fun _ => (hdisk o).mpr ho, fun _ => hD⟩

/-- Fsync of the active segment: afterwards everything on disk is durable. -/
theorem syncActive_after (h : Good Z F False P D w G) (hsync : w.s.cfg.sync = true) :
    syncActive.Wp (Safe Z F P D) (fun r w' => ∃ G' D', After Z F P w G D w' G' D' ∧
      (r = .ok () → ∀ o, Kept w G o → D' o)) w := by
  refine (syncActive_spec h).post_mono ?_
  rintro (e | ⟨⟩) t ht
  · obtain ⟨-, hf, hcfg, G', hg⟩ := ht
    exact ⟨G', D, ⟨hg, .of_failed hcfg hf fun _ ho => ho⟩, nofun⟩
  · obtain ⟨hf, hts, hg, hdisk⟩ := ht
    refine ⟨G, _, ⟨hg, .of_eq (by rw [hts]) (by rw [hts]) hdisk fun _ => .inl⟩, ?_⟩
    exact fun _ o ho => .inr ⟨hsync, ho hf⟩

end Work

end AmberStore.Packstore
