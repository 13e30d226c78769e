import AmberStore.Packstore.Reopened
import AmberStore.Packstore.Uploads

/-!
# Verified uploads cannot poison a store

Every object a store hands out has been verified when it was written: `WriteParallel` checks it before it
appends the record, `Compact` moves records verbatim, and a reopened store indexes what is in its files. The
last step is the weak one: it takes the bytes behind the last record for records as well, so that a failed
write must not have left any.
-/

namespace AmberStore.Packstore
open Bytes Amberpack Act List Function

variable {Z : Zstd} {F : FuseLib} {P : Object → Prop} {w : World} {a : ActiveSegment} {o : Object}

/-! ## The write path -/

namespace Genuine

section
variable (h : Genuine Z F P w)
include h

theorem setStore {s : Store} (hs : s.sealed = w.s.sealed) (ha : s.active = w.s.active)
    (hn : w.s.nextID ≤ s.nextID) (hf : s.failed = none → w.s.failed = none) : Genuine Z F P { w with s } := by
  obtain ⟨hk, L, hL, hP⟩ := h
  exact ⟨hk.setStore ha hn hf, L, hL.setStore hs ha hn hf, hP⟩

theorem claim (k : Key) : (Packstore.claim k).Gives (fun r t => Genuine Z F P t ∧
    ∀ a, r = .ok (some a) → t.s.failed = none ∧ t.s.active = some a ∧ a.index.lookup k = none ∧
      (w.s.active = some a ∨ a.size = magicHeader.length)) w := by
  obtain ⟨hk, L, hL, hP⟩ := h
  unfold Packstore.claim checkWritable activeSegment
  simp only [wp_bind, wp_getStore, post_ok]
  refine wp_ite (fun _ => .throw ⟨⟨hk, L, hL, hP⟩, by simp⟩) fun _ => ?_
  cases hf : w.s.failed with
  | some e => exact .throw ⟨⟨hk, L, hL, hP⟩, by simp⟩
  | none =>
    refine .pure (post_ok.mpr ?_)
    cases ha : w.s.active with
    | some a =>
      refine .pure (post_ok.mpr (.pure ⟨⟨hk, L, hL, hP⟩, fun b hb => ?_⟩))
      cases hlook : a.index.lookup k with
      | some loc =>
        rw [hlook] at hb
        cases hb
      | none =>
        rw [hlook] at hb
        cases hb
        exact ⟨hf, ha, hlook, .inl rfl⟩
    | none =>
      refine ((createActive_any hL ha).and (createActive_kempt hk ha)).mono (fun _ _ => trivial) fun r t ht => ?_
      obtain ⟨⟨L', hL', -, hft, -, -, hafter, hok⟩, hk'⟩ := ht
      have hobjs : L'.objects = L.objects := hafter 0
      have hgen : Genuine Z F P t := ⟨hk', L', hL', hobjs ▸ hP⟩
      cases r with
      | error e => exact ⟨hgen, by simp⟩
      | ok a =>
        obtain ⟨ha', hnil⟩ := hok a rfl
        obtain ⟨c, hc, hrep⟩ := hL'.rep.active_some ha'
        cases hnil.symm.trans hc
        have hfresh : a.index.lookup k = none := by
          rw [← Option.not_isSome_iff_eq_none, hrep.index.isSome_iff]
          exact not_mem_nil
        refine post_ok.mpr (.pure ⟨hgen, fun b hb => ?_⟩)
        rw [hfresh] at hb
        cases hb
        refine ⟨hft.trans hf, ha', hfresh, .inr ?_⟩
        rw [hrep.size, Contents.empty, bodyOf_nil]

theorem writeRecord (hf : w.s.failed = none) (ha : w.s.active = some a)
    (hk : a.index.lookup o.key = none) (ho : o.key.Canonical ∧ o.data.length ≤ maxPayload) (hP : P o) :
    (Packstore.writeRecord a o.key (objectRecord Z o)).Gives (fun r t => Genuine Z F P t ∧
      t.s.failed = none ∧ ∀ b, r = .ok b → t.s.active = some b ∧ b = a.push o.key (objectRecord Z o)) w := by
  obtain ⟨hkempt, L, hL, hLP⟩ := h
  obtain ⟨c, hc, hrep⟩ := hL.rep.active_some ha
  have hkey : o.key ∉ c.objs.map Object.key := by
    rw [← hrep.index.isSome_iff, hk]
    exact Bool.false_ne_true
  have hstock : (Packstore.writeRecord a o.key (objectRecord Z o)).Gives (fun r t => Stocked Z F P t ∧
      t.s.failed = none ∧ ∀ b, r = .ok b → t.s.active = some b ∧ b = a.push o.key (objectRecord Z o)) w := by
    unfold Packstore.writeRecord
    refine wp_bind.mpr (wp_ioOp_any (fun io => ⟨trivial, ?_⟩) fun n io => ⟨trivial, ?_⟩)
    · have hpush := hL.push ha hrep hkey ho io
      simp only [post_ok, wp_bind, wp_setStore, wp_pure]
      refine ⟨⟨_, hpush, fun x hx => ?_⟩, hf, fun b hb => ?_⟩
      · rcases (Layout.mem_after_push (n := 0) hc rfl).mp hx with hx | rfl
        · exact hLP x hx
        · exact hP
      · cases hb
        exact ⟨rfl, rfl⟩
    · refine ⟨⟨L, hL.frame ⟨rfl, Nat.le_refl _, fun _ hx => hx, fun b hb => ?_⟩ rfl, hLP⟩, hf, by simp⟩
      cases ha.symm.trans hb
      rw [hrep.take_eq]
      simp only [FS.setFile_self, File.writeAt, hrep.size]
      exact (prefix_append _ _).trans (prefix_writeAt hrep.data ((objectRecord Z o).take n))
  refine ((writeRecord_kempt hkempt hf ha hk ho hP).and hstock).mono (fun _ _ => trivial) fun r t ht => ?_
  exact ⟨⟨ht.1, ht.2.1⟩, ht.2.2⟩

theorem fsyncOrPoison (ha : w.s.active = some a) :
    (orPoison (fsync a.ino)).Gives (fun r t => Genuine Z F P t ∧ (r = .ok () → t.s = w.s)) w := by
  obtain ⟨hk, L, hL, hP⟩ := h
  refine ((keeps_fsyncOrPoison_kempt a.ino w hk).and (hL.fsyncOrPoison ha)).mono (fun _ _ => trivial) fun r t ht => ?_
  exact ⟨⟨ht.1, L, ht.2.1, hP⟩, ht.2.2.2.2.2⟩

theorem fsyncRecord (ha : w.s.active = some a) (syncNow : Bool) :
    (Packstore.fsyncRecord a syncNow).Gives (fun r t => Genuine Z F P t ∧ (r = .ok () → t.s = w.s)) w := by
  unfold Packstore.fsyncRecord
  refine wp_bind.mpr (wp_getStore.mpr (post_ok.mpr ?_))
  exact wp_runIf (fun _ => h.fsyncOrPoison ha) fun _ => ⟨h, fun _ => rfl⟩

theorem syncActive : Packstore.syncActive.Gives (fun _ => Genuine Z F P) w := by
  unfold Packstore.syncActive checkWritable
  simp only [wp_bind, wp_getStore, post_ok]
  refine wp_ite (fun _ => .throw h) fun _ => ?_
  cases w.s.failed with
  | some e => exact .throw h
  | none =>
    refine .pure (post_ok.mpr (wp_ite (fun _ => .pure h) fun _ => ?_))
    cases ha : w.s.active with
    | none => exact .pure h
    | some a => exact (h.fsyncOrPoison ha).post_mono fun _ _ ht => ht.1

theorem syncCopies : Packstore.syncCopies.Gives (fun _ => Genuine Z F P) w := by
  unfold Packstore.syncCopies
  refine wp_bind.mpr (wp_getStore.mpr (post_ok.mpr ?_))
  cases ha : w.s.active with
  | none => exact .pure h
  | some a => exact wp_runIf (fun _ => (h.fsyncOrPoison ha).post_mono fun _ _ ht => ht.1) fun _ => h

theorem sealActive (hf : w.s.failed = none) (hsize : ∀ a, w.s.active = some a → a.size < 2 ^ 64) :
    (orPoison (sealActiveLocked F)).Gives (fun _ => Genuine Z F P) w := by
  obtain ⟨hk, L, hL, hP⟩ := h
  have hcount : ∀ c, L.active = some c → c.objs.length < 2 ^ 64 := by
    intro c hc
    cases ha : w.s.active with
    | none =>
      rw [hL.rep.active_none ha] at hc
      cases hc
    | some a =>
      obtain ⟨c', hc', hrep⟩ := hL.rep.active_some ha
      cases hc.symm.trans hc'
      exact Nat.lt_of_le_of_lt (length_le_bodyOf Z c.objs) (hrep.size ▸ hsize a ha)
  refine ((seal_kempt hk hf hsize).and (rotate_any hL hf hcount)).mono (fun _ _ => trivial) fun r t ht => ?_
  obtain ⟨hk', L', hL', -, hafter, -⟩ := ht
  have hobjs : L'.objects = L.objects := hafter 0 (Nat.zero_le _)
  exact ⟨hk', L', hL', hobjs ▸ hP⟩

theorem rotate (hf : w.s.failed = none) (hsize : ∀ a, w.s.active = some a → a.size < 2 ^ 64)
    (a : ActiveSegment) : (Packstore.rotate F a).Gives (fun _ => Genuine Z F P) w := by
  unfold Packstore.rotate
  refine wp_bind.mpr (wp_getStore.mpr (post_ok.mpr ?_))
  exact wp_runIf (fun _ => h.sealActive hf hsize) fun _ => h

theorem appendLocked (hsize : ∀ a, w.s.active = some a → a.size < 2 ^ 63)
    (ho : o.key.Canonical ∧ o.data.length ≤ maxPayload) (hP : P o) (syncNow : Bool) :
    (Packstore.appendLocked F o.key (objectRecord Z o) syncNow).Gives (fun _ => Genuine Z F P) w := by
  unfold Packstore.appendLocked
  refine (h.claim o.key).seq fun r t ht => ?_
  obtain ⟨ht, hclaim⟩ := ht
  cases r with
  | error e => exact ht
  | ok r =>
    cases r with
    | none => exact post_ok.mpr (.pure ht)
    | some a =>
      obtain ⟨hf, ha, hk, hold⟩ := hclaim a rfl
      have hlen : (objectRecord Z o).length < 2 ^ 63 := by
        have hmax : recHeaderSize + maxPayload < 2 ^ 63 := by decide
        have hle := (storedForm_lengths (Z := Z) ho.2).slen_le
        rw [length_objectRecord]
        omega
      have hsmall : a.size < 2 ^ 63 := by
        rcases hold with hold | hold
        · exact hsize a hold
        · rw [hold]
          decide
      refine post_ok.mpr ((ht.writeRecord hf ha hk ho hP).seq fun r u hu => ?_)
      obtain ⟨hu, hfu, hpush⟩ := hu
      cases r with
      | error e => exact hu
      | ok b =>
        obtain ⟨hb, rfl⟩ := hpush b rfl
        refine post_ok.mpr ((hu.fsyncRecord hb syncNow).seq fun r v hv => ?_)
        cases r with
        | error e => exact hv.1
        | ok _ =>
          have hs := hv.2 rfl
          refine hv.1.rotate (by rw [hs]; exact hfu) (fun b' hb' => ?_) _
          rw [hs, hb] at hb'
          cases hb'
          simp only [ActiveSegment.push]
          omega

end

end Genuine

/-! ## Compact -/

/-- An object that a record can be encoded for. -/
def Fitting (P : Object → Prop) (o : Object) : Prop := P o ∧ o.key.Canonical ∧ o.data.length ≤ maxPayload

theorem Backed.fitting {g : SealedSegment} (h : Backed Z F P g) : ∃ c, SegRep Z F g c ∧ ∀ o ∈ c.objs, Fitting P o := by
  obtain ⟨c, hP, hrep⟩ := h
  exact ⟨c, hrep, fun o ho => ⟨hP o ho, c.fits o ho⟩⟩

theorem Stocked.backed (h : Stocked Z F P w) {g : SealedSegment} (hg : g ∈ w.s.sealed) : Backed Z F P g := by
  obtain ⟨L, hL, hP⟩ := h
  obtain ⟨c, hc, hrep⟩ := hL.rep.sealed.exists_right hg
  exact ⟨c, fun o ho => hP o (Layout.mem_objects.mpr ⟨c, mem_append_left _ hc, ho⟩), hrep⟩

theorem keeps_selectVictims {I J : World → Prop} (hidle : Keeps I J (ioOp id fun _ fs => fs)) (live : Key → Bool)
    (opts : CompactOpts) (segs : List SealedSegment) : Keeps I J (selectVictims live opts segs) := by
  have heligible : ∀ g, Keeps I J (opts.eligible g) := by
    intro g
    unfold CompactOpts.eligible
    cases opts.before with
    | none => exact keeps_pure _
    | some before =>
      refine Keeps.bind (keeps_read.bind fun w => ?_) fun _ => keeps_pure _
      cases FS.lookup w.fs.cur (.sealed g.id) with
      | none => exact keeps_throw _
      | some i => exact hidle
  induction segs with
  | nil => exact keeps_pure _
  | cons g segs ih =>
    refine (heligible g).attempt.bind fun r => ?_
    cases r with
    | error e => exact keeps_pure _
    | ok eligible => exact ih.bind fun _ => keeps_pure _

namespace Genuine

/-- A `Compact` whose pipeline holds records of verified objects. -/
structure CompactionOk (Z : Zstd) (F : FuseLib) (P : Object → Prop) (c : Compaction) : Prop where
  victims : ∀ g ∈ c.victims, Backed Z F P g
  pipe : PipeOk Z (Fitting P) c.live c.victims c.pipe

theorem prepareCompact (h : Genuine Z F P w) (hsize : ∀ a, w.s.active = some a → a.size < 2 ^ 63)
    (live : Key → Bool) (opts : CompactOpts) : (Packstore.prepareCompact F live opts).Gives
      (Post (fun r t => Genuine Z F P t ∧ ∀ c, r.job = some c → CompactionOk Z F P c) fun _ _ => False) w := by
  unfold Packstore.prepareCompact takeGrey
  simp only [wp_bind, wp_getStore, wp_setStore, wp_pure, post_ok, wp_attempt]
  have hgrey : Genuine Z F P { w with s := { w.s with grey := none } } := h.setStore rfl rfl (Nat.le_refl _) id
  have hlt : ∀ a, ({ w with s := { w.s with grey := none } } : World).s.active = some a → a.size < 2 ^ 64 :=
    fun a ha => Nat.lt_trans (hsize a ha) (by decide)
  generalize liveOrGrey live (w.s.grey.getD []) = keep
  generalize ({ w with s := { w.s with grey := none } } : World) = v at hgrey hlt
  unfold checkWritable
  simp only [wp_bind, wp_getStore, post_ok]
  refine wp_ite (fun _ => .throw (post_error.mpr ⟨hgrey, by rintro _ ⟨⟩⟩)) fun _ => ?_
  cases hf : v.s.failed with
  | some e => exact .throw (post_error.mpr ⟨hgrey, by rintro _ ⟨⟩⟩)
  | none =>
    refine .pure (post_ok.mpr ((hgrey.sealActive hf hlt).post_mono fun r t ht => ?_))
    cases r with
    | error e => exact .pure ⟨ht, by rintro _ ⟨⟩⟩
    | ok _ =>
      obtain ⟨hk, L, hL, hP⟩ := ht
      refine wp_bind.mpr (wp_getStore.mpr (post_ok.mpr ?_))
      have hselect := (keeps_selectVictims keeps_idle_kempt keep opts t.s.sealed t hk).and
        (selectVictims_spec hL keep opts t.s.sealed)
      refine wp_bind.mpr (hselect.mono (fun _ _ => trivial) fun r u hu => ?_)
      cases r with
      | error e => exact hu.2.elim
      | ok r =>
        obtain ⟨hk', hL', hs, hsub, -⟩ := hu
        have hgen : Genuine Z F P u := ⟨hk', L, hL', hP⟩
        obtain ⟨victims, err⟩ := r
        cases err with
        | some e => exact .pure ⟨hgen, by rintro _ ⟨⟩⟩
        | none =>
          refine .pure ⟨hgen, fun c hc => ?_⟩
          split at hc
          · cases hc
          · cases hc
            refine ⟨fun g hg => hgen.2.backed ?_, .start Z (Fitting P) keep victims⟩
            rw [hs]
            exact hsub g hg

theorem turn (h : Genuine Z F P w) (hsize : ∀ a, w.s.active = some a → a.size < 2 ^ 63) {c : Compaction}
    (hc : CompactionOk Z F P c) (H : Blake3) (ids : List Nat) (t : Turn) :
    (c.pipe.turn Z F H c.live ids t).Gives
      (Post (fun p w' => Genuine Z F P w' ∧ CompactionOk Z F P { c with pipe := p }) fun _ _ => False) w := by
  have happend : ∀ o, Fitting P o →
      (Packstore.appendLocked F o.key (objectRecord Z o) false).Gives (fun _ => Genuine Z F P) w :=
    fun o ho => h.appendLocked hsize ho.2 ho.1 false
  refine (hc.pipe.turn (fun g hg => (hc.victims g hg).fitting) happend h t).post_mono fun r u hu => ?_
  cases r with
  | error e => exact hu
  | ok p => exact ⟨hu.2, hc.victims, hu.1⟩

theorem removeVictims (h : Genuine Z F P w) (victims : List SealedSegment) :
    (Packstore.removeVictims victims).Gives (fun _ => Genuine Z F P) w := by
  obtain ⟨hk, L, hL, hP⟩ := h
  have hkempt : (Packstore.removeVictims victims).Gives (fun _ => Kempt Z F P) w := by
    unfold Packstore.removeVictims
    simp only [wp_bind, wp_setStore, wp_getStore, post_ok]
    exact keeps_allThenFail (keeps_deletes none victims _ keeps_idle_kempt keeps_removeSealed_kempt
      keeps_syncDir_kempt (by simp)) _ (hk.setStore rfl (Nat.le_refl _) id)
  refine (hkempt.and (removeVictims_spec hL victims)).mono (fun _ _ => trivial) fun r t ht => ?_
  obtain ⟨hk', L', hL', -, hsub, -⟩ := ht
  exact ⟨hk', L', hL', fun o ho => hP o (hsub o ho)⟩

theorem finishCompact (h : Genuine Z F P w) (p : Pipe) (victims : List SealedSegment) (stats : CompactStats) :
    (Packstore.finishCompact p victims stats).Gives (fun _ => Genuine Z F P) w := by
  unfold Packstore.finishCompact
  dsimp only
  cases p.appendErr <|> p.err with
  | some e => exact .pure h
  | none =>
    refine h.syncCopies.tries fun r t ht => ?_
    cases r with
    | error e => exact .pure ht
    | ok _ =>
      refine (ht.removeVictims victims).tries fun r u hu => ?_
      cases r with
      | error e => exact .pure hu
      | ok _ => exact .pure hu

end Genuine

/-! ## Writers -/

/-- What a goroutine knows about the object it is working on. -/
def Work.Ok (Z : Zstd) (P : Object → Prop) (s : Store) (o : Object) : Work → Prop
  | .has => True
  | .append rec => Fitting P o ∧ rec = objectRecord Z o
  | .fsync a | .rotate a => s.failed = none ∧ s.active = some a

def Writer.Ok (Z : Zstd) (P : Object → Prop) (s : Store) (g : Writer) : Prop :=
  match g.pc with
  | .work o p _ => p.Ok Z P s o
  | _ => True

/-- Without `appendMu` a writer knows nothing of the store. -/
theorem Writer.Ok.of_free {g : Writer} {s s' : Store} (h : g.Ok Z P s) (hfree : g.holds = false) : g.Ok Z P s' := by
  obtain ⟨pending, pc⟩ := g
  cases pc with
  | work o p n =>
    cases p with
    | has => trivial
    | append rec => exact h
    | fsync a => cases hfree
    | rotate a => cases hfree
  | recv => trivial
  | observe o => trivial
  | seen o => trivial
  | flush => trivial
  | ret => trivial

theorem Writer.Ok.congr {g : Writer} {s s' : Store} (h : g.Ok Z P s) (hf : s'.failed = s.failed)
    (ha : s'.active = s.active) : g.Ok Z P s' := by
  unfold Writer.Ok at h ⊢
  cases hpc : g.pc with
  | work o p n =>
    rw [hpc] at h
    cases p with
    | has => trivial
    | append rec => exact h
    | fsync a => exact ⟨hf.trans h.1, ha.trans h.2⟩
    | rotate a => exact ⟨hf.trans h.1, ha.trans h.2⟩
  | recv => trivial
  | observe o => trivial
  | seen o => trivial
  | flush => trivial
  | ret => trivial

section Writers
variable {verify : Object → Except Err Unit} {p : Work}

/-- What a step on an object leaves. -/
structure Work.Done (Z : Zstd) (F : FuseLib) (P : Object → Prop) (w : World) (o : Object) (p : Work)
    (r : Except Err WorkNext) (t : World) : Prop where
  genuine : Genuine Z F P t
  ok : ∀ q, r = .ok (.goto q) → q.Ok Z P t.s o ∧ (q.holds = true → p.takes = true ∨ p.holds = true)
  frame : p.takes = false → p.holds = false → t.s = w.s

theorem Work.run_done (h : Genuine Z F P w) (hok : p.Ok Z P w.s o)
    (hsize : ∀ a, w.s.active = some a → a.size < 2 ^ 63)
    (hverify : verify o = .ok () → P o ∧ o.key.Canonical) (syncNow : Bool) :
    (p.run Z F verify o syncNow).Gives (Work.Done Z F P w o p) w := by
  cases p with
  | has =>
    have hstay : ∀ r : Except Err WorkNext, (∀ q, r ≠ .ok (.goto q)) → Work.Done Z F P w o .has r w :=
      fun r hr => ⟨h, fun q hq => absurd hq (hr q), fun _ _ => rfl⟩
    simp only [Work.run, reading, wp_bind, wp_read, post_ok]
    cases Packstore.has F w.s o.key with
    | error e => exact .throw (hstay _ (by simp))
    | ok there =>
      refine .pure (wp_ite (fun _ => .pure (hstay _ (by simp))) fun _ => wp_bind.mpr ?_)
      unfold lift
      cases hv : verify o with
      | error e => exact .throw (hstay _ (by simp))
      | ok _ =>
        refine .pure (wp_bind.mpr ?_)
        unfold encode
        cases henc : encodeRecord Z o.key o.data with
        | error e => exact .throw (hstay _ (by simp))
        | ok rec =>
          obtain ⟨hlen, hrec⟩ := encodeRecord_ok henc
          obtain ⟨hP, hcan⟩ := hverify hv
          refine .pure (.pure ⟨h, fun q hq => ?_, fun _ _ => rfl⟩)
          cases hq
          exact ⟨⟨⟨hP, hcan, hlen⟩, hrec⟩, by rintro ⟨⟩⟩
  | append rec =>
    obtain ⟨⟨hP, hfit⟩, rfl⟩ := hok
    refine (h.claim o.key).seq fun r t ht => ?_
    obtain ⟨ht, hclaim⟩ := ht
    cases r with
    | error e => exact ⟨ht, by simp, by rintro ⟨⟩⟩
    | ok r =>
      cases r with
      | none => exact .pure ⟨ht, by simp, by rintro ⟨⟩⟩
      | some a =>
        obtain ⟨hf, ha, hk, -⟩ := hclaim a rfl
        refine (ht.writeRecord hf ha hk hfit hP).seq fun r u hu => ?_
        obtain ⟨hu, hfu, hpush⟩ := hu
        cases r with
        | error e => exact ⟨hu, by simp, by rintro ⟨⟩⟩
        | ok b =>
          refine .pure ⟨hu, fun q hq => ?_, by rintro ⟨⟩⟩
          cases hq
          exact ⟨⟨hfu, (hpush b rfl).1⟩, fun _ => .inl rfl⟩
  | fsync a =>
    obtain ⟨hf, ha⟩ := hok
    refine (h.fsyncRecord ha syncNow).seq fun r t ht => ?_
    cases r with
    | error e => exact ⟨ht.1, by simp, by rintro _ ⟨⟩⟩
    | ok _ =>
      refine .pure ⟨ht.1, fun q hq => ?_, by rintro _ ⟨⟩⟩
      cases hq
      have hs := ht.2 rfl
      exact ⟨⟨by rw [hs]; exact hf, by rw [hs]; exact ha⟩, fun _ => .inr rfl⟩
  | rotate a =>
    obtain ⟨hf, -⟩ := hok
    have hlt : ∀ a, w.s.active = some a → a.size < 2 ^ 64 := fun a ha => Nat.lt_trans (hsize a ha) (by decide)
    refine (h.rotate hf hlt a).seq fun r t ht => ?_
    cases r with
    | error e => exact ⟨ht, by simp, by rintro _ ⟨⟩⟩
    | ok _ => exact .pure ⟨ht, by simp, by rintro _ ⟨⟩⟩

/-- What a step of a writer leaves. -/
structure Writer.Done (Z : Zstd) (F : FuseLib) (P : Object → Prop) (w : World) (r : Run) (g : Writer)
    (x : Run × Writer) (t : World) : Prop where
  genuine : Genuine Z F P t
  verify : x.1.verify = r.verify
  ok : x.2.Ok Z P t.s
  holds : x.2.holds = true → g.takes = true ∨ g.holds = true
  frame : g.takes = false → g.holds = false → t.s.failed = w.s.failed ∧ t.s.active = w.s.active

theorem Writer.run_done {r : Run} {g : Writer} {m : M (Run × Writer)} (h : Genuine Z F P w) (hok : g.Ok Z P w.s)
    (hsize : ∀ a, w.s.active = some a → a.size < 2 ^ 63)
    (hverify : ∀ o, verify o = .ok () → P o ∧ o.key.Canonical) (hr : r.verify = true)
    (hm : m ∈ g.run Z F verify r) :
    m.Gives (Post (Writer.Done Z F P w r g) fun _ _ => False) w := by
  -- a step that only moves on
  have hstay : ∀ x : Run × Writer, x.1.verify = r.verify → x.2.Ok Z P w.s → x.2.holds = false →
      Writer.Done Z F P w r g x w := fun x hv hx hfree =>
    ⟨h, hv, hx, fun hh => Bool.noConfusion (hfree.symm.trans hh), fun _ _ => ⟨rfl, rfl⟩⟩
  obtain ⟨pending, pc⟩ := g
  cases pc with
  | recv =>
    rcases mem_append.mp hm with hm | hm
    · split at hm
      · obtain rfl := mem_singleton.mp hm
        exact .pure (hstay _ rfl trivial rfl)
      · cases hm
    · cases hchan : r.chan with
      | cons o chan =>
        rw [hchan] at hm
        obtain rfl := mem_singleton.mp hm
        exact .pure (hstay _ rfl trivial rfl)
      | nil =>
        rw [hchan] at hm
        dsimp only at hm
        split at hm
        · obtain rfl := mem_singleton.mp hm
          exact .pure (hstay _ rfl trivial rfl)
        · cases hm
  | observe o =>
    obtain rfl := mem_singleton.mp hm
    simp only [Packstore.observe, wp_bind, wp_setStore, post_ok, wp_pure]
    exact ⟨h.setStore rfl rfl (Nat.le_refl _) id, rfl, trivial, by rintro ⟨⟩, fun _ _ => ⟨rfl, rfl⟩⟩
  | seen o =>
    simp only [Writer.run] at hm
    split at hm
    · obtain rfl := mem_singleton.mp hm
      exact .pure (hstay _ rfl trivial rfl)
    · obtain rfl := mem_singleton.mp hm
      exact .pure (hstay _ rfl trivial rfl)
  | work o p n =>
    obtain rfl := mem_singleton.mp hm
    rw [if_pos hr]
    refine (Work.run_done h hok hsize (hverify o) false).tries fun x t ht => ?_
    have hframe : p.takes = false → p.holds = false → t.s.failed = w.s.failed ∧ t.s.active = w.s.active :=
      fun h₁ h₂ => by rw [ht.frame h₁ h₂]; exact ⟨rfl, rfl⟩
    have happended : ∀ batchSize, (Writer.appended ⟨pending, .work o p n⟩ batchSize n).Ok Z P t.s ∧
        (Writer.appended ⟨pending, .work o p n⟩ batchSize n).holds = false := by
      intro batchSize
      unfold Writer.appended
      split <;> exact ⟨trivial, rfl⟩
    cases x with
    | error e => exact .pure ⟨ht.genuine, rfl, trivial, by rintro ⟨⟩, hframe⟩
    | ok x =>
      cases x with
      | goto q =>
        obtain ⟨hq, hholds⟩ := ht.ok q rfl
        exact .pure ⟨ht.genuine, rfl, hq, hholds, hframe⟩
      | done e =>
        obtain ⟨hokA, hfreeA⟩ := happended r.batchSize
        cases e with
        | dedup => exact .pure ⟨ht.genuine, rfl, trivial, by rintro ⟨⟩, hframe⟩
        | lost =>
          refine .pure ⟨ht.genuine, rfl, hokA, fun hh => ?_, hframe⟩
          cases hfreeA.symm.trans hh
        | stored =>
          refine .pure ⟨ht.genuine, rfl, hokA, fun hh => ?_, hframe⟩
          cases hfreeA.symm.trans hh
  | flush =>
    obtain rfl := mem_singleton.mp hm
    refine h.syncActive.tries fun x t ht => ?_
    cases x with
    | error e => exact .pure ⟨ht, rfl, trivial, by rintro ⟨⟩, by rintro ⟨⟩⟩
    | ok _ => exact .pure ⟨ht, rfl, trivial, by rintro ⟨⟩, by rintro ⟨⟩⟩
  | ret => cases hm

end Writers

/-! ## The system -/

namespace Node
variable {H : Blake3} {n n' : Node}

/-- What holds of every reachable state. -/
structure Inv (Z : Zstd) (F : FuseLib) (P : Object → Prop) (n : Node) : Prop where
  tidy : Tidy Z F P n.w
  genuine : n.up = true → Genuine Z F P n.w
  down : n.up = false → ∀ i, n.procs i = .idle
  verify : ∀ i r g, n.procs i = .writer r g → (n.runs r).verify = true
  writers : ∀ i r g, n.procs i = .writer r g → g.Ok Z P n.w.s
  one : ∀ i j, (n.procs i).holds = true → (n.procs j).holds = true → i = j
  job : ∀ c, n.job = some c → n.up = true ∧ Genuine.CompactionOk Z F P c ∧ ∀ i, (n.procs i).holds = false

namespace Inv

theorem up (h : Inv Z F P n) {i : Nat} {p : Proc} (hi : n.procs i = p) (hp : p ≠ .idle) : n.up = true := by
  by_contra hdown
  exact hp (hi.symm.trans (h.down (Bool.not_eq_true _ ▸ hdown) i))

/-- A step of the goroutine that has `appendMu`, or could take it. -/
theorem setWorld (h : Inv Z F P n) (hfree : ∀ i, (n.procs i).holds = false) {t : World} (ht : Genuine Z F P t)
    {job : Option Compaction} (hup : n.up = true) (hjob : ∀ c, job = some c → Genuine.CompactionOk Z F P c) :
    Inv Z F P { n with w := t, job } where
  tidy := ht.1.toTidy
  genuine _ := ht
  down := h.down
  verify := h.verify
  writers i r g hi := by
    refine (h.writers i r g hi).of_free ?_
    have hh := hfree i
    rw [hi] at hh
    exact hh
  one := h.one
  job c hc := ⟨hup, hjob c hc, hfree⟩

theorem setProc (h : Inv Z F P n) {i : Nat} {p : Proc} (hup : n.up = true) (hp : p.holds = false)
    (hw : ∀ r g, p ≠ .writer r g) : Inv Z F P { n with procs := update n.procs i p } := by
  have hold : ∀ j r g, update n.procs i p j = .writer r g → n.procs j = .writer r g := by
    intro j r g hj
    by_cases hji : j = i
    · subst hji
      rw [update_self] at hj
      exact absurd hj (hw r g)
    · rwa [update_of_ne hji] at hj
  have hholds : ∀ j, (update n.procs i p j).holds = true → (n.procs j).holds = true := by
    intro j hj
    by_cases hji : j = i
    · subst hji
      rw [update_self, hp] at hj
      cases hj
    · rwa [update_of_ne hji] at hj
  refine ⟨h.tidy, h.genuine, fun hd => ?_, fun j r g hj => h.verify j r g (hold j r g hj),
    fun j r g hj => h.writers j r g (hold j r g hj), fun j k hj hk => h.one j k (hholds j hj) (hholds k hk),
    fun c hc => ?_⟩
  · cases hup.symm.trans hd
  · obtain ⟨hu, hok, hfree⟩ := h.job c hc
    refine ⟨hu, hok, fun j => ?_⟩
    by_contra hj
    have := hholds j (Bool.not_eq_false _ ▸ hj)
    rw [hfree j] at this
    cases this

theorem upload (h : Inv Z F P n) (hup : n.up = true) {i r cores : Nat} {seq : List (Except Err Object)}
    {writers batchSize : Int} {ws : List Nat} (hunused : n.Unused r) :
    Inv Z F P { n with
      procs := fun j => if j ∈ ws then .writer r ⟨0, .recv⟩ else update n.procs i (.parallel r .wait) j
      runs := update n.runs r (Run.new cores seq writers batchSize true) } := by
  have hp := h.setProc (i := i) (p := .parallel r .wait) hup rfl nofun
  have hholds : ∀ j, Proc.holds (if j ∈ ws then .writer r ⟨0, .recv⟩
      else update n.procs i (.parallel r .wait) j) = true →
      (update n.procs i (.parallel r .wait) j).holds = true := by
    intro j hj
    split at hj
    · cases hj
    · exact hj
  refine ⟨h.tidy, h.genuine, fun hd => ?_, fun j r' g hj => ?_, fun j r' g hj => ?_,
    fun j k hj hk => hp.one j k (hholds j hj) (hholds k hk), fun c hc => ?_⟩
  · cases hup.symm.trans hd
  · dsimp only at hj ⊢
    split at hj
    · cases hj
      rw [update_self]
      rfl
    · -- the runs of the other writers are other runs
      have hold := hp.verify j r' g hj
      have hne : r' ≠ r := by
        rintro rfl
        by_cases hji : j = i
        · subst hji
          rw [update_self] at hj
          cases hj
        · rw [update_of_ne hji] at hj
          exact (hunused j).1 g hj
      rw [update_of_ne hne]
      exact hold
  · dsimp only at hj
    split at hj
    · cases hj
      trivial
    · exact hp.writers j r' g hj
  · obtain ⟨hu, hok, hfree⟩ := hp.job c hc
    refine ⟨hu, hok, fun j => ?_⟩
    dsimp only
    split
    · rfl
    · exact hfree j

theorem distribute (h : Inv Z F P n) {r : Nat} {run : Run} (hr : (n.runs r).Distribute run) :
    Inv Z F P { n with runs := update n.runs r run } := by
  have hverify : run.verify = (n.runs r).verify := by
    cases hr <;> rfl
  refine { h with verify := fun j r' g hj => ?_ }
  dsimp only at hj ⊢
  by_cases hr' : r' = r
  · subst hr'
    rw [update_self, hverify]
    exact h.verify j r' g hj
  · rw [update_of_ne hr']
    exact h.verify j r' g hj

theorem write (h : Inv Z F P n) {i r : Nat} {g g' : Writer} {run : Run} {t : World} (hi : n.procs i = .writer r g)
    (hfree : g.takes = true → n.Free) (hd : Writer.Done Z F P n.w (n.runs r) g (run, g') t) :
    Inv Z F P { n with
      w := t, procs := update n.procs i (.writer r g'), runs := update n.runs r run } := by
  have hup := h.up hi nofun
  -- a writer that does not hold the lock afterwards has changed nothing that others rely on
  have hothers : ∀ j, j ≠ i → (n.procs j).holds = true → g'.holds = false ∧
      t.s.failed = n.w.s.failed ∧ t.s.active = n.w.s.active := by
    intro j hj hh
    have htakes : g.takes = false := by
      by_contra htakes
      have := (hfree (Bool.not_eq_false _ ▸ htakes)).1 j
      rw [hh] at this
      cases this
    have hholds : g.holds = false := by
      by_contra hg
      refine hj (h.one j i hh ?_)
      rw [hi]
      exact Bool.not_eq_false _ ▸ hg
    refine ⟨?_, hd.frame htakes hholds⟩
    by_contra hg'
    rcases hd.holds (Bool.not_eq_false _ ▸ hg') with hg | hg
    · cases htakes.symm.trans hg
    · cases hholds.symm.trans hg
  refine ⟨hd.genuine.1.toTidy, fun _ => hd.genuine, fun hdown => ?_, fun j r' g'' hj => ?_, fun j r' g'' hj => ?_,
    fun j k hj hk => ?_, fun c hc => ?_⟩
  · cases hup.symm.trans hdown
  · dsimp only at hj ⊢
    have hold : (n.runs r').verify = true := by
      by_cases hji : j = i
      · subst hji
        rw [update_self] at hj
        cases hj
        exact h.verify _ _ _ hi
      · rw [update_of_ne hji] at hj
        exact h.verify _ _ _ hj
    by_cases hr : r' = r
    · subst hr
      rw [update_self, hd.verify, hold]
    · rw [update_of_ne hr, hold]
  · dsimp only at hj
    by_cases hji : j = i
    · subst hji
      rw [update_self] at hj
      cases hj
      exact hd.ok
    · rw [update_of_ne hji] at hj
      have hok := h.writers j r' g'' hj
      by_cases hh : g''.holds = true
      · obtain ⟨-, hf, ha⟩ := hothers j hji (by rw [hj]; exact hh)
        exact hok.congr hf ha
      · exact hok.of_free (Bool.not_eq_true _ ▸ hh)
  · dsimp only at hj hk
    by_cases hji : j = i
    · by_cases hki : k = i
      · rw [hji, hki]
      · subst hji
        rw [update_self] at hj
        rw [update_of_ne hki] at hk
        cases (hothers k hki hk).1.symm.trans hj
    · rw [update_of_ne hji] at hj
      by_cases hki : k = i
      · subst hki
        rw [update_self] at hk
        cases (hothers j hji hj).1.symm.trans hk
      · rw [update_of_ne hki] at hk
        exact h.one j k hj hk
  · obtain ⟨hu, hok, hall⟩ := h.job c hc
    refine ⟨hu, hok, fun j => ?_⟩
    dsimp only
    by_cases hji : j = i
    · subst hji
      rw [update_self]
      by_contra hg'
      rcases hd.holds (Bool.not_eq_false _ ▸ hg') with hg | hg
      · cases (hfree hg).2.symm.trans hc
      · have := hall j
        rw [hi] at this
        cases this.symm.trans hg
    · rw [update_of_ne hji]
      exact hall j

theorem step (h : Inv Z F (fun o => verifyObject H o = .ok ()) n) (hsize : n.Sized) (hs : Step Z F H n n') :
    Inv Z F (fun o => verifyObject H o = .ok ()) n' := by
  cases hs with
  | upload hup hi hunused hcores hrun =>
    subst hrun
    exact h.upload hup hunused
  | distribute hr => exact h.distribute hr
  | write hi hm hfree hrun =>
    have hup := h.up hi nofun
    have hdone := (Writer.run_done (h.genuine hup) (h.writers _ _ _ hi) hsize
      (fun o ho => ⟨ho, verifyObject_canonical ho⟩) (h.verify _ _ _ hi) hm).of_run hrun
    exact h.write hi hfree hdone.2
  | join hi _ _ =>
    have hup := h.up hi nofun
    exact h.setProc hup rfl nofun
  | @sync i r _ pc _ hi hfree hrun =>
    have hup := h.up hi nofun
    have hsync := (wp_bind.mpr (wp_attempt.mpr ((h.genuine hup).syncActive.post_mono fun r t ht =>
      post_ok.mpr (.pure ht))) : (syncRun _).Gives (fun _ => Genuine Z F _) n.w).of_run hrun
    refine (h.setProc (i := i) (p := .parallel r pc) hup rfl nofun).setWorld (fun j => ?_) hsync.2 hup
      fun c hc => (h.job c hc).2.1
    dsimp only
    by_cases hji : j = i
    · rw [hji, update_self]
      rfl
    · rw [update_of_ne hji]
      exact hfree.1 j
  | prepare hup hfree hrun =>
    have hprep := ((h.genuine hup).prepareCompact hsize _ _).of_run hrun
    exact h.setWorld hfree.1 hprep.2.1 hup hprep.2.2
  | turn hjob hrun =>
    obtain ⟨hup, hok, hfree⟩ := h.job _ hjob
    have hturn := ((h.genuine hup).turn hsize hok H _ _).of_run hrun
    refine h.setWorld hfree hturn.2.1 hup fun c hc => ?_
    cases hc
    exact hturn.2.2
  | finish hjob _ hrun =>
    obtain ⟨hup, -, hfree⟩ := h.job _ hjob
    have hfinish := ((h.genuine hup).finishCompact _ _ _).of_run hrun
    exact h.setWorld hfree hfinish.2 hup nofun
  | wipe hup hfree hrun =>
    have hwipe := (keeps_wipe_genuine _ (h.genuine hup)).of_run hrun
    exact h.setWorld hfree.1 hwipe.2 hup fun c hc => (h.job c hc).2.1
  | close hup hfree hrun =>
    have hclose := (keeps_close_genuine _ (h.genuine hup)).of_run hrun
    exact h.setWorld hfree.1 hclose.2 hup fun c hc => (h.job c hc).2.1
  | openDir hdown hrun =>
    have hopen := (openStore_genuine _ h.tidy).of_run hrun
    rename_i r t
    cases r with
    | error e => exact ⟨hopen.2, nofun, fun _ _ => rfl, nofun, nofun, nofun, nofun⟩
    | ok _ => exact ⟨hopen.2.1.toTidy, fun _ => hopen.2, fun _ _ => rfl, nofun, nofun, nofun, nofun⟩

theorem reach (hn : Reach (fun n : Node => n.Fresh ∧ Clean n.w.ioFaults ∧ Clean n.w.syncFaults)
    (fun n n' => n.Sized ∧ Step Z F H n n') n) : Inv Z F (fun o => verifyObject H o = .ok ()) n := by
  refine hn.invariant (fun m hm => ?_) fun m m' hm hs => hm.step hs.1 hs.2
  obtain ⟨hfresh, hio, hsync⟩ := hm
  have hdir : Sourced Z F (fun o => verifyObject H o = .ok ()) m.w.fs := by
    refine ⟨?_, ?_, ?_, ?_⟩ <;> rw [hfresh.dir]
    · exact nodup_nil
    · exact nodup_nil
    · exact nofun
    · exact nofun
  have hidle : ∀ i r g, m.procs i ≠ .writer r g := by
    intro i r g hi
    cases (hfresh.idle i).symm.trans hi
  refine ⟨⟨hdir, hio, hsync⟩, fun hup => ?_, fun _ => hfresh.idle, fun i r g hi => (hidle i r g hi).elim,
    fun i r g hi => (hidle i r g hi).elim, fun i j hi => ?_, fun c hc => ?_⟩
  · cases hfresh.down.symm.trans hup
  · rw [hfresh.idle i] at hi
    cases hi
  · cases hfresh.job.symm.trans hc

end Inv

/-! ### Runs of one upload

An upload of two objects by two writers, on an empty directory. -/

/-- The object that nobody has uploaded: its key does not belong to its payload. -/
def planted : Object := ⟨⟨0 :: 0 :: List.replicate 30 1, rfl⟩, []⟩

/-- A blob that holds the record of the planted object. -/
def carrier : Object := ⟨⟨0 :: 47 :: List.replicate 30 0, rfl⟩, objectRecord .stored planted ++ [0]⟩

/-- The empty blob. -/
def small : Object := ⟨⟨List.replicate 32 0, length_zeros⟩, []⟩

/-- An empty directory, and the failures that file operations meet with. -/
def emptyAt (io : List (Option Nat)) : World := ⟨emptyDir, .new ⟨1000, true⟩, io, []⟩

/-- The runs on it. -/
abbrev RunsFrom (io : List (Option Nat)) : Node → Prop :=
  Reach (fun n => n.Fresh ∧ n.w = emptyAt io) fun n n' => n.Sized ∧ Step .stored .full noHash n n'

def twoBlobs : Run := Run.new 1 [.ok carrier, .ok small] 2 0 true

/-- The upload with its writers, the processes 1 and 2. -/
structure Duo where
  w : World
  g : Nat → Writer
  run : Run

namespace Duo

def node (d : Duo) : Node where
  w := d.w
  up := true
  procs j := if j = 0 then .parallel 0 .wait else if j ≤ 2 then .writer 0 (d.g j) else .idle
  runs := update (fun _ => twoBlobs) 0 d.run
  job := none

/-- No writer holds `appendMu`. -/
def free (d : Duo) : Bool := !(d.g 1).holds && !(d.g 2).holds

/-- The offsets of the active file are small. -/
def sized (w : World) : Bool := (w.s.active.map ActiveSegment.size).getD 0 < 2 ^ 63

/-- The step of this number that a writer can take. -/
def write (d : Duo) (i k : Nat) : Option Duo :=
  match ((d.g i).run .stored .full (verifyObject noHash) d.run)[k]? with
  | none => none
  | some m =>
    match m d.w with
    | ⟨_, .error _, _⟩ => none
    | ⟨_, .ok (run, g'), w⟩ =>
      if (i == 1 || i == 2) && sized d.w && (!(d.g i).takes || d.free) then
        some ⟨w, update d.g i g', run⟩
      else none

def writes : List (Nat × Nat) → Duo → Option Duo
  | [], d => some d
  | (i, k) :: ks, d => (d.write i k).bind (writes ks)

section Runs
variable {d d' : Duo} {io : List (Option Nat)}

theorem node_free (h : d.free = true) : d.node.Free := by
  simp only [free, Bool.and_eq_true, Bool.not_eq_true'] at h
  refine ⟨fun j => ?_, rfl⟩
  match j with
  | 0 => rfl
  | 1 => exact h.1
  | 2 => exact h.2
  | _ + 3 => rfl

theorem sized_node {n : Node} (h : sized n.w = true) : n.Sized := by
  intro a ha
  have hlt := of_decide_eq_true h
  rw [ha] at hlt
  exact hlt

theorem node_write {i : Nat} (hne : i ≠ 0) (hle : i ≤ 2) (w : World) (g : Writer) (run : Run) :
    { d.node with
      w, procs := update d.node.procs i (.writer 0 g), runs := update d.node.runs 0 run } =
      node ⟨w, update d.g i g, run⟩ := by
  simp only [node, update_idem, Node.mk.injEq, true_and, and_true]
  funext j
  by_cases hj : j = i
  · subst hj
    rw [update_self, update_self, if_neg hne, if_pos hle]
  · rw [update_of_ne hj, update_of_ne hj]

theorem write_step {i k : Nat} (h : d.write i k = some d') :
    d.node.Sized ∧ Step .stored .full noHash d.node d'.node := by
  unfold write at h
  split at h
  · cases h
  · rename_i m hm
    split at h
    · cases h
    · rename_i hout
      split at h
      · rename_i hok
        simp only [Bool.and_eq_true, Bool.or_eq_true, beq_iff_eq, Bool.not_eq_true'] at hok
        obtain ⟨⟨hi, hsized⟩, hfree⟩ := hok
        have hne : i ≠ 0 := by omega
        have hle : i ≤ 2 := by omega
        have hproc : d.node.procs i = .writer 0 (d.g i) := (if_neg hne).trans (if_pos hle)
        have hrun : d.node.runs 0 = d.run := by
          dsimp only [node]
          rw [update_self]
        have hstep := Step.write (n := d.node) hproc (hrun.symm ▸ mem_of_getElem? hm)
          (fun ht => node_free (hfree.resolve_left (by rw [ht]; nofun))) hout
        cases h
        rw [node_write hne hle] at hstep
        exact ⟨sized_node hsized, hstep⟩
      · cases h

theorem writes_runs {ks : List (Nat × Nat)} (h : RunsFrom io d.node) (hd : writes ks d = some d') :
    RunsFrom io d'.node := by
  induction ks generalizing d with
  | nil =>
    cases hd
    exact h
  | cons k ks ih =>
    obtain ⟨d₁, hwrite, hd⟩ := Option.bind_eq_some_iff.mp hd
    exact ih (h.next (write_step hwrite)) hd

theorem openDir_runs {n : Node} (cfg : Config) (h : RunsFrom io n) (hsize : sized n.w = true)
    (hd : n.up = false ∨ n.w.s.closed = true ∧ n.Free) (hok : (openStore cfg n.w).result.isOk = true) :
    RunsFrom io ⟨(openStore cfg n.w).final, true, fun _ => .idle, n.runs, none⟩ := by
  have hout : openStore cfg n.w =
      ⟨(openStore cfg n.w).trace, (openStore cfg n.w).result, (openStore cfg n.w).final⟩ := rfl
  have hstep := Step.openDir (Z := .stored) (F := .full) (H := noHash) hd hout
  rw [hok] at hstep
  exact h.next ⟨sized_node hsize, hstep⟩

end Runs

theorem open_empty : (openStore ⟨1000, true⟩ (emptyAt io)).result = .ok () ∧
    (openStore ⟨1000, true⟩ (emptyAt io)).final = emptyAt io := by
  have hwp : (openStore ⟨1000, true⟩).Gives (fun r t => r = .ok () ∧ t = emptyAt io) (emptyAt io) := by
    have hdir : readDir (emptyAt io).fs.cur = [] := mergeSort_nil
    unfold openStore load
    simp only [wp_bind, wp_setStore, post_ok, wp_read]
    rw [hdir]
    refine .pure (post_ok.mpr (.pure ⟨rfl, ?_⟩))
    simp only [Store.new, mergeSort_nil]
    rfl
  exact hwp.2

/-- The upload on a new store, with its objects in the channel. -/
def start (io : List (Option Nat)) : Duo where
  w := emptyAt io
  g _ := ⟨0, .recv⟩
  run := { twoBlobs with todo := [], given := [small, carrier], chan := [carrier, small] }

theorem start_runs (io : List (Option Nat)) : RunsFrom io (start io).node := by
  have hsize : ∀ n : Node, n.w = emptyAt io → n.Sized := fun n hn => sized_node (by rw [hn]; rfl)
  have h₀ : RunsFrom io ⟨emptyAt io, false, fun _ => .idle, fun _ => twoBlobs, none⟩ :=
    .start ⟨⟨rfl, rfl, fun _ => rfl, rfl⟩, rfl⟩
  have h₁ := openDir_runs ⟨1000, true⟩ h₀ rfl (.inl rfl) (by rw [open_empty.1]; rfl)
  rw [open_empty.2] at h₁
  have h₂ := h₁.next ⟨hsize _ rfl, .upload (i := 0) (r := 0) rfl rfl (fun _ => ⟨nofun, nofun⟩)
    Nat.one_pos (show twoBlobs = _ from rfl) (show [1, 2].length = _ from rfl) (by decide) (by decide) fun _ _ => rfl⟩
  have hprocs : (fun j => if j ∈ [1, 2] then Proc.writer 0 ⟨0, .recv⟩
      else update (fun _ => Proc.idle) 0 (.parallel 0 .wait) j) = (start io).node.procs := by
    funext j
    match j with
    | 0 => rfl
    | 1 => rfl
    | 2 => rfl
    | j + 3 => rfl
  dsimp only at h₂
  rw [hprocs] at h₂
  have h₃ := h₂.next ⟨hsize _ rfl, .distribute (r := 0) (.send rfl rfl (show 0 < 4 by decide))⟩
  have h₄ := h₃.next ⟨hsize _ rfl, .distribute (r := 0) (.send rfl rfl (show 1 < 4 by decide))⟩
  dsimp only at h₄
  rw [update_idem, update_idem] at h₄
  exact h₄

end Duo

/-- Whatever is uploaded, compacted, wiped, closed and reopened: what `Get` returns is the payload its key was
derived from, as long as no operation that fails has changed a file. -/
theorem get_authentic (Z : Zstd) (F : FuseLib) (H : Blake3) {n : Node}
    (hn : Reach (fun n : Node => n.Fresh ∧ Clean n.w.ioFaults ∧ Clean n.w.syncFaults)
      (fun n n' => n.Sized ∧ Step Z F H n n') n) (hup : n.up = true)
    (hget : get Z F n.w.fs n.w.s k = .ok d) :
    Key.newFromHash k.type k.length (H d) = .ok k ∧
      (k.type = .blob ∨ k.type = .xattrSet → k.length.toNat = d.length) := by
  obtain ⟨-, L, hL, hP⟩ := (Inv.reach hn).genuine hup
  have hopen : n.w.s.closed = false := by
    cases hc : n.w.s.closed with
    | false => rfl
    | true => simp [get, Store.probe, hc] at hget
  rw [hL.rep.get_eq hopen] at hget
  cases hl : L.lookup k with
  | none =>
    rw [hl] at hget
    cases hget
  | some o =>
    rw [hl] at hget
    cases hget
    obtain ⟨ho, rfl⟩ := Layout.lookup_mem hl
    have hv := hP o ho
    have hmax : maxPayload < 2 ^ 64 := by decide
    have hfits := (Layout.fits ho).2
    refine ⟨verifyObject_key hv, fun htype => ?_⟩
    rw [verifyObject_length hv htype, UInt64.toNat_ofNat', Nat.mod_eq_of_lt (by omega)]

/-- The first writer receives, checks and appends the blob that carries the record. -/
def appends (io : List (Option Nat)) : Option Duo := (Duo.start io).writes (List.replicate 5 (1, 0))

/-- Without a failure, the blob that carries the record is read as what was uploaded. -/
theorem get_carrier : ∃ n, RunsFrom [] n ∧ n.up = true ∧
    get .stored .full n.w.fs n.w.s carrier.key = .ok carrier.data ∧
    Key.newFromHash carrier.key.type carrier.key.length (noHash carrier.data) = .ok carrier.key ∧
    carrier.key.length.toNat = carrier.data.length := by
  have hread : (appends []).any (fun d => get .stored .full d.w.fs d.w.s carrier.key == .ok carrier.data) = true := by
    decide +kernel
  obtain ⟨d, hd, hget⟩ := (Option.any_eq_true ..).mp hread
  have h₁ := Duo.writes_runs (Duo.start_runs []) hd
  have hget := eq_of_beq hget
  have hclean : Reach (fun n : Node => n.Fresh ∧ Clean n.w.ioFaults ∧ Clean n.w.syncFaults)
      (fun n n' => n.Sized ∧ Step .stored .full noHash n n') _ := h₁.invariant (fun m hm => .start ⟨hm.1, by
        rw [hm.2]
        exact ⟨nofun, nofun⟩⟩) fun _ _ hs hstep => hs.next hstep
  obtain ⟨hkey, hlen⟩ := get_authentic .stored .full noHash hclean rfl hget
  exact ⟨_, h₁, rfl, hget, hkey, hlen (.inl (by decide +kernel))⟩

/-! ### A short write

A writer fails in the middle of a record, another one overwrites the beginning of what it left, and the rest
has the form of a record. -/

/-- The third file operation, a write, stops one byte before its end. -/
def shortWrite : List (Option Nat) := [none, none, some 92]

/-- The second writer goes on with the other blob, although the context is cancelled. -/
def overwrites : Option Duo :=
  (appends shortWrite).bind (Duo.writes ((2, 1) :: List.replicate 6 (2, 0)))

/-- The planted object can be read. -/
theorem get_planted : ∃ n, RunsFrom shortWrite n ∧ n.up = true ∧
    get .stored .full n.w.fs n.w.s planted.key = .ok [] ∧
    Key.newFromHash planted.key.type planted.key.length (noHash []) ≠ .ok planted.key := by
  have hread : overwrites.any (fun d =>
      let closed := (Packstore.close d.w).final
      let reopened := openStore ⟨1000, true⟩ closed
      d.free && Duo.sized d.w && Duo.sized closed && closed.s.closed && reopened.result.isOk &&
        get .stored .full reopened.final.fs reopened.final.s planted.key == .ok []) = true := by
    decide +kernel
  obtain ⟨d, hd, hok⟩ := (Option.any_eq_true ..).mp hread
  simp only [Bool.and_eq_true] at hok
  obtain ⟨⟨⟨⟨⟨hfree, hsize⟩, hsize'⟩, hclosed⟩, hopen⟩, hget⟩ := hok
  obtain ⟨d₁, hd₁, hd⟩ := Option.bind_eq_some_iff.mp hd
  have h : RunsFrom shortWrite d.node := Duo.writes_runs (Duo.writes_runs (Duo.start_runs _) hd₁) hd
  have h₁ := h.next ⟨Duo.sized_node hsize, .close rfl (Duo.node_free hfree) rfl⟩
  have h₂ := Duo.openDir_runs ⟨1000, true⟩ h₁ hsize' (.inr ⟨hclosed, Duo.node_free hfree⟩) hopen
  exact ⟨_, h₂, rfl, eq_of_beq hget, by decide +kernel⟩

end Node

end AmberStore.Packstore
