import AmberStore.Packstore.Compact
import AmberStore.Packstore.Rules

/-!
# The copy pipeline

Whatever turns its goroutines take, the pipeline copies live records only, and unless something fails
every live record of the victims ends up in a segment that survives. What an append does to the disk
is a parameter.
-/

namespace AmberStore.Packstore
open Bytes Amberpack Act List

variable {Z : Zstd} {F : FuseLib} {H : Blake3} {w w₀ : World}

/-! ## Index entries -/

namespace SegRep
variable {g : SealedSegment} {c : Contents} {e : IndexEntry}

theorem mem_allEntries (h : SegRep Z F g c) : e ∈ g.fv.allEntries ↔ ∃ a o b, c.objs = a ++ o :: b ∧
    e = ⟨o.key, (bodyOf Z a).length, (storedForm Z o.data).2.length⟩ := by
  obtain ⟨f, hv, -⟩ := h.view
  rw [hv, footerView_allEntries _ f h.entries_bound, mem_sortEntries]
  exact mem_entriesOf fun o ho => (c.fits o ho).2

theorem slice_entry (h : SegRep Z F g c) (he : e ∈ g.fv.allEntries) : ∃ o ∈ c.objs, o.key = e.key ∧
    slice g.mm e.off (e.off + recHeaderSize + e.slen) = objectRecord Z o := by
  obtain ⟨a, o, b, hobjs, rfl⟩ := h.mem_allEntries.mp he
  refine ⟨o, by rw [hobjs]; simp, rfl, ?_⟩
  rw [Nat.add_assoc, ← length_objectRecord, slice_record Z (hobjs ▸ h.body_prefix)]

end SegRep

/-! ## The invariant -/

/-- Appending the record of an object with `A` keeps `J`, and adds the key to the segments that
survive. -/
def Appends (Z : Zstd) (F : FuseLib) (ids : List Nat) (A : Object → Prop) (I J : World → Prop) : Prop :=
  ∀ ⦃w o⦄, A o → J w → (appendLocked F o.key (objectRecord Z o) false).Wp I (fun r w' => J w' ∧
    (∀ k, w.s.survivorHas F ids k → w'.s.survivorHas F ids k) ∧
    (∀ k, w'.s.survivorHas F ids k → w.s.survivorHas F ids k ∨ k = o.key) ∧
    (r = .ok () → w'.s.survivorHas F ids o.key)) w

/-- A record in one of the channels. -/
def CopyRec.Waits (Z : Zstd) (A : Object → Prop) (live : Key → Bool) (c : CopyRec) : Prop :=
  live c.e.key ∧ ∃ o, A o ∧ o.key = c.e.key ∧ c.bytes = objectRecord Z o

/-- What is in the pipeline comes from the victims. -/
structure PipeOk (Z : Zstd) (A : Object → Prop) (live : Key → Bool) (victims : List SealedSegment) (p : Pipe) :
    Prop where
  todo : ∀ x ∈ p.todo, x.1 ∈ victims ∧ x.2 ∈ x.1.fv.allEntries
  waits : ∀ c, c ∈ p.cands ∨ c ∈ p.verified → c.Waits Z A live

/-- The state of a pipeline that started at `w₀`: each live record of a victim is still in it or has a
copy that survives, unless the context is cancelled. -/
structure PipeInv (Z : Zstd) (F : FuseLib) (A : Object → Prop) (live : Key → Bool)
    (victims : List SealedSegment) (w₀ : World) (p : Pipe) (w : World) : Prop where
  todo : ∀ x ∈ p.todo, x.1 ∈ victims ∧ x.2 ∈ x.1.fv.allEntries
  waits : ∀ c, c ∈ p.cands ∨ c ∈ p.verified → c.Waits Z A live
  covered : p.cancelled = false → ∀ g ∈ victims, ∀ e ∈ g.fv.allEntries, live e.key →
    (g, e) ∈ p.todo ∨ (∃ c, (c ∈ p.cands ∨ c ∈ p.verified) ∧ c.e.key = e.key) ∨
      w.s.survivorHas F (victims.map SealedSegment.id) e.key
  kept : ∀ k, w₀.s.survivorHas F (victims.map SealedSegment.id) k →
    w.s.survivorHas F (victims.map SealedSegment.id) k
  live : ∀ k, w.s.survivorHas F (victims.map SealedSegment.id) k →
    w₀.s.survivorHas F (victims.map SealedSegment.id) k ∨ live k

theorem mem_eraseIdx_or {l : List α} (hi : l[i]? = some a) (h : b ∈ l) : b = a ∨ b ∈ l.eraseIdx i := by
  obtain ⟨j, hj⟩ := getElem?_of_mem h
  by_cases hij : j = i
  · subst hij
    exact .inl (Option.some.inj (hj.symm.trans hi))
  · exact .inr (mem_eraseIdx_iff_getElem?.mpr ⟨j, hij, hj⟩)

theorem Pipe.cancelled_eq_false {p : Pipe} : p.cancelled = false ↔ p.err = none ∧ p.appendErr = none := by
  simp [Pipe.cancelled]

theorem Pipe.cancelled_of_err {p : Pipe} {x : Option Err} (h : p.err = (x <|> some e)) :
    p.cancelled = true := by
  cases x <;> simp [Pipe.cancelled, h]

section Turns
variable {A : Object → Prop} {live : Key → Bool} {victims : List SealedSegment} {p : Pipe}

namespace PipeOk

theorem start (Z : Zstd) (A : Object → Prop) (live : Key → Bool) (victims : List SealedSegment) :
    PipeOk Z A live victims (.start victims) where
  todo x hx := by
    obtain ⟨g, hg, hx⟩ := mem_flatMap.mp hx
    obtain ⟨e, he, rfl⟩ := mem_map.mp hx
    exact ⟨hg, he⟩
  waits c hc := by
    rcases hc with hc | hc
    · cases hc
    · cases hc

section
variable (h : PipeOk Z A live victims p)
include h

theorem sub {q : Pipe} (htodo : ∀ x ∈ q.todo, x ∈ p.todo)
    (hcands : ∀ c ∈ q.cands, c ∈ p.cands) (hver : ∀ c ∈ q.verified, c ∈ p.verified) :
    PipeOk Z A live victims q where
  todo x hx := h.todo x (htodo x hx)
  waits c hc := h.waits c (hc.imp (hcands c) (hver c))

theorem produce
    (hv : ∀ g ∈ victims, ∃ c, SegRep Z F g c ∧ ∀ o ∈ c.objs, A o) (ids : List Nat) (s : Store) :
    PipeOk Z A live victims (p.produce F live ids s) := by
  unfold Pipe.produce
  cases hp : p.todo with
  | nil => exact h
  | cons x todo =>
    obtain ⟨g, e⟩ := x
    obtain ⟨hg, he⟩ := h.todo (g, e) (by rw [hp]; exact mem_cons_self)
    have htodo : ∀ x ∈ todo, x ∈ p.todo := fun x hx => by rw [hp]; exact mem_cons_of_mem _ hx
    dsimp only
    split
    · exact h.sub htodo (fun _ => id) fun _ => id
    · next hskip =>
      split
      · exact h.sub nofun (fun _ => id) fun _ => id
      · obtain ⟨c, hrep, hA⟩ := hv g hg
        obtain ⟨o, ho, hk, hbytes⟩ := hrep.slice_entry he
        have hlive : live e.key = true := by
          rw [Bool.or_eq_true, not_or] at hskip
          simpa using hskip.1
        refine ⟨fun x hx => h.todo x (htodo x hx), fun d hd => ?_⟩
        rcases hd with hd | hd
        · rcases mem_append.mp hd with hd | hd
          · exact h.waits d (.inl hd)
          · rw [mem_singleton.mp hd]
            exact ⟨hlive, o, hA o ho, hk, hbytes⟩
        · exact h.waits d (.inr hd)

theorem verify (i : Nat) : PipeOk Z A live victims (p.verify Z H i) := by
  unfold Pipe.verify
  cases hi : p.cands[i]? with
  | none => exact h
  | some c =>
    have herase : ∀ d ∈ p.cands.eraseIdx i, d ∈ p.cands := fun d => mem_of_mem_eraseIdx
    dsimp only
    cases checkRecord Z H c.e.key c.bytes with
    | error e => exact h.sub (fun _ => id) herase fun _ => id
    | ok _ =>
      refine ⟨h.todo, fun d hd => ?_⟩
      rcases hd with hd | hd
      · exact h.waits d (.inl (herase d hd))
      · rcases mem_append.mp hd with hd | hd
        · exact h.waits d (.inr hd)
        · rw [mem_singleton.mp hd]
          exact h.waits c (.inl (mem_of_getElem? hi))

theorem append {I J : World → Prop}
    (hA : ∀ o, A o → (appendLocked F o.key (objectRecord Z o) false).Wp I (fun _ => J) w) (hw : J w) :
    (p.append F).Wp I (Post (fun q w' => PipeOk Z A live victims q ∧ J w') fun _ _ => False) w := by
  unfold Pipe.append
  cases hp : p.verified with
  | nil => exact .pure ⟨h, hw⟩
  | cons c verified =>
    have hsub : ∀ d ∈ verified, d ∈ p.verified := fun d hd => by rw [hp]; exact mem_cons_of_mem _ hd
    obtain ⟨-, o, hAo, hk, hbytes⟩ := h.waits c (.inr (by rw [hp]; exact mem_cons_self))
    refine wp_ite (fun _ => .pure ⟨h.sub (fun _ => id) (fun _ => id) hsub, hw⟩) fun _ => ?_
    rw [hbytes, ← hk]
    refine (hA o hAo).tries fun r t ht => ?_
    cases r with
    | error e => exact .pure ⟨h.sub (fun _ => id) (fun _ => id) hsub, ht⟩
    | ok _ => exact .pure ⟨h.sub (fun _ => id) (fun _ => id) hsub, ht⟩

theorem turn {I J : World → Prop} {ids : List Nat}
    (hv : ∀ g ∈ victims, ∃ c, SegRep Z F g c ∧ ∀ o ∈ c.objs, A o)
    (hA : ∀ o, A o → (appendLocked F o.key (objectRecord Z o) false).Wp I (fun _ => J) w) (hw : J w) (t : Turn) :
    (p.turn Z F H live ids t).Wp I (Post (fun q w' => PipeOk Z A live victims q ∧ J w') fun _ _ => False) w := by
  cases t with
  | produce => exact wp_bind.mpr (wp_getStore.mpr (.pure ⟨h.produce hv ids w.s, hw⟩))
  | stop =>
    refine .pure ⟨?_, hw⟩
    split
    · exact h.sub nofun (fun _ => id) fun _ => id
    · exact h
  | verify i => exact .pure ⟨h.verify i, hw⟩
  | drop i =>
    refine .pure ⟨?_, hw⟩
    split
    · exact h.sub (fun _ => id) (fun _ => mem_of_mem_eraseIdx) fun _ => id
    · exact h
  | append => exact h.append hA hw

end

end PipeOk

namespace PipeInv

theorem ok (h : PipeInv Z F A live victims w₀ p w) : PipeOk Z A live victims p := ⟨h.todo, h.waits⟩

theorem start (Z : Zstd) (F : FuseLib) (A : Object → Prop) (live : Key → Bool)
    (victims : List SealedSegment) (w : World) : PipeInv Z F A live victims w (.start victims) w where
  todo := (PipeOk.start Z A live victims).todo
  waits := (PipeOk.start Z A live victims).waits
  covered _ g hg _ he _ := .inl (mem_flatMap.mpr ⟨g, hg, mem_map_of_mem he⟩)
  kept _ h := h
  live _ h := .inl h

section
variable (h : PipeInv Z F A live victims w₀ p w)
include h

theorem produce
    (hv : ∀ g ∈ victims, ∃ c, SegRep Z F g c ∧ ∀ o ∈ c.objs, A o) :
    PipeInv Z F A live victims w₀
      (p.produce F live (victims.map SealedSegment.id) w.s) w := by
  have hok := h.ok.produce hv (victims.map SealedSegment.id) w.s
  refine ⟨hok.todo, hok.waits, ?_, h.kept, h.live⟩
  unfold Pipe.produce
  cases hp : p.todo with
  | nil => exact h.covered
  | cons x todo =>
    obtain ⟨g, e⟩ := x
    dsimp only
    split
    · -- the entry is dead, or has a copy already
      next hskip =>
      intro hc g' hg' e' he' hl
      rcases h.covered hc g' hg' e' he' hl with hmem | hrest
      · rw [hp] at hmem
        rcases mem_cons.mp hmem with heq | hmem
        · cases heq
          rw [hl] at hskip
          exact .inr (.inr (by simpa using hskip))
        · exact .inl hmem
      · exact .inr hrest
    · split
      · intro hc
        rw [Pipe.cancelled_of_err rfl] at hc
        cases hc
      · intro hc g' hg' e' he' hl
        rcases h.covered hc g' hg' e' he' hl with hmem | ⟨d, hd, hdk⟩ | hrest
        · rw [hp] at hmem
          rcases mem_cons.mp hmem with heq | hmem
          · cases heq
            exact .inr (.inl ⟨_, .inl (mem_append_right _ (mem_singleton_self _)), rfl⟩)
          · exact .inl hmem
        · refine .inr (.inl ⟨d, ?_, hdk⟩)
          exact hd.imp (mem_append_left _) id
        · exact .inr (.inr hrest)

theorem cancel {q : Pipe} (hq : q.cancelled = true)
    (hok : PipeOk Z A live victims q) : PipeInv Z F A live victims w₀ q w where
  todo := hok.todo
  waits := hok.waits
  covered hf := by
    rw [hq] at hf
    cases hf
  kept := h.kept
  live := h.live

theorem verify (i : Nat) :
    PipeInv Z F A live victims w₀ (p.verify Z H i) w := by
  have hok := h.ok.verify (H := H) i
  refine ⟨hok.todo, hok.waits, ?_, h.kept, h.live⟩
  unfold Pipe.verify
  cases hi : p.cands[i]? with
  | none => exact h.covered
  | some c =>
    dsimp only
    cases checkRecord Z H c.e.key c.bytes with
    | error e =>
      intro hc
      rw [Pipe.cancelled_of_err rfl] at hc
      cases hc
    | ok _ =>
      intro hc g hg e he hl
      rcases h.covered hc g hg e he hl with htodo | ⟨d, hd, hdk⟩ | hrest
      · exact .inl htodo
      · refine .inr (.inl ?_)
        rcases hd with hd | hd
        · -- the candidate has moved on, or it is another one
          rcases mem_eraseIdx_or hi hd with rfl | hd
          · exact ⟨_, .inr (mem_append_right _ (mem_singleton_self _)), hdk⟩
          · exact ⟨d, .inl hd, hdk⟩
        · exact ⟨d, .inr (mem_append_left _ hd), hdk⟩
      · exact .inr (.inr hrest)

theorem append {I J : World → Prop}
    (hA : Appends Z F (victims.map SealedSegment.id) A I J) (hw : J w) :
    (p.append F).Wp I (Post (fun q w' => PipeInv Z F A live victims w₀ q w' ∧ J w')
      fun _ _ => False) w := by
  unfold Pipe.append
  cases hp : p.verified with
  | nil => exact .pure ⟨h, hw⟩
  | cons c verified =>
    have hsub : ∀ d ∈ verified, d ∈ p.verified := fun d hd => by rw [hp]; exact mem_cons_of_mem _ hd
    have hwaits : ∀ d, d ∈ p.cands ∨ d ∈ verified → d.Waits Z A live :=
      fun d hd => h.waits d (hd.imp_right (hsub d))
    obtain ⟨hlive, o, hAo, hk, hbytes⟩ := h.waits c (.inr (by rw [hp]; exact mem_cons_self))
    refine wp_ite (fun hc => .pure ⟨?_, hw⟩) fun _ => ?_
    · refine { h with waits := hwaits, covered := fun hf => ?_ }
      rw [(Pipe.cancelled_eq_false.mp hf).2] at hc
      cases hc
    · rw [hbytes, ← hk]
      refine (hA hAo hw).tries fun r t ht => ?_
      obtain ⟨hJ, hkeep, hfresh, hok⟩ := ht
      have hkept : ∀ k, w₀.s.survivorHas F (victims.map SealedSegment.id) k →
          t.s.survivorHas F (victims.map SealedSegment.id) k := fun k hk₀ => hkeep k (h.kept k hk₀)
      have hlive' : ∀ k, t.s.survivorHas F (victims.map SealedSegment.id) k →
          w₀.s.survivorHas F (victims.map SealedSegment.id) k ∨ live k := by
        intro k hkt
        rcases hfresh k hkt with hkw | rfl
        · exact h.live k hkw
        · exact .inr (hk ▸ hlive)
      cases r with
      | error e =>
        refine .pure ⟨⟨h.todo, hwaits, fun hf => ?_, hkept, hlive'⟩, hJ⟩
        cases (Pipe.cancelled_eq_false.mp hf).2
      | ok _ =>
        refine .pure ⟨⟨h.todo, hwaits, fun hf g hg e he hl => ?_, hkept, hlive'⟩, hJ⟩
        rcases h.covered hf g hg e he hl with htodo | ⟨d, hd, hdk⟩ | hrest
        · exact .inl htodo
        · rcases hd with hd | hd
          · exact .inr (.inl ⟨d, .inl hd, hdk⟩)
          · rw [hp] at hd
            rcases mem_cons.mp hd with rfl | hd
            · exact .inr (.inr (by rw [← hdk, ← hk]; exact hok rfl))
            · exact .inr (.inl ⟨d, .inr hd, hdk⟩)
        · exact .inr (.inr (hkeep _ hrest))

theorem turn {I J : World → Prop}
    (hv : ∀ g ∈ victims, ∃ c, SegRep Z F g c ∧ ∀ o ∈ c.objs, A o)
    (hA : Appends Z F (victims.map SealedSegment.id) A I J) (hw : J w) (t : Turn) :
    (p.turn Z F H live (victims.map SealedSegment.id) t).Wp I
      (Post (fun q w' => PipeInv Z F A live victims w₀ q w' ∧ J w') fun _ _ => False) w := by
  cases t with
  | produce => exact wp_bind.mpr (wp_getStore.mpr (.pure ⟨h.produce hv, hw⟩))
  | stop =>
    refine .pure ⟨?_, hw⟩
    split
    · next hc => exact h.cancel hc (h.ok.sub nofun (fun _ => id) fun _ => id)
    · exact h
  | verify i => exact .pure ⟨h.verify i, hw⟩
  | drop i =>
    refine .pure ⟨?_, hw⟩
    split
    · next hc => exact h.cancel hc (h.ok.sub (fun _ => id) (fun _ => mem_of_mem_eraseIdx) fun _ => id)
    · exact h
  | append => exact h.append hA hw

end

theorem run {I J : World → Prop} (hv : ∀ g ∈ victims, ∃ c, SegRep Z F g c ∧ ∀ o ∈ c.objs, A o)
    (hA : Appends Z F (victims.map SealedSegment.id) A I J) (ts : List Turn)
    (h : PipeInv Z F A live victims w₀ p w) (hw : J w) :
    (Pipe.run Z F H live (victims.map SealedSegment.id) ts p).Wp I
      (Post (fun q w' => PipeInv Z F A live victims w₀ q w' ∧ J w') fun _ _ => False) w := by
  induction ts generalizing p w with
  | nil => exact .pure ⟨h, hw⟩
  | cons t ts ih =>
    exact (h.turn hv hA hw t).bind (fun q u hu => ih hu.1 hu.2) fun _ _ => False.elim

end PipeInv
end Turns

/-! ## Running dry -/

/-- The records and index entries that are in the pipeline. -/
def Pipe.size (p : Pipe) : Nat := p.todo.length + p.cands.length + p.verified.length

section Dry
variable {live : Key → Bool} {ids : List Nat} {p : Pipe}

end Dry

end AmberStore.Packstore
