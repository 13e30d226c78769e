import AmberStore.Inbox.Inbox

/-!
# Processing what was committed

Without failures of the workers and of the directory sync, an item is counted as processed only once
its body is, and every entry of the directory is on its way. A `Commit` that finds an entry relies on
the item of another call.
-/

namespace AmberStore.Inbox
open Amberpack Function

/-- The entry is there, or was processed. -/
def Safe (s : State) (b : Bytes) : Prop := (s.dir b).isSome ∨ b ∈ s.processed

def Worker.Ok (s : State) : Worker → Prop
  | .idle => True
  | .taken it | .opened it | .failing it => Safe s it.body
  | .written it | .ending it => it.body ∈ s.processed

/-- The call has put the entry into the directory. -/
def Call.Renamed (c : Call) : Prop := c.pc = .sync ∨ c.pc = .enqueue

/-- Everything that is to be processed is there or was processed. -/
structure Sound (s : State) : Prop where
  work : ∀ it ∈ s.work, Safe s it.body
  workers : ∀ w ∈ s.workers, w.Ok s
  calls : ∀ c ∈ s.calls, c.Renamed → Safe s c.staged.body

/-- No failure but those of the stat and the rename, of which nothing is left. -/
def Clean : Event → Prop
  | .fault f => f = .stat ∨ f = .rename
  | .crash => False
  | _ => True

/-- Nothing that is safe is lost. -/
structure Keeps (s t : State) : Prop where
  processed : ∀ b ∈ s.processed, b ∈ t.processed
  safe : ∀ b, Safe s b → Safe t b

section Keeps
variable {s t u : State}

theorem Keeps.refl (s : State) : Keeps s s := ⟨fun _ h => h, fun _ h => h⟩

theorem Keeps.of_eq (hdir : t.dir = s.dir) (hproc : t.processed = s.processed) : Keeps s t := by
  refine ⟨fun b hb => by rwa [hproc], fun b hb => ?_⟩
  rwa [Safe, hdir, hproc]

theorem Keeps.worker {w : Worker} (h : Keeps s t) (hw : w.Ok s) : w.Ok t := by
  cases w with
  | idle => trivial
  | taken it => exact h.safe _ hw
  | opened it => exact h.safe _ hw
  | failing it => exact h.safe _ hw
  | written it => exact h.processed _ hw
  | ending it => exact h.processed _ hw

theorem Keeps.added (s : State) (b : Bytes) (m : Meta) : Keeps s (s.setEntry b (some m)) := by
  refine ⟨fun _ h => h, fun b' hb' => ?_⟩
  rcases hb' with hdir | hproc
  · left
    by_cases heq : b' = b
    · subst heq
      simp [State.setEntry]
    · simpa [State.setEntry, update_of_ne heq] using hdir
  · exact .inr hproc

theorem Keeps.removed (h : b ∈ s.processed) : Keeps s (s.setEntry b none) := by
  refine ⟨fun _ h => h, fun b' hb' => ?_⟩
  by_cases heq : b' = b
  · subst heq
    exact .inr h
  · rcases hb' with hdir | hproc
    · left
      simpa [State.setEntry, update_of_ne heq] using hdir
    · exact .inr hproc

theorem Keeps.quarantined (s : State) (b : Bytes) : Keeps s (s.quarantine b) := by
  unfold State.quarantine
  split
  · refine ⟨fun _ h => List.mem_append_left _ h, fun b' hb' => ?_⟩
    by_cases heq : b' = b
    · subst heq
      exact .inr (List.mem_append_right _ (List.mem_singleton_self _))
    · rcases hb' with hdir | hproc
      · left
        simpa [State.setEntry, State.markProcessed, update_of_ne heq] using hdir
      · exact .inr (List.mem_append_left _ hproc)
  · exact .refl s

theorem finish_dir (s : State) (it : WorkItem) :
    (s.finish it).dir = s.dir ∧ (s.finish it).processed = s.processed ∧
      (s.finish it).work = s.work ∧ (s.finish it).acked = s.acked ∧ (s.finish it).calls = s.calls := by
  unfold State.finish
  dsimp only
  split <;> exact ⟨rfl, rfl, rfl, rfl, rfl⟩

theorem quarantine_processed (h : Safe s b) : b ∈ (s.quarantine b).processed := by
  unfold State.quarantine
  split
  · exact List.mem_append_right _ (List.mem_singleton_self _)
  · next hnone => exact h.resolve_left hnone

theorem quarantine_fields (s : State) (b : Bytes) : (s.quarantine b).work = s.work ∧
    (s.quarantine b).groups = s.groups ∧ (s.quarantine b).acked = s.acked ∧
    (s.quarantine b).calls = s.calls ∧ (s.quarantine b).dir b = none := by
  unfold State.quarantine
  split
  · exact ⟨rfl, rfl, rfl, rfl, by simp [State.setEntry, State.markProcessed]⟩
  · next hnone => exact ⟨rfl, rfl, rfl, rfl, by simpa using hnone⟩

end Keeps

section Steps
variable {Z : Zstd} {H : Blake3} {headerOk : Meta → Bool} {s t : State}

/-! ## What is safe -/

theorem CommitStep.sound (hs : Sound s) (hc : c ∈ s.calls) (hstep : CommitStep s c e c' t) :
    Keeps s t ∧ (∀ it ∈ t.work, Safe t it.body) ∧ ∀ x ∈ c', x.Renamed → Safe t x.staged.body := by
  cases hstep with
  | statError => exact ⟨.refl s, hs.work, nofun⟩
  | found => exact ⟨.of_eq rfl rfl, hs.work, nofun⟩
  | missing =>
    refine ⟨.refl s, hs.work, fun x hx hr => ?_⟩
    cases hx
    cases hr <;> contradiction
  | renameError => exact ⟨.refl s, hs.work, nofun⟩
  | @rename c =>
    have hkeep := Keeps.added s c.body c.header
    refine ⟨hkeep, fun it hit => hkeep.safe _ (hs.work it hit), fun x hx _ => ?_⟩
    cases hx
    left
    simp [State.setEntry]
  | syncError => exact ⟨.refl s, hs.work, nofun⟩
  | sync =>
    have hsafe := hs.calls _ hc (.inl rfl)
    refine ⟨.of_eq rfl rfl, hs.work, fun x hx _ => ?_⟩
    cases hx
    exact hsafe
  | enqueue =>
    refine ⟨.of_eq rfl rfl, fun it hit => ?_, nofun⟩
    rcases List.mem_append.mp hit with hit | hit
    · exact hs.work it hit
    · cases List.mem_singleton.mp hit
      exact hs.calls _ hc (.inr rfl)

theorem WorkerStep.sound (hs : Sound s) (hw : w ∈ s.workers)
    (hstep : WorkerStep Z H headerOk s w e w' t) (he : Clean e) :
    Keeps s t ∧ (∀ it ∈ t.work, Safe t it.body) ∧ w'.Ok t := by
  have hok := hs.workers w hw
  cases hstep with
  | @take it rest hwork =>
    have hsafe : Safe s it.body := hs.work it (by rw [hwork]; exact List.mem_cons_self)
    refine ⟨.of_eq rfl rfl, fun x hx => ?_, hsafe⟩
    exact hs.work x (by rw [hwork]; exact List.mem_cons_of_mem _ hx)
  | opened => exact ⟨.refl s, hs.work, hok⟩
  | badHeader => exact ⟨.refl s, hs.work, hok⟩
  | gone hnone =>
    refine ⟨.refl s, hs.work, hok.resolve_left ?_⟩
    rw [hnone]
    exact Bool.false_ne_true
  | openError => cases he <;> contradiction
  | readError => cases he <;> contradiction
  | @wrote stored it =>
    have hkeep : Keeps s { s.markProcessed it.body with stored := stored } := by
      refine ⟨fun _ h => List.mem_append_left _ h, fun b hb => ?_⟩
      exact hb.imp_right fun h => List.mem_append_left _ h
    exact ⟨hkeep, fun x hx => hkeep.safe _ (hs.work x hx),
      List.mem_append_right _ (List.mem_singleton_self _)⟩
  | writeData => exact ⟨.of_eq rfl rfl, hs.work, hok⟩
  | writeStore => cases he <;> contradiction
  | remove =>
    have hkeep := Keeps.removed hok
    exact ⟨hkeep, fun x hx => hkeep.safe _ (hs.work x hx), hok⟩
  | removeError => cases he <;> contradiction
  | @quarantine it =>
    have hkeep := Keeps.quarantined s it.body
    refine ⟨hkeep, fun x hx => hkeep.safe _ (hs.work x ?_), quarantine_processed hok⟩
    rwa [(quarantine_fields s it.body).1] at hx
  | quarantineError => cases he <;> contradiction
  | @finish it =>
    obtain ⟨hdir, hproc, hwork, -, -⟩ := finish_dir s it
    have hkeep := Keeps.of_eq hdir hproc
    refine ⟨hkeep, fun x hx => hkeep.safe _ (hs.work x ?_), trivial⟩
    rwa [hwork] at hx

theorem CommitStep.workers_eq (h : CommitStep s c e c' t) : t.workers = s.workers := by
  cases h <;> rfl

theorem WorkerStep.calls_eq (h : WorkerStep Z H headerOk s w e w' t) : t.calls = s.calls := by
  cases h with
  | finish => exact (finish_dir s _).2.2.2.2
  | quarantine => exact (quarantine_fields s _).2.2.2.1
  | _ => rfl

theorem Step.sound (hs : Sound s) (hstep : Step Z H headerOk s e t) (he : Clean e) : Sound t := by
  cases hstep with
  | call c =>
    refine ⟨hs.work, fun w hw => (Keeps.of_eq rfl rfl).worker (hs.workers w hw), fun x hx hr => ?_⟩
    rcases List.mem_append.mp hx with hx | hx
    · exact hs.calls x hx hr
    · cases List.mem_singleton.mp hx
      cases hr <;> contradiction
  | @commit before c after e c' t hcalls hstep =>
    have hc : c ∈ s.calls := by simp [hcalls]
    obtain ⟨hkeep, hwork, hrest⟩ := hstep.sound hs hc
    refine ⟨hwork, fun w hw => ?_, fun x hx hr => ?_⟩
    · exact hkeep.worker (hs.workers w (hstep.workers_eq ▸ hw))
    · rcases List.mem_append.mp hx with hx | hx
      · exact hkeep.safe _ (hs.calls x (by simp [hcalls, hx]) hr)
      · rcases List.mem_append.mp hx with hx | hx
        · exact hrest x (Option.mem_toList.mp hx) hr
        · exact hkeep.safe _ (hs.calls x (by simp [hcalls, hx]) hr)
  | @worker before w after e w' t hworkers hstep =>
    have hw : w ∈ s.workers := by simp [hworkers]
    obtain ⟨hkeep, hwork, hrest⟩ := hstep.sound hs hw he
    refine ⟨hwork, fun x hx => ?_, fun x hx hr => ?_⟩
    · rcases List.mem_append.mp hx with hx | hx
      · exact hkeep.worker (hs.workers x (by simp [hworkers, hx]))
      · rcases List.mem_cons.mp hx with rfl | hx
        · exact hrest
        · exact hkeep.worker (hs.workers x (by simp [hworkers, hx]))
    · exact hkeep.safe _ (hs.calls x (hstep.calls_eq ▸ hx) hr)
  | waitFor => exact hs
  | crash => exact he.elim

/-! ## Opening -/

theorem recoverEntry_cases (headerOk : Meta → Bool) (s : State) (b : Bytes) :
    (s.dir b = none ∧ recoverEntry headerOk s b = s) ∨
      (∃ m root, s.dir b = some m ∧ readRoot headerOk m = some root ∧
        recoverEntry headerOk s b = s.enqueue ⟨b, root⟩) ∨
      ∃ m, s.dir b = some m ∧ readRoot headerOk m = none ∧
        recoverEntry headerOk s b = s.quarantine b := by
  unfold recoverEntry
  cases hdir : s.dir b with
  | none => exact .inl ⟨rfl, rfl⟩
  | some m =>
    dsimp only
    cases hroot : readRoot headerOk m with
    | some root => exact .inr (.inl ⟨m, root, rfl, hroot, rfl⟩)
    | none => exact .inr (.inr ⟨m, rfl, hroot, rfl⟩)

theorem quarantine_workers (s : State) (b : Bytes) : (s.quarantine b).workers = s.workers := by
  unfold State.quarantine
  split <;> rfl

theorem recoverEntry_sound (hs : Sound s) (b : Bytes) : Sound (recoverEntry headerOk s b) := by
  rcases recoverEntry_cases headerOk s b with ⟨-, heq⟩ | ⟨m, root, hdir, -, heq⟩ | ⟨m, -, -, heq⟩
  · rwa [heq]
  · rw [heq]
    refine ⟨fun it hit => ?_, fun w hw => (Keeps.of_eq rfl rfl).worker (hs.workers w hw), hs.calls⟩
    rcases List.mem_append.mp hit with hit | hit
    · exact hs.work it hit
    · cases List.mem_singleton.mp hit
      exact .inl (by rw [State.enqueue, hdir]; rfl)
  · rw [heq]
    have hkeep := Keeps.quarantined s b
    obtain ⟨hwork, -, -, hcalls, -⟩ := quarantine_fields s b
    refine ⟨fun it hit => hkeep.safe _ (hs.work it (hwork ▸ hit)), fun w hw => ?_, fun c hc hr => ?_⟩
    · exact hkeep.worker (hs.workers w (quarantine_workers s b ▸ hw))
    · exact hkeep.safe _ (hs.calls c (hcalls ▸ hc) hr)

/-- What holds before the entries are recovered, and is kept for each of them, holds of the inbox. -/
theorem Opened.invariant {P : State → Prop} (h : Opened headerOk s)
    (hstart : ∀ dir workers stored, P ⟨dir, fun b => [dir b], [], [], fun _ => 0,
      List.replicate workers .idle, [], stored, [], []⟩)
    (hentry : ∀ s b, P s → P (recoverEntry headerOk s b)) : P s := by
  cases h with
  | @mk dir names workers stored _ =>
    exact List.foldlRecOn names _ (hstart dir workers stored) fun s hs b _ => hentry s b hs

theorem Opened.sound (h : Opened headerOk s) : Sound s := by
  refine h.invariant (fun dir workers stored => ⟨nofun, fun w hw => ?_, nofun⟩)
    fun s b hs => recoverEntry_sound hs b
  rw [List.eq_of_mem_replicate hw]
  trivial

/-! ## The count of a root -/

/-- The items that are not counted as processed yet. -/
def State.items (s : State) : List WorkItem := s.work ++ s.workers.filterMap Worker.item?

/-- The number of items of a root. -/
def State.pending (s : State) (root : Key) : Nat := s.items.countP fun it => it.root = root

theorem pending_split (hworkers : s.workers = before ++ w :: after) (root : Key) :
    s.pending root = (s.work.countP fun it => it.root = root) +
      (w.item?.toList.countP fun it => it.root = root) +
      ((before ++ after).filterMap Worker.item?).countP fun it => it.root = root := by
  rw [State.pending, State.items, hworkers]
  simp only [List.filterMap_append, List.filterMap_cons, List.countP_append]
  cases w.item? with
  | none =>
    simp only [Option.toList_none, List.countP_nil]
    omega
  | some it =>
    simp only [Option.toList_some, List.countP_cons, List.countP_nil]
    omega

theorem finish_groups (hpos : 0 < s.groups it.root) (root : Key) :
    (s.finish it).groups root + (if it.root = root then 1 else 0) = s.groups root := by
  unfold State.finish
  dsimp only
  rw [if_pos hpos]
  by_cases heq : it.root = root
  · subst heq
    simp only [update_self, if_true]
    split <;> omega
  · simp only [update_of_ne (Ne.symm heq), if_neg heq, Nat.add_zero]

theorem finish_groups_congr (h : s.groups = t.groups) : (s.finish it).groups = (t.finish it).groups := by
  unfold State.finish
  dsimp only
  rw [h]
  split
  · rfl
  · exact h

/-- A step of a worker moves an item, or counts it as processed. -/
theorem WorkerStep.balance (h : WorkerStep Z H headerOk s w e w' t)
    (hpos : ∀ it, w = .ending it → 0 < s.groups it.root) (root : Key) :
    t.groups root + ((s.work.countP fun it => it.root = root) +
        w.item?.toList.countP fun it => it.root = root) =
      s.groups root + ((t.work.countP fun it => it.root = root) +
        w'.item?.toList.countP fun it => it.root = root) := by
  cases h with
  | take hwork =>
    rw [hwork]
    simp only [Worker.item?, Option.toList_none, Option.toList_some, List.countP_cons, List.countP_nil]
    omega
  | @finish it =>
    have hgroups := finish_groups (hpos it rfl) root
    obtain ⟨-, -, hwork, -, -⟩ := finish_dir s it
    simp only [hwork, Worker.item?, Option.toList_none, Option.toList_some, List.countP_cons,
      List.countP_nil, decide_eq_true_eq]
    omega
  | @quarantine it =>
    obtain ⟨hwork, hgroups, -⟩ := quarantine_fields s it.body
    rw [hwork, hgroups]
    rfl
  | _ => rfl

/-- The groups count the items of each root. -/
def Counted (s : State) : Prop := ∀ root, s.groups root = s.pending root

theorem counted_enqueue (hs : Counted s) (it : WorkItem) : Counted (s.enqueue it) := by
  intro root
  have hroot := hs root
  simp only [State.pending, State.items, State.enqueue, List.countP_append, List.countP_cons,
    List.countP_nil] at hroot ⊢
  by_cases heq : it.root = root
  · subst heq
    simp only [update_self, decide_true, if_true]
    omega
  · simp only [update_of_ne (Ne.symm heq), heq, decide_false, Bool.false_eq_true, if_false]
    omega

theorem Step.counted (hs : Counted s) (hstep : Step Z H headerOk s e t) (he : Clean e) : Counted t := by
  cases hstep with
  | call c => exact hs
  | @commit before c after e c' t hcalls hstep =>
    cases hstep with
    | enqueue => exact counted_enqueue hs _
    | _ => exact hs
  | @worker before w after e w' t hworkers hstep =>
    intro root
    have hroot := hs root
    have hpos : ∀ it, w = .ending it → 0 < s.groups it.root := by
      rintro it rfl
      rw [hs it.root, pending_split hworkers]
      simp only [Worker.item?, Option.toList_some, List.countP_cons, decide_true, if_true]
      omega
    have hbal := hstep.balance hpos root
    rw [pending_split hworkers] at hroot
    rw [pending_split rfl]
    dsimp only
    omega
  | waitFor => exact hs
  | crash => exact he.elim

/-! ## The barrier -/

/-- The body was processed, or an item for it counts for the root. -/
def Covered (s : State) (b : Bytes) (root : Key) : Prop := b ∈ s.processed ∨ ⟨b, root⟩ ∈ s.items

theorem mem_items : it ∈ s.items ↔ it ∈ s.work ∨ ∃ w ∈ s.workers, w.item? = some it := by
  rw [State.items, List.mem_append, List.mem_filterMap]

theorem WorkerStep.item_kept (h : WorkerStep Z H headerOk s w e w' t)
    (hit : it ∈ s.work ∨ w.item? = some it) :
    it ∈ t.work ∨ w'.item? = some it ∨ w = .ending it := by
  cases h with
  | take hwork =>
    rw [hwork] at hit
    rcases hit with hit | hit
    · rcases List.mem_cons.mp hit with rfl | hit
      · exact .inr (.inl rfl)
      · exact .inl hit
    · cases hit
  | @finish x =>
    obtain ⟨-, -, hwork, -, -⟩ := finish_dir s x
    rcases hit with hit | hit
    · exact .inl (hwork ▸ hit)
    · cases hit
      exact .inr (.inr rfl)
  | @quarantine x =>
    obtain ⟨hwork, -⟩ := quarantine_fields s x.body
    rcases hit with hit | hit
    · exact .inl (hwork ▸ hit)
    · exact .inr (.inl hit)
  | _ => exact hit.imp_right .inl

theorem Step.covered (hs : Sound s) (hstep : Step Z H headerOk s e t) (he : Clean e)
    (h : Covered s b root) : Covered t b root := by
  cases hstep with
  | call c => exact h
  | @commit before c after e c' t hcalls hstep =>
    cases hstep with
    | enqueue =>
      refine h.imp_right fun hit => ?_
      rw [mem_items] at hit ⊢
      exact hit.imp_left fun hit => List.mem_append_left _ hit
    | _ => exact h
  | @worker before w after e w' t hworkers hstep =>
    have hw : w ∈ s.workers := by simp [hworkers]
    have hkeep := (hstep.sound hs hw he).1
    have hmoved : ⟨b, root⟩ ∈ s.work ∨ w.item? = some ⟨b, root⟩ →
        Covered { t with workers := before ++ w' :: after } b root := by
      intro hit
      rcases hstep.item_kept hit with hit | hit | hend
      · exact .inr (mem_items.mpr (.inl hit))
      · exact .inr (mem_items.mpr (.inr ⟨w', by simp, hit⟩))
      · subst hend
        exact .inl (hkeep.processed b (hs.workers _ hw))
    rcases h with h | h
    · exact .inl (hkeep.processed b h)
    · rcases mem_items.mp h with hit | ⟨x, hx, hit⟩
      · exact hmoved (.inl hit)
      · rw [hworkers, List.mem_append, List.mem_cons] at hx
        rcases hx with hx | rfl | hx
        · exact .inr (mem_items.mpr (.inr ⟨x, by simp [hx], hit⟩))
        · exact hmoved (.inr hit)
        · exact .inr (mem_items.mpr (.inr ⟨x, by simp [hx], hit⟩))
  | waitFor => exact h
  | crash => exact he.elim

/-- What a step acknowledges: nothing, what `Commit` found, or what it has enqueued. -/
theorem Step.acked_cases (hstep : Step Z H headerOk s e t) (he : Clean e) (hp : p ∈ t.acked) :
    p ∈ s.acked ∨ e = .found p.1 p.2 ∨ ⟨p.1, p.2⟩ ∈ t.work := by
  cases hstep with
  | call c => exact .inl hp
  | @commit before c after e c' t hcalls hstep =>
    cases hstep with
    | found =>
      rcases List.mem_append.mp hp with hp | hp
      · exact .inl hp
      · cases List.mem_singleton.mp hp
        exact .inr (.inl rfl)
    | enqueue =>
      rcases List.mem_append.mp hp with hp | hp
      · exact .inl hp
      · cases List.mem_singleton.mp hp
        exact .inr (.inr (List.mem_append_right _ (List.mem_singleton_self _)))
    | _ => exact .inl hp
  | worker hworkers hstep =>
    left
    cases hstep with
    | @finish it =>
      obtain ⟨-, -, -, hacked, -⟩ := finish_dir s it
      rwa [← hacked]
    | @quarantine it =>
      obtain ⟨-, -, hacked, -⟩ := quarantine_fields s it.body
      rwa [← hacked]
    | _ => exact hp
  | waitFor => exact .inl hp
  | crash => exact he.elim

/-- The steps with these events. -/
def StepIn (Z : Zstd) (H : Blake3) (headerOk : Meta → Bool) (E : State → Event → Prop) (s t : State) : Prop :=
  ∃ e, E s e ∧ Step Z H headerOk s e t

/-- No failures, and `Commit` finds only what counts for its own root. -/
def CoveredEvent (s : State) (e : Event) : Prop :=
  Clean e ∧ ∀ b root, e = .found b root → Covered s b root

structure Barrier (s : State) : Prop where
  sound : Sound s
  counted : Counted s
  acked : ∀ p ∈ s.acked, Covered s p.1 p.2

theorem Opened.counted (h : Opened headerOk s) : Counted s := by
  refine h.invariant (fun dir workers stored root => ?_) fun s b hs => ?_
  · have hidle : (List.replicate workers Worker.idle).filterMap Worker.item? = [] := by
      refine List.filterMap_eq_nil_iff.mpr fun w hw => ?_
      rw [List.eq_of_mem_replicate hw]
      rfl
    rw [State.pending, State.items, hidle]
    rfl
  · rcases recoverEntry_cases headerOk s b with ⟨-, heq⟩ | ⟨m, root, -, -, heq⟩ | ⟨m, -, -, heq⟩
    · rwa [heq]
    · rw [heq]
      exact counted_enqueue hs _
    · rw [heq]
      obtain ⟨hwork, hgroups, -⟩ := quarantine_fields s b
      intro root
      rw [State.pending, State.items, hwork, hgroups, quarantine_workers]
      exact hs root

theorem Opened.acked (h : Opened headerOk s) : s.acked = [] ∧ s.calls = [] := by
  refine h.invariant (P := fun s => s.acked = [] ∧ s.calls = []) (fun _ _ _ => ⟨rfl, rfl⟩) fun s b hs => ?_
  rcases recoverEntry_cases headerOk s b with ⟨-, heq⟩ | ⟨m, root, -, -, heq⟩ | ⟨m, -, -, heq⟩
  · rwa [heq]
  · rw [heq]
    exact hs
  · obtain ⟨-, -, hacked, hcalls, -⟩ := quarantine_fields s b
    rw [heq, hacked, hcalls]
    exact hs

theorem Opened.barrier (h : Opened headerOk s) : Barrier s := by
  refine ⟨h.sound, h.counted, fun p hp => ?_⟩
  rw [h.acked.1] at hp
  cases hp

theorem Step.barrier (hs : Barrier s) (hstep : Step Z H headerOk s e t) (he : CoveredEvent s e) :
    Barrier t := by
  refine ⟨hstep.sound hs.sound he.1, hstep.counted hs.counted he.1, fun p hp => ?_⟩
  rcases hstep.acked_cases he.1 hp with hold | hfound | hwork
  · exact hstep.covered hs.sound he.1 (hs.acked p hold)
  · exact hstep.covered hs.sound he.1 (he.2 _ _ hfound)
  · exact .inr (mem_items.mpr (.inl hwork))

/-- Without failures, and as long as a `Commit` that finds its entry finds the body processed or an
item for it that counts for its own root: when `WaitFor` returns, every body for which `Commit` has
returned nil under that root was processed. -/
theorem waitFor_covers (Z : Zstd) (H : Blake3) (headerOk : Meta → Bool)
    (hs : Reach (Opened headerOk) (StepIn Z H headerOk CoveredEvent) s) (hack : (b, root) ∈ s.acked)
    (hwait : Step Z H headerOk s (.waited root) t) : b ∈ s.processed := by
  have hbarrier : Barrier s := hs.invariant (fun s h0 => h0.barrier)
    fun s t hs ⟨e, he, hstep⟩ => hstep.barrier hs he
  have hzero : s.groups root = 0 := by
    cases hwait with
    | commit _ hstep => cases hstep
    | worker _ hstep => cases hstep
    | waitFor hzero => exact hzero
  refine (hbarrier.acked _ hack).resolve_right fun hit => ?_
  rw [hbarrier.counted root, State.pending, List.countP_eq_zero] at hzero
  exact absurd rfl (of_decide_eq_false (Bool.eq_false_iff.mpr (hzero _ hit)))

/-! ## Calls without interruption -/

theorem Step.lone {x : Call} (hcalls : s.calls = [x]) (h : CommitStep s x e c' t) :
    Step Z H headerOk s e { t with calls := c'.toList } := by
  have hcalls' : s.calls = [] ++ x :: [] := hcalls
  have hstep : Step Z H headerOk s e { t with calls := [] ++ (c'.toList ++ []) } := .commit hcalls' h
  rwa [List.nil_append, List.append_nil] at hstep

/-- A call of `Commit` that nothing interrupts is a run of steps. -/
theorem Reach.commit {I : State → Prop} {E : State → Event → Prop} (f : CommitFaults)
    (hs : Reach I (StepIn Z H headerOk E) s) (hcalls : s.calls = [])
    (hroot : c.header.root = c.root.bytes) (hquiet : ∀ s, (∀ x ∈ s.calls, x.staged = c) → E s .quiet)
    (hfound : (s.dir c.body).isSome → E { s with calls := [⟨c, .stat⟩] } (.found c.body c.root))
    (hstat : f.stat → ∀ s, E s (.fault .stat)) (hrename : f.rename → ∀ s, E s (.fault .rename))
    (hsync : f.sync → ∀ s, E s (.fault .sync)) :
    Reach I (StepIn Z H headerOk E) (Inbox.commit f s c).1 := by
  obtain ⟨dir, remains, failed, work, groups, workers, calls, stored, acked, processed⟩ := s
  cases hcalls
  have hlone : ∀ pc, ∀ x ∈ [Call.mk c pc], x.staged = c := by simp
  have hcall := Reach.next hs ⟨.quiet, hquiet _ nofun, .call c hroot⟩
  unfold Inbox.commit
  split
  · next hf => exact .next hcall ⟨_, hstat hf _, .lone rfl .statError⟩
  · split
    · next hdir => exact .next hcall ⟨_, hfound hdir, .lone rfl (.found (by exact hdir))⟩
    · next hdir =>
      have hmissing := Reach.next hcall ⟨_, hquiet _ (hlone _), .lone rfl (.missing (by simpa using hdir))⟩
      split
      · next hf => exact .next hmissing ⟨_, hrename hf _, .lone rfl .renameError⟩
      · have hrenamed := Reach.next hmissing ⟨_, hquiet _ (hlone _), .lone rfl .rename⟩
        dsimp only
        split
        · next hf => exact .next hrenamed ⟨_, hsync hf _, .lone rfl .syncError⟩
        · have hsynced := Reach.next hrenamed ⟨_, hquiet _ (hlone _), .lone rfl .sync⟩
          exact .next hsynced ⟨_, hquiet _ (hlone _), .lone rfl .enqueue⟩

theorem Step.loneWorker {w : Worker} (hworkers : s.workers = [w])
    (h : WorkerStep Z H headerOk s w e w' t) : Step Z H headerOk s e { t with workers := [w'] } := by
  have hworkers' : s.workers = [] ++ w :: [] := hworkers
  exact .worker hworkers' h

theorem Reach.process {I : State → Prop} {E : State → Event → Prop}
    (hs : Reach I (StepIn Z H headerOk E) s) (hworkers : s.workers = [.idle]) (hwork : s.work = [it])
    (hdir : s.dir it.body = some m) (hheader : headerOk m)
    (hwrite : Writes Z H s.stored it.body (.ok ()) stored) (hquiet : ∀ s, E s .quiet) :
    ∃ t, Reach I (StepIn Z H headerOk E) t ∧ it.body ∈ t.processed ∧ t.acked = s.acked ∧
      t.groups = (s.finish it).groups := by
  obtain ⟨dir, remains, failed, work, groups, workers, calls, stored₀, acked, processed⟩ := s
  cases hworkers
  cases hwork
  have htake := Reach.next hs ⟨_, hquiet _, .loneWorker rfl (.take rfl)⟩
  have hopen := Reach.next htake ⟨_, hquiet _, .loneWorker rfl (.opened hdir hheader)⟩
  have hwrote := Reach.next hopen ⟨_, hquiet _, .loneWorker rfl (.wrote hwrite)⟩
  have hremove := Reach.next hwrote ⟨_, hquiet _, .loneWorker rfl .remove⟩
  refine ⟨_, .next hremove ⟨_, hquiet _, .loneWorker rfl .finish⟩, ?_, ?_, ?_⟩
  · have hmem : it.body ∈ processed ++ [it.body] := List.mem_append_right _ (List.mem_singleton_self _)
    exact (congrArg (it.body ∈ ·) (finish_dir _ it).2.1).mpr hmem
  · exact (finish_dir _ it).2.2.2.1
  · exact finish_groups_congr rfl

end Steps

/-! ## Two roots for one body -/

/-- An inbox with one worker and no entries. -/
def emptyInbox : State :=
  ⟨fun _ => none, fun _ => [none], [], [], fun _ => 0, [.idle], [], [], [], []⟩

theorem emptyInbox_opened (headerOk : Meta → Bool) : Opened headerOk emptyInbox :=
  .mk 1 [] ⟨List.nodup_nil, by simp⟩

def emptyPack : Bytes := packMagic ++ [tagEnd]

theorem readAll_emptyPack (Z : Zstd) : readAll Z emptyPack = ([], none) := by
  have hread : readRecords Z [tagEnd] = ([], none) := by
    rw [readRecords, if_pos rfl]
  exact hread

theorem writes_emptyPack (Z : Zstd) (H : Blake3) (stored : List Key) :
    Writes Z H stored emptyPack (.ok ()) stored := by
  have hok : Writes Z H stored emptyPack (.ok ()) (stored ++ (readAll Z emptyPack).1.map Object.key) :=
    .ok (by rw [readAll_emptyPack]) (by rw [readAll_emptyPack]; nofun)
  rwa [readAll_emptyPack, List.map_nil, List.append_nil] at hok

def rootA : Key := ⟨List.replicate 32 0, length_zeros⟩

def rootB : Key := ⟨List.replicate 31 0 ++ [1], rfl⟩

def noFaults : CommitFaults := ⟨false, false, false⟩

/-- The empty pack, staged for a root. -/
def stagedFor (root : Key) : Staged := ⟨⟨[], root.bytes⟩, emptyPack, root⟩

/-- A pack that is committed, processed and waited for. -/
theorem waitFor_covers_empty : ∃ s t, Reach (Opened fun _ => true)
      (StepIn .stored (fun _ => ⟨List.replicate 32 0, rfl⟩) (fun _ => true) CoveredEvent) s ∧
    (emptyPack, rootA) ∈ s.acked ∧
    Step .stored (fun _ => ⟨List.replicate 32 0, rfl⟩) (fun _ => true) s (.waited rootA) t ∧
    emptyPack ∈ s.processed := by
  have hquiet : ∀ s, CoveredEvent s .quiet := fun s => ⟨trivial, nofun⟩
  have hstart : Reach (Opened fun _ => true)
      (StepIn .stored (fun _ => ⟨List.replicate 32 0, rfl⟩) (fun _ => true) CoveredEvent) emptyInbox :=
    .start (emptyInbox_opened _)
  have hcommit := Reach.commit (c := stagedFor rootA) noFaults hstart rfl rfl (fun s _ => hquiet s) nofun
    nofun nofun nofun
  have hwork : (commit noFaults emptyInbox (stagedFor rootA)).1.work = [⟨emptyPack, rootA⟩] := rfl
  have hdir : (commit noFaults emptyInbox (stagedFor rootA)).1.dir emptyPack = some ⟨[], rootA.bytes⟩ := by
    decide
  obtain ⟨t, ht, hproc, hacked, hgroups⟩ :=
    Reach.process hcommit rfl hwork hdir rfl (writes_emptyPack _ _ _) hquiet
  have hack : (emptyPack, rootA) ∈ t.acked := by
    rw [hacked]
    exact List.mem_singleton_self _
  have hwait : Step .stored (fun _ => ⟨List.replicate 32 0, rfl⟩) (fun _ => true) t (.waited rootA) t := by
    refine .waitFor ?_
    rw [hgroups]
    decide
  exact ⟨t, t, ht, hack, hwait, waitFor_covers _ _ _ ht hack hwait⟩

/-- A pack that is pending for one root is committed for another one: `WaitFor` returns for the other
one before the pack is processed. -/
theorem waitFor_other_root : ∃ s t, Reach (Opened fun _ => true)
      (StepIn .stored (fun _ => ⟨List.replicate 32 0, rfl⟩) (fun _ => true) fun _ e => Clean e) s ∧
    (emptyPack, rootB) ∈ s.acked ∧
    Step .stored (fun _ => ⟨List.replicate 32 0, rfl⟩) (fun _ => true) s (.waited rootB) t ∧
    emptyPack ∉ s.processed := by
  have hstart : Reach (Opened fun _ => true)
      (StepIn .stored (fun _ => ⟨List.replicate 32 0, rfl⟩) (fun _ => true) fun _ e => Clean e)
      emptyInbox := .start (emptyInbox_opened _)
  have hfirst := Reach.commit (c := stagedFor rootA) noFaults hstart rfl rfl (fun _ _ => trivial)
    (fun _ => trivial) nofun nofun nofun
  have hsecond := Reach.commit (c := stagedFor rootB) noFaults hfirst rfl rfl (fun _ _ => trivial)
    (fun _ => trivial) nofun nofun nofun
  refine ⟨_, _, hsecond, ?_, .waitFor ?_, ?_⟩
  · decide
  · decide
  · decide

end AmberStore.Inbox
