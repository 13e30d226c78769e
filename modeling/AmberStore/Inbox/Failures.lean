import AmberStore.Inbox.Barrier

/-!
# Calls of `Commit` that fail

A failed stat or rename leaves the inbox as it was. A failed sync leaves the entry in the directory,
where no worker takes it up and where a later call finds it. Without that every entry is waiting for
a worker, is being processed, or is about to be enqueued.
-/

namespace AmberStore.Inbox
open Amberpack List Function

/-- The worker is processing the body. -/
def Worker.Works (b : Bytes) : Worker → Prop
  | .taken it | .opened it | .written it | .failing it => it.body = b
  | .idle | .ending _ => False

/-- The body is queued, being processed, or about to be enqueued by the call that renamed it. -/
def Waiting (s : State) (b : Bytes) : Prop :=
  (∃ it ∈ s.work, it.body = b) ∨ (∃ w ∈ s.workers, w.Works b) ∨
    ∃ c ∈ s.calls, c.Renamed ∧ c.staged.body = b

section Steps
variable {Z : Zstd} {H : Blake3} {headerOk : Meta → Bool} {s t : State}

/-- A body that the worker leaves is processed, and its entry is gone. -/
theorem WorkerStep.works (hs : Sound s) (hw : w ∈ s.workers)
    (hstep : WorkerStep Z H headerOk s w e w' t) (he : Clean e) (hb : w.Works b) :
    w'.Works b ∨ (t.dir b = none ∧ b ∈ t.processed) := by
  have hsound := (hstep.sound hs hw he).2.2
  cases hstep with
  | take => cases hb
  | opened => exact .inl hb
  | badHeader => exact .inl hb
  | gone hnone =>
    cases hb
    exact .inr ⟨hnone, hsound⟩
  | openError => cases he <;> contradiction
  | readError => cases he <;> contradiction
  | wrote => exact .inl hb
  | writeData => exact .inl hb
  | writeStore => cases he <;> contradiction
  | remove =>
    cases hb
    exact .inr ⟨by simp [State.setEntry], hsound⟩
  | removeError => cases he <;> contradiction
  | quarantine =>
    cases hb
    exact .inr ⟨(quarantine_fields s _).2.2.2.2, hsound⟩
  | quarantineError => cases he <;> contradiction
  | finish => cases hb

theorem WorkerStep.queued (hstep : WorkerStep Z H headerOk s w e w' t) (hit : it ∈ s.work) :
    it ∈ t.work ∨ w'.Works it.body := by
  cases hstep with
  | take hwork =>
    rw [hwork] at hit
    rcases mem_cons.mp hit with rfl | hit
    · exact .inr rfl
    · exact .inl hit
  | finish => exact .inl ((finish_dir s _).2.2.1 ▸ hit)
  | quarantine => exact .inl ((quarantine_fields s _).1 ▸ hit)
  | _ => exact .inl hit

theorem WorkerStep.dir_sub (hstep : WorkerStep Z H headerOk s w e w' t) (hb : (t.dir b).isSome) :
    (s.dir b).isSome := by
  cases hstep with
  | remove =>
    simp only [State.setEntry, update_apply] at hb
    split at hb
    · cases hb
    · exact hb
  | quarantine =>
    unfold State.quarantine at hb
    split at hb
    · simp only [State.setEntry, State.markProcessed, update_apply] at hb
      split at hb
      · cases hb
      · exact hb
    · exact hb
  | finish => exact (finish_dir s _).1 ▸ hb
  | _ => exact hb

theorem CommitStep.work_sub (hstep : CommitStep s c e c' t) (hit : it ∈ s.work) : it ∈ t.work := by
  cases hstep with
  | enqueue => exact mem_append_left _ hit
  | _ => exact hit

/-- A call that has renamed its file goes on to enqueue it. -/
theorem CommitStep.renamed (hstep : CommitStep s c e c' t) (he : Clean e) (hc : c.Renamed) :
    (∃ x ∈ c', x.Renamed ∧ x.staged.body = c.staged.body) ∨ ∃ it ∈ t.work, it.body = c.staged.body := by
  cases hstep with
  | sync => exact .inl ⟨_, rfl, .inr rfl, rfl⟩
  | enqueue => exact .inr ⟨_, mem_append_right _ (mem_singleton_self _), rfl⟩
  | syncError => cases he <;> contradiction
  | statError => cases hc <;> contradiction
  | found => cases hc <;> contradiction
  | missing => cases hc <;> contradiction
  | renameError => cases hc <;> contradiction
  | rename => cases hc <;> contradiction

theorem CommitStep.dir_sub (hstep : CommitStep s c e c' t) (hb : (t.dir b).isSome) :
    (s.dir b).isSome ∨ ∃ x ∈ c', x.Renamed ∧ x.staged.body = b := by
  cases hstep with
  | @rename c =>
    simp only [State.setEntry, update_apply] at hb
    split at hb
    · next heq => exact .inr ⟨_, rfl, .inl rfl, heq.symm⟩
    · exact .inl hb
  | _ => exact .inl hb

/-- A body that waits is processed before it stops waiting. -/
theorem Step.waiting (hs : Sound s) (hstep : Step Z H headerOk s e t) (he : Clean e)
    (h : Waiting s b) : Waiting t b ∨ (t.dir b = none ∧ b ∈ t.processed) := by
  cases hstep with
  | call c =>
    refine .inl (h.imp_right (Or.imp_right ?_))
    intro ⟨x, hx, hr⟩
    exact ⟨x, mem_append_left _ hx, hr⟩
  | @commit before c after e c' t hcalls hstep =>
    left
    rcases h with ⟨it, hit, hb⟩ | ⟨w, hw, hb⟩ | ⟨x, hx, hr, hb⟩
    · exact .inl ⟨it, hstep.work_sub hit, hb⟩
    · exact .inr (.inl ⟨w, hstep.workers_eq ▸ hw, hb⟩)
    · rw [hcalls, mem_append, mem_cons] at hx
      rcases hx with hx | rfl | hx
      · exact .inr (.inr ⟨x, by simp [hx], hr, hb⟩)
      · rcases hstep.renamed he hr with ⟨y, hy, hry, hby⟩ | ⟨it, hit, hbit⟩
        · refine .inr (.inr ⟨y, ?_, hry, hby.trans hb⟩)
          rw [Option.mem_def.mp hy]
          simp
        · exact .inl ⟨it, hit, hbit.trans hb⟩
      · exact .inr (.inr ⟨x, by simp [hx], hr, hb⟩)
  | @worker before w after e w' t hworkers hstep =>
    have hw : w ∈ s.workers := by simp [hworkers]
    rcases h with ⟨it, hit, hb⟩ | ⟨x, hx, hb⟩ | ⟨c, hc, hr⟩
    · rcases hstep.queued hit with hit | hworks
      · exact .inl (.inl ⟨it, hit, hb⟩)
      · exact .inl (.inr (.inl ⟨w', by simp, hb ▸ hworks⟩))
    · rw [hworkers, mem_append, mem_cons] at hx
      rcases hx with hx | rfl | hx
      · exact .inl (.inr (.inl ⟨x, by simp [hx], hb⟩))
      · exact (hstep.works hs hw he hb).imp_left fun hworks => .inr (.inl ⟨w', by simp, hworks⟩)
      · exact .inl (.inr (.inl ⟨x, by simp [hx], hb⟩))
    · exact .inl (.inr (.inr ⟨c, hstep.calls_eq ▸ hc, hr⟩))
  | waitFor => exact .inl h
  | crash => exact he.elim

/-- An entry that is new was put there by a call that goes on to enqueue it. -/
theorem Step.entry_old (hstep : Step Z H headerOk s e t) (he : Clean e) (hb : (t.dir b).isSome) :
    (s.dir b).isSome ∨ Waiting t b := by
  cases hstep with
  | call => exact .inl hb
  | @commit before c after e c' t hcalls hstep =>
    refine (hstep.dir_sub hb).imp_right ?_
    intro ⟨x, hx, hr⟩
    refine .inr (.inr ⟨x, ?_, hr⟩)
    rw [Option.mem_def.mp hx]
    simp
  | worker _ hstep => exact .inl (hstep.dir_sub hb)
  | waitFor => exact .inl hb
  | crash => exact he.elim

theorem Step.found_isSome (hstep : Step Z H headerOk s (.found b root) t) : (s.dir b).isSome := by
  cases hstep with
  | commit _ hstep =>
    cases hstep with
    | found hdir => exact hdir
  | worker _ hstep => cases hstep

/-- Every entry is on its way, and so is every body that was acknowledged and is not processed. -/
structure Tracked (s : State) : Prop where
  sound : Sound s
  entries : ∀ b, (s.dir b).isSome → Waiting s b
  acked : ∀ p ∈ s.acked, p.1 ∈ s.processed ∨ Waiting s p.1

theorem Step.processed_sub (hs : Sound s) (hstep : Step Z H headerOk s e t) (he : Clean e)
    (hb : b ∈ s.processed) : b ∈ t.processed := by
  cases hstep with
  | call => exact hb
  | @commit before c after e c' t hcalls hstep =>
    exact (hstep.sound hs (by simp [hcalls])).1.processed b hb
  | @worker before w after e w' t hworkers hstep =>
    exact (hstep.sound hs (by simp [hworkers]) he).1.processed b hb
  | waitFor => exact hb
  | crash => exact he.elim

theorem Step.tracked (hs : Tracked s) (hstep : Step Z H headerOk s e t) (he : Clean e) : Tracked t := by
  refine ⟨hstep.sound hs.sound he, fun b hb => ?_, fun p hp => ?_⟩
  · rcases hstep.entry_old he hb with hold | hnew
    · refine (hstep.waiting hs.sound he (hs.entries b hold)).resolve_right fun hgone => ?_
      rw [hgone.1] at hb
      cases hb
    · exact hnew
  · have hgo : Waiting s p.1 → p.1 ∈ t.processed ∨ Waiting t p.1 := fun hwait =>
      (hstep.waiting hs.sound he hwait).symm.imp_left And.right
    rcases hstep.acked_cases he hp with hold | rfl | hwork
    · rcases hs.acked p hold with hproc | hwait
      · exact .inl (hstep.processed_sub hs.sound he hproc)
      · exact hgo hwait
    · exact hgo (hs.entries _ hstep.found_isSome)
    · exact .inr (.inl ⟨_, hwork, rfl⟩)

/-! ## Opening -/

theorem recoverEntry_waiting (headerOk : Meta → Bool) (s : State) (b : Bytes) {b' : Bytes}
    (h : Waiting s b') : Waiting (recoverEntry headerOk s b) b' := by
  rcases recoverEntry_cases headerOk s b with ⟨-, heq⟩ | ⟨m, root, -, -, heq⟩ | ⟨m, -, -, heq⟩
  · rwa [heq]
  · rw [heq]
    refine h.imp_left ?_
    intro ⟨it, hit, hb⟩
    exact ⟨it, mem_append_left _ hit, hb⟩
  · obtain ⟨hwork, -, -, hcalls, -⟩ := quarantine_fields s b
    rwa [heq, Waiting, hwork, hcalls, quarantine_workers]

/-- An entry that is left after recovery was left out before, or is queued. -/
theorem recoverEntry_dir (headerOk : Meta → Bool) (s : State) (b : Bytes) {b' : Bytes}
    (h : ((recoverEntry headerOk s b).dir b').isSome) :
    (s.dir b').isSome ∧ (b' = b → Waiting (recoverEntry headerOk s b) b) := by
  rcases recoverEntry_cases headerOk s b with ⟨hdir, heq⟩ | ⟨m, root, -, -, heq⟩ | ⟨m, hdir, -, heq⟩
  · rw [heq] at h ⊢
    refine ⟨h, fun hb => ?_⟩
    rw [hb, hdir] at h
    cases h
  · rw [heq] at h ⊢
    exact ⟨h, fun _ => .inl ⟨⟨b, root⟩, mem_append_right _ (mem_singleton_self _), rfl⟩⟩
  · rw [heq] at h ⊢
    have hsub : (s.dir b').isSome := by
      rw [State.quarantine, hdir] at h
      simp only [Option.isSome_some, if_true, State.setEntry, State.markProcessed,
        update_apply] at h
      split at h
      · cases h
      · exact h
    refine ⟨hsub, fun hb => ?_⟩
    rw [hb, (quarantine_fields s b).2.2.2.2] at h
    cases h

theorem recover_entries (names : List Bytes)
    (h : ∀ b, (s.dir b).isSome → b ∈ names ∨ Waiting s b) :
    ∀ b, ((names.foldl (recoverEntry headerOk) s).dir b).isSome →
      Waiting (names.foldl (recoverEntry headerOk) s) b := by
  induction names generalizing s with
  | nil => exact fun b hb => (h b hb).resolve_left not_mem_nil
  | cons name names ih =>
    refine ih fun b hb => ?_
    obtain ⟨hold, hsame⟩ := recoverEntry_dir headerOk s name hb
    rcases h b hold with hmem | hwait
    · rcases mem_cons.mp hmem with rfl | hmem
      · exact .inr (hsame rfl)
      · exact .inl hmem
    · exact .inr (recoverEntry_waiting headerOk s name hwait)

theorem Opened.tracked (h : Opened headerOk s) : Tracked s := by
  refine ⟨h.sound, ?_, fun p hp => ?_⟩
  · cases h with
    | mk workers stored hlists => exact recover_entries _ fun b hb => .inl ((hlists.2 b).mpr hb)
  · rw [h.acked.1] at hp
    cases hp

/-! ## The workers go on -/

/-- A step of one of the workers. -/
def WorkerMove (Z : Zstd) (H : Blake3) (headerOk : Meta → Bool) (s : State) (e : Event) (t : State) : Prop :=
  ∃ before w after w' u, s.workers = before ++ w :: after ∧ WorkerStep Z H headerOk s w e w' u ∧
    t = { u with workers := before ++ w' :: after }

/-- The steps a worker still takes for its item. -/
def Worker.load : Worker → Nat
  | .idle => 0
  | .ending _ => 1
  | .written _ | .failing _ => 2
  | .opened _ => 3
  | .taken _ => 4

/-- The steps the workers still take for what is queued and what they are at. -/
def State.load (s : State) : Nat := 5 * s.work.length + (s.workers.map Worker.load).sum

theorem WorkerStep.load_lt (hstep : WorkerStep Z H headerOk s w e w' t) :
    5 * t.work.length + w'.load < 5 * s.work.length + w.load := by
  cases hstep with
  | take hwork =>
    rw [hwork, length_cons]
    simp only [Worker.load]
    omega
  | finish =>
    rw [(finish_dir s _).2.2.1]
    simp only [Worker.load]
    omega
  | quarantine =>
    rw [(quarantine_fields s _).1]
    simp only [Worker.load]
    omega
  | _ =>
    simp only [Worker.load, State.markProcessed, State.setEntry]
    omega

theorem WorkerMove.load_lt (hmove : WorkerMove Z H headerOk s e t) : t.load < s.load := by
  obtain ⟨before, w, after, w', u, hworkers, hstep, rfl⟩ := hmove
  have hlt := hstep.load_lt
  simp only [State.load, hworkers, map_append, map_cons, sum_append, sum_cons]
  omega

theorem Worker.progress (Z : Zstd) (H : Blake3) (headerOk : Meta → Bool) (s : State) {w : Worker}
    (hw : w ≠ .idle) : ∃ w' t, WorkerStep Z H headerOk s w .quiet w' t := by
  cases w with
  | idle => exact absurd rfl hw
  | taken it =>
    cases hdir : s.dir it.body with
    | none => exact ⟨_, _, .gone hdir⟩
    | some m =>
      cases hm : headerOk m with
      | true => exact ⟨_, _, .opened hdir hm⟩
      | false => exact ⟨_, _, .badHeader hdir hm⟩
  | opened it =>
    by_cases hvalid : Valid Z H it.body
    · exact ⟨_, _, .wrote (.ok hvalid.1 fun o ho => .inr ⟨o, ho, rfl, hvalid.2 o ho⟩)⟩
    · exact ⟨_, _, .writeData (.dataError hvalid (List.Subset.refl _))⟩
  | written it => exact ⟨_, _, .remove⟩
  | failing it => exact ⟨_, _, .quarantine⟩
  | ending it => exact ⟨_, _, .finish⟩

theorem WorkerMove.exists (Z : Zstd) (H : Blake3) (headerOk : Meta → Bool) (hw : w ∈ s.workers)
    (h : s.work ≠ [] ∨ w ≠ .idle) : ∃ t, WorkerMove Z H headerOk s .quiet t := by
  have hstep : ∃ w' t, WorkerStep Z H headerOk s w .quiet w' t := by
    by_cases hidle : w = .idle
    · subst hidle
      obtain ⟨it, rest, hwork⟩ := exists_cons_of_ne_nil (h.resolve_right (fun hne => hne rfl))
      exact ⟨_, _, .take hwork⟩
    · exact Worker.progress Z H headerOk s hidle
  obtain ⟨before, after, hworkers⟩ := append_of_mem hw
  obtain ⟨w', u, hstep⟩ := hstep
  exact ⟨_, before, w, after, w', u, hworkers, hstep, rfl⟩

/-- While a body waits and no call is under way, a worker has a step to take. -/
theorem Waiting.move (Z : Zstd) (H : Blake3) (headerOk : Meta → Bool) (h : Waiting s b)
    (hworkers : s.workers ≠ []) (hcalls : s.calls = []) : ∃ t, WorkerMove Z H headerOk s .quiet t := by
  rcases h with ⟨it, hit, -⟩ | ⟨w, hw, hworks⟩ | ⟨c, hc, -⟩
  · obtain ⟨w, hw⟩ := exists_mem_of_ne_nil _ hworkers
    exact WorkerMove.exists Z H headerOk hw (.inl (ne_nil_of_mem hit))
  · refine WorkerMove.exists Z H headerOk hw (.inr ?_)
    rintro rfl
    exact hworks
  · rw [hcalls] at hc
    cases hc

end Steps

/-! ## The failures of one call -/

/-- The entries and the queue are the same. -/
def SameEntries (s t : State) : Prop := (∀ b, (t.dir b).isSome ↔ (s.dir b).isSome) ∧ t.work = s.work

/-- A call that fails leaves the entries and the queue, unless it is the sync after the rename that
fails. -/
theorem commit_error_iff (f : CommitFaults) (s : State) (c : Staged) :
    (∀ e, (commit f s c).2 = .error e → SameEntries s (commit f s c).1) ↔
      ¬(f.stat = false ∧ s.dir c.body = none ∧ f.rename = false ∧ f.sync = true) := by
  constructor
  · rintro h ⟨hstat, hdir, hrename, hsync⟩
    have heq : commit f s c = (s.setEntry c.body (some c.header), .error .sync) := by
      simp [commit, hstat, hdir, hrename, hsync]
    have hsame := (h .sync (by rw [heq])).1 c.body
    rw [heq, hdir] at hsame
    simp [State.setEntry] at hsame
  · intro hno e he
    unfold commit at he ⊢
    split
    · exact ⟨fun _ => .rfl, rfl⟩
    · next hstat =>
      rw [if_neg hstat] at he
      split
      · next hdir =>
        rw [if_pos hdir] at he
        cases he
      · next hdir =>
        rw [if_neg hdir] at he
        split
        · exact ⟨fun _ => .rfl, rfl⟩
        · next hrename =>
          rw [if_neg hrename] at he
          dsimp only at he ⊢
          split
          · next hsync =>
            exact absurd ⟨by simpa using hstat, by simpa using hdir, by simpa using hrename, hsync⟩ hno
          · next hsync =>
            rw [if_neg hsync] at he
            cases he

/-- A `Commit` that fails leaves no trace, unless its rename has succeeded and the sync of the
directory fails. In every run without such a failure and with workers that do not fail, every entry is
queued, being processed, or about to be enqueued by the call that put it there. A body for which
`Commit` has returned nil is processed or on its way, and the workers get to it: as long as something
waits they can go on, and every step they take brings them closer. -/
theorem commit_failures (Z : Zstd) (H : Blake3) (headerOk : Meta → Bool) :
    (∀ f s c, (∀ e, (commit f s c).2 = .error e → SameEntries s (commit f s c).1) ↔
      ¬(f.stat = false ∧ s.dir c.body = none ∧ f.rename = false ∧ f.sync = true)) ∧
    (∀ s, Reach (Opened headerOk) (StepIn Z H headerOk fun _ e => Clean e) s →
      (∀ b, (s.dir b).isSome → Waiting s b) ∧
      (∀ p ∈ s.acked, p.1 ∈ s.processed ∨ Waiting s p.1) ∧
      (s.workers ≠ [] → s.calls = [] → (∃ b, Waiting s b) → ∃ t, WorkerMove Z H headerOk s .quiet t) ∧
      ∀ e t, WorkerMove Z H headerOk s e t → t.load < s.load) := by
  refine ⟨commit_error_iff, fun s hs => ?_⟩
  have htracked : Tracked s := hs.invariant (fun s h0 => h0.tracked)
    fun s t hs ⟨e, he, hstep⟩ => hstep.tracked hs he
  refine ⟨htracked.entries, htracked.acked, ?_, fun e t hmove => hmove.load_lt⟩
  intro hworkers hcalls ⟨b, hwait⟩
  exact hwait.move Z H headerOk hworkers hcalls

/-- The sync of the directory fails after the rename: the call fails but the entry is there, outside
of the queue. A second call for the same body returns nil, and nobody processes it. -/
theorem commit_sync_fails :
    (commit ⟨false, false, true⟩ emptyInbox (stagedFor rootA)).2 = .error .sync ∧
    ¬SameEntries emptyInbox (commit ⟨false, false, true⟩ emptyInbox (stagedFor rootA)).1 ∧
    ∃ s, Reach (Opened fun _ => true) (StepIn .stored (fun _ => ⟨List.replicate 32 0, rfl⟩)
        (fun _ => true) fun _ e => Clean e ∨ e = .fault .sync) s ∧
      (s.dir emptyPack).isSome ∧ (emptyPack, rootA) ∈ s.acked ∧ emptyPack ∉ s.processed ∧
      s.calls = [] ∧ ∀ e t, ¬WorkerMove .stored (fun _ => ⟨List.replicate 32 0, rfl⟩) (fun _ => true) s e t := by
  have hstart : Reach (Opened fun _ => true) (StepIn .stored (fun _ => ⟨List.replicate 32 0, rfl⟩)
      (fun _ => true) fun _ e => Clean e ∨ e = .fault .sync) emptyInbox := .start (emptyInbox_opened _)
  have hfirst := Reach.commit (c := stagedFor rootA) ⟨false, false, true⟩ hstart rfl rfl
    (fun _ _ => .inl trivial) (fun _ => .inl trivial) nofun nofun fun _ _ => .inr rfl
  have hsecond := Reach.commit (c := stagedFor rootA) noFaults hfirst rfl rfl
    (fun _ _ => .inl trivial) (fun _ => .inl trivial) nofun nofun nofun
  have hentry : ¬SameEntries emptyInbox (commit ⟨false, false, true⟩ emptyInbox (stagedFor rootA)).1 :=
    fun hsame => absurd ((hsame.1 emptyPack).mp (by decide)) (by decide)
  refine ⟨by decide, hentry, _, hsecond, by decide, by decide, by decide, by decide, ?_⟩
  intro e t hmove
  exact absurd hmove.load_lt (Nat.not_lt_zero _)

end AmberStore.Inbox
