import AmberStore.Packstore.Mappings

/-!
# No segment is unmapped while someone may read it

The callers follow the protocol of `Reclaim`: `appendMu` is the lock of the writers, `mu` the lock of the pool,
and the scrub counter counts the pins.
-/

namespace AmberStore.Packstore.Mappings
open Reclaim List

/-- The resources a call has taken off the list. -/
def Pc.drops : Pc → List Mapping
  | .detached segs _ | .unlocking segs | .waiting segs _ | .unmapping segs _ | .closeUnmapping segs => segs
  | _ => []

/-- What a call holds, as a process of the protocol. -/
def Pc.view (pc : Pc) : Proc Mapping where
  writer := pc.holdsAppendMu
  shared := pc.sharesMu
  exclusive := pc.holdsMu
  pinned := match pc with
    | .pinned _ | .walking _ => true
    | _ => false
  trusts := match pc with
    | .reading _ | .found _ | .pinned _ | .writing _ _ | .listing _ | .selecting _ | .copying _ _ _ => true
    | .checking _ closed => !closed
    | _ => false
  drained := match pc with
    | .unmapping _ _ | .closeUnmapping _ => true
    | _ => false
  reads := pc.obtained
  keeps := match pc with
    | .listing segs | .selecting segs => segs
    | .copying victims _ _ => victims
    | _ => []
  drops := pc.drops

/-- The protocol state of a system. Once `Close` unmaps, the pool is empty although `sealed` is not yet. -/
structure Abs (s : Sys) (a : State Nat Mapping) : Prop where
  procs : a.procs = fun j => (s.procs j).view
  closed : a.closed = s.closed
  count : a.count = s.scrubN
  gone : a.gone = s.unmapped
  known : ∀ g ∈ a.known, g.ptr < s.next
  pool : s.closed = false → a.pool = s.sealed
  closing : ∀ j, s.procs j = .closing ∨ s.procs j = .closeWaiting → s.closed = true ∧ a.pool = s.sealed
  seized : ∀ j segs, s.procs j = .closeUnmapping segs → s.closed = true ∧ a.pool = []

section
variable {s s' : Sys} {a : State Nat Mapping} {i : Nat} {pc pc' : Pc}

theorem Abs.proc (h : Abs s a) (hi : s.procs i = pc) : a.procs i = pc.view := by
  rw [h.procs, ← hi]

theorem Abs.update (h : Abs s a) (i : Nat) (pc : Pc) :
    Function.update a.procs i pc.view = fun j => (Function.update s.procs i pc j).view := by
  rw [h.procs]
  funext j
  by_cases hj : j = i
  · subst hj
    rw [Function.update_self, Function.update_self]
  · rw [Function.update_of_ne hj, Function.update_of_ne hj]

theorem Abs.appendFree (h : Abs s a) (hfree : s.AppendFree) (j : Nat) : (a.procs j).writer = false := by
  rw [h.procs]
  exact hfree j

theorem Abs.readFree (h : Abs s a) (hfree : s.ReadFree) (j : Nat) : (a.procs j).exclusive = false := by
  rw [h.procs]
  exact hfree j

theorem Abs.free (h : Abs s a) (hfree : s.Free) (j : Nat) :
    (a.procs j).shared = false ∧ (a.procs j).exclusive = false := by
  rw [h.procs]
  exact hfree j

/-- The states in which `Close` is at work. -/
def Pc.closes : Pc → Bool
  | .closing | .closeWaiting | .closeUnmapping _ => true
  | _ => false

/-- A step of the protocol that the system follows. -/
def Follows (a : State Nat Mapping) (s' : Sys) : Prop := ∃ a', Abs s' a' ∧ Reclaim.Step a a'

theorem Abs.elsewhere (hpc : pc'.closes = false) (hj : Function.update s.procs i pc' j = pc) (hcloses : pc.closes = true) :
    s.procs j = pc := by
  by_cases hji : j = i
  · subst hji
    rw [Function.update_self] at hj
    rw [hj, hcloses] at hpc
    cases hpc
  · rwa [Function.update_of_ne hji] at hj

theorem Abs.setPc (h : Abs s a) (hpc : pc'.closes = false) :
    Abs (s.set i pc') { a with procs := Function.update a.procs i pc'.view } where
  procs := h.update i pc'
  closed := h.closed
  count := h.count
  gone := h.gone
  known := h.known
  pool := h.pool
  closing j hj := h.closing j (hj.imp (fun hj => elsewhere hpc hj rfl) fun hj => elsewhere hpc hj rfl)
  seized j segs hj := h.seized j segs (elsewhere hpc hj rfl)

theorem Abs.act {n : Nat} (h : Abs s a) (hpc : pc'.closes = false) (ht : Takes a i pc'.view) (hr : Reads a i pc'.view)
    (hc : Counts (Function.update a.procs i pc'.view) n) : Follows a { s.set i pc' with scrubN := n } := by
  refine ⟨_, ?_, .plain ht hr hc⟩
  exact { h.setPc hpc with count := rfl }

variable (h : Abs s a)
include h

theorem Abs.detach {segs sealed : List Mapping} {keep : Bool} (hi : s.procs i = pc) (hpin : pc.view.pinned = false)
    (hw : pc.holdsAppendMu = true) (hdrops : pc.drops = []) (hopen : s.closed = false) (hfree : s.Free)
    (hnodup : segs.Nodup) (hsegs : ∀ g ∈ segs, g ∈ s.sealed ∧ g ∉ sealed) (hsub : sealed.Sublist s.sealed) :
    Follows a { s.set i (.detached segs keep) with sealed := sealed } := by
  have hp := h.proc hi
  rw [← h.pool hopen] at hsegs hsub
  have ht : Takes a i (Pc.detached segs keep).view :=
    .of hp (fun _ => .inl hw) nofun (fun _ => .inr (h.free hfree)) (fun _ => rfl) nofun
  refine ⟨_, ?_, .detach ht rfl rfl ?_ rfl rfl rfl hnodup ?_ hsegs hsub⟩
  · exact {
      procs := h.update i _
      closed := h.closed
      count := h.count
      gone := h.gone
      known := h.known
      pool := fun _ => rfl
      closing := fun j hj => by
        have hc := (h.closing j (hj.imp (fun hj => elsewhere rfl hj rfl) fun hj => elsewhere rfl hj rfl)).1
        rw [hopen] at hc
        cases hc
      seized := fun j segs hj => by
        have hc := (h.seized j segs (elsewhere rfl hj rfl)).1
        rw [hopen] at hc
        cases hc }
  · rw [hp, hpin]
    rfl
  · rw [hp]
    exact hdrops

variable (hinv : Inv a)
include hinv

theorem Abs.step (hi : s.procs i = pc) (hpc : pc'.closes = false) (hpin : pc'.view.pinned = pc.view.pinned)
    (ht : Takes a i pc'.view) (hr : Reads a i pc'.view) : Follows a (s.set i pc') := by
  have hcounts := hinv.counts
  rw [h.count] at hcounts
  exact h.act hpc ht hr (hcounts.same (by rw [h.proc hi, hpin]))

theorem Abs.push (hi : s.procs i = pc) (hopen : s.closed = false) (ht : Takes a i pc'.view)
    (hr : Reads a i pc'.view) (hpc : pc'.closes = false) (hpin : pc'.view.pinned = pc.view.pinned) (n : Nat) :
    Follows a ((s.push n).set i pc') := by
  have hcounts := hinv.counts.same (i := i) (p := pc'.view) (by rw [h.proc hi, hpin])
  have hnew : ∀ g ∈ [Mapping.mk s.next n], g ∉ a.known := by
    intro g hg hk
    rw [mem_singleton.mp hg] at hk
    exact Nat.lt_irrefl _ (h.known _ hk)
  refine ⟨_, ?_, .act ht hr hcounts (nodup_singleton _) hnew⟩
  exact {
    procs := h.update i pc'
    closed := h.closed
    count := h.count
    gone := h.gone
    known := fun g hg => by
      rcases mem_append.mp hg with hg | hg
      · exact Nat.lt_succ_of_lt (h.known g hg)
      · rw [mem_singleton.mp hg]
        exact Nat.lt_succ_self _
    pool := fun hc => congrArg (· ++ _) (h.pool hc)
    closing := fun j hj => by
      have hc := (h.closing j (hj.imp (fun hj => elsewhere hpc hj rfl) fun hj => elsewhere hpc hj rfl)).1
      rw [hopen] at hc
      cases hc
    seized := fun j segs hj => by
      have hc := (h.seized j segs (elsewhere hpc hj rfl)).1
      rw [hopen] at hc
      cases hc }

theorem Abs.idle (hi : s.procs i = pc) (hpin : pc.view.pinned = false) (hdrops : pc.drops = []) :
    Follows a (s.set i .idle) :=
  h.step hinv hi rfl hpin.symm (.release hinv (h.proc hi) nofun nofun nofun nofun)
    (.none (h.proc hi) rfl rfl hdrops.symm nofun)

/-- A step of the holder of `appendMu` that reads nothing, and lets go of `mu` if it had it. -/
theorem Abs.letGo (hi : s.procs i = pc) (hpc : pc'.closes = false) (hpin : pc'.view.pinned = pc.view.pinned)
    (hw : pc'.holdsAppendMu = true → pc.holdsAppendMu = true) (hs : pc'.sharesMu = false) (hx : pc'.holdsMu = false)
    (ht : pc'.view.trusts = true → pc.view.trusts = true ∧ pc'.holdsAppendMu = true) (hr : pc'.obtained = [])
    (hk : pc'.view.keeps = []) (hd : pc'.drops = pc.drops)
    (hdrained : pc'.view.drained = true → pc.view.drained = true) : Follows a (s.set i pc') := by
  have hshared : pc'.view.shared = true → pc.view.shared = true := fun hp => nomatch hs.symm.trans hp
  have hexclusive : pc'.view.exclusive = true → pc.view.exclusive = true := fun hp => nomatch hx.symm.trans hp
  exact h.step hinv hi hpc hpin (.release hinv (h.proc hi) hw hshared hexclusive fun hp => (ht hp).imp_right .inr)
    (.none (h.proc hi) hr hk hd hdrained)

/-- A call under `appendMu` that found the store open finds it open. -/
theorem Abs.trusted (hi : s.procs i = pc) (ht : pc.view.trusts = true) : s.closed = false := by
  have htrusts := (hinv.locks.trusts i (by rw [h.proc hi]; exact ht)).1
  rwa [h.closed] at htrusts

theorem Abs.pool_nodup (hopen : s.closed = false) : s.sealed.Nodup := by
  rw [← h.pool hopen]
  exact hinv.pool.1

end

/-! ## The steps of each call -/

theorem Found.mem {sealed segs : List Mapping} (hfound : Found sealed segs) : ∀ g ∈ segs, g ∈ sealed := by
  rcases hfound with rfl | ⟨n, g, hg, rfl⟩
  · exact fun g hg => hg
  · intro g' hg'
    rw [mem_singleton.mp hg']
    exact mem_of_find?_eq_some hg

/-- The segments that are kept are those of the list that no victim has the id of. -/
theorem notMem_survivors {sealed victims : List Mapping} (hg : g ∈ victims) : g ∉ survivors sealed victims := by
  intro hmem
  have hid := (mem_filter.mp hmem).2
  rw [decide_eq_true_iff] at hid
  exact hid (mem_map_of_mem hg)

theorem notMem_eraseP {sealed : List Mapping} {p : Mapping → Bool} (hnodup : sealed.Nodup)
    (hg : sealed.find? p = some g) : g ∉ sealed.eraseP p := by
  obtain ⟨hpg, pre, post, rfl, hpre⟩ := find?_eq_some_iff_append.mp hg
  have hnot : ∀ b ∈ pre, ¬ p b = true := by
    intro b hb hpb
    have hb := hpre b hb
    rw [hpb] at hb
    cases hb
  rw [eraseP_append_right _ hnot, eraseP_cons_of_pos hpg]
  exact (nodup_cons.mp (nodup_middle.mp hnodup)).1

section
variable {s : Sys} {a : State Nat Mapping} {i n : Nat} {segs victims : List Mapping} {main : Main} {pipe : Pipe}
  {compact keep : Bool} (h : Abs s a) (hinv : Inv a)
include h hinv

/-- A goroutine takes `mu` to read, and reads segments of the open store. -/
theorem follows_enter {pc : Pc} (hi : s.procs i = .idle) (hpc : pc.closes = false)
    (hview : pc.view = (Pc.reading segs).view) (hfree : s.ReadFree) (hopen : s.closed = false)
    (hsegs : ∀ g ∈ segs, g ∈ s.sealed) : Follows a (s.set i pc) := by
  have hp := h.proc hi
  refine h.step hinv hi hpc (by rw [hview]; rfl) ?_ ?_ <;> rw [hview]
  · exact .of hp nofun (fun _ => .inr (h.readFree hfree)) nofun nofun fun _ =>
      ⟨.inr (h.closed.trans hopen), .inl rfl⟩
  · refine .of hp (fun g hg => .inr ?_) (fun _ => .inl rfl) ⟨nodup_nil, nofun⟩ rfl nofun
    rw [h.pool hopen]
    exact hsegs g hg

theorem follows_read (hi : s.procs i = .idle) (hfree : s.ReadFree) (hopen : s.closed = false) :
    Follows a (s.set i (.reading s.sealed)) :=
  follows_enter h hinv hi rfl rfl hfree hopen fun _ => id

theorem follows_leaving (hi : s.procs i = .idle) (hfree : s.ReadFree) : Follows a (s.set i .leaving) :=
  h.step hinv hi rfl rfl (.of (h.proc hi) nofun (fun _ => .inr (h.readFree hfree)) nofun nofun nofun)
    (.none (h.proc hi) rfl rfl rfl nofun)

theorem follows_find (hi : s.procs i = .idle) (hfree : s.ReadFree) (hopen : s.closed = false)
    (hfound : Found s.sealed segs) : Follows a (s.set i (.found segs)) :=
  follows_enter h hinv hi rfl rfl hfree hopen hfound.mem

theorem follows_beginScrub (hi : s.procs i = .found segs) :
    Follows a { s.set i (.pinned segs) with scrubN := s.scrubN + 1 } := by
  have hp := h.proc hi
  have hcounts := hinv.counts
  rw [h.count] at hcounts
  refine h.act rfl ?_ ?_ (hcounts.pin (by rw [hp]; rfl) rfl)
  · exact .release hinv hp nofun (fun _ => rfl) nofun fun _ => ⟨rfl, .inl rfl⟩
  · exact .of hp (fun g hg => .inl ⟨hg, rfl⟩) (fun _ => .inl rfl) ⟨nodup_nil, nofun⟩ rfl nofun

/-- A walk goes on without `mu`: it is counted, and no longer trusts that the store is open. -/
theorem follows_walk (hi : s.procs i = .pinned segs) : Follows a (s.set i (.walking segs)) := by
  have hp := h.proc hi
  refine h.step hinv hi rfl rfl (.release hinv hp nofun nofun nofun nofun) ?_
  exact .of hp (fun g hg => .inl ⟨hg, rfl⟩) (fun _ => .inr rfl) ⟨nodup_nil, nofun⟩ rfl nofun

theorem follows_endScrub (hi : s.procs i = .walking segs) :
    Follows a { s.set i .idle with scrubN := s.scrubN - 1 } := by
  have hp := h.proc hi
  have hpinned : (a.procs i).pinned = true := by rw [hp]; rfl
  have hcounts := hinv.counts
  rw [h.count] at hcounts
  -- the walk itself is counted
  obtain ⟨n, hn⟩ : ∃ n, s.scrubN = n + 1 := by
    apply Nat.exists_eq_succ_of_ne_zero
    intro hzero
    rw [hzero] at hcounts
    rw [hcounts.zero i] at hpinned
    cases hpinned
  rw [hn] at hcounts ⊢
  exact h.act rfl (.release hinv hp nofun nofun nofun nofun) (.none hp rfl rfl rfl nofun)
    (hcounts.unpin hpinned rfl)

theorem follows_lock {job : Job} (hi : s.procs i = .idle) (hfree : s.AppendFree) :
    Follows a (s.set i (.locked job)) :=
  h.step hinv hi rfl rfl (.of (h.proc hi) (fun _ => .inr (h.appendFree hfree)) nofun nofun nofun nofun)
    (.none (h.proc hi) rfl rfl rfl nofun)

theorem follows_check {job : Job} (hi : s.procs i = .locked job) (hfree : s.ReadFree) :
    Follows a (s.set i (.checking compact s.closed)) := by
  refine h.step hinv hi rfl rfl ?_ (.none (h.proc hi) rfl rfl rfl nofun)
  refine .of (h.proc hi) (fun _ => .inl rfl) (fun _ => .inr (h.readFree hfree)) nofun nofun fun hnot => ?_
  have hnot : (!s.closed) = true := hnot
  rw [Bool.not_eq_true'] at hnot
  exact ⟨.inr (h.closed.trans hnot), .inl rfl⟩

omit hinv in
theorem takes_writing (hi : s.procs i = .writing compact .free) (hfree : s.Free) (main : Main) :
    Takes a i (Pc.writing compact main).view :=
  .of (h.proc hi) (fun _ => .inl rfl) nofun (fun _ => .inr (h.free hfree)) (fun _ => rfl) fun _ =>
    ⟨.inl rfl, .inr rfl⟩

theorem follows_publish (hi : s.procs i = .writing compact .free) (hfree : s.Free) :
    Follows a (s.set i (.writing compact .publishing)) :=
  h.step hinv hi rfl rfl (takes_writing h hi hfree _) (.none (h.proc hi) rfl rfl rfl nofun)

theorem follows_swap (hi : s.procs i = .writing compact .free) (hfree : s.Free) :
    Follows a ((s.push n).set i (.writing compact .sealing)) :=
  h.push hinv hi (h.trusted hinv hi rfl) (takes_writing h hi hfree .sealing)
    (.none (h.proc hi) rfl rfl rfl nofun) rfl rfl n

theorem follows_list (hi : s.procs i = .writing true .free) (hfree : s.ReadFree) :
    Follows a (s.set i (.listing s.sealed)) := by
  have hopen := h.trusted hinv hi rfl
  have hp := h.proc hi
  have hpool : ∀ g ∈ s.sealed, g ∈ a.pool := by
    rw [h.pool hopen]
    exact fun g hg => hg
  refine h.step hinv hi rfl rfl ?_ ?_
  · exact .of hp (fun _ => .inl rfl) (fun _ => .inr (h.readFree hfree)) nofun nofun fun _ => ⟨.inl rfl, .inl rfl⟩
  · exact .of hp (fun g hg => .inr (hpool g hg)) (fun _ => .inl rfl)
      ⟨h.pool_nodup hinv hopen, fun g hg => ⟨.inr (hpool g hg), rfl⟩⟩ rfl nofun

theorem follows_listed (hi : s.procs i = .listing segs) : Follows a (s.set i (.selecting segs)) := by
  have hp := h.proc hi
  have hnodup := (hinv.keeps i).1
  rw [hp] at hnodup
  refine h.step hinv hi rfl rfl (.release hinv hp (fun _ => rfl) nofun nofun fun _ => ⟨rfl, .inr rfl⟩) ?_
  exact .of hp (fun g hg => .inl ⟨hg, rfl⟩) (fun _ => .inl rfl) ⟨hnodup, fun g hg => ⟨.inl hg, rfl⟩⟩ rfl nofun

theorem follows_copy (hi : s.procs i = .selecting segs) (hsub : victims.Sublist segs) :
    Follows a (s.set i (.copying victims .free .running)) := by
  have hp := h.proc hi
  have hnodup := (hinv.keeps i).1
  rw [hp] at hnodup
  refine h.step hinv hi rfl rfl (.release hinv hp (fun _ => rfl) nofun nofun fun _ => ⟨rfl, .inr rfl⟩) ?_
  exact .of hp (fun g hg => .inl ⟨hsub.subset hg, rfl⟩) (fun _ => .inl rfl)
    ⟨hnodup.sublist hsub, fun g hg => ⟨.inl (hsub.subset hg), rfl⟩⟩ rfl nofun

/-- While it copies, `Compact` goes on reading the victims. -/
theorem reads_copying {main' : Main} {pipe' : Pipe} (hi : s.procs i = .copying victims main pipe)
    (hmem : ∀ g ∈ (Pc.copying victims main' pipe').obtained,
      g ∈ (Pc.copying victims main pipe).obtained ∨ g ∈ a.pool) :
    Reads a i (Pc.copying victims main' pipe').view := by
  have hp := h.proc hi
  have hnodup := (hinv.keeps i).1
  rw [hp] at hnodup
  refine .of hp (fun g hg => (hmem g hg).imp_left fun hg => ⟨hg, rfl⟩) (fun _ => .inl rfl) ?_ rfl nofun
  exact ⟨hnodup, fun g hg => ⟨.inl hg, rfl⟩⟩

theorem follows_probe (hi : s.procs i = .copying victims main .running) (hfree : s.ReadFree) :
    Follows a (s.set i (.copying victims main (.probing s.sealed))) := by
  have hnot := hfree i
  rw [hi] at hnot
  refine h.step hinv hi rfl rfl ?_ (reads_copying h hinv hi fun g hg => ?_)
  · refine .of (h.proc hi) (fun _ => .inl rfl) (fun _ => .inr (h.readFree hfree)) .inl (fun hx => ?_) fun _ =>
      ⟨.inl rfl, .inl rfl⟩
    exact nomatch hnot.symm.trans hx
  · rw [h.pool (h.trusted hinv hi rfl)]
    exact mem_append.mp hg

theorem follows_probed (hi : s.procs i = .copying victims main (.probing segs)) :
    Follows a (s.set i (.copying victims main .running)) := by
  refine h.step hinv hi rfl rfl ?_ (reads_copying h hinv hi fun g hg => .inl (mem_append_left _ hg))
  exact .release hinv (h.proc hi) (fun _ => rfl) nofun id fun _ => ⟨rfl, .inr rfl⟩

theorem follows_piped (hi : s.procs i = .copying victims main .running) :
    Follows a (s.set i (.copying victims main .returned)) := by
  refine h.step hinv hi rfl rfl ?_ (reads_copying h hinv hi fun g hg => .inl hg)
  exact .release hinv (h.proc hi) (fun _ => rfl) nofun id fun _ => ⟨rfl, .inr rfl⟩

omit h hinv in
theorem obtained_copying (main main' : Main) :
    (Pc.copying victims main pipe).obtained = (Pc.copying victims main' pipe).obtained := by
  cases pipe <;> rfl

omit h hinv in
theorem sharesMu_copying (main main' : Main) :
    (Pc.copying victims main pipe).sharesMu = (Pc.copying victims main' pipe).sharesMu := by
  cases pipe <;> rfl

theorem reads_copying_main (hi : s.procs i = .copying victims main pipe) (main' : Main) :
    Reads a i (Pc.copying victims main' pipe).view := by
  apply reads_copying h hinv hi
  rw [obtained_copying main' main]
  exact fun g hg => .inl hg

omit hinv in
theorem takes_copying (hi : s.procs i = .copying victims .free pipe) (hfree : s.Free) (main : Main) :
    Takes a i (Pc.copying victims main pipe).view := by
  have hnot := (hfree i).1
  rw [hi, sharesMu_copying .free main] at hnot
  exact .of (h.proc hi) (fun _ => .inl rfl) (fun hs => nomatch hnot.symm.trans hs)
    (fun _ => .inr (h.free hfree)) (fun _ => hnot) fun _ => ⟨.inl rfl, .inr rfl⟩

theorem follows_copyPublish (hi : s.procs i = .copying victims .free pipe) (hfree : s.Free) :
    Follows a (s.set i (.copying victims .publishing pipe)) :=
  h.step hinv hi rfl rfl (takes_copying h hi hfree _) (reads_copying_main h hinv hi _)

theorem follows_copySwap (hi : s.procs i = .copying victims .free pipe) (hfree : s.Free) :
    Follows a ((s.push n).set i (.copying victims .sealing pipe)) :=
  h.push hinv hi (h.trusted hinv hi rfl) (takes_copying h hi hfree .sealing)
    (reads_copying_main h hinv hi _) rfl rfl n

theorem follows_copyUnlock (hi : s.procs i = .copying victims main pipe) :
    Follows a (s.set i (.copying victims .free pipe)) := by
  refine h.step hinv hi rfl rfl ?_ (reads_copying_main h hinv hi _)
  refine .release hinv (h.proc hi) (fun _ => rfl) (fun hs => ?_) nofun fun _ => ⟨rfl, .inr rfl⟩
  rwa [Pc.view, sharesMu_copying .free main] at hs

theorem follows_removeVictims (hi : s.procs i = .copying victims .free .returned) (hfree : s.Free) :
    Follows a { s.set i (.detached victims true) with sealed := survivors s.sealed victims } := by
  have hopen := h.trusted hinv hi rfl
  obtain ⟨hnodup, hkeeps⟩ := hinv.keeps i
  rw [h.proc hi] at hnodup hkeeps
  refine h.detach hi rfl rfl rfl hopen hfree hnodup (fun g hg => ⟨?_, notMem_survivors hg⟩) filter_sublist
  rw [← h.pool hopen]
  exact (hkeeps g hg).1

theorem follows_refused {job : Job} (hi : s.procs i = .locked job) (hfree : s.Free) :
    Follows a (s.set i .refused) :=
  h.step hinv hi rfl rfl
    (.of (h.proc hi) (fun _ => .inl rfl) nofun (fun _ => .inr (h.free hfree)) (fun _ => rfl) nofun)
    (.none (h.proc hi) rfl rfl rfl nofun)

theorem follows_remove (hi : s.procs i = .locked (.remove n)) (hfree : s.Free) (hopen : s.closed = false)
    (hg : s.sealed.find? (fun g => g.id == n) = some g) :
    Follows a { s.set i (.detached [g] false) with sealed := s.sealed.eraseP fun g => g.id == n } := by
  refine h.detach hi rfl rfl rfl hopen hfree (nodup_singleton g) (fun g' hg' => ?_) eraseP_sublist
  rw [mem_singleton.mp hg']
  exact ⟨mem_of_find?_eq_some hg, notMem_eraseP (h.pool_nodup hinv hopen) hg⟩

theorem follows_wipe (hi : s.procs i = .locked .wipe) (hfree : s.Free) (hopen : s.closed = false) :
    Follows a { s.set i (.detached s.sealed true) with sealed := [] } :=
  h.detach hi rfl rfl rfl hopen hfree (h.pool_nodup hinv hopen) (fun _ hg => ⟨hg, not_mem_nil⟩)
    (nil_sublist _)

end

section
variable {s : Sys} {a : State Nat Mapping} {i : Nat} {segs : List Mapping} {keep : Bool} (h : Abs s a)
include h

theorem follows_drained (hi : s.procs i = .waiting segs keep) (hzero : s.scrubN = 0) :
    Follows a (s.set i (.unmapping segs keep)) := by
  have hview : { a.procs i with drained := true } = (Pc.unmapping segs keep).view := by
    rw [h.proc hi]
    rfl
  have hstep := Reclaim.Step.drain (i := i) (h.count.trans hzero)
  rw [hview] at hstep
  exact ⟨_, h.setPc rfl, hstep⟩

theorem follows_unmap (hi : s.procs i = .unmapping (g :: segs) keep) :
    Follows a { s.set i (.unmapping segs keep) with unmapped := g :: s.unmapped } := by
  have hp := h.proc hi
  have hview : { a.procs i with drops := segs } = (Pc.unmapping segs keep).view := by
    rw [hp]
    rfl
  have hstep := Reclaim.Step.reclaim (s := a) (i := i) (r := g) (l := segs) (by rw [hp]; rfl) (by rw [hp]; rfl)
  rw [hview] at hstep
  refine ⟨_, ?_, hstep⟩
  exact { h.setPc rfl with gone := congrArg (g :: ·) h.gone }

theorem follows_close (hi : s.procs i = .locked .close) (hfree : s.Free) (hopen : s.closed = false) :
    Follows a { s.set i .closing with closed := true } := by
  have hp := h.proc hi
  have ht : Takes a i Pc.closing.view :=
    .of hp (fun _ => .inl rfl) nofun (fun _ => .inr (h.free hfree)) (fun _ => rfl) nofun
  refine ⟨_, ?_, .close ht rfl rfl (by rw [hp]; rfl) rfl rfl rfl (by rw [hp]; rfl) nofun⟩
  exact {
    procs := h.update i _
    closed := rfl
    count := h.count
    gone := h.gone
    known := h.known
    pool := nofun
    closing := fun _ _ => ⟨rfl, h.pool hopen⟩
    seized := fun j segs hj => by
      by_cases hji : j = i
      · subst hji
        exact nomatch (Function.update_self ..).symm.trans hj
      · have hc := (h.seized j segs ((Function.update_of_ne hji ..).symm.trans hj)).1
        rw [hopen] at hc
        cases hc }

theorem follows_closeWait (hinv : Inv a) (hi : s.procs i = .closing) : Follows a (s.set i .closeWaiting) := by
  have hp := h.proc hi
  have hcounts := hinv.counts.same (i := i) (p := Pc.closeWaiting.view) (by rw [hp]; rfl)
  have ht : Takes a i Pc.closeWaiting.view := .release hinv hp (fun _ => rfl) nofun nofun nofun
  refine ⟨_, ?_, .plain ht (.none hp rfl rfl rfl nofun) hcounts⟩
  exact {
    procs := h.update i _
    closed := h.closed
    count := h.count
    gone := h.gone
    known := h.known
    pool := h.pool
    closing := fun _ _ => h.closing i (.inl hi)
    seized := fun j segs hj => by
      by_cases hji : j = i
      · subst hji
        exact nomatch (Function.update_self ..).symm.trans hj
      · exact h.seized j segs ((Function.update_of_ne hji ..).symm.trans hj) }

/-- No other call is at `Close` when one of them has `appendMu`. -/
theorem Abs.alone (hinv : Inv a) (hi : (s.procs i).holdsAppendMu = true) (hj : (s.procs j).holdsAppendMu = true) :
    j = i := by
  apply hinv.locks.writer
  · rw [h.procs]
    exact hj
  · rw [h.procs]
    exact hi

theorem Abs.not_closing (hinv : Inv a) (hi : (s.procs i).holdsAppendMu = true) (pc' : Pc)
    (hpc : pc' ≠ .closing ∧ pc' ≠ .closeWaiting) (j : Nat) :
    ¬ ((s.set i pc').procs j = .closing ∨ (s.set i pc').procs j = .closeWaiting) := by
  intro hj
  by_cases hji : j = i
  · subst hji
    have hself : (s.set j pc').procs j = pc' := Function.update_self ..
    rw [hself] at hj
    exact hj.elim hpc.1 hpc.2
  · have hother : (s.set i pc').procs j = s.procs j := Function.update_of_ne hji ..
    rw [hother] at hj
    apply hji
    apply h.alone hinv hi
    rcases hj with hj | hj <;> rw [hj] <;> rfl

/-- A step of the goroutine that closes the store, after it has taken the segments out. -/
theorem Abs.closes {pc' : Pc} {pool gone unmapped sealed : List Mapping} (hinv : Inv a)
    (hi : (s.procs i).holdsAppendMu = true) (hpc : pc' ≠ .closing ∧ pc' ≠ .closeWaiting) (hclosed : s.closed = true)
    (hpool : pool = []) (hgone : gone = unmapped) :
    Abs { s.set i pc' with unmapped, sealed } { a with pool, gone, procs := Function.update a.procs i pc'.view } where
  procs := h.update i _
  closed := h.closed
  count := h.count
  gone := hgone
  known := h.known
  pool := fun hopen => nomatch hclosed.symm.trans hopen
  closing := fun j hj => absurd hj (h.not_closing hinv hi pc' hpc j)
  seized := fun _ _ _ => ⟨hclosed, hpool⟩

theorem follows_closeDrained (hinv : Inv a) (hi : s.procs i = .closeWaiting) (hzero : s.scrubN = 0) :
    Follows a (s.set i (.closeUnmapping s.sealed)) := by
  have hp := h.proc hi
  obtain ⟨hclosed, hpool⟩ := h.closing i (.inr hi)
  have hview : { a.procs i with drops := a.pool, drained := true } = (Pc.closeUnmapping s.sealed).view := by
    rw [hp, hpool]
    rfl
  have hstep := Reclaim.Step.seize (i := i) (h.closed.trans hclosed) (h.count.trans hzero) (by rw [hp]; rfl)
    (by rw [hp]; rfl) (by rw [hp]; rfl)
  rw [hview] at hstep
  refine ⟨_, ?_, hstep⟩
  exact h.closes hinv (by rw [hi]; rfl) ⟨nofun, nofun⟩ hclosed rfl h.gone

theorem follows_closeUnmap (hinv : Inv a) (hi : s.procs i = .closeUnmapping (g :: segs)) :
    Follows a { s.set i (.closeUnmapping segs) with unmapped := g :: s.unmapped } := by
  have hp := h.proc hi
  have hview : { a.procs i with drops := segs } = (Pc.closeUnmapping segs).view := by
    rw [hp]
    rfl
  have hstep := Reclaim.Step.reclaim (s := a) (i := i) (r := g) (l := segs) (by rw [hp]; rfl) (by rw [hp]; rfl)
  rw [hview] at hstep
  obtain ⟨hclosed, hpool⟩ := h.seized i _ hi
  refine ⟨_, ?_, hstep⟩
  exact h.closes hinv (by rw [hi]; rfl) ⟨nofun, nofun⟩ hclosed hpool (congrArg (g :: ·) h.gone)

theorem follows_closed (hinv : Inv a) (hi : s.procs i = .closeUnmapping []) :
    Follows a { s.set i .idle with sealed := [] } := by
  have hp := h.proc hi
  have hcounts := hinv.counts.same (i := i) (p := Pc.idle.view) (by rw [hp]; rfl)
  have ht : Takes a i Pc.idle.view := .release hinv hp nofun nofun nofun nofun
  obtain ⟨hclosed, hpool⟩ := h.seized i _ hi
  refine ⟨_, ?_, .plain ht (.none hp rfl rfl rfl nofun) hcounts⟩
  exact h.closes hinv (by rw [hi]; rfl) ⟨nofun, nofun⟩ hclosed hpool h.gone

end

/-! ## Every run -/

theorem Abs.follows {s s' : Sys} {a : State Nat Mapping} (h : Abs s a) (hinv : Inv a) (hstep : Step s s') :
    Follows a s' := by
  cases hstep with
  | read hi hfree hopen => exact follows_read h hinv hi hfree hopen
  | readDone hi => exact h.idle hinv hi rfl rfl
  | shut hi hfree => exact follows_leaving h hinv hi hfree
  | leave hi => exact h.idle hinv hi rfl rfl
  | find hi hfree hopen hfound => exact follows_find h hinv hi hfree hopen hfound
  | unknown hi hfree => exact follows_leaving h hinv hi hfree
  | beginScrub hi => exact follows_beginScrub h hinv hi
  | walk hi => exact follows_walk h hinv hi
  | endScrub hi => exact follows_endScrub h hinv hi
  | lock hi hfree => exact follows_lock h hinv hi hfree
  | checkAppend hi hfree => exact follows_check h hinv hi hfree
  | checkCompact hi hfree => exact follows_check h hinv hi hfree
  | checkedClosed hi => exact h.letGo hinv hi rfl rfl (fun _ => rfl) rfl rfl nofun rfl rfl rfl nofun
  | checked hi => exact h.letGo hinv hi rfl rfl (fun _ => rfl) rfl rfl (fun _ => ⟨rfl, rfl⟩) rfl rfl rfl nofun
  | publish hi hfree => exact follows_publish h hinv hi hfree
  | swap hi hfree => exact follows_swap h hinv hi hfree
  | unlock hi => exact h.letGo hinv hi rfl rfl (fun _ => rfl) rfl rfl (fun _ => ⟨rfl, rfl⟩) rfl rfl rfl nofun
  | written hi => exact h.idle hinv hi rfl rfl
  | list hi hfree => exact follows_list h hinv hi hfree
  | listed hi => exact follows_listed h hinv hi
  | noVictims hi => exact h.idle hinv hi rfl rfl
  | copy hi hsub => exact follows_copy h hinv hi hsub
  | probe hi hfree => exact follows_probe h hinv hi hfree
  | probed hi => exact follows_probed h hinv hi
  | piped hi => exact follows_piped h hinv hi
  | copyPublish hi hfree => exact follows_copyPublish h hinv hi hfree
  | copySwap hi hfree => exact follows_copySwap h hinv hi hfree
  | copyUnlock hi => exact follows_copyUnlock h hinv hi
  | copyFailed hi => exact h.idle hinv hi rfl rfl
  | removeVictims hi hfree => exact follows_removeVictims h hinv hi hfree
  | refuse hi _ hfree => exact follows_refused h hinv hi hfree
  | removeUnknown hi hfree => exact follows_refused h hinv hi hfree
  | refused hi => exact h.letGo hinv hi rfl rfl (fun _ => rfl) rfl rfl nofun rfl rfl rfl nofun
  | returned hi => exact h.idle hinv hi rfl rfl
  | remove hi hfree hopen hg => exact follows_remove h hinv hi hfree hopen hg
  | wipe hi hfree hopen => exact follows_wipe h hinv hi hfree hopen
  | wait hi => exact h.letGo hinv hi rfl rfl (fun _ => rfl) rfl rfl nofun rfl rfl rfl nofun
  | removeUnlock hi => exact h.letGo hinv hi rfl rfl (fun _ => rfl) rfl rfl nofun rfl rfl rfl nofun
  | removeWait hi => exact h.letGo hinv hi rfl rfl nofun rfl rfl nofun rfl rfl rfl nofun
  | drained hi hzero => exact follows_drained h hi hzero
  | unmap hi => exact follows_unmap h hi
  | unmapped hi => exact h.idle hinv hi rfl rfl
  | close hi hfree hopen => exact follows_close h hi hfree hopen
  | closeWait hi => exact follows_closeWait h hinv hi
  | closeDrained hi hzero => exact follows_closeDrained h hinv hi hzero
  | closeUnmap hi => exact follows_closeUnmap h hinv hi
  | closed hi => exact follows_closed h hinv hi

/-- The system follows the protocol, and the protocol is in a good state. -/
def Safe (s : Sys) : Prop := ∃ a, Abs s a ∧ Inv a

theorem Safe.step {s s' : Sys} (h : Safe s) (hstep : Step s s') : Safe s' := by
  obtain ⟨a, habs, hinv⟩ := h
  obtain ⟨a', habs', hstep'⟩ := habs.follows hinv hstep
  exact ⟨a', habs', hinv.step hstep'⟩

theorem Opened.safe {s : Sys} (h : Opened s) : Safe s := by
  have hview : ∀ i, (s.procs i).view = Pc.idle.view := fun i => by rw [h.idle i]
  refine ⟨⟨s.sealed, s.closed, s.scrubN, s.unmapped, s.sealed, fun i => (s.procs i).view⟩, ?_, ?_⟩
  · exact {
      procs := rfl
      closed := rfl
      count := rfl
      gone := rfl
      known := h.next
      pool := fun _ => rfl
      closing := fun j hj => by
        rw [h.idle j] at hj
        rcases hj with hj | hj <;> cases hj
      seized := fun j segs hj => nomatch (h.idle j).symm.trans hj }
  · simp only [hview, h.mapped, h.scrubs]
    exact {
      locks := ⟨nofun, nofun, nofun⟩
      reads := fun _ hne => absurd rfl hne
      keeps := fun _ => ⟨nodup_nil, nofun⟩
      counts := ⟨[], nodup_nil, fun _ => ⟨nofun, nofun⟩, rfl⟩
      pool := ⟨h.nodup, fun _ _ => ⟨not_mem_nil, fun _ => not_mem_nil⟩⟩
      drops := fun _ => ⟨nodup_nil, nofun⟩
      gone := nodup_nil
      unread := nofun
      drained := nofun
      waits := nofun
      known := fun r hr => by
        rcases hr with hr | hr | ⟨_, hr | hr⟩
        · exact hr
        all_goals cases hr }

theorem reach_safe {s : Sys} (h : Reach Opened Step s) : Safe s :=
  h.invariant (fun _ h0 => h0.safe) fun _ _ hs hstep => hs.step hstep

theorem Safe.unread {s : Sys} (h : Safe s) (hg : g ∈ s.unmapped) (i : Nat) : g ∉ (s.procs i).obtained := by
  obtain ⟨a, habs, hinv⟩ := h
  rw [← habs.gone] at hg
  have hunread := hinv.unread g hg i
  rwa [habs.procs] at hunread

theorem Safe.nodup {s : Sys} (h : Safe s) : s.unmapped.Nodup := by
  obtain ⟨a, habs, hinv⟩ := h
  rw [← habs.gone]
  exact hinv.gone

theorem Step.unmapped_mono {s s' : Sys} (h : Step s s') (hg : g ∈ s.unmapped) : g ∈ s'.unmapped := by
  cases h with
  | unmap => exact mem_cons_of_mem _ hg
  | closeUnmap => exact mem_cons_of_mem _ hg
  | _ => exact hg

theorem Safe.scrub {s s' : Sys} (h : Safe s) (hstep : Step s s') (hup : s.scrubN < s'.scrubN) :
    s.closed = false := by
  obtain ⟨a, habs, hinv⟩ := h
  cases hstep with
  | beginScrub hi => exact habs.trusted hinv hi rfl
  | endScrub => exact absurd hup (Nat.not_lt.mpr (Nat.sub_le _ 1))
  | _ => exact absurd hup (Nat.lt_irrefl _)

theorem unmapped_later {s s' : Sys} (hlater : Reach (· = s) Step s') (hg : g ∈ s.unmapped) : g ∈ s'.unmapped := by
  apply hlater.invariant (I := fun s' => g ∈ s'.unmapped)
  · rintro _ rfl
    exact hg
  · exact fun _ _ hg hstep => hstep.unmapped_mono hg

theorem reach_trans {s s' : Sys} (h : Reach Opened Step s) (hlater : Reach (· = s) Step s') : Reach Opened Step s' := by
  induction hlater with
  | start heq =>
    subst heq
    exact h
  | next _ hstep ih => exact ih.next hstep

/-- A segment that is unmapped is read by no call, then or later; it is unmapped once; and walks are counted only
while the store is open. -/
theorem unmapped_unread (s s' : Sys) (hreach : Reach Opened Step s) (hlater : Reach (· = s) Step s') :
    (∀ g ∈ s.unmapped, ∀ i, g ∉ (s'.procs i).obtained) ∧ s'.unmapped.Nodup ∧
    ∀ s'', Step s' s'' → s'.scrubN < s''.scrubN → s'.closed = false := by
  have hsafe := reach_safe (reach_trans hreach hlater)
  exact ⟨fun g hg i => hsafe.unread (unmapped_later hlater hg) i, hsafe.nodup,
    fun s'' hstep hup => hsafe.scrub hstep hup⟩

/-- A store of one segment. -/
def oneSegment : Sys := ⟨[⟨0, 7⟩], false, 0, 1, [], fun _ => .idle⟩

theorem oneSegment_opened : Opened oneSegment where
  nodup := nodup_singleton _
  next g hg := by
    rw [mem_singleton.mp hg]
    exact Nat.zero_lt_one
  opened := rfl
  scrubs := rfl
  mapped := rfl
  idle _ := rfl

theorem set_procs (s : Sys) (i : Nat) (pc : Pc) : (s.set i pc).procs i = pc := Function.update_self ..

theorem oneSegment_wiped : ∃ s, Reach Opened Step s ∧ s.unmapped = [⟨0, 7⟩] := by
  have hfree : (oneSegment.set 0 (.locked .wipe)).Free := by
    intro j
    by_cases hj : j = 0
    · subst hj
      rw [set_procs]
      exact ⟨rfl, rfl⟩
    · have hidle : (oneSegment.set 0 (.locked .wipe)).procs j = .idle := Function.update_of_ne hj ..
      rw [hidle]
      exact ⟨rfl, rfl⟩
  have hlock : Reach Opened Step (oneSegment.set 0 (.locked .wipe)) :=
    (Reach.start oneSegment_opened).next (.lock rfl fun _ => rfl)
  have hwipe := hlock.next (.wipe (set_procs ..) hfree rfl)
  have hwait := hwipe.next (.wait (set_procs ..))
  have hdrained := hwait.next (.drained (set_procs ..) rfl)
  exact ⟨_, hdrained.next (.unmap (set_procs ..)), rfl⟩

theorem unmapped_unread_wiped : ∃ s, Reach Opened Step s ∧ s.unmapped = [⟨0, 7⟩] ∧
    ∀ i, ⟨0, 7⟩ ∉ (s.procs i).obtained := by
  obtain ⟨s, hreach, hs⟩ := oneSegment_wiped
  refine ⟨s, hreach, hs, fun i => (unmapped_unread s s hreach (.start rfl)).1 _ ?_ i⟩
  rw [hs]
  exact mem_singleton_self _

end AmberStore.Packstore.Mappings
