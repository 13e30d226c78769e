import AmberStore.Tarextract.Extract

/-!
# Spellings of the destination

The check of a joined name compares a clean path with the destination as it was written.
-/

namespace AmberStore.Tarextract
open Path List

/-- A path with the components of the destination and then those of the name. -/
def Joins (dest name target : Bytes) : Prop :=
  target = render (rooted dest) (cleanParts (rooted dest) (parts dest) ++ cleanParts true (parts name))

theorem safeJoin_eq (h : dotdot ∉ parts name) : safeJoin dest name =
    if join dest (clean (slash :: name)) = dest ∨ dest ++ [slash] <+: join dest (clean (slash :: name)) then
      .ok (join dest (clean (slash :: name)))
    else .error (.unsafeName name) := by
  rw [safeJoin, if_neg h]
  simp only [ne_eq, ← not_or, ite_not]

theorem safeJoin_joins (hdest : dest ≠ []) (h : safeJoin dest name = .ok target) : Joins dest name target := by
  by_cases hup : dotdot ∈ parts name
  · rw [safeJoin, if_pos hup] at h
    cases h
  · rw [safeJoin_eq hup] at h
    split at h
    next =>
      cases h
      exact join_clean hdest hup
    next => cases h

theorem safeJoin_of_clean (hclean : clean dest = dest) (hne : cleanParts (rooted dest) (parts dest) ≠ [])
    (hdest : dest ≠ []) (h : dotdot ∉ parts name) :
    safeJoin dest name = .ok (under dest (cleanParts true (parts name))) := by
  have hjoin : join dest (clean (slash :: name)) = under dest (cleanParts true (parts name)) := by
    rw [join_clean hdest h, render_append _ hne]
    exact congrArg (under · _) hclean
  rw [safeJoin_eq h, hjoin, if_pos]
  cases cleanParts true (parts name) with
  | nil => exact .inl (under_nil dest)
  | cons n ns =>
    rw [under_cons]
    exact .inr ⟨n ++ ns.flatMap (slash :: ·), by simp [under]⟩

/-- A destination without components is the root or the working directory. -/
theorem cleanParts_eq_nil_iff (hclean : clean dest = dest) :
    cleanParts (rooted dest) (parts dest) = [] ↔ dest = [slash] ∨ dest = dot := by
  constructor
  · intro hnil
    rw [clean, hnil] at hclean
    rw [← hclean]
    cases rooted dest with
    | true => exact .inl rfl
    | false => exact .inr rfl
  · rintro (rfl | rfl) <;> rfl

/-- A name whose path is that of the destination has no components. -/
theorem join_eq_self (hdest : dest ≠ []) (hup : dotdot ∉ parts name)
    (h : join dest (clean (slash :: name)) = dest) : cleanParts true (parts name) = [] := by
  have hproper := cleanParts_proper true hup
  rw [join_clean hdest hup] at h
  generalize cleanParts true (parts name) = ns at h hproper
  have hsettled := (Settled.cleanParts (rooted dest) (parts dest)).append_proper hproper
  have hno : ∀ c ∈ cleanParts (rooted dest) (parts dest) ++ ns, slash ∉ c := by
    intro c hc
    rcases mem_append.mp hc with hc | hc
    · exact cleanParts_no_slash _ _ c hc
    · exact (hproper c hc).no_slash
  have hskip : ∀ cs, cleanParts (rooted dest) ((if rooted dest then [[]] else []) ++ cs) =
      cleanParts (rooted dest) cs := by
    intro cs
    cases rooted dest <;> rfl
  by_contra hne
  have hparts : parts dest =
      (if rooted dest then [[]] else []) ++ (cleanParts (rooted dest) (parts dest) ++ ns) := by
    rw [← parts_render hno (by simp [hne]), h]
  have hself := congrArg (cleanParts (rooted dest)) hparts
  rw [hskip, hsettled _ prefix_rfl] at hself
  exact hne (self_eq_append_right.mp hself)

/-- What is accepted is the destination, followed by the components of the name. -/
theorem safeJoin_names (hdest : dest ≠ []) (h : safeJoin dest name = .ok target) :
    dotdot ∉ parts name ∧ target = under dest (cleanParts true (parts name)) := by
  by_cases hup : dotdot ∈ parts name
  · rw [safeJoin, if_pos hup] at h
    cases h
  · refine ⟨hup, ?_⟩
    rw [safeJoin_eq hup] at h
    split at h
    next hok =>
      cases h
      rcases hok with hself | ⟨rest, hrest⟩
      · rw [hself, join_eq_self hdest hup hself, under_nil]
      · rw [append_assoc, singleton_append] at hrest
        exact hrest.symm.trans (join_below hdest hup hrest.symm).2.2
    next => cases h

/-- A destination works for every name without a component `..` exactly if it is written in its shortest form and
is neither the root nor the working directory. -/
theorem safeJoin_spellings (hdest : dest ≠ []) :
    (∀ name, dotdot ∉ parts name → ∃ target, safeJoin dest name = .ok target ∧ Joins dest name target) ↔
      clean dest = dest ∧ dest ≠ [slash] ∧ dest ≠ dot := by
  constructor
  · intro h
    have hup : dotdot ∉ parts [97] := by decide
    obtain ⟨target, htarget, -⟩ := h [97] hup
    rw [safeJoin_eq hup] at htarget
    split at htarget
    next hok =>
      have hnames : cleanParts true (parts [97]) ≠ [] := by decide
      obtain ⟨rest, hrest⟩ := hok.resolve_left (mt (join_eq_self hdest hup) hnames)
      rw [append_assoc, singleton_append] at hrest
      obtain ⟨hclean, hne, -⟩ := join_below hdest hup hrest.symm
      rw [← not_or]
      exact ⟨hclean, mt (cleanParts_eq_nil_iff hclean).mpr hne⟩
    next => cases htarget
  · intro ⟨hclean, hroot, hdot⟩ name hname
    have hne := mt (cleanParts_eq_nil_iff hclean).mp (not_or.mpr ⟨hroot, hdot⟩)
    have hok := safeJoin_of_clean hclean hne hdest hname
    exact ⟨_, hok, safeJoin_joins hdest hok⟩

/-- The destination `out`. -/
theorem safeJoin_spellings_out :
    (∀ name, dotdot ∉ parts name → ∃ target, safeJoin [111, 117, 116] name = .ok target ∧
      Joins [111, 117, 116] name target) ↔
    clean [111, 117, 116] = [111, 117, 116] ∧ [111, 117, 116] ≠ [slash] ∧ [111, 117, 116] ≠ dot :=
  safeJoin_spellings (by decide)

/-- The destinations `./a`, `a/`, `.` and `/` refuse the name `b`. -/
theorem safeJoin_refuses :
    safeJoin [46, 47, 97] [98] = .error (.unsafeName [98]) ∧ safeJoin [97, 47] [98] = .error (.unsafeName [98]) ∧
    safeJoin [46] [98] = .error (.unsafeName [98]) ∧ safeJoin [47] [98] = .error (.unsafeName [98]) := by
  decide +kernel

end AmberStore.Tarextract
