import AmberStore.Lib.Bytes

/-!
# Paths

Paths as byte strings, with the lexical operations on them: the shortest equivalent path, joining, and
the directory of a path. The components of a path are what stands between its slashes.
-/

namespace Path
open List

def slash : UInt8 := 47

def dot : Bytes := [46]

def dotdot : Bytes := [46, 46]

/-- What stands between the slashes. -/
def parts (p : Bytes) : List Bytes := p.splitOn slash

def rooted (p : Bytes) : Bool := p.head? = some slash

/-- Add one component to those of a path that is clean. -/
def cleanStep (root : Bool) (acc : List Bytes) (c : Bytes) : List Bytes :=
  if c = [] ∨ c = dot then acc
  else if c = dotdot then
    if acc = [] ∧ root then acc
    else if acc = [] ∨ acc.getLast? = some dotdot then acc ++ [c]
    else acc.dropLast
  else acc ++ [c]

def cleanParts (root : Bool) (cs : List Bytes) : List Bytes := cs.foldl (cleanStep root) []

def render (root : Bool) (cs : List Bytes) : Bytes :=
  if root then slash :: [slash].intercalate cs
  else if cs = [] then dot
  else [slash].intercalate cs

/-- The shortest path that is lexically the same. -/
def clean (p : Bytes) : Bytes := render (rooted p) (cleanParts (rooted p) (parts p))

/-- Join two paths. A leading empty one is left out. -/
def join (a b : Bytes) : Bytes :=
  if a ≠ [] then clean (a ++ slash :: b)
  else if b ≠ [] then clean b
  else []

/-- All but the last component, with the slash. -/
def upToSlash (p : Bytes) : Bytes := (p.reverse.dropWhile (· ≠ slash)).reverse

/-- The directory of a path. -/
def dir (p : Bytes) : Bytes := clean (upToSlash p)

/-- A path up to its last component, with the slash before it. Slashes at the end do not count. -/
def parentOf (p : Bytes) : Bytes := ((p.reverse.dropWhile (· = slash)).dropWhile (· ≠ slash)).reverse

/-- A path below another one. -/
def under (p : Bytes) (names : List Bytes) : Bytes := p ++ names.flatMap (slash :: ·)

/-- The name of an entry of a directory. -/
structure Proper (n : Bytes) : Prop where
  ne_nil : n ≠ []
  ne_dot : n ≠ dot
  ne_dotdot : n ≠ dotdot
  no_slash : slash ∉ n

/-! ## Components -/

theorem parts_append_slash (a b : Bytes) : parts (a ++ slash :: b) = parts a ++ parts b :=
  splitOn_append_cons_self a b

theorem parts_cons_slash (b : Bytes) : parts (slash :: b) = [] :: parts b := parts_append_slash [] b

theorem parts_ne_nil (p : Bytes) : parts p ≠ [] := splitOnP_ne_nil _ _

theorem parts_intercalate (h : ∀ c ∈ cs, slash ∉ c) (hne : cs ≠ []) :
    parts ([slash].intercalate cs) = cs := splitOn_intercalate slash h hne

theorem intercalate_parts (p : Bytes) : [slash].intercalate (parts p) = p :=
  intercalate_splitOn slash

theorem parts_eq_singleton {n : Bytes} (h : slash ∉ n) : parts n = [n] := splitOn_eq_singleton h

theorem no_slash_of_mem_parts {p : Bytes} (h : c ∈ parts p) : slash ∉ c := by
  induction p generalizing c with
  | nil =>
    rw [mem_singleton.mp h]
    exact not_mem_nil
  | cons x p ih =>
    rw [parts, splitOn_eq_splitOnP, splitOnP_cons_eq_if_modifyHead] at h
    split at h
    · rcases mem_cons.mp h with rfl | h
      · exact not_mem_nil
      · exact ih h
    · next hx =>
      obtain ⟨first, rest, hparts⟩ := exists_cons_of_ne_nil (parts_ne_nil p)
      rw [parts, splitOn_eq_splitOnP] at hparts
      rw [hparts, modifyHead_cons] at h
      rcases mem_cons.mp h with rfl | h
      · intro hmem
        rcases mem_cons.mp hmem with rfl | hmem
        · exact hx (beq_self_eq_true _)
        · refine ih (c := first) ?_ hmem
          rw [parts, splitOn_eq_splitOnP, hparts]
          exact mem_cons_self
      · refine ih ?_
        rw [parts, splitOn_eq_splitOnP, hparts]
        exact mem_cons_of_mem _ h

theorem under_nil (p : Bytes) : under p [] = p := append_nil p

theorem under_cons (p n : Bytes) (ns : List Bytes) : under p (n :: ns) = under (p ++ slash :: n) ns := by
  simp [under]

theorem under_append (p : Bytes) (ns ms : List Bytes) : under p (ns ++ ms) = under (under p ns) ms := by
  simp [under]

theorem under_concat (p : Bytes) (ns : List Bytes) (n : Bytes) :
    under p (ns ++ [n]) = under p ns ++ slash :: n := by
  simp [under]

theorem parts_under (h : ∀ n ∈ ns, slash ∉ n) : parts (under p ns) = parts p ++ ns := by
  induction ns generalizing p with
  | nil => rw [under_nil, append_nil]
  | cons n ns ih =>
    rw [under_cons, ih fun m hm => h m (mem_cons_of_mem _ hm), parts_append_slash,
      parts_eq_singleton (h n mem_cons_self), append_assoc]
    rfl

theorem intercalate_cons (c : Bytes) (ns : List Bytes) : [slash].intercalate (c :: ns) = under c ns := by
  induction ns generalizing c with
  | nil => rw [intercalate_singleton, under_nil]
  | cons n ns ih =>
    rw [intercalate_cons_cons, ih]
    simp [under]

theorem intercalate_append (hne : cs ≠ []) (ns : List Bytes) :
    [slash].intercalate (cs ++ ns) = under ([slash].intercalate cs) ns := by
  obtain ⟨c, cs, rfl⟩ := exists_cons_of_ne_nil hne
  rw [cons_append, intercalate_cons, intercalate_cons, under_append]

theorem render_append (root : Bool) (hne : cs ≠ []) (ns : List Bytes) :
    render root (cs ++ ns) = under (render root cs) ns := by
  unfold render
  rw [if_neg hne, if_neg (append_ne_nil_of_left_ne_nil hne _), intercalate_append hne]
  cases root <;> simp [under]

/-! ## Clean paths -/

theorem cleanStep_proper (root : Bool) (acc : List Bytes) (h : Proper n) :
    cleanStep root acc n = acc ++ [n] := by
  rw [cleanStep, if_neg (by simp [h.ne_nil, h.ne_dot]), if_neg h.ne_dotdot]

theorem foldl_cleanStep_proper (root : Bool) (acc : List Bytes) (h : ∀ n ∈ ns, Proper n) :
    ns.foldl (cleanStep root) acc = acc ++ ns := by
  induction ns generalizing acc with
  | nil => exact (append_nil acc).symm
  | cons n ns ih =>
    rw [foldl_cons, cleanStep_proper root acc (h n mem_cons_self),
      ih _ fun m hm => h m (mem_cons_of_mem _ hm), append_assoc, singleton_append]

/-- Every beginning of the list is left as it is. -/
def Settled (root : Bool) (cs : List Bytes) : Prop := ∀ q, q <+: cs → cleanParts root q = q

theorem Settled.nil (root : Bool) : Settled root [] := by
  intro q hq
  rw [prefix_nil.mp hq]
  rfl

theorem Settled.step (h : Settled root acc) (c : Bytes) : Settled root (cleanStep root acc c) := by
  have hadd : cleanStep root acc c = acc ++ [c] → Settled root (cleanStep root acc c) := by
    intro heq q hq
    rw [heq] at hq
    rcases prefix_concat_iff.mp hq with rfl | hq
    · rw [cleanParts, foldl_append, ← cleanParts, h acc prefix_rfl]
      exact heq
    · exact h q hq
  by_cases hskip : c = [] ∨ c = dot
  · rwa [cleanStep, if_pos hskip]
  by_cases hup : c = dotdot
  · by_cases htop : acc = [] ∧ root
    · rwa [cleanStep, if_neg hskip, if_pos hup, if_pos htop]
    by_cases hlast : acc = [] ∨ acc.getLast? = some dotdot
    · refine hadd ?_
      rw [cleanStep, if_neg hskip, if_pos hup, if_neg htop, if_pos hlast]
    · rw [cleanStep, if_neg hskip, if_pos hup, if_neg htop, if_neg hlast]
      exact fun q hq => h q (hq.trans ( dropLast_prefix acc))
  · refine hadd ?_
    rw [cleanStep, if_neg hskip, if_neg hup]

theorem Settled.cleanParts (root : Bool) (cs : List Bytes) : Settled root (cleanParts root cs) :=
  List.foldlRecOn cs _ (Settled.nil root) fun _ h c _ => h.step c

theorem cleanStep_mem (h : x ∈ cleanStep root acc c) : x ∈ acc ∨ x = c := by
  unfold cleanStep at h
  split at h
  · exact .inl h
  split at h
  · split at h
    · exact .inl h
    split at h
    · exact (mem_append.mp h).imp_right mem_singleton.mp
    · exact .inl (dropLast_subset _ h)
  · exact (mem_append.mp h).imp_right mem_singleton.mp

theorem foldl_cleanStep_mem (cs : List Bytes) (h : x ∈ cs.foldl (cleanStep root) acc) :
    x ∈ acc ∨ x ∈ cs := by
  induction cs generalizing acc with
  | nil => exact .inl h
  | cons c cs ih =>
    rcases ih h with h | h
    · rcases cleanStep_mem h with h | rfl
      · exact .inl h
      · exact .inr mem_cons_self
    · exact .inr (mem_cons_of_mem _ h)

theorem cleanParts_no_slash (p : Bytes) (root : Bool) : ∀ c ∈ cleanParts root (parts p), slash ∉ c :=
  fun _ hc => no_slash_of_mem_parts ((foldl_cleanStep_mem _ hc).resolve_left not_mem_nil)

theorem cleanParts_proper {p : Bytes} (root : Bool) (h : dotdot ∉ parts p) :
    ∀ c ∈ cleanParts root (parts p), Proper c := by
  have hfold : ∀ (cs acc : List Bytes), dotdot ∉ cs → (∀ c ∈ cs, slash ∉ c) → (∀ c ∈ acc, Proper c) →
      ∀ c ∈ cs.foldl (cleanStep root) acc, Proper c := by
    intro cs
    induction cs with
    | nil => exact fun acc _ _ hacc => hacc
    | cons x cs ih =>
      intro acc hup hslash hacc
      refine ih _ (fun hmem => hup (mem_cons_of_mem _ hmem))
        (fun c hc => hslash c (mem_cons_of_mem _ hc)) fun c hc => ?_
      have hne : x ≠ dotdot := fun heq => hup (heq ▸ mem_cons_self)
      unfold cleanStep at hc
      split at hc
      · exact hacc c hc
      · next hskip =>
        rcases mem_append.mp hc with hc | hc
        · exact hacc c hc
        · rw [mem_singleton.mp hc]
          exact ⟨fun h => hskip (.inl h), fun h => hskip (.inr h), hne, hslash x mem_cons_self⟩
  exact hfold _ [] h (fun c hc => no_slash_of_mem_parts hc) nofun

theorem rooted_append (hne : p ≠ []) (q : Bytes) : rooted (p ++ q) = rooted p := by
  cases p with
  | nil => exact absurd rfl hne
  | cons x p => rfl

theorem parts_render (hno : ∀ c ∈ cs, slash ∉ c) (hne : cs ≠ []) :
    parts (render root cs) = (if root then [[]] else []) ++ cs := by
  unfold render
  cases root with
  | true =>
    rw [if_pos rfl, parts_cons_slash, parts_intercalate hno hne]
    rfl
  | false =>
    rw [if_neg Bool.false_ne_true, if_neg hne, parts_intercalate hno hne]
    rfl

theorem clean_intercalate (h : ∀ c ∈ cs, Proper c) (hne : cs ≠ []) :
    clean ([slash].intercalate cs) = [slash].intercalate cs := by
  have hrooted : rooted ([slash].intercalate cs) = false := by
    obtain ⟨c, cs, rfl⟩ := exists_cons_of_ne_nil hne
    have hc := h c mem_cons_self
    rw [intercalate_cons, under, rooted_append hc.ne_nil, rooted, decide_eq_false_iff_not]
    exact fun hhead => hc.no_slash (mem_of_mem_head? hhead)
  rw [clean, hrooted, parts_intercalate (fun c hc => (h c hc).no_slash) hne, cleanParts,
    foldl_cleanStep_proper false [] h]
  exact if_neg hne

/-- Joining a path of names and a name. -/
theorem join_intercalate (h : ∀ n ∈ ns, Proper n) (hn : Proper n) :
    join ([slash].intercalate ns) n = [slash].intercalate (ns ++ [n]) := by
  have hproper : ∀ c ∈ ns ++ [n], Proper c := by
    intro c hc
    rcases mem_append.mp hc with hc | hc
    · exact h c hc
    · rw [mem_singleton.mp hc]
      exact hn
  rw [← clean_intercalate hproper (by simp)]
  cases ns with
  | nil =>
    rw [nil_append, intercalate_singleton]
    exact (if_neg (not_not_intro rfl)).trans (if_pos hn.ne_nil)
  | cons m ns =>
    have hne : [slash].intercalate (m :: ns) ≠ [] := by
      rw [intercalate_cons, under]
      exact append_ne_nil_of_left_ne_nil (h m mem_cons_self).ne_nil _
    rw [join, if_pos hne, intercalate_append (cons_ne_nil m ns)]
    simp [under]

/-- Joining a path that has no component `..` adds its names. -/
theorem join_clean (hdest : dest ≠ []) (h : dotdot ∉ parts name) :
    join dest (clean (slash :: name)) = render (rooted dest)
      (cleanParts (rooted dest) (parts dest) ++ cleanParts true (parts name)) := by
  have hproper := cleanParts_proper true h
  have hname : clean (slash :: name) = slash :: [slash].intercalate (cleanParts true (parts name)) := by
    have hparts : cleanParts true (parts (slash :: name)) = cleanParts true (parts name) := by
      rw [parts_cons_slash]
      rfl
    rw [clean, show rooted (slash :: name) = true from rfl, hparts]
    rfl
  have hfold : ∀ acc, (parts (slash :: [slash].intercalate (cleanParts true (parts name)))).foldl
      (cleanStep (rooted dest)) acc = acc ++ cleanParts true (parts name) := by
    intro acc
    rw [parts_cons_slash, foldl_cons, cleanStep, if_pos (.inl rfl)]
    by_cases hnil : cleanParts true (parts name) = []
    · rw [hnil, append_nil]
      rfl
    · rw [parts_intercalate (fun c hc => (hproper c hc).no_slash) hnil,
        foldl_cleanStep_proper _ _ hproper]
  rw [join, if_pos hdest, clean, rooted_append hdest, hname, parts_append_slash, cleanParts,
    foldl_append, hfold]
  rfl

theorem cleanParts_eq_of_append (h : cs ++ ds = cleanParts root cs ++ ns)
    (hsettled : Settled root (cleanParts root cs ++ ns)) : cleanParts root cs = cs ∧ ds = ns := by
  have hcs : cleanParts root cs = cs := hsettled cs ⟨ds, h⟩
  rw [hcs] at h
  exact ⟨hcs, append_cancel_left h⟩

theorem Settled.append_proper (h : Settled root cs) (hns : ∀ n ∈ ns, Proper n) :
    Settled root (cs ++ ns) := by
  induction ns generalizing cs with
  | nil => rwa [append_nil]
  | cons n ns ih =>
    have hn := h.step n
    rw [cleanStep_proper root cs (hns n mem_cons_self)] at hn
    have hrest := ih hn fun m hm => hns m (mem_cons_of_mem _ hm)
    rwa [append_assoc] at hrest

/-- A path that stays below another one by its text is below it by its names, and the other one is
clean. -/
theorem join_below (hdest : dest ≠ []) (h : dotdot ∉ parts name)
    (hjoin : join dest (clean (slash :: name)) = dest ++ slash :: rest) :
    clean dest = dest ∧ cleanParts (rooted dest) (parts dest) ≠ [] ∧
      dest ++ slash :: rest = under dest (cleanParts true (parts name)) := by
  have hproper := cleanParts_proper true h
  have hsettled := (Settled.cleanParts (rooted dest) (parts dest)).append_proper hproper
  rw [join_clean hdest h] at hjoin
  have hno : ∀ c ∈ cleanParts (rooted dest) (parts dest) ++ cleanParts true (parts name), slash ∉ c := by
    intro c hc
    rcases mem_append.mp hc with hc | hc
    · exact cleanParts_no_slash _ _ c hc
    · exact (hproper c hc).no_slash
  have hne : cleanParts (rooted dest) (parts dest) ++ cleanParts true (parts name) ≠ [] := by
    intro hnil
    rw [hnil] at hjoin
    cases hroot : rooted dest with
    | true =>
      rw [hroot] at hjoin
      cases dest with
      | nil => exact hdest rfl
      | cons x dest =>
        have hlen := congrArg List.length hjoin
        simp [render] at hlen
    | false =>
      rw [hroot] at hjoin
      have hmem : slash ∈ dot := by
        rw [show dot = render false [] from rfl, hjoin]
        simp
      exact absurd hmem (by decide)
  have hparts := congrArg parts hjoin
  rw [parts_render hno hne, parts_append_slash] at hparts
  have hclean : cleanParts (rooted dest) (parts dest) ≠ [] ∧
      render (rooted dest) (cleanParts (rooted dest) (parts dest)) = dest := by
    cases hroot : rooted dest with
    | true =>
      obtain ⟨d, rfl⟩ : ∃ d, dest = slash :: d := by
        cases dest with
        | nil => exact absurd rfl hdest
        | cons x d =>
          have hx : x = slash := by simpa [rooted] using hroot
          exact ⟨d, by rw [hx]⟩
      have hskip : cleanParts true (parts (slash :: d)) = cleanParts true (parts d) := by
        rw [parts_cons_slash]
        rfl
      rw [hroot, hskip, parts_cons_slash, if_pos rfl] at hparts
      rw [hroot, hskip] at hsettled
      obtain ⟨heq, -⟩ := cleanParts_eq_of_append (cons_inj_right _ |>.mp hparts).symm hsettled
      rw [hskip, heq]
      refine ⟨parts_ne_nil d, ?_⟩
      rw [render, if_pos rfl, intercalate_parts]
    | false =>
      rw [hroot, if_neg Bool.false_ne_true, nil_append] at hparts
      rw [hroot] at hsettled
      obtain ⟨heq, -⟩ := cleanParts_eq_of_append hparts.symm hsettled
      rw [heq]
      refine ⟨parts_ne_nil dest, ?_⟩
      rw [render, if_neg Bool.false_ne_true, if_neg (parts_ne_nil dest), intercalate_parts]
  refine ⟨hclean.2, hclean.1, ?_⟩
  rw [← hjoin, render_append _ hclean.1, hclean.2]

/-- A path below a clean one is clean, with or without a slash at the end. -/
theorem clean_under (hclean : clean dest = dest) (hne : cleanParts (rooted dest) (parts dest) ≠ [])
    (hdest : dest ≠ []) (hns : ∀ n ∈ ns, Proper n) : clean (under dest ns ++ [slash]) = under dest ns := by
  have hroot : rooted (under dest ns ++ [slash]) = rooted dest := by
    rw [under, append_assoc, rooted_append hdest]
  have hparts : parts (under dest ns ++ [slash]) = parts dest ++ ns ++ [[]] := by
    rw [parts_append_slash, parts_under fun n hn => (hns n hn).no_slash]
    rfl
  have hfold : cleanParts (rooted dest) (parts dest ++ ns ++ [[]]) =
      cleanParts (rooted dest) (parts dest) ++ ns := by
    rw [cleanParts, foldl_append, foldl_append, foldl_cleanStep_proper _ _ hns,
      foldl_cons, cleanStep, if_pos (Or.inl rfl)]
    rfl
  rw [clean, hroot, hparts, hfold, render_append _ hne]
  exact congrArg (under · ns) hclean

theorem upToSlash_append (p : Bytes) (h : slash ∉ n) : upToSlash (p ++ slash :: n) = p ++ [slash] := by
  have hdrop : (n.reverse ++ slash :: p.reverse).dropWhile (· ≠ slash) = slash :: p.reverse := by
    rw [dropWhile_append_of_pos]
    · simp
    · intro x hx
      refine decide_eq_true fun heq => h ?_
      rw [← heq]
      exact mem_reverse.mp hx
  rw [upToSlash, reverse_append, reverse_cons, append_assoc, singleton_append, hdrop]
  simp

theorem dir_under (hclean : clean dest = dest) (hne : cleanParts (rooted dest) (parts dest) ≠ [])
    (hdest : dest ≠ []) (hns : ∀ n ∈ ns, Proper n) (hn : Proper n) :
    dir (under dest (ns ++ [n])) = under dest ns := by
  rw [dir, under_concat, upToSlash_append _ hn.no_slash, clean_under hclean hne hdest hns]

theorem parentOf_eq (hc : c ≠ []) (hslash : slash ∉ c) (p : Bytes) (k : Nat) :
    parentOf (p ++ slash :: c ++ List.replicate k slash) = p ++ [slash] := by
  have hstrip : (List.replicate k slash ++ (c.reverse ++ slash :: p.reverse)).dropWhile (· = slash) =
      c.reverse ++ slash :: p.reverse := by
    rw [dropWhile_append_of_pos]
    · obtain ⟨x, xs, hx⟩ := exists_cons_of_ne_nil (mt reverse_eq_nil_iff.mp hc)
      have hne : x ≠ slash := by
        rintro rfl
        exact hslash (mem_reverse.mp (hx ▸ mem_cons_self))
      rw [hx, cons_append, dropWhile_cons_of_neg (by simpa using hne)]
    · intro x hx
      exact decide_eq_true (eq_of_mem_replicate hx)
  have hname : (c.reverse ++ slash :: p.reverse).dropWhile (· ≠ slash) = slash :: p.reverse := by
    rw [dropWhile_append_of_pos]
    · simp
    · intro x hx
      refine decide_eq_true fun heq => hslash ?_
      rw [← heq]
      exact mem_reverse.mp hx
  have hrev : (p ++ slash :: c ++ List.replicate k slash).reverse =
      List.replicate k slash ++ (c.reverse ++ slash :: p.reverse) := by
    simp
  rw [parentOf, hrev, hstrip, hname, reverse_cons, reverse_reverse]

theorem parentOf_ne_nil {p : Bytes} (h : parentOf p ≠ []) : ∃ r c k,
    p = r ++ slash :: c ++ List.replicate k slash ∧ c ≠ [] ∧ slash ∉ c ∧ parentOf p = r ++ [slash] := by
  have hsplit : ∃ k, p.reverse = List.replicate k slash ++ p.reverse.dropWhile (· = slash) := by
    refine ⟨(p.reverse.takeWhile (· = slash)).length, ?_⟩
    rw [← eq_replicate_of_mem fun x hx =>
      of_decide_eq_true (all_eq_true.mp all_takeWhile x hx)]
    exact takeWhile_append_dropWhile.symm
  obtain ⟨k, hk⟩ := hsplit
  have hhead := head?_dropWhile_not (fun x : UInt8 => decide (x = slash)) p.reverse
  rw [parentOf] at h
  generalize p.reverse.dropWhile (· = slash) = m at hk hhead h
  have hm : m.takeWhile (· ≠ slash) ++ m.dropWhile (· ≠ slash) = m := takeWhile_append_dropWhile
  have hlast := head?_dropWhile_not (fun x : UInt8 => decide (x ≠ slash)) m
  have hno : slash ∉ m.takeWhile (· ≠ slash) := fun hmem =>
    of_decide_eq_true (all_eq_true.mp all_takeWhile slash hmem) rfl
  generalize m.takeWhile (· ≠ slash) = u at hm hno
  cases hv : m.dropWhile (· ≠ slash) with
  | nil =>
    rw [hv] at h
    exact absurd rfl h
  | cons x v =>
    rw [hv] at hm hlast
    have hx : x = slash := by simpa using hlast
    subst hx
    have hu : u ≠ [] := by
      rintro rfl
      rw [← hm] at hhead
      simp at hhead
    have hp : p = v.reverse ++ slash :: u.reverse ++ List.replicate k slash := by
      rw [← reverse_reverse p, hk, ← hm]
      simp
    refine ⟨v.reverse, u.reverse, k, hp, by simpa using hu, by simpa using hno, ?_⟩
    conv_lhs => rw [hp]
    exact parentOf_eq (by simpa using hu) (by simpa using hno) _ _

theorem parts_replicate_slash (p : Bytes) (k : Nat) :
    parts (p ++ List.replicate k slash) = parts p ++ List.replicate k [] := by
  induction k with
  | zero => rw [replicate_zero, replicate_zero, append_nil, append_nil]
  | succ k ih =>
    rw [replicate_succ', ← append_assoc, parts_append_slash, ih, append_assoc,
      show parts [] = [[]] from rfl, ← replicate_succ']

end Path
