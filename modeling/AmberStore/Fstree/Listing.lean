import AmberStore.Fstree.DirectorySpec

/-!
# Listing a directory page by page

A page has the entries after a cursor, up to a limit, and says whether there are more. The listing
skips the subtrees whose greatest name is not after the cursor.
-/

namespace AmberStore.Fstree
open Amberpack

section Listing
variable (C : Cbor) (get : Key → Except FsError Bytes) (after : Bytes) (limit : Int)

/-- The index of the first name after the cursor. -/
def searchAfter (names : List Bytes) : Nat :=
  Search.search names.length fun i => (names[i]?).any fun x => decide (after < x)

/-- Append entries up to the limit. The flag says whether one was left. -/
def takeEntries : List Entry → List Entry → List Entry × Bool
  | out, [] => (out, false)
  | out, e :: es => if (out.length : Int) = limit then (out, true) else takeEntries (out ++ [e]) es

/-- List below every pair in turn, until an entry is left. -/
def listPairs (k : Key) (list : Key → List Entry → Option (Except FsError (List Entry × Bool))) :
    List Entry → List DirPair → Option (Except FsError (List Entry × Bool))
  | out, [] => some (.ok (out, false))
  | out, p :: ps =>
    match Key.parse p.childKey with
    | .error e => some (.error (.dirNodeChild k e))
    | .ok ck =>
      match list ck out with
      | some (.ok (out, false)) => listPairs k list out ps
      | r => r

/-- Append the entries below a key that are after the cursor, for at most so many levels. -/
def listInto : Nat → Key → List Entry → Option (Except FsError (List Entry × Bool))
  | 0, _, _ => none
  | fuel + 1, k, out =>
    match get k with
    | .error _ => some (.error (.get k))
    | .ok data =>
      match k.type with
      | .dirLeaf =>
        match C.decodeEntries data with
        | none => some (.error (.decodeDirLeaf k))
        | some entries =>
          some (.ok (takeEntries limit out (entries.drop (searchAfter after (entries.map Entry.name)))))
      | .dirNode =>
        match C.decodePairs data with
        | none => some (.error (.decodeDirNode k))
        | some pairs =>
          listPairs k (listInto fuel) out
            (pairs.drop (searchAfter after (pairs.map DirPair.sepName)))
      | _ => some (.error (.notDirectory k))

def listEntries (fuel : Nat) (dir : Key) : Option (Except FsError (List Entry × Bool)) :=
  if limit ≤ 0 then some (.error (.limitNotPositive limit))
  else listInto C get after limit fuel dir []

/-- Follow the pages from a cursor, each from the last name of the one before. -/
def listPages (dir : Key) (fuel : Nat) : Nat → Bytes → Option (Except FsError (List Entry))
  | 0, _ => none
  | pages + 1, after =>
    match listEntries C get after limit fuel dir with
    | none => none
    | some (.error e) => some (.error e)
    | some (.ok (page, false)) => some (.ok page)
    | some (.ok (page, true)) =>
      (listPages dir fuel pages (lastName page)).map fun r => r.map (page ++ ·)

end Listing

/-! ## One page -/

section Page
variable {C : Cbor} {get : Key → Except FsError Bytes} {after : Bytes} {limit : Int}

/-- The entries after the cursor. -/
def following (after : Bytes) (es : List Entry) : List Entry := es.filter fun e => decide (after < e.name)

theorem following_append (after : Bytes) (a b : List Entry) :
    following after (a ++ b) = following after a ++ following after b := List.filter_append ..

/-- What a listing returns when it has found so many entries already. -/
def pageOf (limit : Int) (out rest : List Entry) : List Entry × Bool :=
  ((out ++ rest).take limit.toNat, decide (limit.toNat < (out ++ rest).length))

theorem takeEntries_eq (h : (out.length : Int) ≤ limit) :
    takeEntries limit out es = pageOf limit out es := by
  induction es generalizing out with
  | nil =>
    have hle : out.length ≤ limit.toNat := by omega
    simp [takeEntries, pageOf, List.take_of_length_le hle, hle]
  | cons e es ih =>
    rw [takeEntries]
    split
    · next heq =>
      have hlen : limit.toNat = out.length := by omega
      simp [pageOf, hlen]
    · next hne =>
      rw [ih (by simp; omega), pageOf, pageOf]
      simp

theorem pageOf_full (h : (pageOf limit out a).2 = true) :
    pageOf limit out (a ++ b) = pageOf limit out a := by
  have hlt : limit.toNat < (out ++ a).length := by simpa [pageOf] using h
  unfold pageOf
  rw [← List.append_assoc, List.take_append_of_le_length (Nat.le_of_lt hlt), List.length_append]
  simp only [Prod.mk.injEq, true_and, decide_eq_decide]
  omega

theorem pageOf_more (h : (pageOf limit out a).2 = false) :
    (pageOf limit out a).1 = out ++ a ∧ ((out ++ a).length : Int) ≤ max limit 0 := by
  have hle : (out ++ a).length ≤ limit.toNat := by simpa [pageOf] using h
  exact ⟨List.take_of_length_le hle, by omega⟩

theorem drop_searchAfter {f : α → Bytes} {l : List α} (h : (l.map f).Pairwise (· < ·)) :
    l.drop (searchAfter after (l.map f)) = l.filter fun x => decide (after < f x) := by
  have hp : l.Pairwise fun a b => decide (after < f a) = true → decide (after < f b) = true := by
    refine (List.pairwise_map.mp h).imp fun hlt ha => ?_
    exact decide_eq_true (List.lt_trans (of_decide_eq_true ha) hlt)
  rw [← Search.drop_search hp, searchAfter, List.length_map]
  congr
  funext i
  rw [List.getElem?_map, Option.any_map]

/-- Entries of a part whose greatest name is not after the cursor are not either. -/
theorem following_eq_nil (hg : GreatestName es name) (hs : Ascending es) (h : ¬after < name) :
    following after es = [] := by
  refine List.filter_eq_nil_iff.mpr fun e he => ?_
  rw [decide_eq_true_eq]
  intro hlt
  rcases hg.le hs e he with heq | hlt'
  · exact h (heq ▸ hlt)
  · exact h (List.lt_trans hlt hlt')

/-- The subtrees that are skipped have no entry after the cursor. -/
theorem following_pairs (hall : List.Forall₂ (PairFor tree) pairs ess)
    (hs : ∀ es ∈ ess, Ascending es) : ∃ ess',
      List.Forall₂ (PairFor tree) (pairs.filter fun p => decide (after < p.sepName)) ess' ∧
      (∀ es ∈ ess', Ascending es) ∧ following after ess.flatten = following after ess'.flatten := by
  induction hall with
  | nil => exact ⟨[], .nil, nofun, rfl⟩
  | @cons p es pairs ess hp _ ih =>
    obtain ⟨ess', hall', hs', heq⟩ := ih fun x hx => hs x (List.mem_cons_of_mem _ hx)
    have hes := hs es List.mem_cons_self
    by_cases hlt : after < p.sepName
    · refine ⟨es :: ess', ?_, fun x hx => ?_, ?_⟩
      · rw [List.filter_cons_of_pos (by simpa using hlt)]
        exact .cons hp hall'
      · rcases List.mem_cons.mp hx with rfl | hx
        · exact hes
        · exact hs' x hx
      · rw [List.flatten_cons, List.flatten_cons, following_append, following_append, heq]
    · refine ⟨ess', ?_, hs', ?_⟩
      · rw [List.filter_cons_of_neg (by simpa using hlt)]
        exact hall'
      · obtain ⟨-, -, -, hg⟩ := hp
        rw [List.flatten_cons, following_append, following_eq_nil hg hes hlt, heq, List.nil_append]

theorem listPairs_ok {list : Key → List Entry → Option (Except FsError (List Entry × Bool))}
    (hrec : ∀ ck es out, tree ck es → Ascending es → (out.length : Int) ≤ limit →
      list ck out = some (.ok (pageOf limit out (following after es))))
    (hall : List.Forall₂ (PairFor tree) pairs ess) (hs : ∀ es ∈ ess, Ascending es)
    (hout : (out.length : Int) ≤ limit) :
    listPairs k list out pairs = some (.ok (pageOf limit out (following after ess.flatten))) := by
  induction hall generalizing out with
  | nil =>
    have hle : out.length ≤ limit.toNat := by omega
    simp [listPairs, pageOf, following, List.take_of_length_le hle, hle]
  | @cons p es pairs ess hp _ ih =>
    obtain ⟨ck, hparse, htree, -⟩ := hp
    rw [listPairs, hparse]
    simp only [hrec ck es out htree (hs es List.mem_cons_self) hout]
    rw [List.flatten_cons, following_append]
    cases hfull : pageOf limit out (following after es) with
    | mk page more =>
      cases more with
      | true =>
        rw [pageOf_full (by rw [hfull]), hfull]
      | false =>
        obtain ⟨hpage, hlen⟩ := pageOf_more (by rw [hfull])
        rw [hfull] at hpage
        dsimp only at hpage ⊢
        subst hpage
        rw [ih (fun x hx => hs x (List.mem_cons_of_mem _ hx)) (by omega), pageOf, pageOf]
        simp

theorem Tree.list (h : Tree C get n k es) (hs : Ascending es) (hout : (out.length : Int) ≤ limit)
    (hn : n ≤ fuel) :
    listInto C get after limit fuel k out = some (.ok (pageOf limit out (following after es))) := by
  induction n generalizing fuel k es out with
  | zero => exact h.elim
  | succ n ih =>
    obtain ⟨fuel, rfl⟩ := Nat.exists_eq_add_of_le' (Nat.le_trans (Nat.succ_le_succ n.zero_le) hn)
    rcases h with ⟨data, ht, hg, hd⟩ | ⟨data, pairs, ess, ht, hg, hd, hall, rfl⟩
    · rw [listInto, hg]
      simp only [ht, hd]
      rw [takeEntries_eq hout, drop_searchAfter hs]
      rfl
    · rw [listInto, hg]
      simp only [ht, hd]
      obtain ⟨ess', hall', hs', heq⟩ := following_pairs hall hs.flatten.1
      rw [drop_searchAfter (PairFor.ascending hall hs), heq]
      exact listPairs_ok (fun ck es out htree hs hout => ih htree hs hout (Nat.le_of_succ_le_succ hn))
        hall' hs' hout

theorem Tree.listEntries (h : Tree C get n k es) (hs : Ascending es) (hlimit : 1 ≤ limit)
    (hn : n ≤ fuel) :
    listEntries C get after limit fuel k = some (.ok (pageOf limit [] (following after es))) := by
  rw [Fstree.listEntries, if_neg (by omega)]
  exact h.list hs (by simp; omega) hn

/-! ## All pages -/

theorem Ascending.following (h : Ascending es) (after : Bytes) : Ascending (following after es) :=
  List.Pairwise.sublist (List.filter_sublist.map Entry.name) h

/-- The entries after the last name of a page are those the page has left. -/
theorem following_lastName (hs : Ascending es) (hsplit : following after es = page ++ rest)
    (hne : page ≠ []) : following (lastName page) es = rest := by
  have hlast : GreatestName page (lastName page) := by
    rw [GreatestName, lastName, List.getLast?_eq_some_getLast hne]
    rfl
  obtain ⟨hpage, -, hcross⟩ := (hsplit ▸ hs.following after : Ascending (page ++ rest)).append
  obtain ⟨last, hmem, hname⟩ := hlast.mem
  -- what is after the last name is after the cursor
  have hafter : after < lastName page := by
    have hin : last ∈ following after es := hsplit ▸ List.mem_append_left _ hmem
    exact hname ▸ of_decide_eq_true (List.mem_filter.mp hin).2
  have htwice : following (lastName page) es = following (lastName page) (following after es) := by
    rw [following, following, following, List.filter_filter]
    refine List.filter_congr fun e _ => ?_
    by_cases hlt : lastName page < e.name
    · simp [hlt, List.lt_trans hafter hlt]
    · simp [hlt]
  rw [htwice, hsplit, following_append, following_eq_nil hlast hpage (List.lt_irrefl _), List.nil_append]
  refine List.filter_eq_self.mpr fun e he => decide_eq_true ?_
  exact hname ▸ hcross last hmem e he

/-- Following the pages from a cursor returns all entries after it. -/
theorem Tree.listPages (h : Tree C get n k es) (hs : Ascending es) (hlimit : 1 ≤ limit)
    (hn : n ≤ fuel) (hpages : (following after es).length < pages) :
    listPages C get limit k fuel pages after = some (.ok (following after es)) := by
  induction pages generalizing after with
  | zero => exact absurd hpages (Nat.not_lt_zero _)
  | succ pages ih =>
    rw [Fstree.listPages, h.listEntries hs hlimit hn]
    cases hmore : pageOf limit [] (following after es) with
    | mk page more =>
      cases more with
      | false =>
        obtain ⟨hpage, -⟩ := pageOf_more (by rw [hmore])
        rw [hmore, List.nil_append] at hpage
        subst hpage
        rfl
      | true =>
        have hlt : limit.toNat < (following after es).length := by
          have := congrArg Prod.snd hmore
          simpa [pageOf] using this
        have hpage : page = (following after es).take limit.toNat := (congrArg Prod.fst hmore).symm
        have hlen : page.length = limit.toNat := by
          rw [hpage, List.length_take]
          omega
        have hsplit : following after es = page ++ (following after es).drop limit.toNat := by
          rw [hpage, List.take_append_drop]
        have hrest := following_lastName hs hsplit (List.ne_nil_of_length_pos (by omega))
        have hshort : (following (lastName page) es).length < pages := by
          rw [hrest, List.length_drop]
          omega
        simp only [ih hshort, hrest, Option.map_some, Except.map]
        rw [← hsplit]

end Page

/-! ## Built directories -/

end AmberStore.Fstree
