import AmberStore.Lib.Loop
import Mathlib.Data.Finset.Card
import Mathlib.Data.Prod.Lex

/-!
# Walks of a graph

The graph is given by a function that expands a node to its children or fails. A breadth-first walk
takes a whole frontier at a time and lists every node when it is discovered.
-/

namespace Walk
open List
variable {K ε : Type}

/-- There is an edge to each child of a node that can be expanded. -/
def Edge (expand : K → Except ε (List K)) (k c : K) : Prop := ∃ cs, expand k = .ok cs ∧ c ∈ cs

abbrev Reaches (expand : K → Except ε (List K)) : K → K → Prop := Relation.ReflTransGen (Edge expand)

/-- A set closed under edges holds all that its members reach. -/
theorem mem_of_reaches {expand : K → Except ε (List K)} {S : K → Prop} (hr : S r)
    (hclosed : ∀ k c, S k → Edge expand k c → S c) (h : Reaches expand r k) : S k := by
  induction h with
  | refl => exact hr
  | tail _ he ih => exact hclosed _ _ ih he

variable [DecidableEq K]

/-- The nodes of a list that are not yet known, each once. -/
def fresh (known : List K) : List K → List K
  | [] => []
  | c :: cs => if c ∈ known then fresh known cs else c :: fresh (known ++ [c]) cs

theorem fresh_sub {known cs : List K} : ∀ c ∈ fresh known cs, c ∈ cs := by
  induction cs generalizing known with
  | nil => exact nofun
  | cons a cs ih =>
    intro c hc
    rw [fresh] at hc
    split at hc
    · exact mem_cons_of_mem _ (ih c hc)
    · rcases mem_cons.mp hc with rfl | hc
      · exact mem_cons_self
      · exact mem_cons_of_mem _ (ih c hc)

theorem nodup_append_fresh {known cs : List K} (h : known.Nodup) :
    (known ++ fresh known cs).Nodup := by
  induction cs generalizing known with
  | nil => simpa [fresh] using h
  | cons a cs ih =>
    rw [fresh]
    split
    · exact ih h
    · next ha =>
      have hnd : (known ++ [a]).Nodup :=
        nodup_append.mpr ⟨h, nodup_singleton a, fun x hx y hy hxy =>
          ha (mem_singleton.mp hy ▸ hxy ▸ hx)⟩
      simpa using ih hnd

theorem mem_append_fresh {known cs : List K} (h : c ∈ cs) : c ∈ known ++ fresh known cs := by
  induction cs generalizing known with
  | nil => cases h
  | cons a cs ih =>
    rw [fresh]
    split
    · next ha =>
      rcases mem_cons.mp h with rfl | h
      · exact mem_append_left _ ha
      · exact ih h
    · rcases mem_cons.mp h with rfl | h
      · simp
      · have hin : c ∈ (known ++ [a]) ++ fresh (known ++ [a]) cs := ih h
        simpa using hin

/-- What a breadth-first walk has listed, and the nodes it expands next. -/
structure Bfs (K : Type) where
  out : List K
  frontier : List K

/-- Expand the whole frontier. If nodes of it fail, the walk fails like one of them. -/
def Bfs.pass (expand : K → Except ε (List K)) (s : Bfs K) : Bfs K ⊕ Except ε (List K) :=
  if s.frontier = [] then .inr (.ok s.out)
  else
    match s.frontier.mapM expand with
    | .error e => .inr (.error e)
    | .ok children =>
      let next := fresh s.out children.flatten
      .inl ⟨s.out ++ next, next⟩

/-- The walk ends with the given result. -/
def BfsReturns (expand : K → Except ε (List K)) (root : K) : Except ε (List K) → Prop :=
  Loop.Returns (Bfs.pass expand) ⟨[root], [root]⟩

/-! ## The breadth-first walk -/

theorem mapM_ok {f : α → Except ε β} {l : List α} {ys : List β} (h : l.mapM f = .ok ys) :
    (∀ x ∈ l, ∃ y ∈ ys, f x = .ok y) ∧ ∀ y ∈ ys, ∃ x ∈ l, f x = .ok y := by
  induction l generalizing ys with
  | nil =>
    cases h
    exact ⟨nofun, nofun⟩
  | cons a l ih =>
    rw [mapM_cons] at h
    cases ha : f a with
    | error e => rw [ha] at h; cases h
    | ok b =>
      cases hl : l.mapM f with
      | error e => rw [ha, hl] at h; cases h
      | ok bs =>
        rw [ha, hl] at h
        cases h
        obtain ⟨h1, h2⟩ := ih hl
        constructor
        · intro x hx
          rcases mem_cons.mp hx with rfl | hx
          · exact ⟨b, mem_cons_self, ha⟩
          · obtain ⟨y, hy, hf⟩ := h1 x hx
            exact ⟨y, mem_cons_of_mem _ hy, hf⟩
        · intro y hy
          rcases mem_cons.mp hy with rfl | hy
          · exact ⟨a, mem_cons_self, ha⟩
          · obtain ⟨x, hx, hf⟩ := h2 y hy
            exact ⟨x, mem_cons_of_mem _ hx, hf⟩

theorem mapM_error {f : α → Except ε β} {l : List α} (h : l.mapM f = .error e) :
    ∃ x ∈ l, f x = .error e := by
  induction l with
  | nil => cases h
  | cons a l ih =>
    rw [mapM_cons] at h
    cases ha : f a with
    | error e' =>
      rw [ha] at h
      cases h
      exact ⟨a, mem_cons_self, ha⟩
    | ok b =>
      cases hl : l.mapM f with
      | error e' =>
        rw [ha, hl] at h
        cases h
        obtain ⟨x, hx, hf⟩ := ih hl
        exact ⟨x, mem_cons_of_mem _ hx, hf⟩
      | ok bs => rw [ha, hl] at h; cases h

variable {expand expand' : K → Except ε (List K)} {root : K}

theorem Bfs.pass_next {s t : Bfs K} (h : s.pass expand = .inl t) : s.frontier ≠ [] ∧
    ∃ children, s.frontier.mapM expand = .ok children ∧ t.frontier = fresh s.out children.flatten ∧
      t.out = s.out ++ t.frontier := by
  unfold Bfs.pass at h
  split at h
  · cases h
  · next hne =>
    split at h
    · cases h
    · next children hm =>
      cases h
      exact ⟨hne, children, hm, rfl, rfl⟩

/-- What holds between two passes. -/
structure BfsInv (expand : K → Except ε (List K)) (root : K) (s : Bfs K) : Prop where
  head : s.out.head? = some root
  nodup : s.out.Nodup
  reaches : ∀ k ∈ s.out, Reaches expand root k
  frontier : ∀ k ∈ s.frontier, k ∈ s.out
  closed : ∀ k ∈ s.out, k ∉ s.frontier → ∃ cs, expand k = .ok cs ∧ ∀ c ∈ cs, c ∈ s.out

omit [DecidableEq K] in
theorem BfsInv.start : BfsInv expand root ⟨[root], [root]⟩ := by
  refine ⟨rfl, nodup_singleton _, ?_, fun _ h => h, fun k hk hno => absurd hk hno⟩
  intro k hk
  rw [mem_singleton.mp hk]

theorem BfsInv.pass {s t : Bfs K} (h : BfsInv expand root s) (hp : s.pass expand = .inl t) :
    BfsInv expand root t := by
  obtain ⟨-, children, hm, hf, ho⟩ := Bfs.pass_next hp
  obtain ⟨hall, hfrom⟩ := mapM_ok hm
  refine ⟨?_, ?_, ?_, ?_, ?_⟩
  · rw [ho, head?_append, h.head]
    rfl
  · rw [ho, hf]
    exact nodup_append_fresh h.nodup
  · intro k hk
    rw [ho] at hk
    rcases mem_append.mp hk with hk | hk
    · exact h.reaches k hk
    · rw [hf] at hk
      obtain ⟨cs, hcs, hkc⟩ := mem_flatten.mp (fresh_sub k hk)
      obtain ⟨x, hx, hxe⟩ := hfrom cs hcs
      exact (h.reaches x (h.frontier x hx)).tail ⟨cs, hxe, hkc⟩
  · intro k hk
    rw [ho]
    exact mem_append_right _ hk
  · intro k hk hno
    rw [ho] at hk ⊢
    rcases mem_append.mp hk with hk | hk
    · by_cases hfr : k ∈ s.frontier
      · obtain ⟨cs, hcs, he⟩ := hall k hfr
        refine ⟨cs, he, fun c hc => ?_⟩
        rw [hf]
        exact mem_append_fresh (mem_flatten.mpr ⟨cs, hcs, hc⟩)
      · obtain ⟨cs, he, hcs⟩ := h.closed k hk hfr
        exact ⟨cs, he, fun c hc => mem_append_left _ (hcs c hc)⟩
    · exact absurd hk hno

/-- A walk that succeeds lists what the root reaches, the root first and each node once, and could
expand all of it. -/
theorem BfsReturns.ok {out : List K} (h : BfsReturns expand root (.ok out)) :
    out.head? = some root ∧ out.Nodup ∧ (∀ k, k ∈ out ↔ Reaches expand root k) ∧
      ∀ k ∈ out, ∃ cs, expand k = .ok cs := by
  obtain ⟨s, hs, hr⟩ := h.last BfsInv.start fun _ _ => BfsInv.pass
  unfold Bfs.pass at hr
  split at hr
  · next hnil =>
    cases hr
    have hno : ∀ k, k ∉ s.frontier := by
      intro k
      rw [hnil]
      exact not_mem_nil
    have hroot : root ∈ s.out := mem_of_head? hs.head
    refine ⟨hs.head, hs.nodup, fun k => ⟨hs.reaches k, ?_⟩, ?_⟩
    · refine mem_of_reaches hroot ?_
      rintro x c hx ⟨cs, he, hc⟩
      obtain ⟨cs', he', hcs⟩ := hs.closed x hx (hno x)
      cases he.symm.trans he'
      exact hcs c hc
    · intro k hk
      obtain ⟨cs, he, -⟩ := hs.closed k hk (hno k)
      exact ⟨cs, he⟩
  · split at hr
    · cases hr
    · cases hr

theorem BfsReturns.error (h : BfsReturns expand root (.error e)) :
    ∃ k, Reaches expand root k ∧ expand k = .error e := by
  obtain ⟨s, hs, hr⟩ := h.last BfsInv.start fun _ _ => BfsInv.pass
  unfold Bfs.pass at hr
  split at hr
  · cases hr
  · split at hr
    · next hm =>
      cases hr
      obtain ⟨x, hx, hxe⟩ := mapM_error hm
      exact ⟨x, hs.reaches x (hs.frontier x hx), hxe⟩
    · cases hr

theorem mapM_congr {f g : α → Except ε β} {l : List α} (h : ∀ x ∈ l, f x = g x) :
    l.mapM f = l.mapM g := by
  induction l with
  | nil => rfl
  | cons a l ih =>
    rw [mapM_cons, mapM_cons, h a mem_cons_self,
      ih fun x hx => h x (mem_cons_of_mem _ hx)]

/-- Walks that expand what they reach alike return the same. -/
theorem BfsReturns.congr (heq : ∀ k, Reaches expand root k → expand k = expand' k)
    (h : BfsReturns expand root r) : BfsReturns expand' root r := by
  refine Loop.Returns.congr h BfsInv.start (fun _ _ => BfsInv.pass) fun s hs => ?_
  unfold Bfs.pass
  rw [mapM_congr fun x hx => heq x (hs.reaches x (hs.frontier x hx))]

variable (expand) in
theorem exists_bfsReturns (U : Finset K) (hroot : root ∈ U)
    (hU : ∀ k c, k ∈ U → Edge expand k c → c ∈ U) : ∃ r, BfsReturns expand root r := by
  refine Loop.exists_returns (I := fun s : Bfs K => BfsInv expand root s)
    (wellFounded_lt (α := Nat)) (fun s => 2 * (U.filter (· ∉ s.out)).card +
      if s.frontier = [] then 0 else 1) BfsInv.start fun s t hs hp => ⟨hs.pass hp, ?_⟩
  have ht := hs.pass hp
  obtain ⟨hne, children, -, hf, ho⟩ := Bfs.pass_next hp
  rw [if_neg hne]
  have hsub : U.filter (· ∉ t.out) ⊆ U.filter (· ∉ s.out) := by
    intro x hx
    rw [Finset.mem_filter] at hx ⊢
    exact ⟨hx.1, fun h => hx.2 (by rw [ho]; exact mem_append_left _ h)⟩
  cases hnext : t.frontier with
  | nil =>
    have := Finset.card_le_card hsub
    simp only [if_true]
    omega
  | cons k ks =>
    have hk : k ∈ t.frontier := by rw [hnext]; exact mem_cons_self
    have hkU : k ∈ U := mem_of_reaches hroot hU (ht.reaches k (ht.frontier k hk))
    have hkout : k ∉ s.out := by
      have hnd := ht.nodup
      rw [ho] at hnd
      exact fun h => (nodup_append.mp hnd).2.2 k h k hk rfl
    have hlt : (U.filter (· ∉ t.out)).card < (U.filter (· ∉ s.out)).card := by
      refine Finset.card_lt_card ⟨hsub, fun h => ?_⟩
      have hin := h (Finset.mem_filter.mpr ⟨hkU, hkout⟩)
      exact (Finset.mem_filter.mp hin).2 (ht.frontier k hk)
    rw [if_neg (by simp)]
    omega

/-! ## The walk with a stack -/

section Dfs
variable {M : Type}

structure Dfs (M K : Type) where
  marks : M
  stack : List K

/-- Take up the top of the stack. The walk stops at a node of `stop`; it expands a node that `mark`
finds unmarked. -/
def Dfs.pass (stop : K → Bool) (mark : M → K → Except ε (Bool × M))
    (expand : K → Except ε (List K)) (s : Dfs M K) : Dfs M K ⊕ Except ε (Bool × M) :=
  match s.stack with
  | [] => .inr (.ok (false, s.marks))
  | k :: rest =>
    if stop k then .inr (.ok (true, s.marks))
    else
      match mark s.marks k with
      | .error e => .inr (.error e)
      | .ok (false, m) => .inl ⟨m, rest⟩
      | .ok (true, m) =>
        match expand k with
        | .error e => .inr (.error e)
        | .ok cs => .inl ⟨m, cs.reverse ++ rest⟩

def DfsReturns (stop : K → Bool) (mark : M → K → Except ε (Bool × M))
    (expand : K → Except ε (List K)) (m : M) (root : K) : Except ε (Bool × M) → Prop :=
  Loop.Returns (Dfs.pass stop mark expand) ⟨m, [root]⟩

/-- The marks that satisfy `J` behave like a set: marking adds the node and tells whether it is
new. -/
def Marking (J : M → Prop) (has : M → K → Prop) (mark : M → K → Except ε (Bool × M)) : Prop :=
  ∀ m k b m', J m → mark m k = .ok (b, m') →
    J m' ∧ (b = true ↔ ¬has m k) ∧ ∀ x, has m' x ↔ has m x ∨ x = k

omit [DecidableEq K] in
theorem Dfs.pass_next {stop : K → Bool} {mark : M → K → Except ε (Bool × M)} {s t : Dfs M K}
    (h : s.pass stop mark expand = .inl t) : ∃ k rest, s.stack = k :: rest ∧ stop k = false ∧
      ((mark s.marks k = .ok (false, t.marks) ∧ t.stack = rest) ∨
        (mark s.marks k = .ok (true, t.marks) ∧
          ∃ cs, expand k = .ok cs ∧ t.stack = cs.reverse ++ rest)) := by
  unfold Dfs.pass at h
  split at h
  · cases h
  · next k rest hstack =>
    split at h
    · cases h
    · next hstop =>
      refine ⟨k, rest, hstack, by simpa using hstop, ?_⟩
      split at h
      · cases h
      · next hm =>
        cases h
        exact .inl ⟨hm, rfl⟩
      · next hm =>
        split at h
        · cases h
        · next cs he =>
          cases h
          exact .inr ⟨hm, cs, he, rfl⟩

omit [DecidableEq K] in
theorem Dfs.pass_done {stop : K → Bool} {mark : M → K → Except ε (Bool × M)} {s : Dfs M K}
    (h : s.pass stop mark expand = .inr r) : s.stack = [] ∧ r = .ok (false, s.marks) ∨ ∃ k ∈ s.stack,
      (stop k = true ∧ r = .ok (true, s.marks)) ∨
        ∃ e, (mark s.marks k = .error e ∨ expand k = .error e) ∧ r = .error e := by
  unfold Dfs.pass at h
  split at h
  · next hnil =>
    cases h
    exact .inl ⟨hnil, rfl⟩
  · next k rest hstack =>
    refine .inr ⟨k, by rw [hstack]; exact mem_cons_self, ?_⟩
    split at h
    · next hstop =>
      cases h
      exact .inl ⟨hstop, rfl⟩
    · split at h
      · next hm =>
        cases h
        exact .inr ⟨_, .inl hm, rfl⟩
      · cases h
      · split at h
        · next he =>
          cases h
          exact .inr ⟨_, .inr he, rfl⟩
        · cases h

variable {J : M → Prop} {has : M → K → Prop} {stop : K → Bool} {mark : M → K → Except ε (Bool × M)} {m₀ : M}

/-- What holds between two passes, if the walk starts with the marks `m₀`. -/
structure DfsInv (J : M → Prop) (has : M → K → Prop) (stop : K → Bool)
    (expand : K → Except ε (List K)) (m₀ : M) (root : K) (s : Dfs M K) : Prop where
  good : J s.marks
  mono : ∀ k, has m₀ k → has s.marks k
  marked : ∀ k, has s.marks k → has m₀ k ∨ (Reaches expand root k ∧ stop k = false)
  stack : ∀ k ∈ s.stack, Reaches expand root k
  root : has s.marks root ∨ root ∈ s.stack
  closed : ∀ k, has s.marks k →
    ∃ cs, expand k = .ok cs ∧ ∀ c ∈ cs, has s.marks c ∨ c ∈ s.stack

omit [DecidableEq K] in
theorem DfsInv.start (hJ : J m₀) (hclosed : ∀ k, has m₀ k → ∃ cs, expand k = .ok cs ∧ ∀ c ∈ cs, has m₀ c) :
    DfsInv J has stop expand m₀ root ⟨m₀, [root]⟩ := by
  refine ⟨hJ, fun _ h => h, fun _ h => .inl h, ?_, .inr mem_cons_self, ?_⟩
  · intro k hk
    rw [mem_singleton.mp hk]
  · intro k hk
    obtain ⟨cs, he, hcs⟩ := hclosed k hk
    exact ⟨cs, he, fun c hc => .inl (hcs c hc)⟩

omit [DecidableEq K] in
theorem DfsInv.pass {s t : Dfs M K} (hmark : Marking J has mark)
    (h : DfsInv J has stop expand m₀ root s) (hp : s.pass stop mark expand = .inl t) :
    DfsInv J has stop expand m₀ root t := by
  obtain ⟨k, rest, hstack, hstop, ⟨hm, ht⟩ | ⟨hm, cs, he, ht⟩⟩ := Dfs.pass_next hp
  · -- The node was marked before.
    obtain ⟨hJ, hb, hset⟩ := hmark _ _ _ _ h.good hm
    have hk : has s.marks k := by
      by_contra hno
      exact Bool.false_ne_true (hb.mpr hno)
    have hsame : ∀ x, has t.marks x ↔ has s.marks x := by
      intro x
      rw [hset]
      exact ⟨fun hx => hx.elim id fun hx => hx ▸ hk, .inl⟩
    have hdrop : ∀ x, has s.marks x ∨ x ∈ s.stack → has t.marks x ∨ x ∈ t.stack := by
      intro x hx
      rw [hsame, ht]
      rw [hstack, mem_cons] at hx
      rcases hx with hx | rfl | hx
      · exact .inl hx
      · exact .inl hk
      · exact .inr hx
    refine ⟨hJ, fun x hx => (hsame x).mpr (h.mono x hx), fun x hx => h.marked x ((hsame x).mp hx), ?_,
      hdrop _ h.root, ?_⟩
    · intro x hx
      rw [ht] at hx
      exact h.stack x (by rw [hstack]; exact mem_cons_of_mem _ hx)
    · intro x hx
      obtain ⟨cs, he, hcs⟩ := h.closed x ((hsame x).mp hx)
      exact ⟨cs, he, fun c hc => hdrop c (hcs c hc)⟩
  · obtain ⟨hJ, -, hset⟩ := hmark _ _ _ _ h.good hm
    have hkr : Reaches expand root k := h.stack k (by rw [hstack]; exact mem_cons_self)
    have hgrow : ∀ x, has s.marks x ∨ x ∈ s.stack → has t.marks x ∨ x ∈ t.stack := by
      intro x hx
      rw [hset, ht]
      rw [hstack, mem_cons] at hx
      rcases hx with hx | rfl | hx
      · exact .inl (.inl hx)
      · exact .inl (.inr rfl)
      · exact .inr (mem_append_right _ hx)
    refine ⟨hJ, fun x hx => (hset x).mpr (.inl (h.mono x hx)), ?_, ?_, hgrow _ h.root, ?_⟩
    · intro x hx
      rcases (hset x).mp hx with hx | rfl
      · exact h.marked x hx
      · exact .inr ⟨hkr, hstop⟩
    · intro x hx
      rw [ht] at hx
      rcases mem_append.mp hx with hx | hx
      · exact hkr.tail ⟨cs, he, mem_reverse.mp hx⟩
      · exact h.stack x (by rw [hstack]; exact mem_cons_of_mem _ hx)
    · intro x hx
      rcases (hset x).mp hx with hx | rfl
      · obtain ⟨cs', he', hcs⟩ := h.closed x hx
        exact ⟨cs', he', fun c hc => hgrow c (hcs c hc)⟩
      · refine ⟨cs, he, fun c hc => .inr ?_⟩
        rw [ht]
        exact mem_append_left _ (mem_reverse.mpr hc)

section
variable (hmark : Marking J has mark) (hJ : J m₀)
  (hclosed : ∀ k, has m₀ k → ∃ cs, expand k = .ok cs ∧ ∀ c ∈ cs, has m₀ c)
include hmark hJ hclosed
omit [DecidableEq K]

/-- The last pass of a walk, and what it has met. -/
theorem DfsReturns.done (h : DfsReturns stop mark expand m₀ root r) : ∃ s, DfsInv J has stop expand m₀ root s ∧
    (s.stack = [] ∧ r = .ok (false, s.marks) ∨ ∃ k, Reaches expand root k ∧
      ((stop k = true ∧ r = .ok (true, s.marks)) ∨
        ∃ e, (mark s.marks k = .error e ∨ expand k = .error e) ∧ r = .error e)) := by
  obtain ⟨s, hs, hr⟩ := h.last (DfsInv.start hJ hclosed) fun _ _ => DfsInv.pass hmark
  refine ⟨s, hs, (Dfs.pass_done hr).imp_right ?_⟩
  rintro ⟨k, hk, hmet⟩
  exact ⟨k, hs.stack k hk, hmet⟩

/-- A walk that ends without a stop has marked what the root reaches, and met no stop on it. -/
theorem DfsReturns.all {m : M} (h : DfsReturns stop mark expand m₀ root (.ok (false, m))) :
    (∀ k, has m k ↔ has m₀ k ∨ Reaches expand root k) ∧
      (∀ k, has m k → ∃ cs, expand k = .ok cs ∧ ∀ c ∈ cs, has m c) ∧
      ∀ k, Reaches expand root k → has m₀ k ∨ stop k = false := by
  obtain ⟨s, hs, ⟨hnil, hr⟩ | ⟨k, -, ⟨-, hr⟩ | ⟨e, -, hr⟩⟩⟩ := h.done hmark hJ hclosed
  · cases hr
    have hin : ∀ x, has s.marks x ∨ x ∈ s.stack → has s.marks x := by
      intro x hx
      rw [hnil] at hx
      exact hx.resolve_right not_mem_nil
    have hshut : ∀ k, has s.marks k → ∃ cs, expand k = .ok cs ∧ ∀ c ∈ cs, has s.marks c := by
      intro k hk
      obtain ⟨cs, he, hcs⟩ := hs.closed k hk
      exact ⟨cs, he, fun c hc => hin c (hcs c hc)⟩
    have hall : ∀ k, Reaches expand root k → has s.marks k := by
      intro k
      refine mem_of_reaches (hin _ hs.root) ?_
      rintro x c hx ⟨cs, he, hc⟩
      obtain ⟨cs', he', hcs⟩ := hshut x hx
      cases he.symm.trans he'
      exact hcs c hc
    refine ⟨fun k => ⟨fun hk => (hs.marked k hk).imp_right And.left, ?_⟩, hshut, ?_⟩
    · rintro (hk | hk)
      · exact hs.mono k hk
      · exact hall k hk
    · intro k hk
      exact (hs.marked k (hall k hk)).imp_right And.right
  · cases hr
  · cases hr

theorem DfsReturns.good {m : M} (h : DfsReturns stop mark expand m₀ root (.ok (b, m))) : J m := by
  obtain ⟨s, hs, ⟨-, hr⟩ | ⟨k, -, ⟨-, hr⟩ | ⟨e, -, hr⟩⟩⟩ := h.done hmark hJ hclosed
  · cases hr
    exact hs.good
  · cases hr
    exact hs.good
  · cases hr

theorem DfsReturns.stopped {m : M} (h : DfsReturns stop mark expand m₀ root (.ok (true, m))) :
    ∃ k, Reaches expand root k ∧ stop k = true := by
  obtain ⟨s, -, ⟨-, hr⟩ | ⟨k, hk, ⟨hstop, -⟩ | ⟨e, -, hr⟩⟩⟩ := h.done hmark hJ hclosed
  · cases hr
  · exact ⟨k, hk, hstop⟩
  · cases hr

/-- A walk that fails has reached a node that cannot be marked or expanded. -/
theorem DfsReturns.error (h : DfsReturns stop mark expand m₀ root (.error e)) :
    ∃ k, Reaches expand root k ∧ ((∃ m, J m ∧ mark m k = .error e) ∨ expand k = .error e) := by
  obtain ⟨s, hs, ⟨-, hr⟩ | ⟨k, hk, ⟨-, hr⟩ | ⟨e, he, hr⟩⟩⟩ := h.done hmark hJ hclosed
  · cases hr
  · cases hr
  · cases hr
    exact ⟨k, hk, he.imp_left fun hm => ⟨_, hs.good, hm⟩⟩

end

omit [DecidableEq K] in
theorem exists_dfsReturns (U : Finset K) (hroot : root ∈ U)
    (hU : ∀ k c, k ∈ U → Edge expand k c → c ∈ U) (hmark : Marking J has mark) (hJ : J m₀)
    (hclosed : ∀ k, has m₀ k → ∃ cs, expand k = .ok cs ∧ ∀ c ∈ cs, has m₀ c) :
    ∃ r, DfsReturns stop mark expand m₀ root r := by
  classical
  refine Loop.exists_returns (I := DfsInv J has stop expand m₀ root)
    (WellFounded.prod_lex (wellFounded_lt (α := Nat)) (wellFounded_lt (α := Nat)))
    (fun s : Dfs M K => ((U.filter fun k => ¬has s.marks k).card, s.stack.length))
    (DfsInv.start hJ hclosed) fun s t hs hp => ⟨hs.pass hmark hp, ?_⟩
  obtain ⟨k, rest, hstack, -, ⟨hm, ht⟩ | ⟨hm, cs, he, ht⟩⟩ := Dfs.pass_next hp
  · obtain ⟨-, -, hset⟩ := hmark _ _ _ _ hs.good hm
    have hle : (U.filter fun k => ¬has t.marks k).card ≤ (U.filter fun k => ¬has s.marks k).card :=
      Finset.card_le_card fun x hx => by
        rw [Finset.mem_filter] at hx ⊢
        exact ⟨hx.1, fun h => hx.2 ((hset x).mpr (.inl h))⟩
    have hlen : t.stack.length < s.stack.length := by
      rw [ht, hstack]
      exact Nat.lt_succ_self _
    rcases Nat.lt_or_eq_of_le hle with hlt | heq
    · exact .left _ _ hlt
    · rw [heq]
      exact .right _ hlen
  · obtain ⟨-, hnew, hset⟩ := hmark _ _ _ _ hs.good hm
    have hkU : k ∈ U :=
      mem_of_reaches hroot hU (hs.stack k (by rw [hstack]; exact mem_cons_self))
    refine .left _ _ (Finset.card_lt_card ⟨fun x hx => ?_, fun h => ?_⟩)
    · rw [Finset.mem_filter] at hx ⊢
      exact ⟨hx.1, fun h => hx.2 ((hset x).mpr (.inl h))⟩
    · have hin := h (Finset.mem_filter.mpr ⟨hkU, hnew.mp rfl⟩)
      exact (Finset.mem_filter.mp hin).2 ((hset k).mpr (.inr rfl))

end Dfs

/-! ## The walk that collects absent nodes -/

/-- What a walk has seen and found absent, and the nodes it takes up next. -/
structure Probe (K : Type) where
  seen : List K
  missing : List K
  next : List K

/-- The walk takes up a node that it has not seen. A node that is absent is collected and not
expanded. -/
def Probe.take (s : Probe K) (k : K) : Option (List K) → Probe K
  | none => ⟨k :: s.seen, s.missing ++ [k], s.next⟩
  | some cs => ⟨k :: s.seen, s.missing, s.next ++ cs⟩

/-- Take up the nodes of a frontier. -/
def Probe.visit (probe : K → Except ε (Option (List K))) : Probe K → List K → Except ε (Probe K)
  | s, [] => .ok s
  | s, k :: ks =>
    if k ∈ s.seen then Probe.visit probe s ks
    else
      match probe k with
      | .error e => .error e
      | .ok o => Probe.visit probe (s.take k o) ks

def Probe.pass (probe : K → Except ε (Option (List K))) (s : Probe K) :
    Probe K ⊕ Except ε (List K) :=
  if s.next = [] then .inr (.ok s.missing)
  else
    match Probe.visit probe { s with next := [] } s.next with
    | .error e => .inr (.error e)
    | .ok t => .inl t

def ProbeReturns (probe : K → Except ε (Option (List K))) (root : K) : Except ε (List K) → Prop :=
  Loop.Returns (Probe.pass probe) ⟨[], [], [root]⟩

/-- An absent node has no children. -/
def expandPresent (probe : K → Except ε (Option (List K))) (k : K) : Except ε (List K) :=
  (probe k).map fun cs => cs.getD []

variable {probe : K → Except ε (Option (List K))}

/-- What holds while the nodes `todo` of the frontier are still to be taken up. -/
structure ProbeInv (probe : K → Except ε (Option (List K))) (root : K) (todo : List K) (s : Probe K) :
    Prop where
  seen : ∀ k ∈ s.seen, Reaches (expandPresent probe) root k
  ahead : ∀ k, k ∈ todo ∨ k ∈ s.next → Reaches (expandPresent probe) root k
  missing : ∀ k, k ∈ s.missing ↔ k ∈ s.seen ∧ probe k = .ok none
  nodup : s.missing.Nodup
  root : root ∈ s.seen ∨ root ∈ todo ∨ root ∈ s.next
  closed : ∀ k ∈ s.seen, ∃ o, probe k = .ok o ∧
    ∀ c ∈ o.getD [], c ∈ s.seen ∨ c ∈ todo ∨ c ∈ s.next

omit [DecidableEq K] in
theorem ProbeInv.take {s : Probe K} (h : ProbeInv probe root (k :: ks) s) (hno : k ∉ s.seen)
    (hp : probe k = .ok o) : ProbeInv probe root ks (s.take k o) := by
  have hk : Reaches (expandPresent probe) root k := h.ahead k (.inl mem_cons_self)
  have hedge : ∀ c ∈ o.getD [], Reaches (expandPresent probe) root c :=
    fun c hc => hk.tail ⟨o.getD [], by rw [expandPresent, hp]; rfl, hc⟩
  have hseen : (s.take k o).seen = k :: s.seen := by cases o <;> rfl
  have hnext : ∀ c, c ∈ (s.take k o).next ↔ c ∈ s.next ∨ c ∈ o.getD [] := by
    intro c
    cases o <;> simp [Probe.take]
  have hgrow : ∀ x, x ∈ s.seen ∨ x ∈ k :: ks ∨ x ∈ s.next →
      x ∈ (s.take k o).seen ∨ x ∈ ks ∨ x ∈ (s.take k o).next := by
    intro x hx
    rw [hseen, hnext, mem_cons]
    rw [mem_cons] at hx
    tauto
  refine ⟨?_, ?_, ?_, ?_, hgrow _ h.root, ?_⟩
  · intro x hx
    rw [hseen] at hx
    rcases mem_cons.mp hx with rfl | hx
    · exact hk
    · exact h.seen x hx
  · rintro x (hx | hx)
    · exact h.ahead x (.inl (mem_cons_of_mem _ hx))
    · rcases (hnext x).mp hx with hx | hx
      · exact h.ahead x (.inr hx)
      · exact hedge x hx
  · intro x
    rw [hseen, mem_cons]
    have hmem := h.missing x
    cases o with
    | none =>
      simp only [Probe.take, mem_append, mem_singleton, hmem]
      constructor
      · rintro (⟨hx, hpx⟩ | rfl)
        · exact ⟨.inr hx, hpx⟩
        · exact ⟨.inl rfl, hp⟩
      · rintro ⟨rfl | hx, hpx⟩
        · exact .inr rfl
        · exact .inl ⟨hx, hpx⟩
    | some cs =>
      simp only [Probe.take, hmem]
      constructor
      · rintro ⟨hx, hpx⟩
        exact ⟨.inr hx, hpx⟩
      · rintro ⟨rfl | hx, hpx⟩
        · cases hp.symm.trans hpx
        · exact ⟨hx, hpx⟩
  · cases o with
    | none =>
      refine nodup_append.mpr ⟨h.nodup, nodup_singleton k, fun x hx y hy hxy => ?_⟩
      rw [mem_singleton.mp hy] at hxy
      exact hno (hxy ▸ ((h.missing x).mp hx).1)
    | some cs => exact h.nodup
  · intro x hx
    rw [hseen] at hx
    rcases mem_cons.mp hx with rfl | hx
    · exact ⟨o, hp, fun c hc => .inr (.inr ((hnext c).mpr (.inr hc)))⟩
    · obtain ⟨o', ho', hcs⟩ := h.closed x hx
      exact ⟨o', ho', fun c hc => hgrow c (hcs c hc)⟩

omit [DecidableEq K] in
theorem ProbeInv.skip {s : Probe K} (h : ProbeInv probe root (k :: ks) s) (hseen : k ∈ s.seen) :
    ProbeInv probe root ks s := by
  have hdrop : ∀ x, x ∈ s.seen ∨ x ∈ k :: ks ∨ x ∈ s.next → x ∈ s.seen ∨ x ∈ ks ∨ x ∈ s.next := by
    rintro x (hx | hx | hx)
    · exact .inl hx
    · rcases mem_cons.mp hx with rfl | hx
      · exact .inl hseen
      · exact .inr (.inl hx)
    · exact .inr (.inr hx)
  refine ⟨h.seen, ?_, h.missing, h.nodup, hdrop _ h.root, ?_⟩
  · exact fun x hx => h.ahead x (hx.imp_left (mem_cons_of_mem _))
  · intro x hx
    obtain ⟨o, ho, hcs⟩ := h.closed x hx
    exact ⟨o, ho, fun c hc => hdrop c (hcs c hc)⟩

theorem ProbeInv.visit {s t : Probe K} (h : ProbeInv probe root todo s)
    (hv : Probe.visit probe s todo = .ok t) : ProbeInv probe root [] t := by
  induction todo generalizing s with
  | nil =>
    cases hv
    exact h
  | cons k ks ih =>
    rw [Probe.visit] at hv
    split at hv
    · next hseen => exact ih (h.skip hseen) hv
    · next hno =>
      split at hv
      · cases hv
      · next o hp => exact ih (h.take hno hp) hv

theorem Probe.visit_error {s : Probe K} (h : ProbeInv probe root todo s)
    (hv : Probe.visit probe s todo = .error e) :
    ∃ k, Reaches (expandPresent probe) root k ∧ probe k = .error e := by
  induction todo generalizing s with
  | nil => cases hv
  | cons k ks ih =>
    rw [Probe.visit] at hv
    split at hv
    · next hseen => exact ih (h.skip hseen) hv
    · next hno =>
      split at hv
      · next hp =>
        cases hv
        exact ⟨k, h.ahead k (.inl mem_cons_self), hp⟩
      · next o hp => exact ih (h.take hno hp) hv

omit [DecidableEq K] in
theorem ProbeInv.start : ProbeInv probe root [] ⟨[], [], [root]⟩ := by
  refine ⟨nofun, ?_, ?_, .nil, .inr (.inr mem_cons_self), nofun⟩
  · rintro k (hk | hk)
    · cases hk
    · rw [mem_singleton.mp hk]
  · intro k
    simp

omit [DecidableEq K] in
theorem ProbeInv.turn {s : Probe K} (h : ProbeInv probe root [] s) :
    ProbeInv probe root s.next { s with next := [] } := by
  refine ⟨h.seen, ?_, h.missing, h.nodup, ?_, ?_⟩
  · rintro k (hk | hk)
    · exact h.ahead k (.inr hk)
    · cases hk
  · exact h.root.imp_right fun hr => hr.elim nofun .inl
  · intro k hk
    obtain ⟨o, ho, hcs⟩ := h.closed k hk
    exact ⟨o, ho, fun c hc => (hcs c hc).imp_right fun hr => hr.elim nofun .inl⟩

theorem ProbeInv.pass {s t : Probe K} (h : ProbeInv probe root [] s)
    (hp : s.pass probe = .inl t) : ProbeInv probe root [] t := by
  unfold Probe.pass at hp
  split at hp
  · cases hp
  · split at hp
    · cases hp
    · next hv =>
      cases hp
      exact h.turn.visit hv

/-- A walk that succeeds lists the absent nodes among those it can reach, each once, and could look
at all of these. -/
theorem ProbeReturns.ok {ms : List K} (h : ProbeReturns probe root (.ok ms)) :
    ms.Nodup ∧
      (∀ k, k ∈ ms ↔ Reaches (expandPresent probe) root k ∧ probe k = .ok none) ∧
      ∀ k, Reaches (expandPresent probe) root k → ∃ o, probe k = .ok o := by
  obtain ⟨s, hs, hr⟩ := h.last ProbeInv.start fun _ _ => ProbeInv.pass
  unfold Probe.pass at hr
  split at hr
  · next hnil =>
    cases hr
    have hin : ∀ x, x ∈ s.seen ∨ x ∈ ([] : List K) ∨ x ∈ s.next → x ∈ s.seen := by
      rintro x (hx | hx | hx)
      · exact hx
      · cases hx
      · rw [hnil] at hx
        cases hx
    have hall : ∀ k, Reaches (expandPresent probe) root k → k ∈ s.seen := by
      intro k
      refine mem_of_reaches (hin _ hs.root) ?_
      rintro x c hx ⟨cs, he, hc⟩
      obtain ⟨o, ho, hcs⟩ := hs.closed x hx
      rw [expandPresent, ho] at he
      cases he
      exact hin c (hcs c hc)
    refine ⟨hs.nodup, fun k => ?_, fun k hk => ?_⟩
    · rw [hs.missing]
      exact and_congr_left fun _ => ⟨hs.seen k, hall k⟩
    · obtain ⟨o, ho, -⟩ := hs.closed k (hall k hk)
      exact ⟨o, ho⟩
  · split at hr
    · cases hr
    · cases hr

theorem ProbeReturns.error (h : ProbeReturns probe root (.error e)) :
    ∃ k, Reaches (expandPresent probe) root k ∧ probe k = .error e := by
  obtain ⟨s, hs, hr⟩ := h.last ProbeInv.start fun _ _ => ProbeInv.pass
  unfold Probe.pass at hr
  split at hr
  · cases hr
  · split at hr
    · next hv =>
      cases hr
      exact Probe.visit_error hs.turn hv
    · cases hr

/-- A frontier that holds nothing new leaves nothing for the next pass. -/
theorem Probe.visit_seen {s t : Probe K} (hv : Probe.visit probe s todo = .ok t) :
    (∀ k ∈ s.seen, k ∈ t.seen) ∧ (t.next = s.next ∨ ∃ k ∈ t.seen, k ∉ s.seen) := by
  induction todo generalizing s with
  | nil =>
    cases hv
    exact ⟨fun _ h => h, .inl rfl⟩
  | cons k ks ih =>
    rw [Probe.visit] at hv
    split at hv
    · exact ih hv
    · next hno =>
      split at hv
      · cases hv
      · next o hp =>
        obtain ⟨hsub, -⟩ := ih hv
        have hseen : (s.take k o).seen = k :: s.seen := by cases o <;> rfl
        rw [hseen] at hsub
        exact ⟨fun x hx => hsub x (mem_cons_of_mem _ hx), .inr ⟨k, hsub k mem_cons_self, hno⟩⟩

variable (probe) in
theorem exists_probeReturns (U : Finset K) (hroot : root ∈ U)
    (hU : ∀ k c, k ∈ U → Edge (expandPresent probe) k c → c ∈ U) : ∃ r, ProbeReturns probe root r := by
  refine Loop.exists_returns (I := fun s : Probe K => ProbeInv probe root [] s)
    (wellFounded_lt (α := Nat)) (fun s => 2 * (U.filter (· ∉ s.seen)).card +
      if s.next = [] then 0 else 1) ProbeInv.start fun s t hs hp => ⟨hs.pass hp, ?_⟩
  have ht := hs.pass hp
  unfold Probe.pass at hp
  split at hp
  · cases hp
  · next hne =>
    split at hp
    · cases hp
    · next hv =>
      cases hp
      obtain ⟨hsub, hnew⟩ := Probe.visit_seen hv
      rw [if_neg hne]
      have hle : U.filter (· ∉ t.seen) ⊆ U.filter (· ∉ s.seen) := by
        intro x hx
        rw [Finset.mem_filter] at hx ⊢
        exact ⟨hx.1, fun h => hx.2 (hsub x h)⟩
      rcases hnew with hnil | ⟨k, hk, hno⟩
      · have hcard := Finset.card_le_card hle
        rw [if_pos hnil]
        omega
      · have hlt : (U.filter (· ∉ t.seen)).card < (U.filter (· ∉ s.seen)).card := by
          refine Finset.card_lt_card ⟨hle, fun h => ?_⟩
          have hkU : k ∈ U := mem_of_reaches hroot hU (ht.seen k hk)
          exact (Finset.mem_filter.mp (h (Finset.mem_filter.mpr ⟨hkU, hno⟩))).2 hk
        split <;> omega

end Walk
