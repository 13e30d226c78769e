import AmberStore.Fstree.Object
import AmberStore.Lib.Walk
import AmberStore.Packstore.CompactSpec
import AmberStore.Packstore.MarkSet
import Mathlib.Data.Set.Finite.List

/-!
# The mark phase of a collection

`markLive` walks the trees of all roots into one mark set and does not enter a subtree that is marked
already. On a complete store it marks exactly what the roots reach; if anything on the way is missing or
cannot be read, the cycle ends there and nothing is swept.
-/

namespace AmberStore.Gc
open Walk Fstree Packstore List

inductive GcError where
  | cancelled
  | missing (k : Key)
  | store (e : Err)
  | children (e : FsError)

section Model
variable (Z : Zstd) (F : FuseLib) (C : Cbor)

/-- Mark a key, which has to be in the snapshot. -/
def markKey (live : MarkSet) (k : Key) : Except GcError (Bool × MarkSet) :=
  if !(live.mark F k).1.present then .error (.missing k)
  else .ok ((live.mark F k).1.newly, (live.mark F k).2)

/-- The children of a node. Blobs and xattr sets are not read. -/
def children (w : World) (k : Key) : Except GcError (List Key) :=
  if k.type.isLeaf then .ok []
  else
    match get Z F w.fs w.s k with
    | .error e => .error (.store e)
    | .ok data =>
      match childKeys C k data with
      | .error e => .error (.children e)
      | .ok cs => .ok cs

structure MarkState where
  n : Nat
  walk : Dfs MarkSet Key

/-- One pass of the loop of `markFrom`. The context is looked at every 1024 passes. -/
def markPass (ctx : Nat → Bool) (w : World) (s : MarkState) : MarkState ⊕ Except GcError MarkSet :=
  if !s.walk.stack.isEmpty && s.n % 1024 == 0 && ctx s.n then .inr (.error .cancelled)
  else
    match s.walk.pass (fun _ => false) (markKey F) (children Z F C w) with
    | .inl t => .inl ⟨s.n + 1, t⟩
    | .inr r => .inr (r.map Prod.snd)

def markFrom (ctx : Nat → Bool) (fuel : Nat) (w : World) (live : MarkSet) (root : Key) :
    Option (Except GcError MarkSet) :=
  Loop.run (markPass Z F C ctx w) fuel ⟨0, ⟨live, [root]⟩⟩

end Model

/-! ## The walk -/

section Walk
variable {Z : Zstd} {F : FuseLib} {C : Cbor} {w : World} {s : Dfs MarkSet Key} {ctx : Nat → Bool}

/-- Keys have 32 bytes, so there are finitely many. -/
instance finite_key : Finite Key := by
  have hbyte : Finite UInt8 := Finite.of_injective UInt8.toFin fun a b h => UInt8.toFin_inj.mp h
  have hlists : Finite { b : Bytes // b.length = 32 } := (finite_length_eq UInt8 32).to_subtype
  apply Finite.of_injective (fun k : Key => (⟨k.bytes, k.size_eq⟩ : { b : Bytes // b.length = 32 }))
  intro a b h
  exact Key.ext (congrArg Subtype.val h)

end Walk

/-! ## One root -/

section Roots
variable {Z : Zstd} {F : FuseLib} {C : Cbor} {w : World} {ctx : Nat → Bool} {live : MarkSet} {root : Key}

/-- The mark set was taken of the store. -/
def Over (F : FuseLib) (w : World) (live : MarkSet) : Prop := ∃ M, live.Marks F w.s M

/-- The marked keys are closed under children. -/
def Shut (Z : Zstd) (F : FuseLib) (C : Cbor) (w : World) (live : MarkSet) : Prop :=
  ∀ k, live.contains F k = true →
    ∃ cs, children Z F C w k = .ok cs ∧ ∀ c ∈ cs, live.contains F c = true

abbrev ReachedFrom (Z : Zstd) (F : FuseLib) (C : Cbor) (w : World) : Key → Key → Prop :=
  Reaches (children Z F C w)

/-- All that the root reaches is in the store, and can be read if it is an interior node. -/
def Complete (Z : Zstd) (F : FuseLib) (C : Cbor) (w : World) (root : Key) : Prop :=
  ∀ k, ReachedFrom Z F C w root k → w.s.present F k = true ∧ ∃ cs, children Z F C w k = .ok cs

theorem Over.present (hover : Over F w live) (h : live.contains F k = true) :
    w.s.present F k = true := by
  obtain ⟨M, hM⟩ := hover
  rw [hM.contains_eq, decide_eq_true_eq] at h
  exact hM.present k h

variable (hacc : ∀ g ∈ w.s.sealed, parseFooter g.mm = .ok g.fv)
include hacc

theorem markKey_marking : Marking (Over F w) (fun live k => live.contains F k = true) (markKey F) := by
  intro live k b live' hover h
  obtain ⟨M, hM⟩ := hover
  obtain ⟨hresult, hnext⟩ := hM.mark hacc k
  rw [markKey, hresult] at h
  dsimp only at h
  split at h
  · cases h
  next hpresent =>
  rw [Bool.not_eq_true', Bool.not_eq_false] at hpresent
  cases h
  rw [hpresent, if_pos rfl] at hnext
  refine ⟨⟨_, hnext⟩, ?_, fun x => ?_⟩
  · simp [hM.contains_eq, hpresent]
  · simp [hM.contains_eq, hnext.contains_eq, or_comm]

theorem exists_walk (hover : Over F w live) (hshut : Shut Z F C w live) (root : Key) :
    ∃ r, DfsReturns (fun _ => false) (markKey F) (children Z F C w) live root r := by
  classical
  have hfin : Fintype Key := Fintype.ofFinite Key
  exact exists_dfsReturns Finset.univ (Finset.mem_univ root) (fun _ c _ _ => Finset.mem_univ c)
    (markKey_marking hacc) hover hshut

end Roots

/-! ## All roots -/

section Live
variable {Z : Zstd} {F : FuseLib} {C : Cbor} {w : World} {ctx : Nat → Nat → Bool} {live : MarkSet}
  {roots : List Key}

theorem newMarkSet_over (F : FuseLib) (w : World) : Over F w (newMarkSet w.s) :=
  ⟨∅, newMarkSet_marks F w.s⟩

theorem newMarkSet_contains (F : FuseLib) (w : World) (k : Key) :
    (newMarkSet w.s).contains F k = false := by
  rw [(newMarkSet_marks F w.s).contains_eq]
  exact decide_eq_false (Finset.notMem_empty k)

variable (hacc : ∀ g ∈ w.s.sealed, parseFooter g.mm = .ok g.fv)
include hacc

open Act

end Live

end AmberStore.Gc
