import AmberStore.Packstore.Callers
import AmberStore.Packstore.Rules

/-!
# WriteParallel on its own

One call of `WriteParallel` with no other caller: its distributor, its writers and the caller that waits
for them, in any interleaving, with the counts it returns. Every run ends.
-/

namespace AmberStore.Packstore
open Bytes Amberpack Act

structure WriteStats where
  stored : Nat
  deduped : Nat
  bytesStored : Nat

/-- A running `WriteParallel`. `appends` are the objects whose records were written, the last one first. -/
structure Parallel where
  w : World
  run : Run
  writers : List Writer
  pc : ParallelPc
  stats : WriteStats
  appends : List Object

/-- What a step of a writer adds to the counts: an object it leaves alone because of its key, or one whose
append has returned. -/
def Writer.tally (g g' : Writer) (t : WriteStats) : WriteStats :=
  match g.pc, g'.pc with
  | .seen _, .recv | .work _ .has _, .recv => { t with deduped := t.deduped + 1 }
  | .work o (.append _) _, .recv | .work o (.append _) _, .flush
  | .work o (.rotate _) _, .recv | .work o (.rotate _) _, .flush =>
    { t with stored := t.stored + 1, bytesStored := t.bytesStored + o.data.length }
  | _, _ => t

/-- The object whose record a step of a writer has written. -/
def Writer.appends (g g' : Writer) : List Object :=
  match g.pc, g'.pc with
  | .work o (.append _) _, .work _ _ _ => [o]
  | _, _ => []

namespace Parallel

/-- The call at its start; `procs` is the number of processors. -/
def start (w : World) (procs : Nat) (stream : List Object) (writers batchSize : Int) (verify : Bool) : Parallel :=
  let run := Run.new procs (stream.map .ok) writers batchSize verify
  ⟨w, run, List.replicate run.writers ⟨0, .recv⟩, .wait, ⟨0, 0, 0⟩, []⟩

inductive Step (Z : Zstd) (F : FuseLib) (verify : Object → Except Err Unit) (s : Parallel) : Parallel → Prop
  | distribute : s.run.Distribute run' → Step Z F verify s { s with run := run' }
  | writer : s.writers = before ++ g :: after → m ∈ g.run Z F verify s.run →
    (g.takes → ∀ g ∈ s.writers, g.holds = false) → m s.w = ⟨tr, .ok (run', g'), w'⟩ →
    Step Z F verify s { s with
      w := w', run := run', writers := before ++ g' :: after,
      stats := g.tally g' s.stats, appends := g.appends g' ++ s.appends }
  | join : s.pc = .wait → s.run.closed → (∀ g ∈ s.writers, g.pc = .ret) → Step Z F verify s { s with pc := .sync }
  | sync : s.pc = .sync → syncRun s.run s.w = ⟨tr, .ok pc', w'⟩ → Step Z F verify s { s with w := w', pc := pc' }

end Parallel

/-! ## Every run ends -/

def Work.rank : Work → Nat
  | .has => 4
  | .append _ => 3
  | .fsync _ => 2
  | .rotate _ => 1

def WriterPc.rank : WriterPc → Nat
  | .ret => 0
  | .recv => 1
  | .flush => 2
  | .work _ p _ => 2 + p.rank
  | .seen _ => 7
  | .observe _ => 8

def ParallelPc.rank : ParallelPc → Nat
  | .ret _ => 0
  | .sync => 1
  | .wait => 2

def Run.rank (r : Run) : Nat := 9 * r.todo.length + 8 * r.chan.length + if r.closed then 0 else 1

/-- What is left to do. -/
def Parallel.rank (s : Parallel) : Nat := s.run.rank + (s.writers.map fun g => g.pc.rank).sum + s.pc.rank

section Ends
variable {Z : Zstd} {F : FuseLib} {verify : Object → Except Err Unit}

theorem Run.Distribute.rank_lt {r r' : Run} (h : r.Distribute r') : r'.rank < r.rank := by
  cases h with
  | send hc ht _ =>
    simp only [Run.rank, ht, List.length_cons, List.length_append, List.length_nil, hc]
    omega
  | cancelled hc ht _ =>
    simp only [Run.rank, ht, List.length_cons, hc, if_true, Bool.false_eq_true, if_false]
    omega
  | fail hc ht =>
    simp only [Run.rank, Run.fail, ht, List.length_cons, hc, if_true, Bool.false_eq_true, if_false]
    omega
  | finish hc ht =>
    simp only [Run.rank, ht, hc, if_true, Bool.false_eq_true, if_false]
    omega

theorem wp_any {m : M α} {w : World} : m.Gives (fun _ _ => True) w := ⟨fun _ _ => trivial, trivial⟩

theorem Work.run_rank (p : Work) (o : Object) (b : Bool) (w : World) :
    (p.run Z F verify o b).Gives (Post (fun r _ => match r with
      | .goto q => q.rank < p.rank
      | .done _ => True) fun _ _ => True) w := by
  cases p with
  | has =>
    unfold Work.run
    refine wp_any.then (fun found t _ => ?_) fun _ _ _ => trivial
    refine wp_ite (fun _ => .pure trivial) fun _ => ?_
    refine wp_any.then (fun u t _ => ?_) fun _ _ _ => trivial
    refine wp_any.then (fun rec t _ => ?_) fun _ _ _ => trivial
    exact .pure (Nat.lt_succ_self 3)
  | append rec =>
    unfold Work.run
    refine wp_any.then (fun found t _ => ?_) fun _ _ _ => trivial
    cases found with
    | none => exact .pure trivial
    | some a =>
      refine wp_any.seq ?_
      intro r t _
      cases r with
      | error e => exact trivial
      | ok a' => exact .pure (Nat.lt_succ_self 2)
  | fsync a =>
    unfold Work.run
    refine wp_any.then (fun u t _ => ?_) fun _ _ _ => trivial
    exact .pure (Nat.lt_succ_self 1)
  | rotate a =>
    unfold Work.run
    refine wp_any.then (fun u t _ => ?_) fun _ _ _ => trivial
    exact .pure trivial

/-- A step of a writer leaves less to do, and never throws. -/
theorem Writer.run_rank {g : Writer} {run : Run} (hm : m ∈ g.run Z F verify run) (w : World) :
    m.Gives (Post (fun q _ => q.1.rank + q.2.pc.rank < run.rank + g.pc.rank ∧
      q.1.todo = run.todo ∧ q.1.closed = run.closed) fun _ _ => False) w := by
  obtain ⟨pending, pc⟩ := g
  cases pc with
  | recv =>
    rcases List.mem_append.mp hm with hm | hm
    · split at hm
      · obtain rfl := List.mem_singleton.mp hm
        exact .pure ⟨Nat.lt_succ_self _, rfl, rfl⟩
      · cases hm
    · split at hm
      · next o chan hchan =>
        obtain rfl := List.mem_singleton.mp hm
        refine .pure ⟨?_, rfl, rfl⟩
        simp only [Run.rank, hchan, List.length_cons, WriterPc.rank]
        omega
      · split at hm
        · obtain rfl := List.mem_singleton.mp hm
          exact .pure ⟨Nat.lt_succ_self _, rfl, rfl⟩
        · cases hm
  | observe o =>
    obtain rfl := List.mem_singleton.mp hm
    simp only [wp_bind, Packstore.observe, wp_setStore, post_ok, wp_pure]
    exact ⟨Nat.lt_succ_self _, trivial, trivial⟩
  | seen o =>
    simp only [Writer.run] at hm
    split at hm
    · obtain rfl := List.mem_singleton.mp hm
      exact .pure ⟨Nat.add_lt_add_left (by decide : 1 < 7) _, rfl, rfl⟩
    · obtain rfl := List.mem_singleton.mp hm
      exact .pure ⟨Nat.lt_succ_self _, rfl, rfl⟩
  | work o p n =>
    obtain rfl := List.mem_singleton.mp hm
    refine (Work.run_rank p o false w).tries ?_
    have hpos : 0 < p.rank := by cases p <;> exact Nat.succ_pos _
    intro r t hr
    rcases r with e | (q | r)
    · refine .pure ⟨Nat.add_lt_add_left (Nat.lt_of_lt_of_le Nat.zero_lt_two (Nat.le_add_right _ _)) _, rfl, rfl⟩
    · exact .pure ⟨Nat.add_lt_add_left (Nat.add_lt_add_left hr 2) _, rfl, rfl⟩
    · have happended (g : Writer) (size : Nat) : (g.appended size n).pc.rank < 2 + p.rank := by
        unfold Writer.appended
        split
        · exact Nat.lt_add_of_pos_right hpos
        · exact Nat.lt_of_lt_of_le Nat.one_lt_two (Nat.le_add_right _ _)
      cases r with
      | dedup =>
        exact .pure ⟨Nat.add_lt_add_left (Nat.lt_of_lt_of_le Nat.one_lt_two (Nat.le_add_right _ _)) _, rfl, rfl⟩
      | lost => exact .pure ⟨Nat.add_lt_add_left (happended _ _) _, rfl, rfl⟩
      | stored => exact .pure ⟨Nat.add_lt_add_left (happended _ _) _, rfl, rfl⟩
  | flush =>
    obtain rfl := List.mem_singleton.mp hm
    refine wp_any.tries ?_
    intro r t _
    cases r with
    | error e => exact .pure ⟨Nat.add_lt_add_left Nat.zero_lt_two _, rfl, rfl⟩
    | ok u => exact .pure ⟨Nat.lt_succ_self _, rfl, rfl⟩
  | ret => cases hm

theorem syncRun_ret (r : Run) (w : World) :
    (syncRun r).Gives (Post (fun pc _ => ∃ e, pc = .ret e) fun _ _ => False) w := by
  refine wp_any.tries ?_
  intro e t _
  exact .pure ⟨_, rfl⟩

namespace Parallel
variable {s s' : Parallel}

theorem Step.rank_lt (h : Step Z F verify s s') : s'.rank < s.rank := by
  cases h with
  | distribute hd =>
    have hlt := hd.rank_lt
    simp only [Parallel.rank]
    omega
  | writer hw hm _ hrun =>
    obtain ⟨-, hlt, -⟩ := (Writer.run_rank hm s.w).of_run hrun
    dsimp only at hlt
    simp only [Parallel.rank, hw, List.map_append, List.map_cons, List.sum_append, List.sum_cons]
    omega
  | join hpc =>
    simp only [Parallel.rank, hpc, ParallelPc.rank]
    omega
  | sync hpc hrun =>
    obtain ⟨-, e, rfl⟩ := (syncRun_ret s.run s.w).of_run hrun
    simp only [Parallel.rank, hpc, ParallelPc.rank]
    omega

theorem ends (f : Nat → Parallel) : ∃ n, ¬Step Z F verify (f n) (f (n + 1)) := by
  by_contra hall
  have hall : ∀ n, Step Z F verify (f n) (f (n + 1)) := fun n => by_contra fun h => hall ⟨n, h⟩
  have hrank : ∀ n, (f n).rank + n ≤ (f 0).rank := by
    intro n
    induction n with
    | zero => exact Nat.le_refl _
    | succ n ih =>
      have hlt := (hall n).rank_lt
      omega
  have := hrank ((f 0).rank + 1)
  omega

end Parallel
end Ends
end AmberStore.Packstore
