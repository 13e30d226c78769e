import AmberStore.Packstore.Disk

/-!
# Rules for file operations

Weakest preconditions of the file operations when only fsyncs can fail, and when anything can.
-/

namespace AmberStore.Packstore
open Bytes Amberpack Act

variable {w : World} {I : World → Prop}

section Store
variable {Q : Except Err Unit → World → Prop}

@[simp] theorem wp_getStore {Q : Except Err Store → World → Prop} :
    getStore.Wp I Q w ↔ Q (.ok w.s) w := by
  simp [getStore]

@[simp] theorem wp_setStore {f : Store → Store} :
    (setStore f).Wp I Q w ↔ Q (.ok ()) { w with s := f w.s } := by
  simp [setStore]

/-! ## Operations that do not fail -/

section
variable (h : w.ioFaults = [])
include h

theorem wp_ioOp {ok : FS Name → FS Name} {fail : Nat → FS Name → FS Name}
    (hI : I { w with fs := ok w.fs }) (hQ : Q (.ok ()) { w with fs := ok w.fs }) :
    (ioOp ok fail).Wp I Q w := by
  obtain ⟨fs, s, io, sf⟩ := w
  cases h
  simp only [ioOp, wp_bind, wp_read, post_ok]
  exact wp_step.mpr ⟨hI, hQ⟩

theorem wp_writeAt {p : Bytes}
    (hI : I { w with fs := w.fs.setFile ino ((w.fs.files ino).writeAt off p) })
    (hQ : Q (.ok ()) { w with fs := w.fs.setFile ino ((w.fs.files ino).writeAt off p) }) :
    (writeAt ino off p).Wp I Q w := wp_ioOp h hI hQ

theorem wp_truncate
    (hI : I { w with fs := w.fs.setFile ino ((w.fs.files ino).truncate n) })
    (hQ : Q (.ok ()) { w with fs := w.fs.setFile ino ((w.fs.files ino).truncate n) }) :
    (truncate ino n).Wp I Q w := wp_ioOp h hI hQ

theorem wp_create (hn : FS.lookup w.fs.cur n = none)
    {Q : Except Err Nat → World → Prop} (hI : I { w with fs := w.fs.create n })
    (hQ : Q (.ok w.fs.next) { w with fs := w.fs.create n }) : (create n).Wp I Q w := by
  simp only [create, wp_bind, wp_read, post_ok, hn]
  exact wp_ioOp h hI (.pure hQ)

theorem wp_rename (ha : FS.lookup w.fs.cur a = some i)
    (hI : I { w with fs := w.fs.rename a b }) (hQ : Q (.ok ()) { w with fs := w.fs.rename a b }) :
    (rename a b).Wp I Q w := by
  simp only [rename, wp_bind, wp_read, post_ok, ha]
  exact wp_ioOp h hI hQ

theorem wp_remove (hn : FS.lookup w.fs.cur n = some i)
    (hI : I { w with fs := w.fs.remove n }) (hQ : Q (.ok ()) { w with fs := w.fs.remove n }) :
    (remove n).Wp I Q w := by
  simp only [remove, wp_bind, wp_read, post_ok, hn]
  exact wp_ioOp h hI hQ

theorem wp_closeFile (hI : I w) (hQ : Q (.ok ()) w) :
    closeFile.Wp I Q w := wp_ioOp h hI hQ

theorem wp_openFile (hI : I w) (hQ : Q (.ok ()) w) :
    openFile.Wp I Q w := wp_ioOp h hI hQ

theorem wp_readFile (hn : FS.lookup w.fs.cur n = some i) (hI : I w)
    {Q : Except Err Bytes → World → Prop} (hQ : Q (.ok (w.fs.files i).data) w) :
    (readFile n).Wp I Q w := by
  simp only [readFile, wp_bind, wp_read, post_ok, hn]
  exact wp_ioOp h hI (.pure hQ)

end

/-! ## Fsyncs -/

theorem join_head_mem {l : List (Option Nat)} (h : l.head?.join = some n) : some n ∈ l := by
  cases l with
  | nil => cases h
  | cons x l =>
    rw [List.head?_cons, Option.join_some] at h
    rw [h]
    exact List.mem_cons_self

variable {ok : FS Name → FS Name} {fail : Nat → FS Name → FS Name}

/-- The first entry of `syncFaults` decides. -/
theorem wp_syncOp_head
    (hok : w.syncFaults.head?.join = none → I { w with fs := ok w.fs, syncFaults := w.syncFaults.tail } ∧
      Q (.ok ()) { w with fs := ok w.fs, syncFaults := w.syncFaults.tail })
    (hfail : ∀ n, w.syncFaults.head?.join = some n →
      I { w with fs := fail n w.fs, syncFaults := w.syncFaults.tail } ∧
        Q (.error .io) { w with fs := fail n w.fs, syncFaults := w.syncFaults.tail }) :
    (syncOp ok fail).Wp I Q w := by
  simp only [syncOp, wp_bind, wp_read, post_ok]
  cases h : w.syncFaults.head?.join with
  | none => exact wp_step.mpr (hok h)
  | some n =>
    obtain ⟨hI, hQ⟩ := hfail n h
    exact wp_bind.mpr (wp_step.mpr ⟨hI, .throw hQ⟩)

/-- An fsync either succeeds or, if there is a fault left, fails. -/
theorem wp_syncOp
    (hok : ∀ sf, (w.syncFaults = [] → sf = []) →
      I { w with fs := ok w.fs, syncFaults := sf } ∧
        Q (.ok ()) { w with fs := ok w.fs, syncFaults := sf })
    (hfail : w.syncFaults ≠ [] → ∀ n sf, I { w with fs := fail n w.fs, syncFaults := sf } ∧
      Q (.error .io) { w with fs := fail n w.fs, syncFaults := sf }) :
    (syncOp ok fail).Wp I Q w := by
  refine wp_syncOp_head (fun _ => hok _ fun h => ?_) fun n hn => hfail (fun h => ?_) n _
  · rw [h, List.tail_nil]
  · rw [h] at hn
    cases hn

/-! ## Any operation can fail -/

/-- The first entry of `ioFaults` decides. -/
theorem wp_ioOp_head
    (hok : w.ioFaults.head?.join = none → I { w with fs := ok w.fs, ioFaults := w.ioFaults.tail } ∧
      Q (.ok ()) { w with fs := ok w.fs, ioFaults := w.ioFaults.tail })
    (hfail : ∀ n, w.ioFaults.head?.join = some n →
      I { w with fs := fail n w.fs, ioFaults := w.ioFaults.tail } ∧
        Q (.error .io) { w with fs := fail n w.fs, ioFaults := w.ioFaults.tail }) :
    (ioOp ok fail).Wp I Q w := by
  simp only [ioOp, wp_bind, wp_read, post_ok]
  cases h : w.ioFaults.head?.join with
  | none => exact wp_step.mpr (hok h)
  | some n =>
    obtain ⟨hI, hQ⟩ := hfail n h
    exact wp_bind.mpr (wp_step.mpr ⟨hI, .throw hQ⟩)

theorem wp_ioOp_any
    (hok : ∀ io, I { w with fs := ok w.fs, ioFaults := io } ∧
      Q (.ok ()) { w with fs := ok w.fs, ioFaults := io })
    (hfail : ∀ n io, I { w with fs := fail n w.fs, ioFaults := io } ∧
      Q (.error .io) { w with fs := fail n w.fs, ioFaults := io }) : (ioOp ok fail).Wp I Q w :=
  wp_ioOp_head (fun _ => hok _) fun n _ => hfail n _

theorem wp_syncOp_any
    (hok : ∀ sf, (∀ x ∈ sf, x ∈ w.syncFaults) → I { w with fs := ok w.fs, syncFaults := sf } ∧
      Q (.ok ()) { w with fs := ok w.fs, syncFaults := sf })
    (hfail : ∀ n sf, some n ∈ w.syncFaults → (∀ x ∈ sf, x ∈ w.syncFaults) →
      I { w with fs := fail n w.fs, syncFaults := sf } ∧
        Q (.error .io) { w with fs := fail n w.fs, syncFaults := sf }) :
    (syncOp ok fail).Wp I Q w := by
  have htail : ∀ x ∈ w.syncFaults.tail, x ∈ w.syncFaults := fun _ => List.mem_of_mem_tail
  exact wp_syncOp_head (fun _ => hok _ htail) fun n hn => hfail n _ (join_head_mem hn) htail

end Store
end AmberStore.Packstore
