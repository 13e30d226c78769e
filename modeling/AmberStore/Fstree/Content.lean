import AmberStore.Fstree.Object

/-!
# File contents

The content of a file is the concatenation of the blobs below its root, in order.
-/

namespace AmberStore.Fstree
open Amberpack

section Write
variable (C : Cbor) (get : Key → Except FsError Bytes)

def decodeFileNode (k : Key) (data : Bytes) : Except FsError (List Key) :=
  match C.decodeKeys data with
  | none => .error (.decodeFileNode k)
  | some raw => parseKeys .fileNodeChild 0 raw

/-- Write what is below every child in turn, until one fails. -/
def writeChildren (write : Key → Bytes → Option (Bytes × Option FsError)) :
    Bytes → List Key → Option (Bytes × Option FsError)
  | out, [] => some (out, none)
  | out, k :: ks =>
    match write k out with
    | none => none
    | some (out, some e) => some (out, some e)
    | some (out, none) => writeChildren write out ks

/-- Append the content to what was written, for at most so many levels. What was written before a
failure stays written. -/
def writeContent : Nat → Key → Bytes → Option (Bytes × Option FsError)
  | 0, _, _ => none
  | fuel + 1, k, out =>
    match get k with
    | .error _ => some (out, some (.get k))
    | .ok data =>
      match k.type with
      | .blob => some (out ++ data, none)
      | .fileNode =>
        match decodeFileNode C k data with
        | .error e => some (out, some e)
        | .ok children => writeChildren (writeContent fuel) out children
      | _ => some (out, some (.notContent k))

end Write

section Content
variable {C : Cbor} {get : Key → Except FsError Bytes}

/-- With enough levels, the content is written after whatever was written before. -/
def Content (C : Cbor) (get : Key → Except FsError Bytes) (k : Key) (content : Bytes) : Prop :=
  ∃ n, ∀ fuel, n ≤ fuel → ∀ out, writeContent C get fuel k out = some (out ++ content, none)

theorem Content.blob (ht : k.type = .blob) (hget : get k = .ok data) : Content C get k data := by
  refine ⟨1, fun fuel hfuel out => ?_⟩
  obtain ⟨fuel, rfl⟩ := Nat.exists_eq_add_of_le' hfuel
  rw [writeContent, hget]
  simp only [ht]

theorem Content.children (h : List.Forall₂ (Content C get) ks contents) :
    ∃ n, ∀ fuel, n ≤ fuel → ∀ out,
      writeChildren (writeContent C get fuel) out ks = some (out ++ contents.flatten, none) := by
  induction h with
  | nil => exact ⟨0, fun fuel _ out => by simp [writeChildren]⟩
  | @cons k content ks contents hk _ ih =>
    obtain ⟨m, hm⟩ := hk
    obtain ⟨n, hn⟩ := ih
    refine ⟨max m n, fun fuel hfuel out => ?_⟩
    rw [writeChildren, hm fuel (Nat.le_trans (Nat.le_max_left m n) hfuel)]
    simp only [hn fuel (Nat.le_trans (Nat.le_max_right m n) hfuel), List.flatten_cons,
      List.append_assoc]

theorem Content.fileNode (hC : C.Lawful) (ht : k.type = .fileNode)
    (hget : get k = .ok (C.encodeKeys (ks.map Key.bytes))) (hcanon : ∀ k ∈ ks, k.Canonical)
    (h : List.Forall₂ (Content C get) ks contents) : Content C get k contents.flatten := by
  obtain ⟨n, hn⟩ := Content.children h
  refine ⟨n + 1, fun fuel hfuel out => ?_⟩
  obtain ⟨fuel, rfl⟩ := Nat.exists_eq_add_of_le' (Nat.le_trans (Nat.succ_le_succ n.zero_le) hfuel)
  rw [writeContent, hget]
  simp only [ht, decodeFileNode, hC.keys, parseKeys_bytes hcanon]
  exact hn fuel (Nat.le_of_succ_le_succ hfuel) out

end Content

end AmberStore.Fstree
