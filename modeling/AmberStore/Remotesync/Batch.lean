import AmberStore.Key

/-!
# Batches of keys

Keys are sent in batches, in order, whose estimated payload stays at a target.
-/

namespace AmberStore.Remotesync
open List

/-- The bound on the keys of a batch. -/
def maxBatchKeys : Nat := 8192

/-- The estimate for an object whose encoded size is not known. -/
def nominalNodeSize : UInt64 := 4096

def defaultBatchBytes : UInt64 := 60 * 1024 * 1024

structure Batcher where
  target : UInt64
  size : Key → UInt64
  cur : List Key
  bytes : UInt64

/-- Append a key, first returning the batch it would have overflowed. -/
def Batcher.add (b : Batcher) (k : Key) : List (List Key) × Batcher :=
  let s := b.size k
  if 0 < b.cur.length ∧ (b.target < b.bytes + s ∨ maxBatchKeys ≤ b.cur.length) then
    ([b.cur], { b with cur := [k], bytes := s })
  else ([], { b with cur := b.cur ++ [k], bytes := b.bytes + s })

/-- The final batch, if it is not empty. -/
def Batcher.flush (b : Batcher) : List (List Key) := if b.cur = [] then [] else [b.cur]

def Batcher.addAll : Batcher → List Key → List (List Key)
  | b, [] => b.flush
  | b, k :: ks =>
    let (full, b) := b.add k
    full ++ b.addAll ks

def batches (keys : List Key) (target : UInt64) (size : Key → UInt64) : List (List Key) :=
  Batcher.addAll ⟨target, size, [], 0⟩ keys

/-- Only a blob's key tells its size. -/
def pullSizer (k : Key) : UInt64 := if k.type = .blob then k.length else nominalNodeSize

theorem Batcher.add_flatten (b : Batcher) (k : Key) :
    (b.add k).1.flatten ++ (b.add k).2.cur = b.cur ++ [k] := by
  unfold add
  simp only
  split
  · simp
  · simp

theorem Batcher.addAll_flatten (b : Batcher) (ks : List Key) :
    (b.addAll ks).flatten = b.cur ++ ks := by
  induction ks generalizing b with
  | nil =>
    rw [addAll, flush]
    split
    · next h => simp [h]
    · simp
  | cons k ks ih =>
    rw [addAll, flatten_append, ih, ← append_assoc, add_flatten]
    simp

theorem batches_flatten (keys : List Key) (target : UInt64) (size : Key → UInt64) :
    (batches keys target size).flatten = keys := by
  rw [batches, Batcher.addAll_flatten, nil_append]

theorem batches_singleton (k : Key) (target : UInt64) (size : Key → UInt64) :
    batches [k] target size = [[k]] := rfl

/-! ## The bounds of a batch -/

/-- The estimates of the keys, summed without overflow. -/
def totalSize (size : Key → UInt64) (keys : List Key) : Nat := (keys.map fun k => (size k).toNat).sum

theorem totalSize_append (size : Key → UInt64) (ks ks' : List Key) :
    totalSize size (ks ++ ks') = totalSize size ks + totalSize size ks' := by
  rw [totalSize, map_append, sum_append]
  rfl

/-- What the batcher guarantees of a batch: the bound on the size is one on the sum modulo 2⁶⁴. -/
structure Balanced (target : UInt64) (size : Key → UInt64) (batch : List Key) : Prop where
  nonempty : batch ≠ []
  keys : batch.length ≤ maxBatchKeys
  bytes : 1 < batch.length → totalSize size batch % 2 ^ 64 ≤ target.toNat

theorem Balanced.singleton (target : UInt64) (size : Key → UInt64) (k : Key) : Balanced target size [k] where
  nonempty := cons_ne_nil _ _
  keys := (by decide : 1 ≤ maxBatchKeys)
  bytes h := absurd h (Nat.lt_irrefl 1)

/-- The batch being built, with its estimate. -/
structure Batcher.Ok (b : Batcher) : Prop where
  bytes : b.bytes.toNat = totalSize b.size b.cur % 2 ^ 64
  cur : b.cur = [] ∨ Balanced b.target b.size b.cur

namespace Batcher

theorem add_target (b : Batcher) (k : Key) : (b.add k).2.target = b.target := by
  unfold add
  simp only
  split <;> rfl

theorem add_size (b : Batcher) (k : Key) : (b.add k).2.size = b.size := by
  unfold add
  simp only
  split <;> rfl

theorem Ok.add {b : Batcher} (h : b.Ok) (k : Key) :
    (∀ batch ∈ (b.add k).1, Balanced b.target b.size batch) ∧ (b.add k).2.Ok := by
  unfold Batcher.add
  simp only
  split
  next hfull =>
    have hcur := h.cur.resolve_left (length_pos_iff.mp hfull.1)
    refine ⟨fun batch hmem => mem_singleton.mp hmem ▸ hcur, ?_, .inr (.singleton ..)⟩
    rw [totalSize, map_singleton, sum_singleton]
    exact (Nat.mod_eq_of_lt (UInt64.toNat_lt _)).symm
  next hfits =>
    have hbytes : (b.bytes + b.size k).toNat = totalSize b.size (b.cur ++ [k]) % 2 ^ 64 := by
      rw [UInt64.toNat_add, h.bytes, totalSize_append, Nat.mod_add_mod]
      rfl
    refine ⟨fun batch (hmem : batch ∈ []) => (not_mem_nil hmem).elim, hbytes, .inr ?_⟩
    simp only
    cases hcur : b.cur with
    | nil => exact .singleton ..
    | cons k' ks =>
      have hpos : 0 < b.cur.length := by
        rw [hcur]
        exact Nat.succ_pos _
      have hroom : ¬ b.target < b.bytes + b.size k ∧ ¬ maxBatchKeys ≤ b.cur.length := by
        rw [← not_or]
        exact fun hor => hfits ⟨hpos, hor⟩
      rw [← hcur]
      refine ⟨append_ne_nil_of_right_ne_nil _ (cons_ne_nil _ _), ?_, fun _ => ?_⟩
      · rw [length_append, length_singleton]
        exact Nat.lt_of_not_le hroom.2
      · rw [← hbytes]
        exact UInt64.le_iff_toNat_le.mp (UInt64.not_lt.mp hroom.1)

theorem Ok.addAll {b : Batcher} (h : b.Ok) (ks : List Key) :
    ∀ batch ∈ b.addAll ks, Balanced b.target b.size batch := by
  induction ks generalizing b with
  | nil =>
    intro batch hmem
    rw [Batcher.addAll, flush] at hmem
    split at hmem
    next => cases hmem
    next hne => exact mem_singleton.mp hmem ▸ h.cur.resolve_left hne
  | cons k ks ih =>
    intro batch hmem
    obtain ⟨hfull, hok⟩ := h.add k
    rcases mem_append.mp hmem with hmem | hmem
    · exact hfull batch hmem
    · have hb := ih hok batch hmem
      rwa [add_target, add_size] at hb

end Batcher

theorem batches_balanced (keys : List Key) (target : UInt64) (size : Key → UInt64) :
    ∀ batch ∈ batches keys target size, Balanced target size batch :=
  Batcher.Ok.addAll ⟨rfl, .inl rfl⟩ keys

theorem mem_of_mem_batches {keys : List Key} {target : UInt64} {size : Key → UInt64}
    (h : batch ∈ batches keys target size) (hk : k ∈ batch) : k ∈ keys := by
  rw [← batches_flatten keys target size]
  exact mem_flatten_of_mem h hk

theorem totalSize_le {size : Key → UInt64} {keys : List Key} (h : ∀ k ∈ keys, (size k).toNat ≤ c) :
    totalSize size keys ≤ keys.length * c := by
  induction keys with
  | nil => exact Nat.zero_le _
  | cons k keys ih =>
    have hk := h k mem_cons_self
    have htail := ih fun k hk => h k (mem_cons_of_mem _ hk)
    rw [length_cons, Nat.succ_mul]
    change (size k).toNat + totalSize size keys ≤ _
    omega

end AmberStore.Remotesync
