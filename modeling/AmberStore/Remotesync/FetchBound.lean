import AmberStore.CborxSpec
import AmberStore.Remotesync.Fetch

/-!
# The size of a batch's reply

A batch of a pull counts every node at a nominal size. What the nodes really have decides whether the reply fits
into what the client reads of it.
-/

namespace AmberStore.Remotesync
open Bytes Amberpack Cborx Fstree Packstore

variable {H : Blake3} {Z : Zstd} {sg : Signatures} {store : Objects}

/-! ## The size of a reply -/

/-- The nodes of a batch count for what they are estimated at, the blobs for what they have. -/
theorem recordsLength_le {L : Nat} (hstore : Honest H store) {batch : List Key}
    (hkeys : ∀ k ∈ batch, store.has k = true)
    (hsize : ∀ k data, store.lookup k = some data → data.length < defaultBatchBytes.toNat)
    (hnode : ∀ k data, store.lookup k = some data → k.type ≠ .blob → (storedForm Z data).2.length ≤ L) :
    ∃ nodes blobs, nodes ≤ batch.length ∧ (nodes = batch.length → blobs = 0) ∧
      totalSize pullSizer batch = 4096 * nodes + blobs ∧
      recordsLength Z (served store batch) ≤ 46 * batch.length + nodes * L + blobs := by
  induction batch with
  | nil => exact ⟨0, 0, Nat.le_refl _, fun _ => rfl, rfl, Nat.zero_le _⟩
  | cons k batch ih =>
    obtain ⟨nodes, blobs, hle, hall, htotal, hrecords⟩ := ih fun k hk => hkeys k (List.mem_cons_of_mem _ hk)
    obtain ⟨data, hdata⟩ := Option.isSome_iff_exists.mp (hkeys k List.mem_cons_self)
    have hcons : recordsLength Z (served store (k :: batch)) =
        46 + (storedForm Z data).2.length + recordsLength Z (served store batch) := by
      rw [served, List.map_cons, hdata, recordsLength, List.map_cons, List.sum_cons]
      rfl
    have hsum : totalSize pullSizer (k :: batch) = (pullSizer k).toNat + totalSize pullSizer batch := rfl
    by_cases hblob : k.type = .blob
    · have hlength := verifyObject_length (h := hstore k data hdata) (.inl hblob)
      have hdefault : defaultBatchBytes.toNat < 2 ^ 64 := UInt64.toNat_lt _
      have hlt := hsize k data hdata
      have hpull : (pullSizer k).toNat = data.length := by
        rw [pullSizer, if_pos hblob, hlength, UInt64.toNat_ofNat', Nat.mod_eq_of_lt (Nat.lt_trans hlt hdefault)]
      have hstored := storedForm_le (Z := Z) data
      refine ⟨nodes, blobs + data.length, by rw [List.length_cons]; omega, ?_, by omega, ?_⟩
      · rw [List.length_cons]
        omega
      · rw [hcons, List.length_cons]
        omega
    · have hpull : (pullSizer k).toNat = 4096 := by
        rw [pullSizer, if_neg hblob]
        rfl
      have hL := hnode k data hdata hblob
      refine ⟨nodes + 1, blobs, by rw [List.length_cons]; omega, ?_, by omega, ?_⟩
      · rw [List.length_cons]
        omega
      · have hmul : (nodes + 1) * L = nodes * L + L := Nat.succ_mul nodes L
        rw [hcons, List.length_cons, hmul]
        omega

/-- The worst batch has 8191 nodes and a blob that takes up what is left of the target. -/
theorem worst_batch {L sig nodes blobs len : Nat} (hL : 8191 * L + sig ≤ 238694387) (hsig : sig ≤ 65536)
    (hlen : len ≤ 8192) (hnodes : nodes ≤ len) (hall : nodes = len → blobs = 0)
    (htotal : 4096 * nodes + blobs ≤ 62914560) : 46 * len + nodes * L + blobs + sig + 13 ≤ 268435456 := by
  rcases Nat.lt_or_ge nodes 8192 with hlt | hge
  · rcases Nat.le_total L 4096 with hsmall | hlarge
    · have : nodes * L ≤ nodes * 4096 := Nat.mul_le_mul_left _ hsmall
      omega
    · obtain ⟨d, rfl⟩ := Nat.exists_eq_add_of_le hlarge
      have : nodes * d ≤ 8191 * d := Nat.mul_le_mul_right _ (Nat.le_of_lt_succ hlt)
      rw [Nat.mul_add]
      omega
  · obtain rfl : nodes = 8192 := Nat.le_antisymm (Nat.le_trans hnodes hlen) hge
    omega

/-- A server that holds the objects a client pulls, each below the target of a batch, the nodes with at most `L`
stored bytes. -/
structure Pullable (H : Blake3) (Z : Zstd) (sg : Signatures) (store : Objects) (nonce : Bytes) (keys : List Key)
    (L sigLen : Nat) : Prop where
  honest : Honest H store
  held : ∀ k ∈ keys, store.has k = true
  below : ∀ k data, store.lookup k = some data → data.length < defaultBatchBytes.toNat
  node : ∀ k data, store.lookup k = some data → k.type ≠ .blob → (storedForm Z data).2.length ≤ L
  sig : ∀ h, (sg.sign nonce 200 h).length ≤ sigLen

theorem Pullable.totalSize_le (h : Pullable H Z sg store nonce keys L sigLen)
    (hb : batch ∈ batches keys defaultBatchBytes pullSizer) : totalSize pullSizer batch ≤ 62914560 := by
  have hbal := batches_balanced keys defaultBatchBytes pullSizer batch hb
  have hsize : ∀ k ∈ batch, (pullSizer k).toNat ≤ 62914560 := by
    intro k hk
    obtain ⟨data, hdata⟩ := Option.isSome_iff_exists.mp (h.held k (mem_of_mem_batches hb hk))
    unfold pullSizer
    split
    next hblob =>
      rw [verifyObject_length (h := h.honest k data hdata) (.inl hblob), UInt64.toNat_ofNat']
      exact Nat.le_trans (Nat.mod_le _ _) (Nat.le_of_lt (h.below k data hdata))
    next => decide
  have hle := Remotesync.totalSize_le hsize
  have hkeys : batch.length ≤ 8192 := hbal.keys
  rcases Nat.lt_or_ge 1 batch.length with hmany | hone
  · have hbytes := hbal.bytes hmany
    have hprod : batch.length * 62914560 ≤ 8192 * 62914560 := Nat.mul_le_mul_right _ hkeys
    rw [Nat.mod_eq_of_lt (by omega)] at hbytes
    exact hbytes
  · have hprod : batch.length * 62914560 ≤ 1 * 62914560 := Nat.mul_le_mul_right _ hone
    omega

/-- Replies to the batches of a pull are read as a whole if the nodes are small. -/
theorem Pullable.fits (h : Pullable H Z sg store nonce keys L sigLen) (hL : 8191 * L + sigLen ≤ 238694387)
    (hsig : sigLen ≤ 65536) (hb : batch ∈ batches keys defaultBatchBytes pullSizer) :
    ∃ body, postObjectsGet H Z sg store nonce (Keylist.flatten batch) = .ok body ∧ body.length ≤ maxResponse ∧
      fetchObjects H Z sg nonce (.ok body) = .ok (served store batch) := by
  have hheld : ∀ k ∈ batch, store.has k = true := fun k hk => h.held k (mem_of_mem_batches hb hk)
  have hmax : ∀ k data, store.lookup k = some data → data.length ≤ maxPayload := fun k data hdata =>
    Nat.le_trans (Nat.le_of_lt (h.below k data hdata)) (by decide)
  have hshort : ∀ d, (sg.sign nonce 200 d).length < 2 ^ 32 := fun d =>
    Nat.lt_of_le_of_lt (Nat.le_trans (h.sig d) hsig) (by decide)
  obtain ⟨body, hreply, ⟨d, hlen⟩, hfetch⟩ := fetchObjects_held (Z := Z) h.honest hheld hmax _ nonce hshort
  obtain ⟨nodes, blobs, hnodes, hall, htotal, hrecords⟩ := recordsLength_le h.honest hheld h.below h.node
  have hbound := h.totalSize_le hb
  rw [htotal] at hbound
  have hworst := worst_batch hL hsig (batches_balanced _ _ _ batch hb).keys hnodes hall hbound
  have hd := h.sig d
  have hfits : body.length ≤ 268435456 := by omega
  exact ⟨body, hreply, hfits, hfetch hfits⟩

/-! ## Batches that do not fit -/

/-- A hash that is the start of its input. -/
def startHash : Blake3 := fun b => ⟨(b ++ List.replicate 32 0).take 32, by simp⟩

/-- A key of the server whose signatures have a given length. -/
def plainSignatures (n : Nat) : Signatures where
  sign _ _ _ := List.replicate (n + 1) 0x41
  check _ _ _ _ := true
  sign_ne _ _ _ := List.cons_ne_nil _ _
  check_sign _ _ _ := rfl

/-- The store of some objects. -/
def holding (objs : List Object) (h : (objs.map Object.key).Nodup) : Objects where
  entries := objs.map fun o => ⟨o.key, o.data⟩
  nodupKeys := by
    rw [List.NodupKeys, List.keys, List.map_map]
    exact h

theorem lookup_holding {objs : List Object} (h : (objs.map Object.key).Nodup) :
    (holding objs h).lookup k = some data ↔ ⟨k, data⟩ ∈ objs := by
  have hmem : (⟨k, data⟩ : Sigma fun _ : Key => Bytes) ∈ (holding objs h).entries ↔ ⟨k, data⟩ ∈ objs := by
    constructor
    · intro hm
      obtain ⟨o, ho, heq⟩ := List.mem_map.mp hm
      cases heq
      exact ho
    · exact fun ho => List.mem_map.mpr ⟨_, ho, rfl⟩
  rw [← hmem, ← Option.mem_def, AList.mem_lookup_iff]

theorem served_holding {objs : List Object} (h : (objs.map Object.key).Nodup) {os : List Object} (hos : os ⊆ objs) :
    served (holding objs h) (os.map Object.key) = os := by
  rw [served, List.map_map]
  conv => rhs; rw [← List.map_id os]
  apply List.map_congr_left
  intro o ho
  have hlookup : (holding objs h).lookup o.key = some o.data := (lookup_holding h).mpr (hos ho)
  change (⟨o.key, ((holding objs h).lookup o.key).getD []⟩ : Object) = o
  rw [hlookup]
  rfl

/-- An object under the key of its length and bytes. -/
structure Keyed (H : Blake3) (t : ObjType) (o : Object) : Prop where
  new : Key.newFromHash t (.ofNat o.data.length) (H o.data) = .ok o.key
  type : t = .blob ∨ t = .xattrSet

theorem Keyed.verify (h : Keyed H t o) : verifyObject H o = .ok () := by
  have htype := Key.newFromHash_type h.new
  have hlength := Key.newFromHash_length h.new
  rw [verifyObject, hlength, htype, h.new]
  dsimp only
  rw [if_neg (by simp)]
  rcases h.type with rfl | rfl <;> simp

/-- Payloads of one length that differ at the start have different keys. -/
theorem Keyed.key_ne (h : Keyed startHash t o) (h' : Keyed startHash t' o') (hlen : o.data.length = o'.data.length)
    (hle : 8 ≤ o.data.length) (hne : o.data.take 8 ≠ o'.data.take 8) : o.key ≠ o'.key := by
  intro heq
  have hhash := Key.newFromHash_hash h.new
  have hhash' := Key.newFromHash_hash h'.new
  rw [heq, hhash', hlen] at hhash
  have hsize := Key.lengthSizeFor_le (.ofNat o'.data.length)
  have htake := congrArg (List.take 8) hhash
  have hstart (b : Bytes) (hb : 8 ≤ b.length) :
      ((startHash b).1.take (31 - Key.lengthSizeFor (.ofNat o'.data.length))).take 8 = b.take 8 := by
    rw [startHash, List.take_take, List.take_take, List.take_append_of_le_length (by omega)]
    congr 1
    omega
  rw [hstart _ (hlen ▸ hle), hstart _ hle] at htake
  exact hne htake.symm

/-- A codec with a short encoding of one directory. -/
def tableCodec (entries : List Entry) : Cbor :=
  { Cbor.counting with
    encodeEntries := fun l => if l = entries then [0x80] else 0x81 :: count l
    decodeEntries := fun b => if b = [0x80] then some entries else uncount b.tail }

/-- An empty file with its attributes elsewhere. -/
def xattrEntry (x : UInt8) (k : Key) : Entry := ⟨[x], 0o100644, 0, 0, 0, [], [], [], [], k.bytes⟩

theorem childKeys_xattrEntry (x : UInt8) (h : k.Canonical) : (xattrEntry x k).childKeys = .ok [k] := by
  have hne : k.bytes ≠ [] := fun hnil => absurd k.size_eq (by rw [hnil]; decide)
  have hparse : parseKeys (fun _ => .xattrsKey (xattrEntry x k).name) 0 [k.bytes] = .ok [k] :=
    parseKeys_bytes fun k' hk' => by
      rw [List.mem_singleton.mp hk']
      exact h
  rw [Entry.childKeys]
  change (Except.ok [] >>= fun content => parseKeys _ 0 (if k.bytes = [] then [] else [k.bytes]) >>= _) = _
  rw [if_neg hne, hparse]
  rfl

theorem mapM_childKeys {key : UInt8 → Key} (h : ∀ x, (key x).Canonical) (names : List UInt8) :
    (names.map fun x => xattrEntry x (key x)).mapM Entry.childKeys = .ok (names.map fun x => [key x]) := by
  induction names with
  | nil => rfl
  | cons x names ih =>
    rw [List.map_cons, List.mapM_cons, childKeys_xattrEntry x (h x), ih]
    rfl

theorem verifyObject_encode {H : Blake3} (h : Fstree.encode H t n data = .ok o) (hblob : t ≠ .blob)
    (hxattr : t ≠ .xattrSet) : verifyObject H o = .ok () := by
  have hnew : Key.newFromHash t n (H o.data) = .ok o.key := by
    unfold Fstree.encode at h
    split at h
    next hk =>
      cases h
      exact hk
    next => cases h
  have htype := Key.newFromHash_type hnew
  rw [verifyObject, htype, Key.newFromHash_length hnew, hnew]
  dsimp only
  rw [if_neg (by simp)]
  cases t with
  | blob => exact absurd rfl hblob
  | xattrSet => exact absurd rfl hxattr
  | _ => rfl

/-- A directory of files whose attributes are in large sets of their own, one set for each name. -/
structure XattrTree (n : Nat) (names : List UInt8) where
  set : UInt8 → Object
  keyed : ∀ x, Keyed startHash .xattrSet (set x)
  data : ∀ x, (set x).data = [0xa1, 0x41, x, 0x5a] ++ putUint 4 n ++ List.replicate n 0
  root : Object
  encoded : encodeDirLeaf startHash (tableCodec (names.map fun x => xattrEntry x (set x).key))
    (names.map fun x => xattrEntry x (set x).key) = .ok root

namespace XattrTree
variable {n : Nat} {names : List UInt8} (t : XattrTree n names)

def entries : List Entry := names.map fun x => xattrEntry x (t.set x).key

def sets : List Object := names.map t.set

theorem canonical (x : UInt8) : (t.set x).key.Canonical := Key.newFromHash_canonical (t.keyed x).new

theorem root_data : t.root.data = [0x80] := by
  rw [(encodeDirLeaf_ok t.encoded).1]
  exact if_pos rfl

theorem length_data (x : UInt8) : (t.set x).data.length = n + 8 := by
  rw [t.data, List.length_append, List.length_append, length_putUint, List.length_replicate]
  simp
  omega

theorem verify_root : verifyObject startHash t.root = .ok () := by
  obtain ⟨sub, -, ho⟩ := Except.bind_eq_ok.mp t.encoded
  exact verifyObject_encode ho (by decide) (by decide)

theorem nodup (hnames : names.Nodup) : ((t.root :: t.sets).map Object.key).Nodup := by
  rw [List.map_cons, List.nodup_cons]
  constructor
  · intro hmem
    obtain ⟨o, ho, heq⟩ := List.mem_map.mp hmem
    obtain ⟨x, -, rfl⟩ := List.mem_map.mp ho
    have htype := (encodeDirLeaf_ok t.encoded).2.1
    rw [← heq, Key.newFromHash_type (t.keyed x).new] at htype
    cases htype
  · rw [sets, List.map_map]
    refine hnames.map_on ?_
    intro x _ y _ heq
    by_contra hne
    refine (t.keyed x).key_ne (t.keyed y) ?_ (by rw [t.length_data]; omega) ?_ heq
    · rw [t.length_data, t.length_data]
    · rw [t.data, t.data]
      simp [hne]

theorem childKeys_root : childKeys (tableCodec t.entries) t.root.key t.root.data = .ok (t.sets.map Object.key) := by
  have hdecode : (tableCodec t.entries).decodeEntries [0x80] = some t.entries := by simp [tableCodec]
  rw [t.root_data, childKeys, (encodeDirLeaf_ok t.encoded).2.1]
  dsimp only
  rw [hdecode]
  dsimp only
  rw [entries, mapM_childKeys t.canonical, sets, List.map_map]
  change Except.ok (names.map fun x => [(t.set x).key]).flatten = _
  rw [← List.flatMap_def, ← List.map_eq_flatMap]
  rfl

/-- The tree in a store. -/
def held (hnames : names.Nodup) : Objects := holding (t.root :: t.sets) (t.nodup hnames)

variable (hnames : names.Nodup)

theorem lookup_set (h : x ∈ names) : (t.held hnames).lookup (t.set x).key = some (t.set x).data :=
  (lookup_holding _).mpr (List.mem_cons_of_mem _ (List.mem_map.mpr ⟨x, h, rfl⟩))

theorem complete : Complete (tableCodec t.entries) (t.held hnames) t.root.key := by
  have hroot : (t.held hnames).lookup t.root.key = some t.root.data := (lookup_holding _).mpr List.mem_cons_self
  have hleaf (x : UInt8) : childKeys (tableCodec t.entries) (t.set x).key (t.set x).data = .ok [] :=
    childKeys_leaf (by rw [Key.newFromHash_type (t.keyed x).new]; rfl)
  intro k hk
  have hcases : k = t.root.key ∨ ∃ x ∈ names, k = (t.set x).key := by
    induction hk with
    | refl => exact .inl rfl
    | tail _ hstep ih =>
      obtain ⟨data, cs, hlookup, hchildren, hmem⟩ := hstep
      rcases ih with rfl | ⟨x, hx, rfl⟩
      · rw [hroot] at hlookup
        cases hlookup
        rw [t.childKeys_root] at hchildren
        cases hchildren
        obtain ⟨o, ho, rfl⟩ := List.mem_map.mp hmem
        obtain ⟨x, hx, rfl⟩ := List.mem_map.mp ho
        exact .inr ⟨x, hx, rfl⟩
      · rw [t.lookup_set hnames hx] at hlookup
        cases hlookup
        rw [hleaf] at hchildren
        cases hchildren
        cases hmem
  rcases hcases with rfl | ⟨x, hx, rfl⟩
  · exact ⟨_, _, hroot, t.childKeys_root⟩
  · exact ⟨_, _, t.lookup_set hnames hx, hleaf x⟩

theorem honest : Honest startHash (t.held hnames) := by
  intro k data hdata
  rcases List.mem_cons.mp ((lookup_holding _).mp hdata) with heq | hmem
  · rw [heq]
    exact t.verify_root
  · obtain ⟨x, -, heq⟩ := List.mem_map.mp hmem
    rw [← heq]
    exact (t.keyed x).verify

theorem length_le {payload : Bytes} (h : (t.held hnames).lookup k = some payload) : payload.length ≤ n + 8 := by
  rcases List.mem_cons.mp ((lookup_holding _).mp h) with heq | hmem
  · rw [show payload = t.root.data from congrArg Object.data heq, t.root_data, List.length_singleton]
    omega
  · obtain ⟨x, -, heq⟩ := List.mem_map.mp hmem
    rw [← show (t.set x).data = payload from congrArg Object.data heq, t.length_data]

end XattrTree

theorem objectRecord_stored (o : Object) : ∃ head, head.length = 46 ∧ objectRecord .stored o = head ++ o.data := by
  rw [objectRecord, storedForm_stored, recordBytes]
  refine ⟨_, ?_, rfl⟩
  rw [List.length_append, length_recordHead, length_putUint]

/-- The reply with all sets of a tree: the last set is a run of zeros. -/
theorem XattrTree.reply {init : List UInt8} {x : UInt8} (t : XattrTree n (init ++ [x]))
    (hnames : (init ++ [x]).Nodup) (hn : n + 8 ≤ maxPayload) :
    ∃ body front back, postObjectsGet startHash .stored (plainSignatures 247) (t.held hnames) []
        (Keylist.flatten (t.sets.map Object.key)) = .ok body ∧
      body = front ++ List.replicate n 0 ++ back ∧ front.length = 8 + init.length * (n + 54) + 54 := by
  have hheld : ∀ k ∈ t.sets.map Object.key, (t.held hnames).has k = true := by
    intro k hk
    obtain ⟨o, ho, rfl⟩ := List.mem_map.mp hk
    obtain ⟨y, hy, rfl⟩ := List.mem_map.mp ho
    exact Option.isSome_iff_exists.mpr ⟨_, t.lookup_set hnames hy⟩
  have hmax : ∀ k data, (t.held hnames).lookup k = some data → data.length ≤ maxPayload :=
    fun k data hdata => Nat.le_trans (t.length_le hnames hdata) hn
  obtain ⟨pack, hpack, -, hreply⟩ :=
    postObjectsGet_held (Z := .stored) (t.honest hnames) hheld hmax (plainSignatures 247) []
  have hserved : served (t.held hnames) (t.sets.map Object.key) = t.sets :=
    served_holding _ (List.subset_cons_self _ _)
  rw [writePack_eq (served_le hheld hmax), hserved] at hpack
  obtain ⟨head, hhead, hrecord⟩ := objectRecord_stored (t.set x)
  have hsets : t.sets = init.map t.set ++ [t.set x] := List.map_append
  have hrecords : ((init.map t.set).flatMap (objectRecord .stored)).length = init.length * (n + 54) := by
    rw [length_flatMap_const (w := n + 54), List.length_map]
    intro o ho
    obtain ⟨y, -, rfl⟩ := List.mem_map.mp ho
    obtain ⟨hd, hhd, hrec⟩ := objectRecord_stored (t.set y)
    rw [hrec, List.length_append, hhd, t.length_data]
    omega
  generalize (plainSignatures 247).sign [] 200 (startHash pack) = sig at hreply
  refine ⟨_, packMagic ++ (init.map t.set).flatMap (objectRecord .stored) ++ head ++
    ([0xa1, 0x41, x, 0x5a] ++ putUint 4 n), tagEnd :: (sig ++ putUint trailerLenSize sig.length), hreply, ?_, ?_⟩
  · rw [← Except.ok.inj hpack, hsets, List.flatMap_append, List.flatMap_singleton, hrecord, t.data,
      appendSignatureTrailer]
    simp only [List.append_assoc, List.cons_append, List.nil_append]
  · simp only [List.length_append, hrecords, hhead, length_putUint]
    simp [packMagic]

end AmberStore.Remotesync
