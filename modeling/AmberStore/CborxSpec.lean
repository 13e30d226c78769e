import AmberStore.Cborx

/-!
# What the xattr decoder accepts

A `Wire` is a map as it stands in a byte string: each head with the form it is written in, the pairs in the order
they come. `decodeXattrs` accepts the bytes of every `Wire`, while `encodeXattrs` only writes those with shortest
heads and increasing names.
-/

namespace AmberStore.Cborx

/-! ## Heads -/

/-- Where the argument of a head stands: in the initial byte or in 1, 2, 4 or 8 bytes behind it. -/
inductive Form where
  | direct | one | two | four | eight
  deriving DecidableEq, Repr

namespace Form

def width : Form → Nat
  | direct => 0
  | one => 1
  | two => 2
  | four => 4
  | eight => 8

/-- The arguments a form has room for are those below its limit. -/
def limit : Form → Nat
  | direct => 24
  | f => 256 ^ f.width

/-- The additional information in the initial byte. -/
def info : Form → Nat → Nat
  | direct, n => n
  | one, _ => 24
  | two, _ => 25
  | four, _ => 26
  | eight, _ => 27

def head (f : Form) (major : UInt8) (n : Nat) : Bytes :=
  (major <<< 5 ||| .ofNat (f.info n)) :: Bytes.putUint f.width n

def shortest (n : Nat) : Form :=
  if n < 24 then direct else if n < 256 then one else if n < 256 ^ 2 then two
  else if n < 256 ^ 4 then four else eight

theorem length_head (f : Form) (major : UInt8) (n : Nat) : (f.head major n).length = f.width + 1 := by
  rw [head, List.length_cons, Bytes.length_putUint]

theorem width_inj {f g : Form} (h : f.width = g.width) : f = g := by
  cases f <;> cases g <;> first | rfl | cases h

theorem limit_le (f : Form) : f.limit ≤ 2 ^ 64 := by
  cases f <;> decide

theorem lt_shortest (h : n < 2 ^ 64) : n < (shortest n).limit := by
  unfold shortest
  split <;> [assumption; skip]
  split <;> [assumption; skip]
  split <;> [assumption; skip]
  split <;> assumption

theorem info_lt (f : Form) (h : n < f.limit) : f.info n < 28 := by
  cases f with
  | direct => exact Nat.lt_trans h (by decide)
  | _ => simp [info]

end Form

/-- The initial byte keeps the major type and the additional information apart. -/
theorem initial_byte : ∀ (major : Fin 8) (ai : Fin 32),
    (UInt8.ofNat major <<< 5 ||| .ofNat ai) >>> 5 = .ofNat major ∧
    (UInt8.ofNat major <<< 5 ||| .ofNat ai) &&& 0x1f = .ofNat ai := by
  decide +kernel

theorem initial_byte_parts : ∀ x : Fin 256,
    UInt8.ofNat x >>> 5 < 8 ∧ (UInt8.ofNat x >>> 5) <<< 5 ||| (UInt8.ofNat x &&& 0x1f) = .ofNat x := by
  decide +kernel

theorem toUInt8_shift (n : UInt64) (k : Nat) (hk : k < 64) :
    (n >>> .ofNat k).toUInt8 = .ofNat (n.toNat / 2 ^ k) := by
  apply UInt8.toNat_inj.mp
  rw [UInt64.toNat_toUInt8, UInt64.toNat_shiftRight, UInt8.toNat_ofNat', UInt64.toNat_ofNat',
    Nat.mod_eq_of_lt (Nat.lt_trans hk (by decide)), Nat.mod_eq_of_lt hk, Nat.shiftRight_eq_div_pow]

theorem appendHead_eq (major : UInt8) (n : UInt64) :
    appendHead major n = (Form.shortest n.toNat).head major n.toNat := by
  have h0 : n.toUInt8 = .ofNat n.toNat := by
    apply UInt8.toNat_inj.mp
    rw [UInt64.toNat_toUInt8, UInt8.toNat_ofNat']
  have h8 : (n >>> 8).toUInt8 = .ofNat (n.toNat / 256) := toUInt8_shift n 8 (by decide)
  have h16 : (n >>> 16).toUInt8 = .ofNat (n.toNat / 65536) := toUInt8_shift n 16 (by decide)
  have h24 : (n >>> 24).toUInt8 = .ofNat (n.toNat / 16777216) := toUInt8_shift n 24 (by decide)
  have h32 : (n >>> 32).toUInt8 = .ofNat (n.toNat / 4294967296) := toUInt8_shift n 32 (by decide)
  have h40 : (n >>> 40).toUInt8 = .ofNat (n.toNat / 1099511627776) := toUInt8_shift n 40 (by decide)
  have h48 : (n >>> 48).toUInt8 = .ofNat (n.toNat / 281474976710656) := toUInt8_shift n 48 (by decide)
  have h56 : (n >>> 56).toUInt8 = .ofNat (n.toNat / 72057594037927936) := toUInt8_shift n 56 (by decide)
  have hlt : ∀ m : UInt64, (n < m) = (n.toNat < m.toNat) := fun m => propext UInt64.lt_iff_toNat_lt
  simp only [appendHead, Form.shortest, hlt]
  rw [show ((24 : UInt64).toNat) = 24 from rfl, show ((1 : UInt64) <<< 8).toNat = 256 from rfl,
    show ((1 : UInt64) <<< 16).toNat = 256 ^ 2 from rfl, show ((1 : UInt64) <<< 32).toNat = 256 ^ 4 from rfl]
  rw [h0, h8, h16, h24, h32, h40, h48, h56]
  split <;> [skip; split <;> [skip; split <;> [skip; split]]]
  all_goals simp only [Form.head, Form.info, Form.width, Bytes.putUint, Nat.div_div_eq_div_mul, List.nil_append,
    List.cons_append, Nat.reduceMul]
  all_goals rfl

theorem readArg_putUint {major : UInt8} (h : n < 256 ^ w) (rest : Bytes) :
    readArg major w (Bytes.putUint w n ++ rest) = .ok (major, .ofNat n, rest) := by
  have hlen : (Bytes.putUint w n).length = w := Bytes.length_putUint w n
  have hnot : ¬ (Bytes.putUint w n ++ rest).length < w := by
    rw [List.length_append, hlen]
    omega
  rw [readArg, if_neg hnot, List.take_left' hlen, List.drop_left' hlen, Bytes.uint_putUint_of_lt h]

theorem readArg_ok {major : UInt8} {b : Bytes} (hw : w ≤ 8) (h : readArg major w b = .ok (major', n, rest)) :
    major' = major ∧ n.toNat < 256 ^ w ∧ b = Bytes.putUint w n.toNat ++ rest := by
  unfold readArg at h
  split at h
  next => cases h
  next hlen =>
  injection h with h
  injection h with hm h
  injection h with hn hrest
  have htake : (b.take w).length = w := List.length_take_of_le (Nat.le_of_not_lt hlen)
  have hlt := Bytes.uint_lt (b.take w)
  rw [htake] at hlt
  have hpow : 256 ^ w ≤ 2 ^ 64 := Nat.pow_le_pow_right (n := 256) (by decide) hw
  have hnat : n.toNat = Bytes.uint (b.take w) := by
    rw [← hn, UInt64.toNat_ofNat', Nat.mod_eq_of_lt (Nat.lt_of_lt_of_le hlt hpow)]
  refine ⟨hm.symm, by rw [hnat]; exact hlt, ?_⟩
  have hput := Bytes.putUint_uint (b.take w)
  rw [htake] at hput
  rw [hnat, hput, ← hrest, List.take_append_drop]

theorem readHead_head {f : Form} {major : UInt8} (hm : major < 8) (hn : n < f.limit) (rest : Bytes) :
    readHead (f.head major n ++ rest) = .ok (major, .ofNat n, rest) := by
  obtain ⟨hmajor, hai⟩ := initial_byte ⟨major.toNat, UInt8.lt_iff_toNat_lt.mp hm⟩
    ⟨f.info n, Nat.lt_trans (f.info_lt hn) (by decide)⟩
  simp only [UInt8.ofNat_toNat] at hmajor hai
  rw [Form.head, List.cons_append, readHead, hmajor, hai]
  cases f with
  | direct =>
    have hlt : UInt8.ofNat n < 24 := by
      rw [UInt8.lt_iff_toNat_lt, UInt8.toNat_ofNat']
      exact Nat.lt_of_le_of_lt (Nat.mod_le _ _) hn
    have harg : (UInt8.ofNat n).toUInt64 = .ofNat n := by
      apply UInt64.toNat_inj.mp
      have : n < 24 := hn
      rw [UInt8.toNat_toUInt64, UInt8.toNat_ofNat', UInt64.toNat_ofNat']
      omega
    simp only [Form.info, if_pos hlt, harg, Form.width, Bytes.putUint, List.nil_append]
  | one => exact readArg_putUint hn rest
  | two => exact readArg_putUint hn rest
  | four => exact readArg_putUint hn rest
  | eight => exact readArg_putUint hn rest

theorem readHead_ok {b : Bytes} (h : readHead b = .ok (major, n, rest)) :
    major < 8 ∧ ∃ f : Form, n.toNat < f.limit ∧ b = f.head major n.toNat ++ rest := by
  cases b with
  | nil => cases h
  | cons x b =>
    obtain ⟨hlt, hx⟩ := initial_byte_parts ⟨x.toNat, x.toNat_lt⟩
    simp only [UInt8.ofNat_toNat] at hlt hx
    have arg {f : Form} (hai : UInt8.ofNat (f.info n.toNat) = x &&& 0x1f) (hw : f.width ≤ 8)
        (hlim : f.limit = 256 ^ f.width) (h : readArg (x >>> 5) f.width b = .ok (major, n, rest)) :
        major < 8 ∧ ∃ f : Form, n.toNat < f.limit ∧ x :: b = f.head major n.toNat ++ rest := by
      obtain ⟨rfl, hn, rfl⟩ := readArg_ok hw h
      refine ⟨hlt, f, by rw [hlim]; exact hn, ?_⟩
      rw [Form.head, hai, hx, List.cons_append]
    simp only [readHead] at h
    split at h
    next hai =>
      injection h with h
      injection h with hm h
      injection h with hn hrest
      have hnat : n.toNat = (x &&& 0x1f).toNat := by rw [← hn, UInt8.toNat_toUInt64]
      subst hm hrest
      refine ⟨hlt, .direct, ?_, ?_⟩
      · rw [hnat]
        exact UInt8.lt_iff_toNat_lt.mp hai
      · rw [Form.head, Form.info, hnat, UInt8.ofNat_toNat, hx]
        rfl
    split at h
    next hai => exact arg (f := .one) hai.symm (by decide) rfl h
    split at h
    next hai => exact arg (f := .two) hai.symm (by decide) rfl h
    split at h
    next hai => exact arg (f := .four) hai.symm (by decide) rfl h
    split at h
    next hai => exact arg (f := .eight) hai.symm (by decide) rfl h
    cases h

theorem head_inj {f g : Form} {major : UInt8} (hm : major < 8) (hf : n < f.limit) (hg : k < g.limit)
    (h : f.head major n ++ rest = g.head major k ++ rest') : f = g ∧ n = k ∧ rest = rest' := by
  have hread := readHead_head hm hf rest
  rw [h, readHead_head hm hg rest'] at hread
  injection hread with hread
  injection hread with _ hread
  injection hread with hn hrest
  have hnat : n = k := by
    have := congrArg UInt64.toNat hn
    rw [UInt64.toNat_ofNat', UInt64.toNat_ofNat', Nat.mod_eq_of_lt (Nat.lt_of_lt_of_le hf f.limit_le),
      Nat.mod_eq_of_lt (Nat.lt_of_lt_of_le hg g.limit_le)] at this
    exact this.symm
  have hlen := congrArg List.length h
  rw [List.length_append, List.length_append, Form.length_head, Form.length_head, hrest] at hlen
  exact ⟨Form.width_inj (by omega), hnat, hrest.symm⟩

/-! ## Byte strings -/

/-- A byte string as it is written: the form of its head and its bytes. -/
@[ext] structure Str where
  form : Form
  body : Bytes
  fits : body.length < form.limit

namespace Str

def bytes (s : Str) : Bytes := s.form.head 2 s.body.length ++ s.body

/-- The string in the encoder's form. -/
def short (body : Bytes) (h : body.length < 2 ^ 64) : Str := ⟨.shortest body.length, body, Form.lt_shortest h⟩

theorem lt_two_pow (s : Str) : s.body.length < 2 ^ 64 := Nat.lt_of_lt_of_le s.fits s.form.limit_le

theorem bytes_of_shortest {s : Str} (h : s.form = .shortest s.body.length) : s.bytes = appendBStr s.body := by
  have hnat : (UInt64.ofNat s.body.length).toNat = s.body.length := by
    rw [UInt64.toNat_ofNat', Nat.mod_eq_of_lt s.lt_two_pow]
  rw [appendBStr, appendHead_eq, hnat, bytes, h]

theorem length_bytes_pos (s : Str) : 1 ≤ s.bytes.length := by
  rw [bytes, List.length_append, Form.length_head]
  omega

theorem append_inj {s t : Str} (h : s.bytes ++ rest = t.bytes ++ rest') : s = t ∧ rest = rest' := by
  rw [bytes, bytes, List.append_assoc, List.append_assoc] at h
  obtain ⟨hform, hlen, htail⟩ := head_inj (by decide) s.fits t.fits h
  obtain ⟨hbody, hrest⟩ := List.append_inj htail hlen
  exact ⟨Str.ext hform hbody, hrest⟩

end Str

theorem readBStr_bytes (s : Str) (rest : Bytes) : readBStr (s.bytes ++ rest) = .ok (s.body, rest) := by
  have hnat : (UInt64.ofNat s.body.length).toNat = s.body.length := by
    rw [UInt64.toNat_ofNat', Nat.mod_eq_of_lt s.lt_two_pow]
  have hlen : ¬ (s.body ++ rest).length < s.body.length := by
    rw [List.length_append]
    omega
  rw [readBStr, Str.bytes, List.append_assoc, readHead_head (by decide) s.fits]
  simp only [bind, Except.bind, hnat, if_neg hlen, List.take_left, List.drop_left]
  rfl

theorem readBStr_ok {b : Bytes} (h : readBStr b = .ok (val, rest)) :
    ∃ s : Str, s.body = val ∧ b = s.bytes ++ rest := by
  unfold readBStr at h
  cases hread : readHead b with
  | error e =>
    rw [hread] at h
    cases h
  | ok r =>
    obtain ⟨major, n, b'⟩ := r
    obtain ⟨_, f, hn, rfl⟩ := readHead_ok hread
    rw [hread] at h
    simp only [bind, Except.bind] at h
    by_cases hmajor : major = 2
    case neg =>
      rw [if_pos hmajor] at h
      cases h
    rw [if_neg (not_not.mpr hmajor)] at h
    by_cases hlen : b'.length < n.toNat
    case pos =>
      simp only [pure, Except.pure, if_pos hlen] at h
      cases h
    simp only [pure, Except.pure, if_neg hlen] at h
    injection h with h
    injection h with hval hrest
    have htake : val.length = n.toNat := by
      rw [← hval]
      exact List.length_take_of_le (Nat.le_of_not_lt hlen)
    refine ⟨⟨f, val, by rw [htake]; exact hn⟩, rfl, ?_⟩
    change _ = f.head 2 val.length ++ val ++ rest
    rw [htake, List.append_assoc, ← hval, ← hrest, List.take_append_drop, hmajor]

/-! ## Maps -/

def pairBytes (p : Str × Str) : Bytes := p.1.bytes ++ p.2.bytes

/-- Store the pairs one after another: of two values under one name the later one stays. -/
def insertPairs (m : Xattrs) (ps : List (Str × Str)) : Xattrs :=
  ps.foldl (fun m p => m.insert p.1.body p.2.body) m

/-- A map as it is written: the form of its head and its pairs in their order. -/
@[ext] structure Wire where
  form : Form
  pairs : List (Str × Str)
  fits : pairs.length < form.limit

namespace Wire

def bytes (t : Wire) : Bytes := t.form.head 5 t.pairs.length ++ t.pairs.flatMap pairBytes

def xattrs (t : Wire) : Xattrs := insertPairs ∅ t.pairs

/-- Every head is in the shortest form. -/
structure Shortest (t : Wire) : Prop where
  form : t.form = .shortest t.pairs.length
  name : ∀ p ∈ t.pairs, p.1.form = .shortest p.1.body.length
  value : ∀ p ∈ t.pairs, p.2.form = .shortest p.2.body.length

/-- The names come in the strict order of their encodings. -/
def Increasing (t : Wire) : Prop :=
  t.pairs.Pairwise fun p q => appendBStr p.1.body < appendBStr q.1.body

theorem length_flatMap_pairBytes (ps : List (Str × Str)) : 2 * ps.length ≤ (ps.flatMap pairBytes).length := by
  induction ps with
  | nil => exact Nat.le_refl _
  | cons p ps ih =>
    have hname := p.1.length_bytes_pos
    have hvalue := p.2.length_bytes_pos
    rw [List.flatMap_cons, List.length_append, List.length_cons, pairBytes, List.length_append]
    omega

theorem flatMap_pairBytes_inj {ps qs : List (Str × Str)} (hlen : ps.length = qs.length)
    (h : ps.flatMap pairBytes = qs.flatMap pairBytes) : ps = qs := by
  induction ps generalizing qs with
  | nil => exact (List.length_eq_zero_iff.mp hlen.symm).symm
  | cons p ps ih =>
    cases qs with
    | nil => cases hlen
    | cons q qs =>
      simp only [List.flatMap_cons, pairBytes, List.append_assoc] at h
      obtain ⟨hname, h⟩ := Str.append_inj h
      obtain ⟨hvalue, h⟩ := Str.append_inj h
      rw [Prod.ext hname hvalue, ih (Nat.succ_inj.mp hlen) h]

theorem bytes_inj {t u : Wire} (h : t.bytes = u.bytes) : t = u := by
  obtain ⟨hform, hlen, hpairs⟩ := head_inj (by decide) t.fits u.fits h
  exact Wire.ext hform (flatMap_pairBytes_inj hlen hpairs)

end Wire

theorem readPairs_flatMap (ps : List (Str × Str)) (i : Nat) (rest : Bytes) (m : Xattrs) :
    readPairs ps.length i (ps.flatMap pairBytes ++ rest) m = .ok (insertPairs m ps, rest) := by
  induction ps generalizing i m with
  | nil => rfl
  | cons p ps ih =>
    rw [List.length_cons, readPairs, List.flatMap_cons, pairBytes, List.append_assoc, List.append_assoc,
      readBStr_bytes]
    simp only [Except.mapError, bind, Except.bind, readBStr_bytes]
    exact ih (i + 1) (m.insert p.1.body p.2.body)

theorem readPairs_ok {n i : Nat} {b : Bytes} {m : Xattrs} (h : readPairs n i b m = .ok (m', rest)) :
    ∃ ps, ps.length = n ∧ b = ps.flatMap pairBytes ++ rest ∧ m' = insertPairs m ps := by
  induction n generalizing i b m with
  | zero =>
    cases h
    exact ⟨[], rfl, rfl, rfl⟩
  | succ n ih =>
    rw [readPairs] at h
    cases hname : readBStr b with
    | error e =>
      rw [hname] at h
      cases h
    | ok r =>
      obtain ⟨name, b'⟩ := r
      obtain ⟨s, rfl, rfl⟩ := readBStr_ok hname
      simp only [hname, Except.mapError, bind, Except.bind] at h
      cases hval : readBStr b' with
      | error e =>
        rw [hval] at h
        cases h
      | ok r =>
        obtain ⟨val, b''⟩ := r
        obtain ⟨v, rfl, rfl⟩ := readBStr_ok hval
        simp only [hval] at h
        obtain ⟨ps, hlen, rfl, hm⟩ := ih h
        refine ⟨(s, v) :: ps, by rw [List.length_cons, hlen], ?_, hm⟩
        rw [List.flatMap_cons, pairBytes, List.append_assoc, List.append_assoc]

/-- The decoder accepts every map that is written in some form. -/
theorem decodeXattrs_bytes (t : Wire) : decodeXattrs t.bytes = .ok t.xattrs := by
  have hnat : (UInt64.ofNat t.pairs.length).toNat = t.pairs.length := by
    rw [UInt64.toNat_ofNat', Nat.mod_eq_of_lt (Nat.lt_of_lt_of_le t.fits t.form.limit_le)]
  have hguard : ¬ (t.pairs.flatMap pairBytes).length / 2 < t.pairs.length := by
    have := Wire.length_flatMap_pairBytes t.pairs
    omega
  have hpairs := readPairs_flatMap t.pairs 0 [] ∅
  rw [List.append_nil] at hpairs
  rw [decodeXattrs, Wire.bytes, readHead_head (by decide) t.fits]
  simp only [bind, Except.bind, hnat, if_neg hguard, hpairs]
  rfl

theorem decodeXattrs_ok {b : Bytes} (h : decodeXattrs b = .ok m) : ∃ t : Wire, t.bytes = b ∧ t.xattrs = m := by
  unfold decodeXattrs at h
  cases hread : readHead b with
  | error e =>
    rw [hread] at h
    cases h
  | ok r =>
    obtain ⟨major, n, b'⟩ := r
    obtain ⟨_, f, hn, rfl⟩ := readHead_ok hread
    simp only [hread, bind, Except.bind] at h
    by_cases hmajor : major = 5
    case neg =>
      rw [if_pos hmajor] at h
      cases h
    simp only [if_neg (not_not.mpr hmajor), pure, Except.pure] at h
    by_cases hguard : b'.length / 2 < n.toNat
    case pos =>
      rw [if_pos hguard] at h
      cases h
    simp only [if_neg hguard] at h
    cases hpairs : readPairs n.toNat 0 b' ∅ with
    | error e =>
      rw [hpairs] at h
      cases h
    | ok r =>
      obtain ⟨m', rest⟩ := r
      obtain ⟨ps, hlen, rfl, rfl⟩ := readPairs_ok hpairs
      simp only [hpairs] at h
      by_cases hrest : rest.length = 0
      case neg =>
        rw [if_pos hrest] at h
        cases h
      rw [if_neg (not_not.mpr hrest)] at h
      injection h with h
      refine ⟨⟨f, ps, by rw [hlen]; exact hn⟩, ?_, h⟩
      change f.head 5 ps.length ++ ps.flatMap pairBytes = _
      rw [hlen, hmajor, List.length_eq_zero_iff.mp hrest, List.append_nil]

/-! ## The encoder's maps -/

/-- The sizes a Go map of byte strings can have: its lengths fit the 64-bit argument of a head. -/
structure Small (m : Xattrs) : Prop where
  count : m.keys.length < 2 ^ 64
  name : ∀ n ∈ m.keys, n.length < 2 ^ 64
  value : ∀ n v, m.lookup n = some v → v.length < 2 ^ 64

theorem appendBStr_inj (hx : x.length < 2 ^ 64) (hy : y.length < 2 ^ 64) (h : appendBStr x = appendBStr y) :
    x = y := by
  have hstr : (Str.short x hx).bytes ++ [] = (Str.short y hy).bytes ++ [] := by
    rw [Str.bytes_of_shortest rfl, Str.bytes_of_shortest rfl]
    exact congrArg (· ++ []) h
  exact congrArg Str.body (Str.append_inj hstr).1

theorem mem_sortedNames {m : Xattrs} : n ∈ sortedNames m ↔ n ∈ m.keys := (List.mergeSort_perm _ _).mem_iff

theorem length_sortedNames (m : Xattrs) : (sortedNames m).length = m.keys.length :=
  (List.mergeSort_perm _ _).length_eq

theorem sortedNames_pairwise (m : Xattrs) :
    (sortedNames m).Pairwise fun a b => ¬ appendBStr b < appendBStr a := by
  have htrans (a b c : Bytes) (hab : (!decide (appendBStr b < appendBStr a)) = true)
      (hbc : (!decide (appendBStr c < appendBStr b)) = true) : (!decide (appendBStr c < appendBStr a)) = true := by
    rw [Bool.not_eq_true', decide_eq_false_iff_not] at hab hbc ⊢
    exact List.not_lt.mpr (List.le_trans (List.not_lt.mp hab) (List.not_lt.mp hbc))
  have htotal (a b : Bytes) :
      (!decide (appendBStr b < appendBStr a) || !decide (appendBStr a < appendBStr b)) = true := by
    rw [Bool.or_eq_true, Bool.not_eq_true', Bool.not_eq_true', decide_eq_false_iff_not, decide_eq_false_iff_not]
    exact (List.le_total (appendBStr a) (appendBStr b)).imp List.not_lt.mpr List.not_lt.mpr
  refine (List.pairwise_mergeSort htrans htotal m.keys).imp ?_
  intro a b h
  rw [Bool.not_eq_true', decide_eq_false_iff_not] at h
  exact h

/-- The names are listed in the strict order of their encodings. -/
theorem Small.sortedNames_increasing {m : Xattrs} (h : Small m) :
    (sortedNames m).Pairwise fun a b => appendBStr a < appendBStr b := by
  have hnodup : (sortedNames m).Nodup := (List.mergeSort_perm _ _).nodup_iff.mpr m.keys_nodup
  refine ((sortedNames_pairwise m).and hnodup).imp_of_mem ?_
  intro a b ha hb hab
  by_contra hlt
  refine hab.2 (appendBStr_inj (h.name a (mem_sortedNames.mp ha)) (h.name b (mem_sortedNames.mp hb)) ?_)
  exact List.le_antisymm (List.not_lt.mp hab.1) (List.not_lt.mp hlt)

/-- A list of the names in increasing order is the sorted one. -/
theorem sortedNames_eq {m : Xattrs} {names : List Bytes}
    (h : names.Pairwise fun a b => appendBStr a < appendBStr b) (hmem : ∀ n, n ∈ names ↔ n ∈ m.keys) :
    sortedNames m = names := by
  have hne : names.Pairwise fun a b => appendBStr a ≠ appendBStr b := by
    refine h.imp ?_
    intro a b hlt heq
    rw [heq] at hlt
    exact List.lt_irrefl _ hlt
  have hnodup : names.Nodup := hne.imp fun hne heq => hne (congrArg appendBStr heq)
  have hperm : (sortedNames m).Perm names :=
    (List.mergeSort_perm _ _).trans ((List.perm_ext_iff_of_nodup m.keys_nodup hnodup).mpr fun n => (hmem n).symm)
  have hle : names.Pairwise fun a b => ¬ appendBStr b < appendBStr a :=
    h.imp fun hlt hgt => List.lt_irrefl _ (List.lt_trans hlt hgt)
  refine hperm.eq_of_pairwise ?_ (sortedNames_pairwise m) hle
  intro a b ha hb hab hba
  by_contra hab'
  have : Std.Symm fun a b : Bytes => appendBStr a ≠ appendBStr b := ⟨fun _ _ => Ne.symm⟩
  refine hne.forall (hperm.mem_iff.mp ha) hb hab' ?_
  exact List.le_antisymm (List.not_lt.mp hab) (List.not_lt.mp hba)

theorem mem_keys_congr {m m' : Xattrs} (heq : ∀ n, m.lookup n = m'.lookup n) (n : Bytes) :
    n ∈ m.keys ↔ n ∈ m'.keys := by
  rw [← AList.mem_keys, ← AList.mem_keys, ← AList.lookup_isSome, ← AList.lookup_isSome, heq]

/-- The encoding does not depend on the order in which the map is traversed. -/
theorem encodeXattrs_congr {m m' : Xattrs} (h : Small m) (heq : ∀ n, m.lookup n = m'.lookup n) :
    encodeXattrs m = encodeXattrs m' := by
  have hkeys := mem_keys_congr heq
  have hnames : sortedNames m' = sortedNames m :=
    sortedNames_eq h.sortedNames_increasing fun n => mem_sortedNames.trans (hkeys n)
  have hcount : m.keys.length = m'.keys.length := by rw [← length_sortedNames, ← hnames, length_sortedNames]
  rw [encodeXattrs, encodeXattrs, hnames, hcount]
  simp only [heq]

/-! ## Lookups -/

theorem mem_insertPairs {m : Xattrs} {ps : List (Str × Str)} :
    n ∈ insertPairs m ps ↔ n ∈ m ∨ ∃ p ∈ ps, p.1.body = n := by
  induction ps generalizing m with
  | nil => simp [insertPairs]
  | cons p ps ih =>
    have hstep : insertPairs m (p :: ps) = insertPairs (m.insert p.1.body p.2.body) ps := rfl
    rw [hstep, ih, AList.mem_insert, List.exists_mem_cons_iff]
    tauto

theorem lookup_insertPairs_of_notMem {m : Xattrs} {ps : List (Str × Str)} (h : ∀ p ∈ ps, p.1.body ≠ n) :
    (insertPairs m ps).lookup n = m.lookup n := by
  induction ps generalizing m with
  | nil => rfl
  | cons p ps ih =>
    have hstep : insertPairs m (p :: ps) = insertPairs (m.insert p.1.body p.2.body) ps := rfl
    rw [hstep, ih fun q hq => h q (List.mem_cons_of_mem _ hq),
      AList.lookup_insert_ne (h p List.mem_cons_self).symm]

theorem exists_str_of_lookup {ps : List (Str × Str)} (h : (insertPairs m ps).lookup n = some v)
    (hm : ∀ n v, m.lookup n = some v → ∃ s : Str, s.body = v) : ∃ s : Str, s.body = v := by
  induction ps generalizing m with
  | nil => exact hm n v h
  | cons p ps ih =>
    refine ih h ?_
    intro n' v' hlookup
    by_cases heq : n' = p.1.body
    · rw [heq, AList.lookup_insert] at hlookup
      exact ⟨p.2, Option.some.inj hlookup⟩
    · rw [AList.lookup_insert_ne heq] at hlookup
      exact hm n' v' hlookup

theorem lookup_insertPairs {m : Xattrs} {ps : List (Str × Str)} (hnodup : (ps.map fun p => p.1.body).Nodup)
    (hp : p ∈ ps) : (insertPairs m ps).lookup p.1.body = some p.2.body := by
  induction ps generalizing m with
  | nil => cases hp
  | cons q ps ih =>
    have hstep : insertPairs m (q :: ps) = insertPairs (m.insert q.1.body q.2.body) ps := rfl
    rw [List.map_cons, List.nodup_cons] at hnodup
    rw [hstep]
    cases hp with
    | head =>
      rw [lookup_insertPairs_of_notMem, AList.lookup_insert]
      intro p hp heq
      exact hnodup.1 (heq ▸ List.mem_map_of_mem hp)
    | tail _ hp => exact ih hnodup.2 hp

namespace Wire

variable {t : Wire}

theorem Increasing.names (h : t.Increasing) :
    (t.pairs.map fun p => p.1.body).Pairwise fun a b => appendBStr a < appendBStr b := List.pairwise_map.mpr h

theorem Increasing.nodup (h : t.Increasing) : (t.pairs.map fun p => p.1.body).Nodup := by
  refine h.names.imp ?_
  intro a b hlt heq
  rw [heq] at hlt
  exact List.lt_irrefl _ hlt

theorem mem_keys : n ∈ t.xattrs.keys ↔ n ∈ t.pairs.map fun p => p.1.body := by
  rw [← AList.mem_keys, xattrs, mem_insertPairs, List.mem_map]
  exact or_iff_right (AList.notMem_empty n)

/-- What was written in the encoder's form is what the encoder writes. -/
theorem encodeXattrs_eq (hshort : t.Shortest) (hinc : t.Increasing) : encodeXattrs t.xattrs = t.bytes := by
  have hnames : sortedNames t.xattrs = t.pairs.map fun p => p.1.body :=
    sortedNames_eq hinc.names fun n => mem_keys.symm
  have hcount : t.xattrs.keys.length = t.pairs.length := by
    rw [← length_sortedNames, hnames, List.length_map]
  have hnat : (UInt64.ofNat t.pairs.length).toNat = t.pairs.length := by
    rw [UInt64.toNat_ofNat', Nat.mod_eq_of_lt (Nat.lt_of_lt_of_le t.fits t.form.limit_le)]
  rw [encodeXattrs, hnames, hcount, appendHead_eq, hnat, bytes, hshort.form, List.flatMap_map]
  congr 1
  apply List.flatMap_congr
  intro p hp
  rw [xattrs, lookup_insertPairs hinc.nodup hp, Option.getD_some, pairBytes, Str.bytes_of_shortest (hshort.name p hp),
    Str.bytes_of_shortest (hshort.value p hp)]

theorem small_xattrs (t : Wire) : Small t.xattrs where
  count := by
    have hsub : t.xattrs.keys ⊆ t.pairs.map fun p => p.1.body := fun n hn => mem_keys.mp hn
    have hle := (List.subperm_of_subset t.xattrs.keys_nodup hsub).length_le
    rw [List.length_map] at hle
    exact Nat.lt_of_le_of_lt hle (Nat.lt_of_lt_of_le t.fits t.form.limit_le)
  name n hn := by
    obtain ⟨p, _, rfl⟩ := List.mem_map.mp (mem_keys.mp hn)
    exact p.1.lt_two_pow
  value n v h := by
    obtain ⟨s, rfl⟩ := exists_str_of_lookup h fun n v h => nomatch h
    exact s.lt_two_pow

section OfXattrs
variable {m : Xattrs} (h : Small m)

theorem small_getD (h : Small m) (n : Bytes) : ((m.lookup n).getD []).length < 2 ^ 64 := by
  cases hlookup : m.lookup n with
  | none => exact Nat.two_pow_pos 64
  | some v => exact h.value n v hlookup

/-- The pair under a name, in the encoder's form. -/
def shortPair (n : Bytes) (hn : n.length < 2 ^ 64) : Str × Str :=
  (.short n hn, .short ((m.lookup n).getD []) (small_getD h n))

/-- The map in the encoder's form. -/
def ofXattrs : Wire where
  form := .shortest m.keys.length
  pairs := (sortedNames m).pmap (shortPair h) fun n hn => h.name n (mem_sortedNames.mp hn)
  fits := by
    rw [List.length_pmap, length_sortedNames]
    exact Form.lt_shortest h.count

theorem mem_ofXattrs : p ∈ (ofXattrs h).pairs ↔ ∃ n, ∃ hn : n.length < 2 ^ 64, n ∈ m.keys ∧ shortPair h n hn = p := by
  rw [ofXattrs, List.mem_pmap]
  constructor
  · rintro ⟨n, hn, rfl⟩
    exact ⟨n, _, mem_sortedNames.mp hn, rfl⟩
  · rintro ⟨n, _, hn, rfl⟩
    exact ⟨n, mem_sortedNames.mpr hn, rfl⟩

theorem shortest_ofXattrs : (ofXattrs h).Shortest where
  form := by rw [ofXattrs, List.length_pmap, length_sortedNames]
  name p hp := by
    obtain ⟨n, hn, _, rfl⟩ := (mem_ofXattrs h).mp hp
    rfl
  value p hp := by
    obtain ⟨n, hn, _, rfl⟩ := (mem_ofXattrs h).mp hp
    rfl

theorem increasing_ofXattrs : (ofXattrs h).Increasing :=
  h.sortedNames_increasing.pmap _ fun _ _ _ _ hlt => hlt

theorem lookup_ofXattrs (n : Bytes) : (ofXattrs h).xattrs.lookup n = m.lookup n := by
  by_cases hn : n ∈ m.keys
  · obtain ⟨v, hv⟩ := Option.isSome_iff_exists.mp (AList.lookup_isSome.mpr (AList.mem_keys.mpr hn))
    have hp := (mem_ofXattrs h).mpr ⟨n, h.name n hn, hn, rfl⟩
    have hlookup := lookup_insertPairs (m := ∅) (increasing_ofXattrs h).nodup hp
    rw [hv]
    refine hlookup.trans ?_
    change some ((m.lookup n).getD []) = some v
    rw [hv, Option.getD_some]
  · have hnone : n ∉ (ofXattrs h).xattrs := by
      rw [AList.mem_keys, mem_keys, List.mem_map]
      rintro ⟨p, hp, rfl⟩
      obtain ⟨n, _, hmem, rfl⟩ := (mem_ofXattrs h).mp hp
      exact hn hmem
    rw [AList.lookup_eq_none.mpr hnone, AList.lookup_eq_none.mpr (mt AList.mem_keys.mp hn)]

theorem bytes_ofXattrs : (ofXattrs h).bytes = encodeXattrs m := by
  rw [← encodeXattrs_eq (shortest_ofXattrs h) (increasing_ofXattrs h)]
  exact encodeXattrs_congr (small_xattrs _) (lookup_ofXattrs h)

end OfXattrs

end Wire

/-- An accepted byte string is the encoding of the map it decodes to exactly if its heads are the shortest and its
names strictly increase. -/
theorem decodeXattrs_canonical {b : Bytes} {m : Xattrs} (h : decodeXattrs b = .ok m) :
    ∃ t : Wire, t.bytes = b ∧ t.xattrs = m ∧ (encodeXattrs m = b ↔ t.Shortest ∧ t.Increasing) := by
  obtain ⟨t, rfl, rfl⟩ := decodeXattrs_ok h
  refine ⟨t, rfl, rfl, fun heq => ?_, fun ⟨hshort, hinc⟩ => Wire.encodeXattrs_eq hshort hinc⟩
  have hbytes : (Wire.ofXattrs t.small_xattrs).bytes = t.bytes := (Wire.bytes_ofXattrs _).trans heq
  rw [← Wire.bytes_inj hbytes]
  exact ⟨Wire.shortest_ofXattrs _, Wire.increasing_ofXattrs _⟩

/-- One pair, with an empty value. -/
theorem decodeXattrs_canonical_pair :
    ∃ t : Wire, t.bytes = [0xa1, 0x41, 0x61, 0x40] ∧ t.xattrs = AList.insert [0x61] [] ∅ ∧
      (encodeXattrs (AList.insert [0x61] [] ∅) = [0xa1, 0x41, 0x61, 0x40] ↔ t.Shortest ∧ t.Increasing) :=
  decodeXattrs_canonical rfl

/-- A count of no pairs in a second byte, and one name twice: both are accepted, neither is an encoding. -/
theorem decodeXattrs_lenient :
    (decodeXattrs [0xb8, 0x00] = .ok ∅ ∧ encodeXattrs ∅ ≠ [0xb8, 0x00]) ∧
    decodeXattrs [0xa2, 0x40, 0x41, 0x61, 0x40, 0x40] = .ok (AList.insert [] [] ∅) ∧
      encodeXattrs (AList.insert [] [] ∅) ≠ [0xa2, 0x40, 0x41, 0x61, 0x40, 0x40] := by
  have hnone : sortedNames ∅ = [] := List.mergeSort_nil
  have hone : sortedNames (AList.insert [] [] ∅) = [[]] := List.mergeSort_singleton _
  refine ⟨⟨rfl, ?_⟩, rfl, ?_⟩
  · rw [encodeXattrs, hnone]
    decide
  · rw [encodeXattrs, hone]
    decide

/-- Encoding a map and decoding it gives the map back, and the encoding lists its names in order, however the map
is traversed. -/
theorem encodeXattrs_roundtrip {m : Xattrs} (h : Small m) :
    (∃ m', decodeXattrs (encodeXattrs m) = .ok m' ∧ ∀ n, m'.lookup n = m.lookup n) ∧
    (∀ m' : Xattrs, (∀ n, m'.lookup n = m.lookup n) → encodeXattrs m' = encodeXattrs m) ∧
    ∃ names : List Bytes, names.Perm m.keys ∧
      (names.Pairwise fun a b => appendBStr a < appendBStr b) ∧
      encodeXattrs m = appendHead 5 (.ofNat names.length) ++
        names.flatMap fun n => appendBStr n ++ appendBStr ((m.lookup n).getD []) := by
  refine ⟨⟨(Wire.ofXattrs h).xattrs, ?_, Wire.lookup_ofXattrs h⟩, ?_, ?_⟩
  · rw [← Wire.bytes_ofXattrs h, decodeXattrs_bytes]
  · intro m' heq
    exact (encodeXattrs_congr h fun n => (heq n).symm).symm
  · refine ⟨sortedNames m, List.mergeSort_perm _ _, h.sortedNames_increasing, ?_⟩
    rw [length_sortedNames, encodeXattrs]

theorem small_insert_nil : Small (AList.insert [] [] (AList.insert [0x61] [0x78] ∅)) :=
  Wire.small_xattrs ⟨.direct, [(⟨.direct, [0x61], by decide⟩, ⟨.direct, [0x78], by decide⟩),
    (⟨.direct, [], by decide⟩, ⟨.direct, [], by decide⟩)], by decide⟩

/-- A map with an empty name and an empty value. -/
theorem encodeXattrs_roundtrip_nil :
    Small (AList.insert [] [] (AList.insert [0x61] [0x78] ∅)) ∧
    ∃ m', decodeXattrs (encodeXattrs (AList.insert [] [] (AList.insert [0x61] [0x78] ∅))) = .ok m' ∧
      ∀ n, m'.lookup n = (AList.insert [] [] (AList.insert [0x61] [0x78] ∅) : Xattrs).lookup n :=
  ⟨small_insert_nil, (encodeXattrs_roundtrip small_insert_nil).1⟩

end AmberStore.Cborx
