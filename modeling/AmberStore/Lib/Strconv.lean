import AmberStore.Lib.Bytes

/-!
# Text encodings

Standard base64 with padding, as a decoder that skips line breaks reads it, and decimal 64-bit
integers.
-/

namespace Base64

/-- The value of a digit. -/
def digit (c : UInt8) : Option Nat :=
  if 65 ≤ c ∧ c ≤ 90 then some (c.toNat - 65)
  else if 97 ≤ c ∧ c ≤ 122 then some (c.toNat - 97 + 26)
  else if 48 ≤ c ∧ c ≤ 57 then some (c.toNat - 48 + 52)
  else if c = 43 then some 62
  else if c = 47 then some 63
  else none

def pad : UInt8 := 61

/-- Four digits to three bytes; the last group may be padded. -/
def decodeGroups : Bytes → Option Bytes
  | [] => some []
  | a :: b :: c :: d :: rest => do
    let x ← digit a
    let y ← digit b
    if c = pad then
      if d = pad ∧ rest = [] then some [.ofNat (x * 4 + y / 16)] else none
    else
      let z ← digit c
      if d = pad then
        if rest = [] then some [.ofNat (x * 4 + y / 16), .ofNat (y * 16 + z / 4)] else none
      else
        let u ← digit d
        let tail ← decodeGroups rest
        return .ofNat (x * 4 + y / 16) :: .ofNat (y * 16 + z / 4) :: .ofNat (z * 64 + u) :: tail
  | _ => none

def decodeString (s : Bytes) : Option Bytes := decodeGroups (s.filter fun c => c ≠ 10 ∧ c ≠ 13)

end Base64

namespace Decimal

/-- The number a string of decimal digits spells. -/
def natural : Bytes → Option Nat
  | [] => none
  | s => s.foldlM (fun n c => if 48 ≤ c ∧ c ≤ 57 then some (n * 10 + (c.toNat - 48)) else none) 0

/-- A number with an optional sign, if it fits 64 bits. -/
def parseInt (s : Bytes) : Option Int64 := do
  let value ← match s with
    | 45 :: ds => (natural ds).map fun n => -(n : Int)
    | 43 :: ds => (natural ds).map fun n => (n : Int)
    | ds => (natural ds).map fun n => (n : Int)
  if -2 ^ 63 ≤ value ∧ value < 2 ^ 63 then some (.ofInt value) else none

end Decimal
