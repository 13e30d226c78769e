import AmberStore.Lib.Bytes

/-!
# CRC-32 by bitwise division

The reflected 32-bit checksum with initial value and final complement of all ones, updated a byte
at a time. An update over a concatenation is the update over the second part of the update over the
first, which is what lets a checksum skip a field by feeding zero bytes in its place.
-/

namespace Crc32

variable (poly : UInt32)

/-- One bit of the division. -/
def shift (c : UInt32) : UInt32 := if c &&& 1 = 1 then (c >>> 1) ^^^ poly else c >>> 1

def step (c : UInt32) (b : UInt8) : UInt32 :=
  (List.range 8).foldl (fun c _ => shift poly c) (c ^^^ b.toUInt32)

/-- The checksum `crc` of some bytes, continued over `p`. -/
def update (crc : UInt32) (p : Bytes) : UInt32 := ~~~(p.foldl (step poly) (~~~crc))

def checksum (p : Bytes) : UInt32 := update poly 0 p

theorem update_append (c : UInt32) (a b : Bytes) :
    update poly c (a ++ b) = update poly (update poly c a) b := by
  simp [update]

/-- The Castagnoli polynomial, reflected. -/
def castagnoli : UInt32 := 0x82f63b78

-- The check value of CRC-32C, over the ASCII digits "123456789".
example : checksum castagnoli [49, 50, 51, 52, 53, 54, 55, 56, 57] = 0xe3069283 := by decide +kernel

end Crc32
