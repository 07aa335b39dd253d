import IndexedTree.Bytes.Basic

/-!
# Bytes as hexadecimal digits

Two hexadecimal digits per byte, high half first. Reading takes digits of either case; writing
gives lower case.
-/

namespace IndexedTree

namespace Hex

/-- The value of a hexadecimal digit, written as an ASCII byte. -/
def digitValue? (c : UInt8) : Option Nat :=
  if 0x30 ≤ c && c ≤ 0x39 then some (c.toNat - 0x30)
  else if 0x61 ≤ c && c ≤ 0x66 then some (c.toNat - 0x61 + 10)
  else if 0x41 ≤ c && c ≤ 0x46 then some (c.toNat - 0x41 + 10)
  else none

/-- The lower-case digit for a value below sixteen. -/
def digit (n : Nat) : Char :=
  if n < 10 then Char.ofNat (0x30 + n) else Char.ofNat (0x61 + n - 10)

/-- The bytes that a run of hexadecimal digits spells, or `none` for an odd count or a byte that
is no digit. -/
def decode? : List UInt8 → Option (List UInt8)
  | [] => some []
  | hi :: lo :: rest =>
    match digitValue? hi, digitValue? lo with
    | some h, some l => (decode? rest).map ((h * 16 + l).toUInt8 :: ·)
    | _, _ => none
  | [_] => none

end Hex

namespace Bytes

/-- The byte string that a run of hexadecimal digits spells. -/
def ofHex? (digits : Bytes) : Option Bytes := (Hex.decode? digits.data).map Bytes.mk

/-- Two lower-case hexadecimal digits per byte. -/
def toHex (b : Bytes) : String :=
  String.ofList (b.data.flatMap fun x => [Hex.digit (x.toNat / 16), Hex.digit (x.toNat % 16)])

end Bytes

end IndexedTree
