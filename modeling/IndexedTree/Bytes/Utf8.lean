import IndexedTree.Bytes.Basic

/-!
# Well-formed UTF-8

A byte string is text when it is well-formed UTF-8 in the strict sense: every scalar value is
written in its shortest form, no sequence encodes a surrogate, and none goes beyond U+10FFFF.
`Bytes.toString?` decodes such a string and refuses every other.

The lead byte fixes the length of a sequence. `C2`–`DF` lead two bytes, `E0`–`EF` three and
`F0`–`F4` four; `80`–`C1` and `F5`–`FF` lead nothing. The second byte of a three- or four-byte
sequence has a narrowed range after the leads `E0`, `ED`, `F0` and `F4`, which is what rules out
long forms, surrogates and values past U+10FFFF.
-/

namespace IndexedTree

namespace Utf8

/-- A continuation byte: `10xxxxxx`. -/
def isCont (b : UInt8) : Bool := 0x80 ≤ b && b ≤ 0xBF

/-- The six payload bits of a continuation byte. -/
def payload (b : UInt8) : Nat := (b &&& 0x3F).toNat

/-- The range of the second byte of a three-byte sequence with lead `b0`. -/
def secondOfThree (b0 b1 : UInt8) : Bool :=
  if b0 = 0xE0 then 0xA0 ≤ b1 && b1 ≤ 0xBF
  else if b0 = 0xED then 0x80 ≤ b1 && b1 ≤ 0x9F
  else isCont b1

/-- The range of the second byte of a four-byte sequence with lead `b0`. -/
def secondOfFour (b0 b1 : UInt8) : Bool :=
  if b0 = 0xF0 then 0x90 ≤ b1 && b1 ≤ 0xBF
  else if b0 = 0xF4 then 0x80 ≤ b1 && b1 ≤ 0x8F
  else isCont b1

/-- The scalar values of a well-formed byte sequence, first to last, or `none` when some
sequence is ill-formed or cut short. -/
def scalars? : List UInt8 → Option (List Nat)
  | [] => some []
  | b0 :: rest =>
    if b0 < 0x80 then
      (scalars? rest).map (b0.toNat :: ·)
    else if b0 < 0xC2 then none
    else if b0 < 0xE0 then
      match rest with
      | b1 :: rest =>
        if isCont b1 then
          (scalars? rest).map (((b0 &&& 0x1F).toNat * 64 + payload b1) :: ·)
        else none
      | [] => none
    else if b0 < 0xF0 then
      match rest with
      | b1 :: b2 :: rest =>
        if secondOfThree b0 b1 && isCont b2 then
          (scalars? rest).map
            (((b0 &&& 0x0F).toNat * 4096 + payload b1 * 64 + payload b2) :: ·)
        else none
      | _ => none
    else if b0 < 0xF5 then
      match rest with
      | b1 :: b2 :: b3 :: rest =>
        if secondOfFour b0 b1 && isCont b2 && isCont b3 then
          let c := (b0 &&& 0x07).toNat * 262144 + payload b1 * 4096 + payload b2 * 64 + payload b3
          (scalars? rest).map (c :: ·)
        else none
      | _ => none
    else none

end Utf8

namespace Bytes

/-- The text that a byte string encodes, when it is well-formed UTF-8. -/
def toString? (b : Bytes) : Option String :=
  (Utf8.scalars? b.data).map fun cs => String.ofList (cs.map Char.ofNat)

end Bytes

end IndexedTree
