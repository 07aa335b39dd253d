/-!
# Byte strings

Ids, values and keys are byte strings: any bytes, valid UTF-8 text or not. `Bytes` wraps a list
of bytes so that the functions on byte strings live in a namespace of their own.

Byte strings are ordered bytewise: the first differing byte decides, each byte read as an
unsigned number, and a proper prefix comes first.
-/

namespace IndexedTree

/-- A byte string. -/
structure Bytes where
  /-- The bytes, first to last. -/
  data : List UInt8
deriving DecidableEq, Hashable, Repr, Inhabited

namespace Bytes

/-- The empty byte string. -/
def empty : Bytes := ⟨[]⟩

instance : Append Bytes := ⟨fun a b => ⟨a.data ++ b.data⟩⟩

/-- The number of bytes. -/
def length (b : Bytes) : Nat := b.data.length

/-- The UTF-8 encoding of a text. -/
def ofString (s : String) : Bytes := ⟨s.toList.flatMap String.utf8EncodeChar⟩

/-- The decimal digits of a number, as ASCII bytes. -/
def ofNat (n : Nat) : Bytes := ⟨(Nat.toDigits 10 n).map fun c => c.toNat.toUInt8⟩

/-- Bytewise order: lexicographic on unsigned bytes, a proper prefix first. -/
instance : LT Bytes := ⟨fun a b => a.data < b.data⟩

instance (a b : Bytes) : Decidable (a < b) := inferInstanceAs (Decidable (a.data < b.data))

/-- Bytewise order as a test, for sorting. -/
def lt (a b : Bytes) : Bool := decide (a < b)

/-- Bytewise order or equality, as a test. -/
def le (a b : Bytes) : Bool := !b.lt a

@[simp] theorem data_append (a b : Bytes) : (a ++ b).data = a.data ++ b.data := rfl

@[simp] theorem length_append (a b : Bytes) : (a ++ b).length = a.length + b.length := by
  simp [length]

end Bytes

end IndexedTree
