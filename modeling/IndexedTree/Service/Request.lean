import IndexedTree.Bytes.Hex
import IndexedTree.Bytes.Utf8
import IndexedTree.Json.Value

/-!
# Requests and their fields

A request is a JSON object. Its fields are read one at a time, in a fixed order, and the first
problem found is the answer: a missing field, or one whose value has the wrong form.

A byte string is given as a JSON string, or as an object whose one member `hex` holds an even
number of hexadecimal digits; the name of an operation only as a JSON string. A count is a number token of at most twenty decimal digits and
no other character, whose value fits in 64 bits.
-/

namespace IndexedTree

/-- What is wrong with a request, or with one step of a sequence. -/
inductive BadInput where
  | malformedJson
  | notAnObject
  | missingField (name : String)
  | invalidField (name : String)
  | unknownOp (op : Bytes)
  | stepNotAnObject
  | unsupportedShards
  | emptySlot
  | poolDestroyed
  | outOfRange (name : String)
  | rootWouldHaveChildren

namespace BadInput

/-- The message that reports the problem. -/
def message : BadInput → Bytes
  | malformedJson => Bytes.ofString "malformed JSON"
  | notAnObject => Bytes.ofString "request is not an object"
  | missingField name => Bytes.ofString ("missing field: " ++ name)
  | invalidField name => Bytes.ofString ("invalid field: " ++ name)
  | unknownOp op => Bytes.ofString "unknown op: " ++ op
  | stepNotAnObject => Bytes.ofString "step is not an object"
  | unsupportedShards => Bytes.ofString "unsupported shards"
  | emptySlot => Bytes.ofString "empty slot"
  | poolDestroyed => Bytes.ofString "pool destroyed"
  | outOfRange name => Bytes.ofString ("out of range: " ++ name)
  | rootWouldHaveChildren => Bytes.ofString "undefined behaviour: root would have children"

end BadInput

/-- An error's message as it is reported: a NUL-terminated text, so it ends before its first
NUL byte. -/
def reportedMessage (message : Bytes) : Bytes := ⟨message.data.takeWhile (· != 0)⟩

namespace Json

/-- The byte string a value gives: a string, or an object `{"hex": digits}` and nothing else. -/
def asBytes? : Json → Option Bytes
  | .str s => some s
  | .obj [(k, .str digits)] => if k = Bytes.ofString "hex" then digits.ofHex? else none
  | _ => none

/-- The largest count: 2^64 - 1, the largest 64-bit unsigned number. -/
def maxCount : Nat := UInt64.size - 1

/-- The value of a decimal digit, written as a character. -/
def digitValue? (c : Char) : Option Nat :=
  if '0' ≤ c ∧ c ≤ '9' then some (c.toNat - '0'.toNat) else none

/-- The value of a run of decimal digits, most significant first. -/
def decimal? (cs : List Char) : Option Nat :=
  cs.foldlM (fun acc c => (digitValue? c).map (acc * 10 + ·)) 0

/-- The count a value gives: a number token of one to twenty digits, at most `maxCount`. -/
def asCount? : Json → Option Nat
  | .num token =>
    if token.length ≤ 20 then
      match decimal? token.toList with
      | some n => if n ≤ maxCount then some n else none
      | none => none
    else none
  | _ => none

end Json

/-- The members of a request or a step. -/
abbrev Fields := List (Bytes × Json)

namespace Fields

/-- A field that must be present, read by `read`. -/
def need {α : Type} (fs : Fields) (name : String) (read : Json → Option α) :
    Except BadInput α :=
  match Json.field? fs name with
  | none => .error (.missingField name)
  | some j =>
    match read j with
    | some a => .ok a
    | none => .error (.invalidField name)

/-- A field that may be absent, read by `read`. -/
def maybe {α : Type} (fs : Fields) (name : String) (read : Json → Option α) :
    Except BadInput (Option α) :=
  match Json.field? fs name with
  | none => .ok none
  | some j =>
    match read j with
    | some a => .ok (some a)
    | none => .error (.invalidField name)

/-- A byte-string field. -/
def bytes (fs : Fields) (name : String) : Except BadInput Bytes := fs.need name Json.asBytes?

/-- A byte-string field that may be absent. -/
def bytes? (fs : Fields) (name : String) : Except BadInput (Option Bytes) :=
  fs.maybe name Json.asBytes?

/-- A count field. -/
def count (fs : Fields) (name : String) : Except BadInput Nat := fs.need name Json.asCount?

/-- A count field that may be absent. -/
def count? (fs : Fields) (name : String) : Except BadInput (Option Nat) :=
  fs.maybe name Json.asCount?

/-- An array field. -/
def array (fs : Fields) (name : String) : Except BadInput (List Json) :=
  fs.need name fun
    | .arr items => some items
    | _ => none

/-- The name of the operation a request or step asks for: a plain string, never a hex object. -/
def op (fs : Fields) : Except BadInput Bytes :=
  fs.need "op" fun
    | .str s => some s
    | _ => none

end Fields

end IndexedTree
