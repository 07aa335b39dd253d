import IndexedTree.Bytes.Basic

/-!
# Documents

The requests and answers of the service are JSON documents whose strings are byte strings.
A number keeps the text of its token: the service reads only non-negative integers and refuses
every other spelling by its text, so the reader does not interpret numbers.
-/

namespace IndexedTree

/-- A JSON document whose strings are byte strings. -/
inductive Json where
  | null
  | bool (b : Bool)
  /-- A number, kept as the text of its token. -/
  | num (token : String)
  | str (s : Bytes)
  | arr (items : List Json)
  /-- An object: its members in order, each key once. -/
  | obj (members : List (Bytes × Json))
deriving Inhabited

namespace Json

/-- A natural number in decimal. -/
def nat (n : Nat) : Json := .num (toString n)

/-- An integer in decimal, with a minus sign when negative. -/
def int (i : Int) : Json := .num (toString i)

/-- A text, as its UTF-8 bytes. -/
def text (s : String) : Json := .str (Bytes.ofString s)

/-- An object whose keys are texts. -/
def record (members : List (String × Json)) : Json :=
  .obj (members.map fun m => (Bytes.ofString m.1, m.2))

/-- An optional value, with `null` for none. -/
def opt {α : Type} (f : α → Json) : Option α → Json
  | none => .null
  | some a => f a

/-- The value of an object's member under a key. -/
def field? (members : List (Bytes × Json)) (key : String) : Option Json :=
  members.lookup (Bytes.ofString key)

end Json

end IndexedTree
