import IndexedTree.Bytes.Utf8
import IndexedTree.Bytes.Hex
import IndexedTree.Json.Value

/-!
# Writing documents

`Json.render` writes a document on one line with no blanks. A byte string that is text (see
`Bytes.toString?`) is written as a JSON string; any other is written as the object
`{"hex":"…"}` with its bytes in lower-case hexadecimal.

In a string, the quote, the backslash and five control characters take their short escapes; the
other control characters below `0x20` are written `\u00xx`; every other character is written as
itself.
-/

namespace IndexedTree

namespace Json

/-- A character as it stands inside a quoted string. -/
def escapeChar (c : Char) : String :=
  if c = '"' then "\\\""
  else if c = '\\' then "\\\\"
  else if c = '\n' then "\\n"
  else if c = '\r' then "\\r"
  else if c = '\t' then "\\t"
  else if c = '\x08' then "\\b"
  else if c = '\x0c' then "\\f"
  else if c.toNat < 0x20 then
    "\\u00" ++ String.singleton (Hex.digit (c.toNat / 16)) ++ String.singleton (Hex.digit (c.toNat % 16))
  else String.singleton c

/-- A text in quotes, escaped. -/
def quote (s : String) : String := s.foldl (fun acc c => acc ++ escapeChar c) "\"" ++ "\""

/-- A byte string: quoted text when it is well-formed UTF-8, else its hexadecimal digits. -/
def writeBytes (b : Bytes) : String :=
  match b.toString? with
  | some s => quote s
  | none => "\x7b\"hex\":\"" ++ b.toHex ++ "\"\x7d"

mutual

/-- Appends a document to the text written so far. -/
def writeTo (out : String) : Json → String
  | .null => out ++ "null"
  | .bool true => out ++ "true"
  | .bool false => out ++ "false"
  | .num token => out ++ token
  | .str s => out ++ writeBytes s
  | .arr items => writeItems (out ++ "[") true items ++ "]"
  | .obj members => writeMembers (out ++ "\x7b") true members ++ "\x7d"

/-- Appends array items, separated by commas. -/
def writeItems (out : String) (first : Bool) : List Json → String
  | [] => out
  | v :: rest => writeItems (writeTo (if first then out else out ++ ",") v) false rest

/-- Appends object members, separated by commas. -/
def writeMembers (out : String) (first : Bool) : List (Bytes × Json) → String
  | [] => out
  | (k, v) :: rest =>
    writeMembers (writeTo ((if first then out else out ++ ",") ++ writeBytes k ++ ":") v) false rest

end

/-- A document on one line. -/
def render (j : Json) : String := writeTo "" j

end Json

end IndexedTree
