import IndexedTree.Bytes.Hex
import IndexedTree.Json.Value

/-!
# Reading documents

`Json.parse?` reads one document from a line of bytes. The grammar is JSON's, with three rules
of the service:

* strings stand for bytes: escapes are resolved, `\u` escapes are written as UTF-8, a surrogate
  pair makes one scalar value, and a surrogate alone is refused;
* a number token is any run of the bytes `-0123456789.eE+`, kept as written;
* at most `maxDepth` arrays and objects may be open at once.

In an object the first member under a key wins; later ones are read and dropped.

The recursion runs on fuel: twice the input's length, plus two. Every call consumes a byte or
passes on to one that does, so the fuel never runs out before the input does.
-/

namespace IndexedTree

namespace Json

/-- The most arrays and objects that may be open at once. -/
def maxDepth : Nat := 200

/-- Blanks between tokens: space, tab, line feed and carriage return. -/
def isBlank (c : UInt8) : Bool := c == 0x20 || c == 0x09 || c == 0x0A || c == 0x0D

/-- The bytes of a number token. -/
def isNumberByte (c : UInt8) : Bool :=
  (0x30 ≤ c && c ≤ 0x39) || c == 0x2D || c == 0x2E || c == 0x65 || c == 0x45 || c == 0x2B

/-- The input with its leading blanks skipped. -/
def skipBlank (s : List UInt8) : List UInt8 := s.dropWhile isBlank

/-- The byte that a one-letter escape stands for. -/
def escaped? (c : UInt8) : Option UInt8 :=
  if c == 0x22 then some 0x22
  else if c == 0x5C then some 0x5C
  else if c == 0x2F then some 0x2F
  else if c == 0x62 then some 0x08
  else if c == 0x66 then some 0x0C
  else if c == 0x6E then some 0x0A
  else if c == 0x72 then some 0x0D
  else if c == 0x74 then some 0x09
  else none

/-- The value of four hexadecimal digits. -/
def hex4? (a b c d : UInt8) : Option Nat := do
  let a ← Hex.digitValue? a
  let b ← Hex.digitValue? b
  let c ← Hex.digitValue? c
  let d ← Hex.digitValue? d
  pure (((a * 16 + b) * 16 + c) * 16 + d)

/-- A high surrogate: the first half of a pair. -/
def isHighSurrogate (u : Nat) : Bool := 0xD800 ≤ u && u ≤ 0xDBFF

/-- A low surrogate: the second half of a pair. -/
def isLowSurrogate (u : Nat) : Bool := 0xDC00 ≤ u && u ≤ 0xDFFF

/-- The UTF-8 bytes of a scalar value. -/
def utf8 (u : Nat) : List UInt8 := String.utf8EncodeChar (Char.ofNat u)

/-- Reads a string after its opening quote: the bytes it stands for, and the input after the
closing quote. `acc` holds the bytes read so far, the last first. -/
def readStringFrom : List UInt8 → List UInt8 → Option (List UInt8 × List UInt8)
  | [], _ => none
  | c :: rest, acc =>
    if c == 0x22 then some (acc.reverse, rest)
    else if c == 0x5C then
      match rest with
      | e :: rest =>
        if e == 0x75 then
          match rest with
          | a :: b :: c :: d :: rest =>
            match hex4? a b c d with
            | none => none
            | some u =>
              if isHighSurrogate u then
                match rest with
                | s :: v :: e :: f :: g :: h :: rest =>
                  if s == 0x5C && v == 0x75 then
                    match hex4? e f g h with
                    | some l =>
                      if isLowSurrogate l then
                        readStringFrom rest
                          ((utf8 (0x10000 + (u - 0xD800) * 1024 + (l - 0xDC00))).reverse ++ acc)
                      else none
                    | none => none
                  else none
                | _ => none
              else if isLowSurrogate u then none
              else readStringFrom rest ((utf8 u).reverse ++ acc)
          | _ => none
        else
          match escaped? e with
          | some b => readStringFrom rest (b :: acc)
          | none => none
      | [] => none
    else if c < 0x20 then none
    else readStringFrom rest (c :: acc)

/-- Reads a string after its opening quote: the bytes it stands for, and the input after the
closing quote. -/
def readString (input : List UInt8) : Option (List UInt8 × List UInt8) := readStringFrom input []

/-- The text of a number token. -/
def tokenText (tok : List UInt8) : String := String.ofList (tok.map fun b => Char.ofNat b.toNat)

/-- Adds an object member unless its key is taken: the first member under a key wins. -/
def addMember (members : List (Bytes × Json)) (k : Bytes) (v : Json) : List (Bytes × Json) :=
  if (members.lookup k).isSome then members else members ++ [(k, v)]

/-- The bytes of `true`, `false` and `null`. -/
def trueBytes : List UInt8 := [0x74, 0x72, 0x75, 0x65]

/-- The bytes of `false`. -/
def falseBytes : List UInt8 := [0x66, 0x61, 0x6C, 0x73, 0x65]

/-- The bytes of `null`. -/
def nullBytes : List UInt8 := [0x6E, 0x75, 0x6C, 0x6C]

mutual

/-- Reads one value, blanks before it skipped, with `depth` arrays and objects open around it. -/
def readValue : Nat → Nat → List UInt8 → Option (Json × List UInt8)
  | 0, _, _ => none
  | fuel + 1, depth, input =>
    match skipBlank input with
    | [] => none
    | c :: rest =>
      if c == 0x7B then
        if depth < maxDepth then
          match skipBlank rest with
          | d :: after => if d == 0x7D then some (.obj [], after) else readMembers fuel (depth + 1) rest []
          | [] => none
        else none
      else if c == 0x5B then
        if depth < maxDepth then
          match skipBlank rest with
          | d :: after => if d == 0x5D then some (.arr [], after) else readItems fuel (depth + 1) rest []
          | [] => none
        else none
      else if c == 0x22 then
        (readString rest).map fun r => (.str ⟨r.1⟩, r.2)
      else if isNumberByte c then
        some (.num (tokenText ((c :: rest).takeWhile isNumberByte)), (c :: rest).dropWhile isNumberByte)
      else if trueBytes.isPrefixOf (c :: rest) then some (.bool true, (c :: rest).drop 4)
      else if falseBytes.isPrefixOf (c :: rest) then some (.bool false, (c :: rest).drop 5)
      else if nullBytes.isPrefixOf (c :: rest) then some (.null, (c :: rest).drop 4)
      else none

/-- Reads the items of an array after its first `[`, given the items read so far, last first. -/
def readItems : Nat → Nat → List UInt8 → List Json → Option (Json × List UInt8)
  | 0, _, _, _ => none
  | fuel + 1, depth, input, acc =>
    match readValue fuel depth input with
    | none => none
    | some (v, rest) =>
      match skipBlank rest with
      | c :: rest =>
        if c == 0x2C then readItems fuel depth rest (v :: acc)
        else if c == 0x5D then some (.arr (v :: acc).reverse, rest)
        else none
      | [] => none

/-- Reads the members of an object after its `{`, given the members read so far. -/
def readMembers : Nat → Nat → List UInt8 → List (Bytes × Json) → Option (Json × List UInt8)
  | 0, _, _, _ => none
  | fuel + 1, depth, input, acc =>
    match skipBlank input with
    | q :: rest =>
      if q == 0x22 then
        match readString rest with
        | none => none
        | some (k, rest) =>
          match skipBlank rest with
          | colon :: rest =>
            if colon == 0x3A then
              match readValue fuel depth rest with
              | none => none
              | some (v, rest) =>
                let acc := addMember acc ⟨k⟩ v
                match skipBlank rest with
                | c :: rest =>
                  if c == 0x2C then readMembers fuel depth rest acc
                  else if c == 0x7D then some (.obj acc, rest)
                  else none
                | [] => none
            else none
          | [] => none
      else none
    | [] => none

end

/-- Reads a line as one document, with nothing but blanks after it. -/
def parse? (line : Bytes) : Option Json :=
  match readValue (2 * line.length + 2) 0 line.data with
  | some (v, rest) => if skipBlank rest = [] then some v else none
  | none => none

end Json

end IndexedTree
