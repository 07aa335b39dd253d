import IndexedTree.Tree.Walk

/-!
# Printing a tree

The text of a tree has one line per record below the root slot: two spaces per level, the id,
and a line feed. The printer walks the records with a stack, which it starts with the root slot's
record and onto which it pushes each popped record's live children. The wide text is the same
text with each byte widened as a signed number, so that bytes from `0x80` up come out negative,
and written into a `WideBuffer`.

A `WideBuffer` grows as it fills. It starts with no room and storage for three characters; a
character that finds it full makes it take up its storage, and once that is used, storage for
twice as many characters, but at least 512. The character -1 doubles as the end-of-input mark:
when it finds the buffer full it is dropped, and the buffer stays as it was. So a byte `0xff`
is lost from the wide text exactly where the buffer is full: at its start, and after 3, 512,
1024, … characters kept.
-/

namespace IndexedTree

namespace Tree

variable {α : Type}

/-- The line of a record at a level. -/
def line (t : Tree α) (s : Stamp) (level : Nat) : List UInt8 :=
  match t.node? s with
  | some n => List.replicate (2 * level) 0x20 ++ n.id.data ++ [0x0A]
  | none => []

/-- The printer's walk over a stack of records with their levels, its top first: pops a record,
then pushes its live children one level down, the last added first, so that they pop in the order
they were added. Lists the records popped, with their levels, at most `fuel` of them. -/
def printWalk (t : Tree α) : Nat → List (Stamp × Nat) → List (Stamp × Nat)
  | 0, _ => []
  | _ + 1, [] => []
  | fuel + 1, (s, level) :: stack =>
    (s, level) :: t.printWalk fuel ((t.liveChildren s).map (·, level + 1) ++ stack)

/-- The records the printer writes, with their levels, in the order written: the walk from a
stack that holds the root slot's record at level zero, if there is one. -/
def printed (t : Tree α) : List (Stamp × Nat) :=
  t.printWalk t.records.size (t.rootSlot.toList.map (·, 0))

/-- The text of the tree below the root slot. -/
def text (t : Tree α) : Bytes := ⟨t.printed.flatMap fun e => t.line e.1 e.2⟩

/-- A byte read as a signed number. -/
def signedByte (b : UInt8) : Int := if b < 0x80 then b.toNat else (b.toNat : Int) - 256

end Tree

/-- A buffer that wide characters are written into, growing as it fills. -/
structure WideBuffer where
  /-- The characters kept, the last first. -/
  kept : List Int
  /-- The number of characters kept. -/
  count : Nat
  /-- The number of characters that fit before the buffer must grow. -/
  room : Nat
  /-- The number of characters its storage holds. -/
  storage : Nat

namespace WideBuffer

/-- The character that doubles as the end-of-input mark. -/
def endMark : Int := -1

/-- The buffer before anything is written: no room, storage for three characters. -/
def empty : WideBuffer := ⟨[], 0, 0, 3⟩

/-- Writes a character. With room left it is kept. In a full buffer the end mark is dropped;
any other character makes the buffer take up its storage, or, when that is used, grow to twice
its storage but at least 512, and is kept. -/
def write (b : WideBuffer) (c : Int) : WideBuffer :=
  if b.count < b.room then { b with kept := c :: b.kept, count := b.count + 1 }
  else if c = endMark then b
  else if b.room < b.storage then
    { b with kept := c :: b.kept, count := b.count + 1, room := b.storage }
  else
    let s := max (2 * b.storage) 512
    { kept := c :: b.kept, count := b.count + 1, room := s, storage := s }

/-- The characters kept, first to last. -/
def toList (b : WideBuffer) : List Int := b.kept.reverse

/-- The characters that writing a list into an empty buffer keeps. -/
def ofList (cs : List Int) : List Int := (cs.foldl write empty).toList

end WideBuffer

namespace Tree

variable {α : Type}

/-- The text of the tree, each byte widened as a signed number, as a `WideBuffer` keeps it. -/
def wideText (t : Tree α) : List Int := WideBuffer.ofList (t.text.data.map signedByte)

end Tree

end IndexedTree
