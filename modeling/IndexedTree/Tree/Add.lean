import IndexedTree.Tree.Remove

/-!
# Adding nodes

A change to a tree answers with the error it was refused with, if any, and the tree it leaves.
A refused add leaves the tree as it was, with one exception: a root add takes its record before
it finds the root slot taken, and then returns that record to the spare pool at once.

An add stores the node's record in the index under its id. When the id was taken, its old
record loses that holder and is freed unless the root slot holds it.

An add under a parent makes four writes one after another: the chain, the counter, the index
entry and the reference in the parent's child list. Afterwards it checks that the parent's record
is still indexed; if it is not, nothing will ever walk down to the new record, and the add backs
out by erasing the new record's subtree.
-/

namespace IndexedTree

namespace Tree

variable {α : Type}

/-- Stores a record in the index under an id; the record that the id held before is freed
unless another holder keeps it. -/
def store (t : Tree α) (id : Bytes) (s : Stamp) : Tree α :=
  let old := t.index.get? id
  let t := { t with index := t.index.insert id s }
  match old with
  | some o => t.release o
  | none => t

/-- Adds the root node: refused with `invalidOperation` when the root slot is taken. -/
def addRoot (t : Tree α) (n : Node α) : Except TreeError Unit × Tree α :=
  let (r, t) := t.draw n
  match t.rootSlot with
  | some _ => (.error .invalidOperation, t.release r)
  | none =>
    let t := { t with rootSlot := some r }.store n.id r
    (.ok (), { t with chains := t.chains.attachRoot n.id, count := t.count + 1 })

/-- The writes of an add under the record `p` of the id `parent`: a record drawn for the node,
the node's chain below `parent`, the counter, the index entry, and the reference at the end of
`p`'s children. Answers the new record and the tree. -/
def attachChild (t : Tree α) (n : Node α) (parent : Bytes) (p : Stamp) : Stamp × Tree α :=
  let (r, t) := t.draw n
  let t := { t with chains := t.chains.attach n.id parent, count := t.count + 1 }
  let t := t.store n.id r
  (r, t.modifyChildren p (·.append r))

/-- Adds a node as the last child of the node under `parent`. Refused with `parentNotFound`
when no node has that id, then with `invalidOperation` when the node has the parent's id. When
the parent's record is no longer indexed once the node is attached, the add erases the subtree of
the new record, and reports `parentNotFound` if the new record was still indexed. -/
def addChild (t : Tree α) (n : Node α) (parent : Bytes) : Except TreeError Unit × Tree α :=
  match t.lookup? parent with
  | none => (.error (.parentNotFound parent), t)
  | some p =>
    if n.id = parent then (.error .invalidOperation, t)
    else
      let (r, t) := t.attachChild n parent p
      if t.indexed p then (.ok (), t)
      else (if t.indexed r then .error (.parentNotFound parent) else .ok (), t.eraseSubtree r)

end Tree

end IndexedTree
