import Std.Data.HashMap
import IndexedTree.ChildList
import IndexedTree.Pool
import IndexedTree.Ancestry
import IndexedTree.Node

/-!
# Trees

A tree holds its nodes in records. A record carries a node and the references to its children,
first added first. The tree keeps

* an index from ids to records,
* the ancestor chain of every attached id (`Ancestry`),
* a root slot, which holds the record of the root node,
* a counter that goes up with every node added and down with every index entry dropped, and
* a pool of spare records.

Each time a record is taken for a node it gets a fresh stamp; the stamp names that one life of
the record. A record lives while a holder keeps it: the index entry under its id, or the root
slot. When the last holder lets go the record is freed and goes back to the spare pool. A
child reference does not keep its child: it is live while the child's record lives.

An id added a second time replaces the index entry of the first, whose record is then freed
unless the root slot holds it; the counter still counts both adds.

Only the number of spare records can be seen, so the pool holds no data.
-/

namespace IndexedTree

/-- The stamp of one life of a record: drawn fresh each time a record is taken for a node. -/
abbrev Stamp := Nat

/-- A record: a node and the stamps of its children, first added first. -/
structure Record (α : Type) where
  node : Node α
  children : ChildList Stamp

/-- Why a change to a tree was refused. -/
inductive TreeError where
  /-- A second root, or a node added under a parent of its own id. -/
  | invalidOperation
  /-- No node under the parent's id. -/
  | parentNotFound (parent : Bytes)
  /-- No node under the id. -/
  | notFound (id : Bytes)
deriving DecidableEq, Repr

namespace TreeError

/-- The message that reports the error. -/
def message : TreeError → Bytes
  | invalidOperation => Bytes.ofString "invalid operation"
  | parentNotFound parent => Bytes.ofString "parent node not found: " ++ parent
  | notFound id => Bytes.ofString "node not found: " ++ id

end TreeError

/-- A tree of nodes with values of type `α`. -/
structure Tree (α : Type) where
  /-- The records that live, by stamp. -/
  records : Std.HashMap Stamp (Record α)
  /-- The record of each id. -/
  index : ShardedMap Stamp
  /-- The ancestor chain of each attached id. -/
  chains : Ancestry
  /-- The record of the root node, if any. -/
  rootSlot : Option Stamp
  /-- Nodes added, less index entries dropped. -/
  count : Nat
  /-- The spare records. -/
  spare : Pool Unit
  /-- The stamp of the next record taken. -/
  nextStamp : Stamp

namespace Tree

variable {α : Type}

/-- The number of spare records a tree keeps. -/
def spareRetain : Nat := Pool.defaultRetain

/-- The tree with no node, its index and chains in `n` shards. -/
def empty (n : Nat) (h : 0 < n) : Tree α where
  records := ∅
  index := ShardedMap.empty n h
  chains := Ancestry.empty n h
  rootSlot := none
  count := 0
  spare := Pool.empty spareRetain
  nextStamp := 0

/-- Whether a record lives. -/
def live (t : Tree α) (s : Stamp) : Bool := t.records.contains s

/-- The node of a live record. -/
def node? (t : Tree α) (s : Stamp) : Option (Node α) := t.records[s]?.map (·.node)

/-- Whether a record lives and carries a node with the id. -/
def hasId (t : Tree α) (id : Bytes) (s : Stamp) : Bool := (t.node? s).any (·.id == id)

/-- Whether the index maps the record's id to the record. -/
def indexed (t : Tree α) (s : Stamp) : Bool :=
  match t.node? s with
  | some n => t.index.get? n.id == some s
  | none => false

/-- Whether a holder keeps the record: the root slot, or the index entry under its id. -/
def held (t : Tree α) (s : Stamp) : Bool := t.rootSlot == some s || t.indexed s

/-- Frees a live record that no holder keeps: it stops living and goes back to the spare pool. -/
def release (t : Tree α) (s : Stamp) : Tree α :=
  if t.live s && !t.held s then
    { t with records := t.records.erase s, spare := t.spare.give () }
  else t

/-- Takes a record for a node, a spare one if any waits, and gives it a fresh stamp. -/
def draw (t : Tree α) (n : Node α) : Stamp × Tree α :=
  (t.nextStamp,
   { t with
     records := t.records.insert t.nextStamp ⟨n, .empty⟩
     spare := ((t.spare.take?).map (·.2)).getD t.spare
     nextStamp := t.nextStamp + 1 })

/-- Changes the child references of a live record. -/
def modifyChildren (t : Tree α) (s : Stamp) (f : ChildList Stamp → ChildList Stamp) : Tree α :=
  { t with records := t.records.modify s fun r => { r with children := f r.children } }

/-- The live children of a record, first added first. -/
def liveChildren (t : Tree α) (s : Stamp) : List Stamp :=
  match t.records[s]? with
  | some r => r.children.toList.filter t.live
  | none => []

/-- The record of an id. -/
def lookup? (t : Tree α) (id : Bytes) : Option Stamp := t.index.get? id

end Tree

end IndexedTree
