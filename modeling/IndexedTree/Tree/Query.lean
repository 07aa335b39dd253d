import IndexedTree.Tree.Walk

/-!
# Looking into a tree

Queries by id go through the index and the chains; queries below a node follow live child
references. Lists of nodes that come sorted are sorted stably by id, bytewise.
-/

namespace IndexedTree

namespace Tree

variable {α : Type}

/-- The node under an id. -/
def find? (t : Tree α) (key : Bytes) : Option (Node α) := (t.lookup? key).bind t.node?

/-- Whether a node has the id. -/
def contains (t : Tree α) (key : Bytes) : Bool := t.index.contains key

/-- The ancestors of an id that are still in the tree, sorted by id; `none` when the id has no
chain. -/
def ancestors? (t : Tree α) (id : Bytes) : Option (List (Node α)) :=
  (t.chains.chain? id).map fun c => Node.sortById (c.filterMap t.find?)

/-- The ancestor `level` steps up, counting the parent as zero. -/
def ancestorAt? (t : Tree α) (id : Bytes) (level : Nat) : Option (Node α) :=
  (t.chains.ancestorAt? id level).bind t.find?

/-- The nodes below the node under an id, sorted by id; `none` when no node has the id. -/
def descendants? (t : Tree α) (id : Bytes) : Option (List (Node α)) :=
  (t.lookup? id).map fun s => Node.sortById ((t.subtree s).tail.filterMap t.node?)

/-- The live children of the node under an id, first added first; `none` when no node has the
id. -/
def children? (t : Tree α) (id : Bytes) : Option (List (Node α)) :=
  (t.lookup? id).map fun s => (t.liveChildren s).filterMap t.node?

/-- The number of ancestors in an id's chain. -/
def depth? (t : Tree α) (id : Bytes) : Option Nat := t.chains.depth? id

/-- The node of the root slot. -/
def root? (t : Tree α) : Option (Node α) := t.rootSlot.bind t.node?

/-- The number of levels below the root slot and the size of the widest, counted breadth first
from the root slot's record. -/
def heightWidth (t : Tree α) : Nat × Nat :=
  t.countLevels (t.records.size + 1) t.rootSlot.toList 0 0

/-- The number of levels below the root slot. -/
def height (t : Tree α) : Nat := t.heightWidth.1

/-- The size of the widest level below the root slot. -/
def width (t : Tree α) : Nat := t.heightWidth.2

/-- The counter: nodes added, less index entries dropped. -/
def size (t : Tree α) : Nat := t.count

/-- Whether the counter is zero. -/
def isEmpty (t : Tree α) : Bool := t.count == 0

/-- The nodes of the index, shard by shard. -/
def nodes (t : Tree α) : List (Node α) := t.index.toList.filterMap fun e => t.node? e.2

/-- The number of spare records. -/
def idleRecords (t : Tree α) : Nat := t.spare.idleCount

end Tree

end IndexedTree
