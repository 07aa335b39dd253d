import IndexedTree.Bytes.Basic

/-!
# Nodes

A node is an id with a value. Two nodes are equal when both their ids and their values are; a
node's text is `<id value>`.
-/

namespace IndexedTree

/-- A node: an id, and the value it carries. -/
structure Node (α : Type) where
  id : Bytes
  value : α
deriving DecidableEq, Repr

namespace Node

/-- The text of a node whose value is a byte string: `<`, the id, a space, the value, `>`. -/
def text (n : Node Bytes) : Bytes :=
  ⟨[0x3C]⟩ ++ n.id ++ ⟨[0x20]⟩ ++ n.value ++ ⟨[0x3E]⟩

/-- Nodes in bytewise order of their ids; nodes with equal ids keep their order. -/
def sortById {α : Type} (nodes : List (Node α)) : List (Node α) :=
  nodes.mergeSort fun a b => a.id.le b.id

end Node

end IndexedTree
