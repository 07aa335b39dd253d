import IndexedTree.Tree.Add
import IndexedTree.Tree.Remove

/-!
# Changes to a tree

The four changes that a tree takes: add a root, add a node under a parent, remove a subtree,
reset. `Tree.apply` carries out one of them, `Tree.applyAll` a sequence, each change acting on
the tree that the one before left, whether it was refused or not.
-/

namespace IndexedTree

/-- A change to a tree. -/
inductive Change (α : Type) where
  | addRoot (n : Node α)
  | addChild (n : Node α) (parent : Bytes)
  | remove (id : Bytes)
  | reset

namespace Tree

variable {α : Type}

/-- Carries out a change: the error it was refused with, if any, and the tree it leaves. -/
def apply (t : Tree α) : Change α → Except TreeError Unit × Tree α
  | .addRoot n => t.addRoot n
  | .addChild n parent => t.addChild n parent
  | .remove id => t.remove id
  | .reset => (.ok (), t.reset)

/-- The tree that a sequence of changes leaves. -/
def applyAll (t : Tree α) (cs : List (Change α)) : Tree α := cs.foldl (fun t c => (t.apply c).2) t

end Tree

end IndexedTree
