import IndexedTree.Tree.Basic

/-!
# Walking a tree

Walks follow live child references only. `preorder` lists a record and, below it, the subtrees
of its live children in order, each record with its level. `levels` lists the records level by
level, breadth first, and `countLevels` counts them as a queue does.

Both walks take a depth bound. A child is always taken after its parent, so its stamp is the
larger one, and a chain of live children holds distinct live records: at most
`t.records.size` of them. That bound (one more for `levels`, which ends on reaching an empty
level) reaches every record.
-/

namespace IndexedTree

namespace Tree

variable {α : Type}

/-- The records of the subtree at `s` with their levels, `s` at `level`, in pre-order, at most
`fuel` levels deep. -/
def preorderWithin (t : Tree α) : Nat → Nat → Stamp → List (Stamp × Nat)
  | 0, _, _ => []
  | fuel + 1, level, s => (s, level) :: (t.liveChildren s).flatMap (t.preorderWithin fuel (level + 1))

/-- The records of the subtree at `s` with their levels below it, in pre-order. -/
def preorder (t : Tree α) (s : Stamp) : List (Stamp × Nat) := t.preorderWithin t.records.size 0 s

/-- The records of the subtree at `s`, in pre-order, `s` first. -/
def subtree (t : Tree α) (s : Stamp) : List Stamp := (t.preorder s).map (·.1)

/-- The non-empty levels below a first level, breadth first, at most `fuel` of them. -/
def levelsWithin (t : Tree α) : Nat → List Stamp → List (List Stamp)
  | 0, _ => []
  | _, [] => []
  | fuel + 1, level@(_ :: _) => level :: t.levelsWithin fuel (level.flatMap t.liveChildren)

/-- The levels of the tree below the root slot, breadth first; none for an empty root slot. -/
def levels (t : Tree α) : List (List Stamp) := t.levelsWithin (t.records.size + 1) t.rootSlot.toList

/-- Takes `n` records off the front of a queue, and puts the live children of each at its back. -/
def drain (t : Tree α) : Nat → List Stamp → List Stamp
  | 0, queue => queue
  | _ + 1, [] => []
  | n + 1, p :: queue => t.drain n (queue ++ t.liveChildren p)

/-- Counts levels breadth first, at most `fuel` more of them, from a queue that holds one whole
level: each round takes the queue's length as the level's size, keeps the largest size seen, and
drains exactly that many records, which leaves the next level in the queue. Answers the number of
levels and the largest size. -/
def countLevels (t : Tree α) : Nat → List Stamp → Nat → Nat → Nat × Nat
  | 0, _, levels, maxWidth => (levels, maxWidth)
  | fuel + 1, queue, levels, maxWidth =>
    match queue.length with
    | 0 => (levels, maxWidth)
    | levelSize@(_ + 1) =>
      t.countLevels fuel (t.drain levelSize queue) (levels + 1) (max maxWidth levelSize)

end Tree

end IndexedTree
