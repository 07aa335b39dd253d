import IndexedTree.Tree.Walk

/-!
# Removing nodes

Removing an id removes its node and the whole subtree below it. The node is first unlinked from
its parent, the node under the first id of its chain, and the root slot lets go of it if it held
it. Then every record of the subtree is dropped: its index entry goes, with its chain, and the
counter goes down by one, but only where the index still maps the record's id to that very
record. The child lists of the subtree are emptied, and every record that no holder keeps is
freed.

`reset` empties the tree and frees every record.
-/

namespace IndexedTree

namespace Tree

variable {α : Type}

/-- Drops one record: the index entry of its id goes if it holds the record, and then the id's
chain goes too and the counter goes down by one. -/
def drop (t : Tree α) (s : Stamp) : Tree α :=
  match t.node? s with
  | some n =>
    let r := t.index.eraseIf n.id (· == s)
    if r.1 then { t with index := r.2, chains := (t.chains.detach n.id).2, count := t.count - 1 }
    else t
  | none => t

/-- Drops every record of the subtree at `s`, empties their child lists and frees those that no
holder keeps. -/
def eraseSubtree (t : Tree α) (s : Stamp) : Tree α :=
  let reached := t.subtree s
  let t := reached.foldl drop t
  let t := reached.foldl (fun t r => t.modifyChildren r fun _ => .empty) t
  reached.foldl release t

/-- Takes the node of `x` off the child list of the record of the first id of its chain: the
first child reference there whose record carries `x` goes. -/
def unlink (t : Tree α) (x : Bytes) : Tree α :=
  match (t.chains.parent? x).bind t.lookup? with
  | some p => t.modifyChildren p fun l => (l.removeFirst (t.hasId x)).2
  | none => t

/-- Empties the root slot if it holds `s`. -/
def vacate (t : Tree α) (s : Stamp) : Tree α :=
  if t.rootSlot = some s then { t with rootSlot := none } else t

/-- Removes the node under an id and the subtree below it: unlinks it from its parent, empties
the root slot if it holds it, and erases its subtree. Refused with `notFound` when no node has
the id. -/
def remove (t : Tree α) (id : Bytes) : Except TreeError Unit × Tree α :=
  match t.lookup? id with
  | none => (.error (.notFound id), t)
  | some target => (.ok (), ((t.unlink id).vacate target).eraseSubtree target)

/-- Empties the tree: no root, no index entry, no chain, the counter at zero, and every record
freed to the spare pool. -/
def reset (t : Tree α) : Tree α :=
  { t with
    records := ∅
    index := t.index.clear
    chains := t.chains.clear
    rootSlot := none
    count := 0
    spare := (List.replicate t.records.size ()).foldl Pool.give t.spare }

end Tree

end IndexedTree
