import IndexedTree.Tree.Change
import IndexedTree.Tree.Query
import IndexedTree.Tree.Print
import IndexedTree.Service.Sequence

/-!
# The tree request

A sequence over one tree whose nodes carry byte strings. Every step answer reports the tree's
counter and its number of spare records after it. A refused change is answered with the kind of
its error and its message.
-/

namespace IndexedTree

namespace Service

/-- A step of a tree request. -/
inductive TreeStep where
  | change (c : Change Bytes)
  | find (key : Bytes)
  | contains (key : Bytes)
  | ancestors (id : Bytes)
  | parentAt (id : Bytes) (level : Nat)
  | descendants (id : Bytes)
  | children (id : Bytes)
  | depth (id : Bytes)
  | root
  | height
  | size
  | isEmpty
  | nodes
  | idleRecords
  | print
  | printWide

namespace TreeStep

/-- Reads a step from its fields. -/
def decode (fs : Fields) : Except BadInput TreeStep := do
  let op ← fs.op
  match op.toString? with
  | some "add" =>
    let id ← fs.bytes "id"
    let value := (← fs.bytes? "value").getD Bytes.empty
    match ← fs.bytes? "parent" with
    | some p => return .change (.addChild ⟨id, value⟩ p)
    | none => return .change (.addRoot ⟨id, value⟩)
  | some "remove" => return .change (.remove (← fs.bytes "id"))
  | some "find" => return .find (← fs.bytes "key")
  | some "contains" => return .contains (← fs.bytes "key")
  | some "ancestors" => return .ancestors (← fs.bytes "id")
  | some "parent_at" => return .parentAt (← fs.bytes "id") (← fs.count "level")
  | some "descendants" => return .descendants (← fs.bytes "id")
  | some "children" => return .children (← fs.bytes "id")
  | some "depth" => return .depth (← fs.bytes "id")
  | some "root" => return .root
  | some "height" => return .height
  | some "size" => return .size
  | some "empty" => return .isEmpty
  | some "nodes" => return .nodes
  | some "reset" => return .change .reset
  | some "idle_records" => return .idleRecords
  | some "print" => return .print
  | some "print_wide" => return .printWide
  | _ => throw (.unknownOp op)

/-- A node as a document. -/
def node (n : Node Bytes) : Json := Json.record [("id", .str n.id), ("value", .str n.value)]

/-- A list of nodes as a document. -/
def nodeList (ns : List (Node Bytes)) : Json := .arr (ns.map node)

/-- The name of an error's kind. -/
def kind : TreeError → String
  | .invalidOperation => "invalid_operation"
  | .parentNotFound _ => "parent_not_found"
  | .notFound _ => "not_found"

/-- The reply to a change. -/
def changed (r : Except TreeError Unit × Tree Bytes) : StepReply × Tree Bytes :=
  match r.1 with
  | .ok () => (.result .null, r.2)
  | .error e => (.error (kind e) e.message, r.2)

/-- Nodes in bytewise order of id, then of value. -/
def sortedNodes (ns : List (Node Bytes)) : List (Node Bytes) :=
  ns.mergeSort fun a b => a.id.lt b.id || (a.id == b.id && a.value.le b.value)

/-- Runs a step. -/
def run (t : Tree Bytes) : TreeStep → StepReply × Tree Bytes
  | change c => changed (t.apply c)
  | find key => (.result (Json.opt node (t.find? key)), t)
  | contains key => (.result (.bool (t.contains key)), t)
  | ancestors id => (.result (Json.opt nodeList (t.ancestors? id)), t)
  | parentAt id level => (.result (Json.opt node (t.ancestorAt? id level)), t)
  | descendants id => (.result (Json.opt nodeList (t.descendants? id)), t)
  | children id => (.result (Json.opt nodeList (t.children? id)), t)
  | depth id => (.result (Json.opt .nat (t.depth? id)), t)
  | root => (.result (Json.opt node t.root?), t)
  | height =>
    (.result (Json.record [("height", .nat t.height), ("width", .nat t.width)]), t)
  | size => (.result (.nat t.size), t)
  | isEmpty => (.result (.bool t.isEmpty), t)
  | nodes => (.result (nodeList (sortedNodes t.nodes)), t)
  | idleRecords => (.result (.nat t.idleRecords), t)
  | print => (.result (.str t.text), t)
  | printWide => (.result (.arr (t.wideText.map .int)), t)

end TreeStep

/-- Answers `{"op":"tree","shards":…,"ops":[…]}`. -/
def tree (fs : Fields) : Except BadInput Json := do
  let ⟨n, hn⟩ ← shardsField fs
  sequence fs (Tree.empty n hn : Tree Bytes) (decodeThen TreeStep.decode TreeStep.run)
    fun t => [("size", .nat t.size), ("idle", .nat t.idleRecords)]

end Service

end IndexedTree
