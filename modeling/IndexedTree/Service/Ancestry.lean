import IndexedTree.Ancestry
import IndexedTree.Service.Sequence

/-!
# The ancestry request

A sequence over one set of ancestor chains. Every step answer reports the number of chains after
it.
-/

namespace IndexedTree

namespace Service

/-- A step of an ancestry request. -/
inductive AncestryStep where
  | attachRoot (id : Bytes)
  | attach (id parent : Bytes)
  | detach (id : Bytes)
  | chain (id : Bytes)
  | ancestorAt (id : Bytes) (level : Nat)
  | parent (id : Bytes)
  | depth (id : Bytes)
  | reset
  | size

namespace AncestryStep

/-- Reads a step from its fields. -/
def decode (fs : Fields) : Except BadInput AncestryStep := do
  let op ← fs.op
  match op.toString? with
  | some "attach_root" => return .attachRoot (← fs.bytes "id")
  | some "attach" => return .attach (← fs.bytes "id") (← fs.bytes "parent")
  | some "detach" => return .detach (← fs.bytes "id")
  | some "chain" => return .chain (← fs.bytes "id")
  | some "at" => return .ancestorAt (← fs.bytes "id") (← fs.count "level")
  | some "parent_of" => return .parent (← fs.bytes "id")
  | some "depth" => return .depth (← fs.bytes "id")
  | some "reset" => return .reset
  | some "size" => return .size
  | _ => throw (.unknownOp op)

/-- Runs a step. -/
def run (a : Ancestry) : AncestryStep → StepReply × Ancestry
  | attachRoot id => (.result .null, a.attachRoot id)
  | attach id p => (.result .null, a.attach id p)
  | detach id =>
    let r := a.detach id
    (.result (.bool r.1), r.2)
  | chain id => (.result (Json.opt (fun c => .arr (c.map .str)) (a.chain? id)), a)
  | ancestorAt id level => (.result (Json.opt .str (a.ancestorAt? id level)), a)
  | parent id => (.result (Json.opt .str (a.parent? id)), a)
  | depth id => (.result (Json.opt .nat (a.depth? id)), a)
  | reset => (.result .null, a.clear)
  | size => (.result (.nat a.size), a)

end AncestryStep

/-- Answers `{"op":"ancestry","shards":…,"ops":[…]}`. -/
def ancestry (fs : Fields) : Except BadInput Json := do
  let ⟨n, hn⟩ ← shardsField fs
  sequence fs (Ancestry.empty n hn) (decodeThen AncestryStep.decode AncestryStep.run)
    fun a => [("size", .nat a.size)]

end Service

end IndexedTree
