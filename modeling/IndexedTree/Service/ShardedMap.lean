import IndexedTree.ShardedMap
import IndexedTree.Service.Sequence

/-!
# The sharded map request

A sequence over one sharded map from byte strings to byte strings. Every step answer reports the
number of entries after it. `items` lists the entries sorted bytewise by key, then by value.
-/

namespace IndexedTree

namespace Service

/-- A step of a sharded map request. -/
inductive MapStep where
  | store (key value : Bytes)
  | load (key : Bytes)
  | contains (key : Bytes)
  | erase (key : Bytes)
  | eraseIf (key value : Bytes)
  | reset
  | size
  | shardOf (key : Bytes)
  | shardsSize
  | items
  | visitUntil (count : Nat)

namespace MapStep

/-- Reads a step from its fields. -/
def decode (fs : Fields) : Except BadInput MapStep := do
  let op ← fs.op
  match op.toString? with
  | some "store" => return .store (← fs.bytes "key") (← fs.bytes "value")
  | some "load" => return .load (← fs.bytes "key")
  | some "contains" => return .contains (← fs.bytes "key")
  | some "erase" => return .erase (← fs.bytes "key")
  | some "erase_if" => return .eraseIf (← fs.bytes "key") (← fs.bytes "value")
  | some "reset" => return .reset
  | some "size" => return .size
  | some "shard_of" => return .shardOf (← fs.bytes "key")
  | some "shards_size" => return .shardsSize
  | some "items" => return .items
  | some "visit_until" => return .visitUntil (← fs.count "count")
  | _ => throw (.unknownOp op)

/-- Entries in bytewise order of key, then of value. -/
def sorted (entries : List (Bytes × Bytes)) : List (Bytes × Bytes) :=
  entries.mergeSort fun a b => a.1.lt b.1 || (a.1 == b.1 && a.2.le b.2)

/-- The number of entries a walk visits when each visit counts and asks to go on while the count
stays below `count`. -/
def visitCount {α : Type} (m : ShardedMap α) (count : Nat) : Nat :=
  m.visitWhile (fun seen _ _ => (seen + 1, decide (seen + 1 < count))) 0

/-- Runs a step. -/
def run (m : ShardedMap Bytes) : MapStep → StepReply × ShardedMap Bytes
  | store k v => (.result .null, m.insert k v)
  | load k => (.result (Json.opt .str (m.get? k)), m)
  | contains k => (.result (.bool (m.contains k)), m)
  | erase k =>
    let r := m.erase k
    (.result (.bool r.1), r.2)
  | eraseIf k v =>
    let r := m.eraseIf k (· == v)
    (.result (.bool r.1), r.2)
  | reset => (.result .null, m.clear)
  | size => (.result (.nat m.size), m)
  | shardOf k => (.result (.nat (m.shardIndex k)), m)
  | shardsSize => (.result (.nat m.shardCount), m)
  | items =>
    (.result (.arr ((sorted m.toList).map fun e => .arr [.str e.1, .str e.2])), m)
  | visitUntil c => (.result (.nat (visitCount m c)), m)

end MapStep

/-- Answers `{"op":"sharded_map","shards":…,"ops":[…]}`. -/
def shardedMap (fs : Fields) : Except BadInput Json := do
  let ⟨n, hn⟩ ← shardsField fs
  sequence fs (ShardedMap.empty n hn : ShardedMap Bytes) (decodeThen MapStep.decode MapStep.run)
    fun m => [("size", .nat m.size)]

end Service

end IndexedTree
