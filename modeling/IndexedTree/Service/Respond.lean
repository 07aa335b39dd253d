import IndexedTree.Json.Reader
import IndexedTree.Json.Writer
import IndexedTree.Service.Hash
import IndexedTree.Service.ChildList
import IndexedTree.Service.ShardedMap
import IndexedTree.Service.NodePool
import IndexedTree.Service.Ancestry
import IndexedTree.Service.Tree
import IndexedTree.Service.Node
import IndexedTree.Service.Bench

/-!
# Answering a request line

`Service.respond` reads a line as a JSON object, runs the operation that its `op` names and writes
the answer on one line. A problem with the request as a whole is answered with a `bad_input`
error for the line.
-/

namespace IndexedTree

namespace Service

/-- The answer to a request that cannot be carried out. -/
def refuse (e : BadInput) : Json :=
  Json.record [("error", .text "bad_input"), ("message", .str (reportedMessage e.message))]

/-- Runs the operation a request names. -/
def dispatch (fs : Fields) : Except BadInput Json := do
  let op ← fs.op
  match op.toString? with
  | some "hash" => hash fs
  | some "child_list" => childList fs
  | some "sharded_map" => shardedMap fs
  | some "node_pool" => nodePool fs
  | some "ancestry" => ancestry fs
  | some "tree" => tree fs
  | some "basic_node" => basicNode fs
  | some "bench_run" => benchRun fs
  | some "bench_workload" => benchWorkload fs
  | _ => throw (.unknownOp op)

/-- The answer to one request line. -/
def answer (line : Bytes) : Json :=
  match Json.parse? line with
  | some (.obj fs) =>
    match dispatch fs with
    | .ok j => j
    | .error e => refuse e
  | some _ => refuse .notAnObject
  | none => refuse .malformedJson

/-- The answer to one request line, written on one line. -/
def respond (line : Bytes) : String := (answer line).render

end Service

end IndexedTree
