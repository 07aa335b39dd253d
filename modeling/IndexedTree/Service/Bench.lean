import IndexedTree.Bench.Workload
import IndexedTree.Service.Tree

/-!
# The benchmark requests

`bench_run` runs a workload with some workers and reports the counts of the run;
`bench_workload` lets one worker, number zero, grow a tree and lists its nodes, sorted by id.

Neither answer depends on the shape of the tree or on the order of the workers' adds, so both
are fixed: node `i` goes under the node at position `(i - 1) / 2`, which grows a balanced binary
tree, and each worker makes all its adds before the next one starts.

A run with workers that add nodes is refused: its removal of the root's children is undefined.
-/

namespace IndexedTree

namespace Service

/-- The draws of the benchmark requests: node `i` goes under the node at position `(i - 1) / 2`. -/
def benchDraw : Bench.Draws := fun _ i _ => (i - 1) / 2

/-- The answer when a workload's add is refused, which its fresh ids rule out. -/
def refusedAdd (e : TreeError) : Json :=
  Json.record [("error", .text (TreeStep.kind e)), ("message", .str (reportedMessage e.message))]

/-- The most workers a run may have. -/
def maxThreads : Nat := 8

/-- The most nodes a worker may be asked for. -/
def maxNodes : Nat := 20000

/-- The workload a request names. -/
def workloadField (fs : Fields) : Except BadInput Bench.Workload :=
  fs.need "workload" fun j =>
    match (Json.asBytes? j).bind Bytes.toString? with
    | some "low" => some .low
    | some "high" => some .high
    | _ => none

/-- A count field with an upper bound. -/
def boundedField (fs : Fields) (name : String) (bound : Nat) : Except BadInput Nat := do
  let n ← fs.count name
  if n ≤ bound then pure n else throw (.outOfRange name)

/-- Answers `{"op":"bench_run","workload":…,"threads":…,"n":…}`. -/
def benchRun (fs : Fields) : Except BadInput Json := do
  let wl ← workloadField fs
  let threads ← boundedField fs "threads" maxThreads
  let n ← boundedField fs "n" maxNodes
  if 0 < threads ∧ 1 < n then throw .rootWouldHaveChildren
  -- the threads of a run in a fresh process take the ids `0, …, threads - 1`
  match Bench.run wl benchDraw (List.range threads) n [] with
  | .ok r =>
    pure (Json.record
      [("name", .text r.name), ("size", .nat r.size), ("descendants", .nat r.descendants),
       ("nodes", .nat r.nodes), ("size_after", .nat r.sizeAfter), ("idle_after", .nat r.idleAfter)])
  | .error e => pure (refusedAdd e)

/-- Answers `{"op":"bench_workload","workload":…,"n":…}`. -/
def benchWorkload (fs : Fields) : Except BadInput Json := do
  let wl ← workloadField fs
  let n ← boundedField fs "n" maxNodes
  match (Bench.Worker.fresh 0).finish wl benchDraw n Bench.start with
  | .ok (_, t) =>
    let descendants := ((t.descendants? Bench.root.id).map List.length).getD 0
    pure (Json.record
      [("size", .nat t.size), ("descendants", .nat descendants),
       ("nodes", .arr ((Node.sortById t.nodes).map fun nd => .arr [.str nd.id, .int nd.value]))])
  | .error e => pure (refusedAdd e)

end Service

end IndexedTree
