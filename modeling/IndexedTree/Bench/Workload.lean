import IndexedTree.Tree.Add
import IndexedTree.Tree.Remove
import IndexedTree.Tree.Query

/-!
# Benchmark workloads

A workload grows a tree below its root. Worker `w` adds the nodes `i = 1, …, n - 1`: node `i` has
the id `w.i` (both numbers in decimal) and the value `i`, and goes under a node that the worker
added before it, the root counting as the first. The low workload draws that node uniformly, the
high workload favours recent nodes. The draws come from outside, as a function of the worker,
of `i` and of the number `k` of nodes to choose from; a workload only brings a draw into range.

A run adds the root `root`, lets one worker for each thread id grow the tree, and reports the
counter, the number of nodes below the root, the number of nodes in the index, the tree's height
and width, and, after each child of the root is removed, the counter and the number of spare
records. Threads take their ids from a counter that the whole process shares, so a run's
workers have distinct ids, not necessarily the first ones. The workers' adds
interleave as a schedule says: each entry names the worker that makes its next add, and after
the schedule every worker makes its remaining adds. An add that the tree refuses ends the run.
-/

namespace IndexedTree

namespace Bench

/-- How a workload draws the parent of a new node. -/
inductive Workload where
  /-- Uniformly among the nodes added before. -/
  | low
  /-- Favouring the nodes added last. -/
  | high
deriving DecidableEq, Repr

namespace Workload

/-- The name a run reports. -/
def name : Workload → String
  | low => "tree lw"
  | high => "tree hw"

/-- The position among `k` nodes that a draw picks: the low workload's draws are taken modulo
`k`, the high workload's are capped at the last position. -/
def position : Workload → Nat → Nat → Nat
  | low, d, k => d % k
  | high, d, k => min d (k - 1)

end Workload

/-- The draws of a run: for worker `w`, node `i` and `k` nodes to choose from, `draw w i k`. -/
abbrev Draws := Nat → Nat → Nat → Nat

/-- The id of the `i`-th node of worker `w`: `w.i`, both numbers in decimal. -/
def nodeId (w i : Nat) : Bytes := Bytes.ofNat w ++ ⟨[0x2E]⟩ ++ Bytes.ofNat i

/-- The root node of a benchmark tree. -/
def root : Node Int := ⟨Bytes.ofString "root", 0⟩

/-- A tree that holds only the root. -/
def start : Tree Int := (Tree.empty ShardedMap.defaultShardCount (by decide) |>.addRoot root).2

/-- A worker: its number, the number of the next node it adds, and the nodes it has added, the
root first. -/
structure Worker where
  id : Nat
  next : Nat
  added : Array (Node Int)

namespace Worker

/-- A worker that has added nothing yet. -/
def fresh (id : Nat) : Worker := ⟨id, 1, #[root]⟩

/-- The worker's next add: node `next` under the drawn node among those it added before. A
worker that has added the nodes up to `n - 1` does nothing; an add that the tree refuses ends
the run with its error. -/
def step (wl : Workload) (draw : Draws) (n : Nat) (w : Worker) (t : Tree Int) :
    Except TreeError (Worker × Tree Int) :=
  if w.next < n then
    let k := w.added.size
    let parent := w.added[wl.position (draw w.id w.next k) k]?.getD root
    let child : Node Int := ⟨nodeId w.id w.next, w.next⟩
    match t.addChild child parent.id with
    | (.ok (), t') => .ok ({ w with next := w.next + 1, added := w.added.push child }, t')
    | (.error e, _) => .error e
  else .ok (w, t)

/-- The worker's next `m` adds. -/
def steps (wl : Workload) (draw : Draws) (n : Nat) :
    Nat → Worker → Tree Int → Except TreeError (Worker × Tree Int)
  | 0, w, t => .ok (w, t)
  | m + 1, w, t => do
    let r ← w.step wl draw n t
    steps wl draw n m r.1 r.2

/-- The worker's remaining adds. -/
def finish (wl : Workload) (draw : Draws) (n : Nat) (w : Worker) (t : Tree Int) :
    Except TreeError (Worker × Tree Int) :=
  w.steps wl draw n (n - w.next) t

end Worker

/-- The next add of the worker at position `j`, if there is one. -/
def stepAt (wl : Workload) (draw : Draws) (n : Nat) (acc : List Worker × Tree Int) (j : Nat) :
    Except TreeError (List Worker × Tree Int) :=
  match acc.1[j]? with
  | some w => do
    let r ← w.step wl draw n acc.2
    pure (acc.1.set j r.1, r.2)
  | none => .ok acc

/-- The workers make their adds as the schedule says, then each makes its remaining adds. -/
def grow (wl : Workload) (draw : Draws) (n : Nat) (schedule : List Nat) (ws : List Worker)
    (t : Tree Int) : Except TreeError (Tree Int) := do
  let r ← schedule.foldlM (stepAt wl draw n) (ws, t)
  r.1.foldlM (fun t w => do pure (← w.finish wl draw n t).2) r.2

/-- What a run reports, in the order it prints it. -/
structure Report where
  name : String
  size : Nat
  descendants : Nat
  nodes : Nat
  height : Nat
  width : Nat
  sizeAfter : Nat
  idleAfter : Nat
deriving DecidableEq, Repr

/-- The report on a grown tree: its counts, then those left after each child of the root is
removed. -/
def report (wl : Workload) (t : Tree Int) : Report :=
  let kids := (t.children? root.id).getD []
  let t' := kids.foldl (fun t c => (t.remove c.id).2) t
  { name := wl.name
    size := t.size
    descendants := ((t.descendants? root.id).map List.length).getD 0
    nodes := t.nodes.length
    height := t.height
    width := t.width
    sizeAfter := t'.size
    idleAfter := t'.idleRecords }

/-- Runs a workload with one worker for each thread id of `ids`, each adding `n - 1` nodes, their
adds interleaved by `schedule`; an add that the tree refuses ends the run with its error. -/
def run (wl : Workload) (draw : Draws) (ids : List Nat) (n : Nat) (schedule : List Nat) :
    Except TreeError Report := do
  let t ← grow wl draw n schedule (ids.map Worker.fresh) start
  pure (report wl t)

end Bench

end IndexedTree
