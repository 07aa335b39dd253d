import IndexedTree.Bytes.Basic
import IndexedTree.Bytes.Utf8
import IndexedTree.Bytes.Hex
import IndexedTree.Bytes.Fnv
import IndexedTree.Json.Value
import IndexedTree.Json.Reader
import IndexedTree.Json.Writer
import IndexedTree.Service.Request
import IndexedTree.Service.Hash
import IndexedTree.ChildList
import IndexedTree.ShardedMap
import IndexedTree.Service.Sequence
import IndexedTree.Service.ChildList
import IndexedTree.Service.ShardedMap
import IndexedTree.Pool
import IndexedTree.Pool.Lending
import IndexedTree.Service.NodePool
import IndexedTree.Ancestry
import IndexedTree.Service.Ancestry
import IndexedTree.Node
import IndexedTree.Tree.Basic
import IndexedTree.Tree.Walk
import IndexedTree.Tree.Remove
import IndexedTree.Tree.Add
import IndexedTree.Tree.Query
import IndexedTree.Tree.Print
import IndexedTree.Tree.Change
import IndexedTree.Service.Tree
import IndexedTree.Bench.Workload
import IndexedTree.Service.Node
import IndexedTree.Service.Bench
import IndexedTree.Service.Respond
import IndexedTree.Proofs.ShardedMap
import IndexedTree.Proofs.Order
import IndexedTree.Proofs.Tree.Steps
import IndexedTree.Proofs.Tree.WellFormed
import IndexedTree.Proofs.Tree.Walks
import IndexedTree.Proofs.Tree.Forest
import IndexedTree.Proofs.Tree.Counter
import IndexedTree.Proofs.Tree.Shape
import IndexedTree.Proofs.Tree.Queries
import IndexedTree.Proofs.ChildList
import IndexedTree.Proofs.FiniteMap
import IndexedTree.Proofs.Visits
import IndexedTree.Proofs.Tree.Reshard
import IndexedTree.Proofs.Runs
import IndexedTree.Proofs.ShardCount
import IndexedTree.Proofs.Lending
import IndexedTree.Proofs.PoolLifecycle
import IndexedTree.Proofs.Tree.Removal
import IndexedTree.Proofs.Tree.Refusals
import IndexedTree.Proofs.Tree.Adds
import IndexedTree.Proofs.Tree.Levels
import IndexedTree.Proofs.Chains
import IndexedTree.Proofs.Tree.Printing
import IndexedTree.Proofs.Workloads
import IndexedTree.Proofs.Fnv
