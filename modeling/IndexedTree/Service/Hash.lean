import IndexedTree.Bytes.Fnv
import IndexedTree.Service.Request

/-!
# The hash request

Answers a key's 64-bit FNV-1 hash, in decimal text, and its shard for each shard count that the
sharded requests accept.
-/

namespace IndexedTree

namespace Service

/-- The shard counts that sharded requests accept. -/
def shardCounts : List Nat := [1, 2, 4, 7, 64, 1000]

/-- A key's hash, and its shard for each accepted shard count. -/
def hashOf (key : Bytes) : Json :=
  Json.record
    [("hash", .text (toString key.fnv64.toNat)),
     ("shard_of", Json.record (shardCounts.map fun n => (toString n, .nat (key.shardOf n))))]

/-- Answers `{"op":"hash","key":…}`. -/
def hash (fs : Fields) : Except BadInput Json := do
  let key ← fs.bytes "key"
  pure (hashOf key)

end Service

end IndexedTree
