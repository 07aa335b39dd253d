import IndexedTree.Bytes.Basic

/-!
# The FNV-1 hash of a byte string

64-bit FNV-1: start from the offset basis and, for each byte read as unsigned, multiply by the
FNV prime modulo 2^64 and then xor the byte in. A key's shard among `n` shards is its hash
modulo `n`.
-/

namespace IndexedTree

namespace Fnv

/-- The 64-bit FNV offset basis. -/
def offsetBasis : UInt64 := 14695981039346656037

/-- The 64-bit FNV prime. -/
def prime : UInt64 := 1099511628211

/-- One step of FNV-1: multiply, then xor the byte in. -/
def step (h : UInt64) (b : UInt8) : UInt64 := (h * prime) ^^^ b.toUInt64

end Fnv

namespace Bytes

/-- The 64-bit FNV-1 hash of a byte string. -/
def fnv64 (b : Bytes) : UInt64 := b.data.foldl Fnv.step Fnv.offsetBasis

/-- The shard of a key among `n` shards: its hash modulo `n`. -/
def shardOf (b : Bytes) (n : Nat) : Nat := b.fnv64.toNat % n

end Bytes

end IndexedTree
