import Std.Data.HashMap
import IndexedTree.Bytes.Fnv

/-!
# Sharded maps

A map from byte strings to values, split into a fixed number of shards. A key lives in the shard
that its FNV-1 hash picks (`Bytes.shardOf`), so every operation on a key touches that one shard
only. The map is read through `get?`; `toList` lists the entries shard by shard, and `visitWhile`
walks the shards in that order, each entry by entry, until a visit asks to stop.
-/

namespace IndexedTree

/-- A map from byte strings to values, in a fixed number of shards. -/
structure ShardedMap (α : Type) where
  /-- The shards; a key is kept in shard `key.shardOf shards.size`. -/
  shards : Array (Std.HashMap Bytes α)
  shardCount_pos : 0 < shards.size

namespace ShardedMap

variable {α : Type}

/-- The number of shards a map has unless told otherwise. -/
def defaultShardCount : Nat := 64

/-- The empty map with `n` shards. -/
def empty (n : Nat) (h : 0 < n) : ShardedMap α :=
  ⟨Array.replicate n ∅, by simpa using h⟩

/-- The number of shards. -/
abbrev shardCount (m : ShardedMap α) : Nat := m.shards.size

/-- The position of the shard that holds a key. -/
def shardIndex (m : ShardedMap α) (k : Bytes) : Nat := k.shardOf m.shardCount

theorem shardIndex_lt (m : ShardedMap α) (k : Bytes) : m.shardIndex k < m.shardCount :=
  Nat.mod_lt _ m.shardCount_pos

/-- The shard that holds a key, as a map. -/
def shard (m : ShardedMap α) (k : Bytes) : Std.HashMap Bytes α := m.shards[m.shardIndex k]?.getD ∅

/-- The value stored under a key. -/
def get? (m : ShardedMap α) (k : Bytes) : Option α := (m.shard k)[k]?

/-- Whether a value is stored under a key. -/
def contains (m : ShardedMap α) (k : Bytes) : Bool := (m.get? k).isSome

/-- Changes the shard that holds `k`. -/
def modifyShard (m : ShardedMap α) (k : Bytes) (f : Std.HashMap Bytes α → Std.HashMap Bytes α) :
    ShardedMap α :=
  ⟨m.shards.modify (m.shardIndex k) f, by simpa using m.shardCount_pos⟩

/-- Stores a value under a key, replacing any value stored there. -/
def insert (m : ShardedMap α) (k : Bytes) (v : α) : ShardedMap α := m.modifyShard k (·.insert k v)

/-- Removes the value stored under a key, if any, and answers whether there was one. -/
def erase (m : ShardedMap α) (k : Bytes) : Bool × ShardedMap α :=
  (m.contains k, m.modifyShard k (·.erase k))

/-- Removes the value stored under a key when `p` holds of it, and answers whether it removed
one. -/
def eraseIf (m : ShardedMap α) (k : Bytes) (p : α → Bool) : Bool × ShardedMap α :=
  match m.get? k with
  | some v => if p v then (true, (m.erase k).2) else (false, m)
  | none => (false, m)

/-- The empty map with as many shards. -/
def clear (m : ShardedMap α) : ShardedMap α := empty m.shardCount m.shardCount_pos

/-- The number of entries: the sum of the shards' sizes. -/
def size (m : ShardedMap α) : Nat := m.shards.foldl (fun n s => n + s.size) 0

/-- The entries, shard by shard. -/
def toList (m : ShardedMap α) : List (Bytes × α) := m.shards.toList.flatMap (·.toList)

/-- Visits the entries of one shard in turn, threading a state. Answers the state and whether
the walk goes on, which it stops doing at the first visit that answers `false`. -/
def visitShard {σ : Type} (visit : σ → Bytes → α → σ × Bool) : List (Bytes × α) → σ → σ × Bool
  | [], s => (s, true)
  | (k, v) :: rest, s =>
    let r := visit s k v
    if r.2 then visitShard visit rest r.1 else (r.1, false)

/-- Visits the shards in turn, each entry by entry, threading a state. A visit that answers
`false` ends the whole walk, not only the loop over its own shard. -/
def visitShards {σ : Type} (visit : σ → Bytes → α → σ × Bool) :
    List (Std.HashMap Bytes α) → σ → σ
  | [], s => s
  | sh :: rest, s =>
    let r := visitShard visit sh.toList s
    if r.2 then visitShards visit rest r.1 else r.1

/-- Visits the entries shard by shard, threading a state, up to and including the first visit
that answers `false`. -/
def visitWhile {σ : Type} (m : ShardedMap α) (visit : σ → Bytes → α → σ × Bool) (init : σ) : σ :=
  visitShards visit m.shards.toList init

@[simp] theorem shardCount_modifyShard (m : ShardedMap α) (k : Bytes)
    (f : Std.HashMap Bytes α → Std.HashMap Bytes α) : (m.modifyShard k f).shardCount = m.shardCount := by
  simp [modifyShard, shardCount]

@[simp] theorem shardIndex_modifyShard (m : ShardedMap α) (k k' : Bytes)
    (f : Std.HashMap Bytes α → Std.HashMap Bytes α) :
    (m.modifyShard k f).shardIndex k' = m.shardIndex k' := by
  simp [shardIndex]

theorem shards_insert (m : ShardedMap α) (k : Bytes) (v : α) :
    (m.insert k v).shards = m.shards.modify (m.shardIndex k) (·.insert k v) := rfl

@[simp] theorem shardIndex_insert (m : ShardedMap α) (k k' : Bytes) (v : α) :
    (m.insert k v).shardIndex k' = m.shardIndex k' :=
  shardIndex_modifyShard m k k' _

/-- A change to the shard of `k` reaches the keys of that shard only. -/
theorem shard_modifyShard (m : ShardedMap α) (k k' : Bytes)
    (f : Std.HashMap Bytes α → Std.HashMap Bytes α) :
    (m.modifyShard k f).shard k' =
      if m.shardIndex k = m.shardIndex k' then f (m.shard k') else m.shard k' := by
  have hk' := m.shardIndex_lt k'
  simp only [shard, shardIndex_modifyShard]
  simp only [modifyShard, Array.getElem?_modify]
  split
  · simp [Array.getElem?_eq_getElem hk']
  · rfl

theorem get?_modifyShard (m : ShardedMap α) (k k' : Bytes)
    (f : Std.HashMap Bytes α → Std.HashMap Bytes α) :
    (m.modifyShard k f).get? k' =
      if m.shardIndex k = m.shardIndex k' then (f (m.shard k'))[k']? else m.get? k' := by
  rw [get?, shard_modifyShard]
  split <;> rfl

@[simp] theorem get?_insert (m : ShardedMap α) (k k' : Bytes) (v : α) :
    (m.insert k v).get? k' = if k = k' then some v else m.get? k' := by
  rw [insert, get?_modifyShard]
  by_cases hkk : k = k'
  · subst hkk
    simp
  · simp only [hkk, if_false, Std.HashMap.getElem?_insert, beq_iff_eq]
    split <;> rfl

@[simp] theorem get?_erase (m : ShardedMap α) (k k' : Bytes) :
    (m.erase k).2.get? k' = if k = k' then none else m.get? k' := by
  rw [erase, get?_modifyShard]
  by_cases hkk : k = k'
  · subst hkk
    simp
  · simp only [hkk, if_false, Std.HashMap.getElem?_erase, beq_iff_eq]
    split <;> rfl

@[simp] theorem get?_empty (n : Nat) (h : 0 < n) (k : Bytes) :
    (empty n h : ShardedMap α).get? k = none := by
  simp only [get?, shard, empty, Array.getElem?_replicate]
  split <;> simp

@[simp] theorem get?_clear (m : ShardedMap α) (k : Bytes) : m.clear.get? k = none := by
  simp [clear]

@[simp] theorem contains_eq (m : ShardedMap α) (k : Bytes) : m.contains k = (m.get? k).isSome := rfl

@[simp] theorem erase_fst (m : ShardedMap α) (k : Bytes) : (m.erase k).1 = (m.get? k).isSome := rfl

/-- `eraseIf` removes the entry of `k` exactly when there is one and `p` holds of its value, and
answers so. -/
theorem eraseIf_eq (m : ShardedMap α) (k : Bytes) (p : α → Bool) :
    m.eraseIf k p = if (m.get? k).any p then (true, (m.erase k).2) else (false, m) := by
  unfold eraseIf
  cases m.get? k with
  | none => rfl
  | some v => by_cases hp : p v <;> simp [hp]

@[simp] theorem eraseIf_fst (m : ShardedMap α) (k : Bytes) (p : α → Bool) :
    (m.eraseIf k p).1 = (m.get? k).any p := by
  rw [eraseIf_eq]
  split <;> simp_all

theorem get?_eraseIf (m : ShardedMap α) (k k' : Bytes) (p : α → Bool) :
    (m.eraseIf k p).2.get? k' = if k = k' ∧ (m.get? k).any p then none else m.get? k' := by
  rw [eraseIf_eq]
  by_cases hp : (m.get? k).any p = true
  · by_cases hkk : k = k'
    · subst hkk
      simp [hp]
    · simp [hp, hkk]
  · simp [hp]

end ShardedMap

end IndexedTree
