import IndexedTree.ShardedMap

/-!
# Ancestor chains

Each attached id keeps the chain of its ancestors' ids, nearest first. A chain is fixed when the
id is attached: the parent's id followed by the parent's chain as it stands at that moment. Later
changes to the parent's chain do not reach it.
-/

namespace IndexedTree

/-- The ancestor chains of attached ids, kept in a sharded map. -/
structure Ancestry where
  /-- Each attached id's ancestors, nearest first. -/
  chains : ShardedMap (List Bytes)

namespace Ancestry

/-- No id attached, chains kept in `n` shards. -/
def empty (n : Nat) (h : 0 < n) : Ancestry := ⟨ShardedMap.empty n h⟩

/-- The chain of an id, nearest ancestor first. -/
def chain? (a : Ancestry) (id : Bytes) : Option (List Bytes) := a.chains.get? id

/-- Attaches an id with no ancestors, replacing any chain it had. -/
def attachRoot (a : Ancestry) (id : Bytes) : Ancestry := ⟨a.chains.insert id []⟩

/-- Attaches an id under a parent: its chain is the parent followed by the parent's chain, read
before the new chain is stored. -/
def attach (a : Ancestry) (id parent : Bytes) : Ancestry :=
  ⟨a.chains.insert id (parent :: (a.chain? parent).getD [])⟩

/-- Forgets an id's chain, and answers whether it had one. -/
def detach (a : Ancestry) (id : Bytes) : Bool × Ancestry :=
  let r := a.chains.erase id
  (r.1, ⟨r.2⟩)

/-- Whether an id has a chain. -/
def contains (a : Ancestry) (id : Bytes) : Bool := a.chains.contains id

/-- The ancestor `level` steps up from the nearest, counting from zero. -/
def ancestorAt? (a : Ancestry) (id : Bytes) (level : Nat) : Option Bytes :=
  (a.chain? id).bind (·[level]?)

/-- The nearest ancestor. -/
def parent? (a : Ancestry) (id : Bytes) : Option Bytes := a.ancestorAt? id 0

/-- The number of ancestors. -/
def depth? (a : Ancestry) (id : Bytes) : Option Nat := (a.chain? id).map List.length

/-- Forgets every chain. -/
def clear (a : Ancestry) : Ancestry := ⟨a.chains.clear⟩

/-- The number of attached ids. -/
def size (a : Ancestry) : Nat := a.chains.size

@[simp] theorem chain?_empty (n : Nat) (h : 0 < n) (x : Bytes) : (empty n h).chain? x = none := by
  simp [empty, chain?]

@[simp] theorem chain?_attachRoot (a : Ancestry) (id x : Bytes) :
    (a.attachRoot id).chain? x = if id = x then some [] else a.chain? x := by
  simp [attachRoot, chain?]

@[simp] theorem chain?_attach (a : Ancestry) (id parent x : Bytes) :
    (a.attach id parent).chain? x =
      if id = x then some (parent :: (a.chain? parent).getD []) else a.chain? x := by
  simp [attach, chain?]

@[simp] theorem chain?_detach (a : Ancestry) (id x : Bytes) :
    (a.detach id).2.chain? x = if id = x then none else a.chain? x := by
  simp [detach, chain?]

@[simp] theorem detach_fst (a : Ancestry) (id : Bytes) : (a.detach id).1 = (a.chain? id).isSome :=
  rfl

@[simp] theorem chain?_clear (a : Ancestry) (x : Bytes) : a.clear.chain? x = none := by
  simp [clear, chain?]

@[simp] theorem contains_eq (a : Ancestry) (id : Bytes) : a.contains id = (a.chain? id).isSome := by
  simp [contains, chain?]

end Ancestry

end IndexedTree
