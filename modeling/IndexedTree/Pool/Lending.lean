import IndexedTree.Bytes.Basic
import IndexedTree.Pool

/-!
# Lending objects through named slots

Objects drawn from a pool are held through handles, and handles sit in named slots; two slots may
share one object. When the last slot that holds an object lets go, the object goes back: it is
cleared (its value emptied, its count of clears raised by one) and given to the pool, which keeps
it idle if there is room.

An object is drawn from the idle objects, the longest waiting first, or built afresh with the
next serial number. Once the pool itself is destroyed it lends nothing more and reports
nothing; the objects still out keep working.
-/

namespace IndexedTree

/-- An object that a pool lends: its serial number, how often it was cleared, and its value. -/
structure PoolObject where
  serial : Nat
  clears : Nat
  value : Bytes
deriving DecidableEq, Repr

namespace PoolObject

/-- A fresh object with a serial number. -/
def fresh (serial : Nat) : PoolObject := ⟨serial, 0, Bytes.empty⟩

/-- The object as it goes back to the pool: value emptied, one more clear counted. -/
def cleared (o : PoolObject) : PoolObject := { o with clears := o.clears + 1, value := Bytes.empty }

end PoolObject

/-- A pool with the objects it has lent through named slots. -/
structure Lending where
  /-- The idle objects. -/
  pool : Pool PoolObject
  /-- Whether the pool still exists. -/
  live : Bool
  /-- The objects that some slot holds, each once. -/
  lent : List PoolObject
  /-- For each held slot, the serial number of its object. -/
  slots : List (Bytes × Nat)
  /-- The serial number of the next object built afresh. -/
  nextSerial : Nat

namespace Lending

/-- A pool that keeps at most `retain` idle objects and has lent nothing. -/
def start (retain : Nat) : Lending := ⟨Pool.empty retain, true, [], [], 1⟩

/-- The serial number of the object a slot holds. -/
def holder? (l : Lending) (slot : Bytes) : Option Nat := l.slots.lookup slot

/-- The object a slot holds. -/
def get? (l : Lending) (slot : Bytes) : Option PoolObject :=
  (l.holder? slot).bind fun s => l.lent.find? (·.serial == s)

/-- The number of idle objects, while the pool exists. -/
def idleCount? (l : Lending) : Option Nat := if l.live then some l.pool.idleCount else none

/-- Points a slot at an object. -/
def assign (slots : List (Bytes × Nat)) (slot : Bytes) (s : Nat) : List (Bytes × Nat) :=
  (slot, s) :: slots.filter (·.1 != slot)

/-- Gives the object with serial `s` back to the pool when no slot holds it any more. -/
def settle (l : Lending) (s : Nat) : Lending :=
  if l.slots.any (·.2 == s) then l
  else
    match l.lent.find? (·.serial == s) with
    | none => l
    | some o => { l with lent := l.lent.filter (·.serial != s), pool := l.pool.give o.cleared }

/-- Points a slot at the object with serial `s`; the object it held before is settled. -/
def point (l : Lending) (slot : Bytes) (s : Nat) : Lending :=
  let old := l.holder? slot
  let l := { l with slots := assign l.slots slot s }
  match old with
  | some o => l.settle o
  | none => l

/-- Draws an object: the longest idle one, or a fresh one. It is lent out, held by no slot yet.
`none` once the pool is destroyed. -/
def draw (l : Lending) : Option (PoolObject × Lending) :=
  if l.live then
    let drawn : PoolObject × Lending :=
      match l.pool.take? with
      | some (o, p) => (o, { l with pool := p })
      | none => (PoolObject.fresh l.nextSerial, { l with nextSerial := l.nextSerial + 1 })
    some (drawn.1, { drawn.2 with lent := drawn.2.lent ++ [drawn.1] })
  else none

/-- Draws an object into a slot; the object the slot held before is settled. `none` once the
pool is destroyed. -/
def acquire (l : Lending) (slot : Bytes) : Option (PoolObject × Lending) :=
  l.draw.map fun r => (r.1, r.2.point slot r.1.serial)

/-- Sets the value of the object a slot holds; `none` when the slot is empty. -/
def set (l : Lending) (slot : Bytes) (v : Bytes) : Option Lending :=
  (l.holder? slot).map fun s =>
    { l with lent := l.lent.map fun o => if o.serial == s then { o with value := v } else o }

/-- Lets a slot go; `none` when the slot is empty. -/
def release (l : Lending) (slot : Bytes) : Option Lending :=
  (l.holder? slot).map fun s => { l with slots := l.slots.filter (·.1 != slot) }.settle s

/-- Makes slot `dst` share the object of slot `src`; `none` when `src` is empty. -/
def copy (l : Lending) (src dst : Bytes) : Option Lending :=
  (l.holder? src).map fun s => l.point dst s

/-- Drops every idle object; `none` once the pool is destroyed. -/
def shrink (l : Lending) : Option Lending :=
  if l.live then some { l with pool := l.pool.shrink } else none

/-- Destroys the pool; `none` when it is already destroyed. -/
def destroy (l : Lending) : Option Lending :=
  if l.live then some { l with live := false } else none

end Lending

end IndexedTree
