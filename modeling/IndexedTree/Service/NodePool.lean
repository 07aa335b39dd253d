import IndexedTree.Pool.Lending
import IndexedTree.Service.Sequence

/-!
# The node pool request

A sequence over one pool that lends objects through named slots. Every step answer reports the
number of idle objects after it, or `null` once the pool is destroyed. An object is written with
its serial number, its count of clears and its value.

Two steps read their fields in an order of their own: `copy` reads `from` and finds its object
before it reads `to`, and `set` reads `value` before `slot`. So the field that `copy` reads late
is carried as it was read, problem and all.
-/

namespace IndexedTree

namespace Service

/-- A step of a node pool request. -/
inductive PoolStep where
  | acquire (slot : Bytes)
  | set (slot value : Bytes)
  | get (slot : Bytes)
  | release (slot : Bytes)
  | copy (src : Bytes) (dst : Except BadInput Bytes)
  | idle
  | shrink
  | destroy

namespace PoolStep

/-- Reads a step from its fields. -/
def decode (fs : Fields) : Except BadInput PoolStep := do
  let op ← fs.op
  match op.toString? with
  | some "acquire" => return .acquire (← fs.bytes "slot")
  | some "set" =>
    let value ← fs.bytes "value"
    return .set (← fs.bytes "slot") value
  | some "get" => return .get (← fs.bytes "slot")
  | some "release" => return .release (← fs.bytes "slot")
  | some "copy" => return .copy (← fs.bytes "from") (fs.bytes "to")
  | some "idle" => return .idle
  | some "shrink" => return .shrink
  | some "destroy_pool" => return .destroy
  | _ => throw (.unknownOp op)

/-- An object as a document. -/
def object (o : PoolObject) : Json :=
  Json.record [("serial", .nat o.serial), ("clears", .nat o.clears), ("value", .str o.value)]

/-- The reply and state of a step that changes the state unless it is refused. -/
def update (l : Lending) (e : BadInput) : Option Lending → StepReply × Lending
  | some l' => (.result .null, l')
  | none => (.refused e, l)

/-- Runs a step. -/
def run (l : Lending) : PoolStep → StepReply × Lending
  | acquire slot =>
    match l.acquire slot with
    | some (o, l') => (.result (object o), l')
    | none => (.refused .poolDestroyed, l)
  | set slot v => update l .emptySlot (l.set slot v)
  | get slot =>
    match l.get? slot with
    | some o => (.result (object o), l)
    | none => (.refused .emptySlot, l)
  | release slot => update l .emptySlot (l.release slot)
  | copy src dst =>
    match l.holder? src, dst with
    | some s, .ok d => (.result .null, l.point d s)
    | some _, .error e => (.refused e, l)
    | none, _ => (.refused .emptySlot, l)
  | idle =>
    match l.idleCount? with
    | some n => (.result (.nat n), l)
    | none => (.refused .poolDestroyed, l)
  | shrink => update l .poolDestroyed l.shrink
  | destroy => update l .poolDestroyed l.destroy

end PoolStep

/-- Answers `{"op":"node_pool","retain":…,"ops":[…]}`. -/
def nodePool (fs : Fields) : Except BadInput Json := do
  let retain := (← fs.count? "retain").getD Pool.defaultRetain
  sequence fs (Lending.start retain) (decodeThen PoolStep.decode PoolStep.run)
    fun l => [("idle", Json.opt .nat l.idleCount?)]

end Service

end IndexedTree
