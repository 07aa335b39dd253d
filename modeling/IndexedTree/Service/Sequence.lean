import IndexedTree.Service.Request
import IndexedTree.Service.Hash
import IndexedTree.ShardedMap

/-!
# Sequence requests

A sequence request carries `"ops"`, an array of steps run in order over one state. Each step is
answered by its reply, a result or an error, followed by the fields that report the state after
it. A step that fails leaves the steps after it to run.
-/

namespace IndexedTree

namespace Service

/-- What one step answers before the state fields: a result, or an error of a kind with its
message. -/
inductive StepReply where
  | result (value : Json)
  | error (kind : String) (message : Bytes)

namespace StepReply

/-- The reply to a step that cannot be carried out. -/
def refused (e : BadInput) : StepReply := .error "bad_input" e.message

/-- The reply's members of a step answer. -/
def members : StepReply → List (String × Json)
  | result v => [("result", v)]
  | error kind message => [("error", .text kind), ("message", .str (reportedMessage message))]

end StepReply

/-- Runs steps in order over a state: each answer is the step's reply and then `report` of the
state after it. A step that is not an object is refused and leaves the state as it was. -/
def runSteps {σ : Type} (step : σ → Fields → StepReply × σ) (report : σ → List (String × Json)) :
    σ → List Json → List Json
  | _, [] => []
  | s, j :: rest =>
    let r : StepReply × σ :=
      match j with
      | .obj fs => step s fs
      | _ => (.refused .stepNotAnObject, s)
    Json.record (r.1.members ++ report r.2) :: runSteps step report r.2 rest

/-- Answers a sequence request: its steps' answers, from the state `init`. -/
def sequence {σ : Type} (fs : Fields) (init : σ) (step : σ → Fields → StepReply × σ)
    (report : σ → List (String × Json)) : Except BadInput Json := do
  let ops ← fs.array "ops"
  pure (Json.record [("steps", .arr (runSteps step report init ops))])

/-- Decodes a step, then runs it; a step that cannot be decoded is refused. -/
def decodeThen {σ γ : Type} (decode : Fields → Except BadInput γ) (run : σ → γ → StepReply × σ)
    (s : σ) (fs : Fields) : StepReply × σ :=
  match decode fs with
  | .ok c => run s c
  | .error e => (.refused e, s)

/-- The shard count a request asks for: `shards`, `ShardedMap.defaultShardCount` when absent,
one of `shardCounts`. -/
def shardsField (fs : Fields) : Except BadInput { n : Nat // 0 < n } := do
  let n := (← fs.count? "shards").getD ShardedMap.defaultShardCount
  if h : n ∈ shardCounts ∧ 0 < n then pure ⟨n, h.2⟩ else throw .unsupportedShards

/-- A field that holds an array of byte strings. -/
def byteListField (fs : Fields) (name : String) : Except BadInput (List Bytes) :=
  fs.need name fun
    | .arr items => items.mapM Json.asBytes?
    | _ => none

end Service

end IndexedTree
