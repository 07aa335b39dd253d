import IndexedTree.ChildList
import IndexedTree.Service.Sequence

/-!
# The child list request

A sequence over one child list of byte strings. Every step answer reports the items after it.
-/

namespace IndexedTree

namespace Service

/-- A step of a child list request. -/
inductive ChildListStep where
  | append (value : Bytes)
  | appendMany (values : List Bytes)
  | get (index : Nat)
  | eraseAt (index : Nat)
  | removeFirst (value : Bytes)
  | take
  | items
  | reset
  | size
  | isEmpty

namespace ChildListStep

/-- Reads a step from its fields. -/
def decode (fs : Fields) : Except BadInput ChildListStep := do
  let op ← fs.op
  match op.toString? with
  | some "append" => return .append (← fs.bytes "value")
  | some "append_many" => return .appendMany (← byteListField fs "values")
  | some "get" => return .get (← fs.count "index")
  | some "erase_at" => return .eraseAt (← fs.count "index")
  | some "remove_first_if" => return .removeFirst (← fs.bytes "value")
  | some "take" => return .take
  | some "items" => return .items
  | some "reset" => return .reset
  | some "size" => return .size
  | some "empty" => return .isEmpty
  | _ => throw (.unknownOp op)

/-- The list of byte strings as a document. -/
def strings (xs : List Bytes) : Json := .arr (xs.map .str)

/-- The operation a step asks for; `remove_first_if` removes the first child equal to its
value. -/
def toCall : ChildListStep → ChildList.Call Bytes
  | append v => .append v
  | appendMany vs => .appendMany vs
  | get i => .get i
  | eraseAt i => .eraseAt i
  | removeFirst v => .removeFirstIf (· == v)
  | take => .take
  | items => .items
  | reset => .reset
  | size => .size
  | isEmpty => .isEmpty

/-- An operation's answer as a document. -/
def answerJson : ChildList.Answer Bytes → Json
  | .done => .null
  | .child a => Json.opt .str a
  | .flag b => .bool b
  | .children as => strings as
  | .count n => .nat n

/-- Runs a step: its operation on the child list, and the answer as a document. -/
def run (l : ChildList Bytes) (s : ChildListStep) : StepReply × ChildList Bytes :=
  let r := s.toCall.run l
  (.result (answerJson r.1), r.2)

end ChildListStep

/-- Answers `{"op":"child_list","ops":[…]}`. -/
def childList (fs : Fields) : Except BadInput Json :=
  sequence fs (ChildList.empty : ChildList Bytes) (decodeThen ChildListStep.decode ChildListStep.run)
    fun l => [("items", ChildListStep.strings l.toList)]

end Service

end IndexedTree
