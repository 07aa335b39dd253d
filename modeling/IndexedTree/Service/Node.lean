import IndexedTree.Node
import IndexedTree.Service.Request

/-!
# The node request

Compares two nodes with byte-string values and writes their texts.
-/

namespace IndexedTree

namespace Service

/-- Answers `{"op":"basic_node","a_id":…,"a_value":…,"b_id":…,"b_value":…}`. -/
def basicNode (fs : Fields) : Except BadInput Json := do
  let a : Node Bytes := ⟨← fs.bytes "a_id", ← fs.bytes "a_value"⟩
  let b : Node Bytes := ⟨← fs.bytes "b_id", ← fs.bytes "b_value"⟩
  pure (Json.record
    [("eq", .bool (decide (a = b))), ("ne", .bool (decide (a ≠ b))),
     ("a_str", .str a.text), ("b_str", .str b.text)])

end Service

end IndexedTree
