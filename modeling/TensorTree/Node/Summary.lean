import TensorTree.Forest.Fault
import TensorTree.Node.Basic

/-!
# What a node tells about itself

Some nodes answer a question of their own: whether a set connects others, how many dimensions a
tensor type has, which pairs a chain compares.
-/

namespace TensorTree

/-- A link of a comparison chain. -/
structure Link where
  lhs : Ref .expr
  op : ComparisonOp
  rhs : Ref .expr
deriving DecidableEq

/-- The links of a comparison chain: each operator with the operands on either side of it. -/
def comparisonLinks : List (Ref .expr) → List ComparisonOp → Except ReadFault (List Link)
  | _, [] => .ok []
  | lhs :: rhs :: operands, op :: ops =>
    (comparisonLinks (rhs :: operands) ops).map (⟨lhs, op, rhs⟩ :: ·)
  | _, _ :: _ => .error .outOfRange

/-- What a node tells about itself. -/
inductive Summary where
  /-- Whether a set has endpoints, and how many. -/
  | endpoints (isEdgeSet : Bool) (cardinality : Nat)
  /-- The number of dimensions of a tensor type, not counting those of its block. -/
  | order (n : Nat)
  | scalar (kind : ScalarKind)
  /-- Whether a conditional statement has an alternative. -/
  | alternative (present : Bool)
  | links (links : List Link)
  | operator (op : BinaryOp)
deriving DecidableEq

namespace Node

/-- What a node tells about itself, if anything. -/
def summary? : Node → Except ReadFault (Option Summary)
  | .setType _ endpoints => .ok (some (.endpoints (!endpoints.isEmpty) endpoints.length))
  | .nonScalarTensorType indexSets _ _ => .ok (some (.order indexSets.length))
  | .scalarTensorType kind => .ok (some (.scalar kind))
  | .ifStmt _ _ elseBody => .ok (some (.alternative elseBody.isSome))
  | .eqExpr operands ops => (comparisonLinks operands ops).map fun links => some (.links links)
  | .binary op _ _ => .ok (some (.operator op))
  | _ => .ok none

end Node

end TensorTree
