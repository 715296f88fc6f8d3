import TensorTree.Node.Variant

/-!
# Faults

What can go wrong when a node is added, and what can go wrong when nodes are read.  A read only
fails if it is asked for what is not there: a node that does not exist, a node of another
variant, or a part that the node lacks.
-/

namespace TensorTree

/-! ## §1 Adding nodes -/

/-- Why a node is not accepted. -/
inductive BuildError where
  /-- The node refers to a child that does not exist yet. -/
  | danglingChild (parent : Variant) (child : NodeId)
  /-- An assignment has no target. -/
  | emptyAssignTargets
  /-- The operators of a comparison chain are not one fewer than its operands. -/
  | comparisonArity (operands ops : Nat)
  /-- A tensor type that is not scalar has no dimension. -/
  | zeroDimensionTensor
  /-- The block of a tensor type is not a tensor type. -/
  | nonTensorBlockType (found : Variant)
  /-- A conditional statement has neither an alternative nor a recorded end. -/
  | missingIfEnd
deriving DecidableEq

def BuildError.message : BuildError → String
  | .danglingChild parent child =>
    s!"{parent.name} refers to {child.text}, which has not been allocated"
  | .emptyAssignTargets => "assignment must have at least one target"
  | .comparisonArity operands ops =>
    s!"comparison chain has {operands} operands but {ops} operators"
  | .zeroDimensionTensor => "a non-scalar tensor type needs at least one dimension"
  | .nonTensorBlockType found =>
    s!"a tensor block type must be a tensor type, found {found.name}"
  | .missingIfEnd => "an if statement without an else branch must record its end location"

/-! ## §2 Reading nodes -/

/-- Why a read has no answer. -/
inductive ReadFault where
  /-- There is no node of this number. -/
  | unknownNode (id : NodeId)
  /-- The node is of another variant than the one asked for. -/
  | variantMismatch (id : NodeId) (expected found : Variant)
  /-- A position is asked for that a list does not have. -/
  | outOfRange
  /-- The node lies below itself, so that the answer would never end. -/
  | endless
deriving DecidableEq

/-- The message of a failed read, for the faults that have one. -/
def ReadFault.message? : ReadFault → Option String
  | .unknownNode id => some s!"internal error: {id.text} does not exist"
  | .variantMismatch id expected found =>
    some s!"internal error: {id.text} is a {found.name}, expected {expected.name}"
  | .outOfRange | .endless => none

end TensorTree
