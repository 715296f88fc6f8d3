import TensorTree.Visit.Basic

/-!
# Recording visitors

Visitors that report where they have been, each with hooks of another level.
-/

namespace TensorTree

/-- What a recording visitor reports. -/
inductive Event where
  /-- A node was met by the hook for all nodes. -/
  | node (id : NodeId) (variant : Variant)
  /-- A node was met by the hook for its family. -/
  | family (family : Family) (id : NodeId)
  /-- A node was met by the hook for its variant. -/
  | variant (variant : Variant) (handle : Handle)
  /-- A binary expression was met by the hook for all of them. -/
  | binary (op : BinaryOp) (id lhs rhs : NodeId)
  /-- A sum was met by the hook for sums. -/
  | sum (id lhs rhs : NodeId)
deriving DecidableEq

/-- The role of the reference that a hook for a variant gets. -/
def Variant.received : Variant → Role
  | .program => .program
  | .stmtBlock => .block
  | .rangeIndexSet | .dynamicIndexSet => .indexSet
  | .setIndexSet => .setIndexSet
  | .elementType => .elementType
  | .endpoint => .endpoint
  | .setType | .tupleType | .scalarTensorType | .nonScalarTensorType => .type
  | .tupleLength => .tupleLength
  | .identifier => .ident
  | .identDecl => .identDecl
  | .field => .field
  | .elementTypeDecl => .elementDecl
  | .argument => .argument
  | .externalDecl => .externalDecl
  | .callable .func => .func
  | .callable .proc => .proc
  | .binding _ | .loop _ | .ifStmt | .forStmt | .printStmt | .exprStmt | .assignStmt => .stmt
  | .indexSetDomain | .rangeDomain => .domain
  | .slice | .exprParam => .readParam
  | .mapExpr | .binary _ | .eqExpr | .notExpr | .negExpr | .transposeExpr | .callExpr
  | .tensorReadExpr | .tupleReadExpr | .fieldReadExpr | .parenExpr | .varExpr | .intLiteral
  | .floatLiteral | .boolLiteral | .denseTensorLiteral => .expr
  | .denseIntVector | .denseFloatVector | .denseNdTensor => .dense
  | .test => .test

namespace Visitor

/-- Report the node and visit its children. -/
def nodeThenChildren : Hook Event := fun id node =>
  .report (.node id node.variant) :: node.visitChildren

/-- A visitor without hooks. -/
def silent : Visitor Event := {}

/-- Report every node. -/
def nodes : Visitor Event := { onNode := some nodeThenChildren }

/-- Report nodes by family and, if asked to, visit their children. -/
def families (descend : Bool) : Visitor Event :=
  let children (node : Node) : List (Action Event) := if descend then node.visitChildren else []
  { onFamily := fun family =>
      some fun id node => .report (.family family id) :: children node
    onNode := some fun id node => .report (.node id node.variant) :: children node }

/-- Report nodes by variant, each with the reference that the hook gets. -/
def variants : Visitor Event :=
  { onVariant := fun variant =>
      some fun id node => .report (.variant variant ⟨variant.received, id⟩) :: node.visitChildren }

/-- Report a binary expression with its operands and visit these, the left one first. -/
def thenOperands (event : BinaryOp → NodeId → NodeId → NodeId → Event) : Hook Event
  | id, .binary op lhs rhs =>
    [.report (event op id lhs.node rhs.node), .visit lhs.node, .visit rhs.node]
  | _, _ => []

/-- Report sums, other binary expressions and all other nodes in different ways; of a binary
expression the operands are visited. -/
def operators : Visitor Event :=
  { onVariant := fun variant =>
      if variant = .binary .add then some (thenOperands fun _ => .sum) else none
    onBinary := some (thenOperands .binary)
    onNode := some nodeThenChildren }

end Visitor

end TensorTree
