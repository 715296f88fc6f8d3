import TensorTree.Forest.Basic

/-!
# Visits

A visitor says what to do at a node: which events to report and which nodes to visit next.  It
may say so for single variants, for all binary expressions, for families and for all nodes.  The
hook for the variant of a node decides; which one stands in for it is fixed for each variant, and
without any nothing happens.  Nodes are never visited unless a hook asks for it.
-/

namespace TensorTree

/-! ## §1 Visitors -/

/-- One thing that a visitor does. -/
inductive Action (ε : Type) where
  | report (event : ε)
  | visit (id : NodeId)

/-- What a visitor does at a node. -/
def Hook (ε : Type) : Type := NodeId → Node → List (Action ε)

/-- The hooks of a visitor, from the most specific to the most general. -/
structure Visitor (ε : Type) where
  onVariant : Variant → Option (Hook ε) := fun _ => none
  onBinary : Option (Hook ε) := none
  onFamily : Family → Option (Hook ε) := fun _ => none
  onNode : Option (Hook ε) := none

namespace Visitor

variable {ε : Type}

/-- The hook for a family.  Without one, the hook for all nodes stands in. -/
def familyHook? (v : Visitor ε) (family : Family) : Option (Hook ε) :=
  v.onFamily family <|> v.onNode

/-- The hook for binary expressions.  Without one, that for expressions stands in. -/
def binaryHook? (v : Visitor ε) : Option (Hook ε) := v.onBinary <|> v.familyHook? .expr

/-- The hook that stands in where there is none for the variant. -/
def fallback? (v : Visitor ε) : Variant → Option (Hook ε)
  -- no hook for families is meant for programs
  | .program => v.onNode
  | .stmtBlock => v.familyHook? .stmt
  | .rangeIndexSet | .setIndexSet | .dynamicIndexSet => v.familyHook? .indexSet
  | .elementType | .setType | .tupleType | .scalarTensorType | .nonScalarTensorType =>
    v.familyHook? .type
  | .endpoint | .tupleLength | .test => v.familyHook? .misc
  | .identifier | .identDecl | .field | .elementTypeDecl | .argument | .externalDecl
  | .callable _ => v.familyHook? .decl
  | .binding _ | .loop _ | .ifStmt | .forStmt | .printStmt | .exprStmt | .assignStmt =>
    v.familyHook? .stmt
  | .indexSetDomain | .rangeDomain => v.familyHook? .forDomain
  | .slice | .exprParam => v.familyHook? .readParam
  | .binary _ => v.binaryHook?
  | .mapExpr | .eqExpr | .notExpr | .negExpr | .transposeExpr | .callExpr | .tensorReadExpr
  | .tupleReadExpr | .fieldReadExpr | .parenExpr | .varExpr | .intLiteral | .floatLiteral
  | .boolLiteral | .denseTensorLiteral => v.familyHook? .expr
  | .denseIntVector | .denseFloatVector | .denseNdTensor => v.familyHook? .denseTensor

/-- The hook that decides at a node. -/
def hook? (v : Visitor ε) (node : Node) : Option (Hook ε) :=
  v.onVariant node.variant <|> v.fallback? node.variant

/-- What a visitor does at a node. -/
def actions (v : Visitor ε) (id : NodeId) (node : Node) : List (Action ε) :=
  match v.hook? node with
  | some hook => hook id node
  | none => []

end Visitor

/-- Visit all children, from left to right. -/
def Node.visitChildren {ε : Type} (n : Node) : List (Action ε) := n.children.map .visit

/-! ## §2 Runs -/

namespace Forest

variable {ε : Type}

/-- The events of a run of actions, given the events of each visit. -/
def runActions (visit : NodeId → Except ReadFault (List ε)) :
    List (Action ε) → Except ReadFault (List ε)
  | [] => .ok []
  | .report event :: actions => (runActions visit actions).map (event :: ·)
  | .visit id :: actions =>
    match visit id with
    | .error e => .error e
    | .ok events => (runActions visit actions).map (events ++ ·)

/-- The events of a visit that goes down at most the given number of levels. -/
def visitWithin (f : Forest) (v : Visitor ε) : Nat → NodeId → Except ReadFault (List ε)
  | 0, _ => .error .endless
  | n + 1, id =>
    match f.node id with
    | .error e => .error e
    | .ok node => runActions (visitWithin f v n) (v.actions id node)

/-- The events that a visitor reports at a node and wherever it goes from there. -/
def visit (f : Forest) (v : Visitor ε) (id : NodeId) : Except ReadFault (List ε) :=
  f.visitWithin v f.depthBound id

end Forest

end TensorTree
