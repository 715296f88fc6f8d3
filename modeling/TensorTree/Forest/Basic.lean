import TensorTree.Location
import TensorTree.Node.Basic
import TensorTree.NodeTable
import TensorTree.Forest.Fault

/-!
# Forests

A forest holds the nodes of a program, numbered in the order in which they were added.  A node
is only accepted if its children are there already, so no node lies below itself until contents
are replaced.  One node can be marked as the root.
-/

namespace TensorTree

/-! ## §1 Forests -/

/-- A node with the span that was recorded for it. -/
structure Entry where
  span : Span
  node : Node
deriving DecidableEq

/-- Numbered nodes and the program among them that is the root. -/
structure Forest where
  nodes : NodeTable Entry
  root : Option (Ref .program)

namespace Forest

def empty : Forest := ⟨.empty, none⟩

/-- The number of nodes, whether or not they lie below the root. -/
def size (f : Forest) : Nat := f.nodes.size

def entry? (f : Forest) (id : NodeId) : Option Entry := f.nodes.get? id

def node? (f : Forest) (id : NodeId) : Option Node := (f.entry? id).map Entry.node

/-- A number of steps that no descent from child to child exceeds, unless it comes back to a
node that it has met. -/
def depthBound (f : Forest) : Nat := f.size + 1

end Forest

/-! ## §2 Adding nodes -/

/-- What is wrong with the form of a node, whatever its children are. -/
def Node.formError? (span : Span) : Node → Option BuildError
  | .assignStmt [] _ => some .emptyAssignTargets
  | .eqExpr operands ops =>
    if operands.isEmpty || ops.length + 1 != operands.length then
      some (.comparisonArity operands.length ops.length)
    else none
  | .nonScalarTensorType [] _ _ => some .zeroDimensionTensor
  | .ifStmt _ _ none => if span.hasLast then none else some .missingIfEnd
  | _ => none

namespace Forest

/-- The first child that does not exist. -/
def danglingChild? (f : Forest) (node : Node) : Option NodeId :=
  node.children.find? fun child => !f.nodes.contains child

/-- What is wrong with the block of a tensor type. -/
def blockError? (f : Forest) : Node → Option BuildError
  | .nonScalarTensorType _ block _ =>
    match f.node? block.node with
    | some n => if n.variant.isTensorType then none else some (.nonTensorBlockType n.variant)
    | none => none
  | _ => none

/-- Why a node is not accepted.  A child that does not exist counts first, then the form of the
node, then the variants of its children. -/
def buildError? (f : Forest) (span : Span) (node : Node) : Option BuildError :=
  match f.danglingChild? node with
  | some child => some (.danglingChild node.variant child)
  | none => node.formError? span <|> f.blockError? node

/-- Add a node under the next number. -/
def insert (f : Forest) (span : Span) (node : Node) : Except BuildError (Handle × Forest) :=
  match f.buildError? span node with
  | some e => .error e
  | none =>
    .ok (⟨node.variant.role, f.nodes.nextId⟩, { f with nodes := f.nodes.push ⟨span, node⟩ })

/-- Mark the root. -/
def setRoot (f : Forest) (program : Ref .program) : Forest := { f with root := some program }

/-! ## §3 Reading and changing nodes -/

def entry (f : Forest) (id : NodeId) : Except ReadFault Entry :=
  match f.entry? id with
  | some e => .ok e
  | none => .error (.unknownNode id)

def node (f : Forest) (id : NodeId) : Except ReadFault Node := (f.entry id).map Entry.node

/-- The span recorded for a node. -/
def recordedSpan (f : Forest) (id : NodeId) : Except ReadFault Span :=
  (f.entry id).map Entry.span

def variant (f : Forest) (id : NodeId) : Except ReadFault Variant := (f.node id).map Node.variant

/-- The node is exactly of a variant. -/
def isVariant (f : Forest) (id : NodeId) (v : Variant) : Except ReadFault Bool :=
  (f.variant id).map (· == v)

/-- The children of a node, in source order. -/
def children (f : Forest) (id : NodeId) : Except ReadFault (List NodeId) :=
  (f.node id).map Node.children

def nodeAs? (f : Forest) (id : NodeId) (v : Variant) : Option Node :=
  (f.node? id).filter fun n => n.variant == v

/-- The node, which has to be exactly of a variant. -/
def nodeAs (f : Forest) (id : NodeId) (v : Variant) : Except ReadFault Node :=
  match f.node? id with
  | none => .error (.unknownNode id)
  | some n => if n.variant = v then .ok n else .error (.variantMismatch id v n.variant)

/-- Record another span for a node. -/
def setSpan (f : Forest) (id : NodeId) (span : Span) : Except ReadFault Forest :=
  (f.entry id).map fun e => { f with nodes := f.nodes.set id { e with span } }

/-- Replace the contents of a node by contents of the same variant.  Nothing else is checked. -/
def replace (f : Forest) (id : NodeId) (node : Node) : Except ReadFault Forest :=
  match f.entry? id with
  | none => .error (.unknownNode id)
  | some e =>
    if e.node.variant = node.variant then
      .ok { f with nodes := f.nodes.set id { e with node } }
    else .error (.variantMismatch id node.variant e.node.variant)

/-- Two nodes have the same contents; their spans do not matter. -/
def agree (f : Forest) (a b : NodeId) : Except ReadFault Bool :=
  match f.node a with
  | .error e => .error e
  | .ok m => (f.node b).map m.agrees

/-! ## §4 Questions about single nodes -/

/-- The operator of a binary expression; other nodes have none. -/
def binaryOp? (f : Forest) (expr : Ref .expr) : Except ReadFault (Option BinaryOp) :=
  (f.node expr.node).map Node.binaryOp?

/-- An index stands for a whole dimension. -/
def isSlice (f : Forest) (index : Ref .readParam) : Except ReadFault Bool :=
  f.isVariant index.node .slice

end Forest

end TensorTree
