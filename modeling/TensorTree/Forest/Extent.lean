import TensorTree.Forest.Basic

/-!
# Spans derived from children

Few nodes have a token of their own at both ends.  Where a node has none, its span begins or ends
where that of one of its children does.  For each variant the child in question is fixed
(`Node.firstAnchor`, `Node.lastAnchor`); following it from child to child leads to a recorded
location.
-/

namespace TensorTree

/-! ## §1 Where an end of a span comes from -/

/-- Where one end of the span of a node comes from. -/
inductive Anchor where
  /-- The location recorded for the node itself. -/
  | recorded
  /-- The same end of a child. -/
  | child (id : NodeId)
  /-- A child that the node lacks. -/
  | missing
deriving DecidableEq

/-- An end that comes from a child which may be lacking. -/
def Anchor.ofRef? {role : Role} : Option (Ref role) → Anchor
  | some r => .child r.node
  | none => .missing

namespace Node

/-- Where the first location of a node comes from. -/
def firstAnchor : Node → Anchor
  | .identDecl name _ => .child name.node
  | .argument name _ _ => .child name.node
  | .field decl => .child decl.node
  | .exprStmt expr => .child expr.node
  | .assignStmt targets _ => .ofRef? targets.head?
  | .binary _ lhs _ => .child lhs.node
  | .transposeExpr operand => .child operand.node
  | .eqExpr operands _ => .ofRef? operands.head?
  | .callExpr func _ => .child func.node
  | .tensorReadExpr tensor _ => .child tensor.node
  | .tupleReadExpr tuple _ => .child tuple.node
  | .fieldReadExpr base _ => .child base.node
  | .exprParam expr => .child expr.node
  | .denseTensorLiteral tensor _ => .child tensor.node
  | .indexSetDomain set => .child set.node
  | .rangeDomain lower _ => .child lower.node
  | _ => .recorded

/-- Where the last location of a node comes from.  A conditional statement with an alternative
and a map with a reduction only ask a child if no end was recorded for them. -/
def lastAnchor (recorded : Span) : Node → Anchor
  | .identDecl _ type => .child type.node
  | .argument _ type _ => .child type.node
  | .binary _ _ rhs => .child rhs.node
  | .notExpr operand => .child operand.node
  | .negExpr operand _ => .child operand.node
  | .eqExpr operands _ => .ofRef? operands.getLast?
  | .fieldReadExpr _ name => .child name.node
  | .exprParam expr => .child expr.node
  | .denseTensorLiteral tensor _ => .child tensor.node
  | .indexSetDomain set => .child set.node
  | .rangeDomain _ upper => .child upper.node
  | .loop .after cond _ => .child cond.node
  | .ifStmt _ _ (some elseBody) => if recorded.hasLast then .recorded else .child elseBody.node
  | .mapExpr _ _ target .sum => if recorded.hasLast then .recorded else .child target.node
  | .mapExpr _ _ target .absent => .child target.node
  | _ => .recorded

end Node

/-! ## §2 Spans -/

namespace Forest

/-- The first location of a node, found within the given number of steps. -/
def firstWithin (f : Forest) : Nat → NodeId → Except ReadFault Location
  | 0, _ => .error .endless
  | n + 1, id =>
    match f.entry id with
    | .error e => .error e
    | .ok entry =>
      match entry.node.firstAnchor with
      | .recorded => .ok entry.span.first
      | .child next => firstWithin f n next
      | .missing => .error .outOfRange

/-- The last location of a node, found within the given number of steps. -/
def lastWithin (f : Forest) : Nat → NodeId → Except ReadFault Location
  | 0, _ => .error .endless
  | n + 1, id =>
    match f.entry id with
    | .error e => .error e
    | .ok entry =>
      match entry.node.lastAnchor entry.span with
      | .recorded => .ok entry.span.last
      | .child next => lastWithin f n next
      | .missing => .error .outOfRange

def first (f : Forest) (id : NodeId) : Except ReadFault Location := f.firstWithin f.depthBound id

def last (f : Forest) (id : NodeId) : Except ReadFault Location := f.lastWithin f.depthBound id

def span (f : Forest) (id : NodeId) : Except ReadFault Span :=
  match f.first id with
  | .error e => .error e
  | .ok first => (f.last id).map fun last => ⟨first, last⟩

end Forest

end TensorTree
