import TensorTree.Number.Binary64
import TensorTree.Node.Variant

/-!
# Nodes

A node of the tree of a program: one constructor per shape, with the operators and keywords that
distinguish variants of one shape as arguments.  Children are references that carry the role
which the parent expects; `Node.slots` lists them in source order.
-/

namespace TensorTree

/-! ## §1 Nodes -/

/-- A node of a program, without its span. -/
inductive Node where
  /-- A compilation unit: declarations, constants and tests in source order. -/
  | program (elems : List NodeId)
  /-- Statements that are executed in order. -/
  | stmtBlock (stmts : List (Ref .stmt))
  /-- A dimension of fixed size. -/
  | rangeIndexSet (range : Nat)
  /-- A dimension with the size of a named set. -/
  | setIndexSet (name : String)
  /-- A dimension whose size is known only when the program runs. -/
  | dynamicIndexSet
  /-- A named record type. -/
  | elementType (name : String)
  /-- A named set that an edge set connects. -/
  | endpoint (name : String)
  /-- A set of elements; with endpoints it is an edge set. -/
  | setType (element : Ref .elementType) (endpoints : List (Ref .endpoint))
  /-- The length of a tuple. -/
  | tupleLength (length : Nat)
  /-- A tuple of elements of one type. -/
  | tupleType (element : Ref .elementType) (length : Ref .tupleLength)
  /-- A tensor without dimensions. -/
  | scalarTensorType (kind : ScalarKind)
  /-- A tensor with dimensions whose components are of the block type. -/
  | nonScalarTensorType (indexSets : List (Ref .indexSet)) (block : Ref .type) (transposed : Bool)
  /-- A name as written. -/
  | identifier (name : String)
  /-- A name with its declared type. -/
  | identDecl (name : Ref .ident) (type : Ref .type)
  | field (decl : Ref .identDecl)
  | elementTypeDecl (name : Ref .ident) (fields : List (Ref .field))
  /-- An argument of a function, possibly passed in both directions. -/
  | argument (name : Ref .ident) (type : Ref .type) (inout : Bool)
  /-- A global supplied from outside. -/
  | externalDecl (var : Ref .argument)
  /-- A function or a procedure. -/
  | callable (kind : CallableKind) (name : Ref .ident) (args : List (Ref .argument))
      (results : List (Ref .identDecl)) (body : Ref .block)
  /-- The declaration of a local variable or constant. -/
  | binding (kind : BindingKind) (var : Ref .identDecl) (value : Option (Ref .expr))
  /-- A loop over a condition. -/
  | loop (test : LoopTest) (cond : Ref .expr) (body : Ref .block)
  | ifStmt (cond : Ref .expr) (thenBody : Ref .stmt) (elseBody : Option (Ref .stmt))
  /-- The elements of a named set, to be iterated. -/
  | indexSetDomain (set : Ref .setIndexSet)
  /-- A range of numbers, to be iterated. -/
  | rangeDomain (lower upper : Ref .expr)
  /-- A loop over a domain. -/
  | forStmt (var : Ref .ident) (domain : Ref .domain) (body : Ref .block)
  | printStmt (expr : Ref .expr)
  /-- An expression evaluated for its effect. -/
  | exprStmt (expr : Ref .expr)
  /-- An assignment to one or more targets. -/
  | assignStmt (targets : List (Ref .expr)) (value : Ref .expr)
  /-- A whole dimension as an index. -/
  | slice
  /-- An expression as an index. -/
  | exprParam (expr : Ref .expr)
  /-- A function applied to every element of a set. -/
  | mapExpr (func : Ref .ident) (actuals : List (Ref .expr)) (target : Ref .ident)
      (reduction : Reduction)
  /-- A binary operator with its operands. -/
  | binary (op : BinaryOp) (lhs rhs : Ref .expr)
  /-- A chain of comparisons: each operator stands between two neighbouring operands. -/
  | eqExpr (operands : List (Ref .expr)) (ops : List ComparisonOp)
  | notExpr (operand : Ref .expr)
  /-- A sign; `negate` tells a minus from a plus. -/
  | negExpr (operand : Ref .expr) (negate : Bool)
  | transposeExpr (operand : Ref .expr)
  | callExpr (func : Ref .ident) (args : List (Ref .expr))
  /-- Components of a tensor. -/
  | tensorReadExpr (tensor : Ref .expr) (indices : List (Ref .readParam))
  /-- A component of a tuple. -/
  | tupleReadExpr (tuple index : Ref .expr)
  /-- A field of an element or of all elements of a set. -/
  | fieldReadExpr (base : Ref .expr) (field : Ref .ident)
  | parenExpr (expr : Ref .expr)
  | varExpr (name : String)
  | intLiteral (value : Int)
  | floatLiteral (value : Binary64)
  | boolLiteral (value : Bool)
  /-- The innermost row of an integer tensor. -/
  | denseIntVector (values : List Int)
  /-- The innermost row of a floating-point tensor. -/
  | denseFloatVector (values : List Binary64)
  /-- A level above the rows of a tensor. -/
  | denseNdTensor (elems : List (Ref .dense))
  /-- A tensor written out, possibly transposed. -/
  | denseTensorLiteral (tensor : Ref .dense) (transposed : Bool)
  /-- A call with the result that it is expected to have. -/
  | test (func : Ref .ident) (args : List (Ref .expr)) (expected : Ref .expr)
deriving DecidableEq

namespace Node

def variant : Node → Variant
  | .program .. => .program
  | .stmtBlock .. => .stmtBlock
  | .rangeIndexSet .. => .rangeIndexSet
  | .setIndexSet .. => .setIndexSet
  | .dynamicIndexSet => .dynamicIndexSet
  | .elementType .. => .elementType
  | .endpoint .. => .endpoint
  | .setType .. => .setType
  | .tupleLength .. => .tupleLength
  | .tupleType .. => .tupleType
  | .scalarTensorType .. => .scalarTensorType
  | .nonScalarTensorType .. => .nonScalarTensorType
  | .identifier .. => .identifier
  | .identDecl .. => .identDecl
  | .field .. => .field
  | .elementTypeDecl .. => .elementTypeDecl
  | .argument .. => .argument
  | .externalDecl .. => .externalDecl
  | .callable kind .. => .callable kind
  | .binding kind .. => .binding kind
  | .loop timing .. => .loop timing
  | .ifStmt .. => .ifStmt
  | .indexSetDomain .. => .indexSetDomain
  | .rangeDomain .. => .rangeDomain
  | .forStmt .. => .forStmt
  | .printStmt .. => .printStmt
  | .exprStmt .. => .exprStmt
  | .assignStmt .. => .assignStmt
  | .slice => .slice
  | .exprParam .. => .exprParam
  | .mapExpr .. => .mapExpr
  | .binary op .. => .binary op
  | .eqExpr .. => .eqExpr
  | .notExpr .. => .notExpr
  | .negExpr .. => .negExpr
  | .transposeExpr .. => .transposeExpr
  | .callExpr .. => .callExpr
  | .tensorReadExpr .. => .tensorReadExpr
  | .tupleReadExpr .. => .tupleReadExpr
  | .fieldReadExpr .. => .fieldReadExpr
  | .parenExpr .. => .parenExpr
  | .varExpr .. => .varExpr
  | .intLiteral .. => .intLiteral
  | .floatLiteral .. => .floatLiteral
  | .boolLiteral .. => .boolLiteral
  | .denseIntVector .. => .denseIntVector
  | .denseFloatVector .. => .denseFloatVector
  | .denseNdTensor .. => .denseNdTensor
  | .denseTensorLiteral .. => .denseTensorLiteral
  | .test .. => .test

end Node

/-! ## §2 Children -/

/-- A place for a child: the role that is expected there, if any, and the node that fills it. -/
structure Slot where
  role? : Option Role
  node : NodeId
deriving DecidableEq

/-- The place that a reference fills. -/
def Ref.slot {role : Role} (r : Ref role) : Slot := ⟨some role, r.node⟩

/-- A place in which any node may stand. -/
def NodeId.slot (id : NodeId) : Slot := ⟨none, id⟩

namespace Node

/-- The places of a node, in source order. -/
def slots : Node → List Slot
  | .program elems => elems.map NodeId.slot
  | .stmtBlock stmts => stmts.map Ref.slot
  | .setType element endpoints => element.slot :: endpoints.map Ref.slot
  | .tupleType element length => [element.slot, length.slot]
  | .nonScalarTensorType indexSets block _ => indexSets.map Ref.slot ++ [block.slot]
  | .identDecl name type => [name.slot, type.slot]
  | .field decl => [decl.slot]
  | .elementTypeDecl name fields => name.slot :: fields.map Ref.slot
  | .argument name type _ => [name.slot, type.slot]
  | .externalDecl var => [var.slot]
  | .callable _ name args results body =>
    name.slot :: (args.map Ref.slot ++ results.map Ref.slot ++ [body.slot])
  | .binding _ var value => var.slot :: (value.map Ref.slot).toList
  | .loop .before cond body => [cond.slot, body.slot]
  | .loop .after cond body => [body.slot, cond.slot]
  | .ifStmt cond thenBody elseBody =>
    cond.slot :: thenBody.slot :: (elseBody.map Ref.slot).toList
  | .indexSetDomain set => [set.slot]
  | .rangeDomain lower upper => [lower.slot, upper.slot]
  | .forStmt var domain body => [var.slot, domain.slot, body.slot]
  | .printStmt expr => [expr.slot]
  | .exprStmt expr => [expr.slot]
  | .assignStmt targets value => targets.map Ref.slot ++ [value.slot]
  | .exprParam expr => [expr.slot]
  | .mapExpr func actuals target _ => func.slot :: (actuals.map Ref.slot ++ [target.slot])
  | .binary _ lhs rhs => [lhs.slot, rhs.slot]
  | .eqExpr operands _ => operands.map Ref.slot
  | .notExpr operand => [operand.slot]
  | .negExpr operand _ => [operand.slot]
  | .transposeExpr operand => [operand.slot]
  | .callExpr func args => func.slot :: args.map Ref.slot
  | .tensorReadExpr tensor indices => tensor.slot :: indices.map Ref.slot
  | .tupleReadExpr tuple index => [tuple.slot, index.slot]
  | .fieldReadExpr base name => [base.slot, name.slot]
  | .parenExpr expr => [expr.slot]
  | .denseNdTensor elems => elems.map Ref.slot
  | .denseTensorLiteral tensor _ => [tensor.slot]
  | .test func args expected => func.slot :: (args.map Ref.slot ++ [expected.slot])
  | .rangeIndexSet _ | .setIndexSet _ | .dynamicIndexSet | .elementType _ | .endpoint _
  | .tupleLength _ | .scalarTensorType _ | .identifier _ | .slice | .varExpr _ | .intLiteral _
  | .floatLiteral _ | .boolLiteral _ | .denseIntVector _ | .denseFloatVector _ => []

def children (n : Node) : List NodeId := n.slots.map Slot.node

def binaryOp? : Node → Option BinaryOp
  | .binary op _ _ => some op
  | _ => none

/-! ## §3 Comparison -/

/-- Two rows of numbers have equal numbers in all places. -/
def rowsAgree : List Binary64 → List Binary64 → Bool
  | [], [] => true
  | x :: xs, y :: ys => x.equals y && rowsAgree xs ys
  | _, _ => false

/-- Two nodes have the same contents, floating-point numbers being compared as numbers. -/
def agrees : Node → Node → Bool
  | .floatLiteral x, .floatLiteral y => x.equals y
  | .denseFloatVector xs, .denseFloatVector ys => rowsAgree xs ys
  | m, n => m == n

end Node

end TensorTree
