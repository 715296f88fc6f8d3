import TensorTree.Node.Role
import TensorTree.Node.Operator

/-!
# Variants and families of nodes

A variant is what remains of a node when its contents are forgotten.  There are sixty-two of
them, in ten families, and each variant fixes the role in which parents refer to its nodes.
-/

namespace TensorTree

/-! ## §1 Families -/

/-- Coarse groups of variants. -/
inductive Family where
  | program | stmt | expr | indexSet | type | decl | forDomain | readParam | denseTensor | misc
deriving DecidableEq

namespace Family

def name : Family → String
  | .program => "Program"
  | .stmt => "Stmt"
  | .expr => "Expr"
  | .indexSet => "IndexSet"
  | .type => "Type"
  | .decl => "Decl"
  | .forDomain => "ForDomain"
  | .readParam => "ReadParam"
  | .denseTensor => "DenseTensor"
  | .misc => "Misc"

/-- The role that all members of a family can play, if there is one. -/
def role? : Family → Option Role
  | .stmt => some .stmt
  | .expr => some .expr
  | .indexSet => some .indexSet
  | .type => some .type
  | .forDomain => some .domain
  | .readParam => some .readParam
  | .denseTensor => some .dense
  | .program | .decl | .misc => none

end Family

/-! ## §2 Variants -/

/-- The exact variant of a node. -/
inductive Variant where
  | program | stmtBlock
  | rangeIndexSet | setIndexSet | dynamicIndexSet
  | elementType | endpoint | setType | tupleLength | tupleType | scalarTensorType
  | nonScalarTensorType
  | identifier | identDecl | field | elementTypeDecl | argument | externalDecl
  | callable (kind : CallableKind)
  | binding (kind : BindingKind)
  | loop (test : LoopTest)
  | ifStmt | indexSetDomain | rangeDomain | forStmt | printStmt | exprStmt | assignStmt
  | slice | exprParam
  | mapExpr | eqExpr | notExpr | negExpr | transposeExpr | callExpr
  | binary (op : BinaryOp)
  | tensorReadExpr | tupleReadExpr | fieldReadExpr | parenExpr | varExpr
  | intLiteral | floatLiteral | boolLiteral
  | denseIntVector | denseFloatVector | denseNdTensor | denseTensorLiteral
  | test
deriving DecidableEq

namespace Variant

/-- Every variant, in the order in which they are listed. -/
def all : List Variant :=
  [.program, .stmtBlock, .rangeIndexSet, .setIndexSet, .dynamicIndexSet, .elementType, .endpoint,
   .setType, .tupleLength, .tupleType, .scalarTensorType, .nonScalarTensorType, .identifier,
   .identDecl, .field, .elementTypeDecl, .argument, .externalDecl, .callable .func,
   .callable .proc, .binding .variable, .binding .constant, .loop .before, .loop .after, .ifStmt,
   .indexSetDomain, .rangeDomain, .forStmt, .printStmt, .exprStmt, .assignStmt, .slice,
   .exprParam, .mapExpr, .binary .or, .binary .and, .binary .xor, .eqExpr, .notExpr, .binary .add,
   .binary .sub, .binary .mul, .binary .div, .binary .elwiseMul, .binary .elwiseDiv, .negExpr,
   .binary .exp, .transposeExpr, .callExpr, .tensorReadExpr, .tupleReadExpr, .fieldReadExpr,
   .parenExpr, .varExpr, .intLiteral, .floatLiteral, .boolLiteral, .denseIntVector,
   .denseFloatVector, .denseNdTensor, .denseTensorLiteral, .test]

def name : Variant → String
  | .program => "Program"
  | .stmtBlock => "StmtBlock"
  | .rangeIndexSet => "RangeIndexSet"
  | .setIndexSet => "SetIndexSet"
  | .dynamicIndexSet => "DynamicIndexSet"
  | .elementType => "ElementType"
  | .endpoint => "Endpoint"
  | .setType => "SetType"
  | .tupleLength => "TupleLength"
  | .tupleType => "TupleType"
  | .scalarTensorType => "ScalarTensorType"
  | .nonScalarTensorType => "NonScalarTensorType"
  | .identifier => "Identifier"
  | .identDecl => "IdentDecl"
  | .field => "Field"
  | .elementTypeDecl => "ElementTypeDecl"
  | .argument => "Argument"
  | .externalDecl => "ExternDecl"
  | .callable .func => "FuncDecl"
  | .callable .proc => "ProcDecl"
  | .binding .variable => "VarDecl"
  | .binding .constant => "ConstDecl"
  | .loop .before => "WhileStmt"
  | .loop .after => "DoWhileStmt"
  | .ifStmt => "IfStmt"
  | .indexSetDomain => "IndexSetDomain"
  | .rangeDomain => "RangeDomain"
  | .forStmt => "ForStmt"
  | .printStmt => "PrintStmt"
  | .exprStmt => "ExprStmt"
  | .assignStmt => "AssignStmt"
  | .slice => "Slice"
  | .exprParam => "ExprParam"
  | .mapExpr => "MapExpr"
  | .eqExpr => "EqExpr"
  | .notExpr => "NotExpr"
  | .negExpr => "NegExpr"
  | .transposeExpr => "TransposeExpr"
  | .callExpr => "CallExpr"
  | .binary op => op.name ++ "Expr"
  | .tensorReadExpr => "TensorReadExpr"
  | .tupleReadExpr => "TupleReadExpr"
  | .fieldReadExpr => "FieldReadExpr"
  | .parenExpr => "ParenExpr"
  | .varExpr => "VarExpr"
  | .intLiteral => "IntLiteral"
  | .floatLiteral => "FloatLiteral"
  | .boolLiteral => "BoolLiteral"
  | .denseIntVector => "DenseIntVector"
  | .denseFloatVector => "DenseFloatVector"
  | .denseNdTensor => "DenseNdTensor"
  | .denseTensorLiteral => "DenseTensorLiteral"
  | .test => "Test"

def family : Variant → Family
  | .program => .program
  | .stmtBlock | .binding _ | .loop _ | .ifStmt | .forStmt | .printStmt | .exprStmt
  | .assignStmt => .stmt
  | .rangeIndexSet | .setIndexSet | .dynamicIndexSet => .indexSet
  | .elementType | .setType | .tupleType | .scalarTensorType | .nonScalarTensorType => .type
  | .identifier | .identDecl | .field | .elementTypeDecl | .argument | .externalDecl
  | .callable _ => .decl
  | .indexSetDomain | .rangeDomain => .forDomain
  | .slice | .exprParam => .readParam
  | .denseIntVector | .denseFloatVector | .denseNdTensor => .denseTensor
  | .endpoint | .tupleLength | .test => .misc
  | .mapExpr | .eqExpr | .notExpr | .negExpr | .transposeExpr | .callExpr | .binary _
  | .tensorReadExpr | .tupleReadExpr | .fieldReadExpr | .parenExpr | .varExpr | .intLiteral
  | .floatLiteral | .boolLiteral | .denseTensorLiteral => .expr

/-- The role in which parents refer to nodes of a variant: one of its own for the nodes that are
referred to exactly, else that of the family. -/
def role : Variant → Role
  | .program => .program
  | .stmtBlock => .block
  | .rangeIndexSet | .dynamicIndexSet => .indexSet
  | .setIndexSet => .setIndexSet
  | .elementType => .elementType
  | .endpoint => .endpoint
  | .setType | .tupleType | .scalarTensorType | .nonScalarTensorType => .type
  | .tupleLength => .tupleLength
  | .identifier => .ident
  | .identDecl => .identDecl
  | .field => .field
  | .elementTypeDecl => .elementDecl
  | .argument => .argument
  | .externalDecl => .externalDecl
  | .callable .func => .func
  | .callable .proc => .proc
  | .binding _ | .loop _ | .ifStmt | .forStmt | .printStmt | .exprStmt | .assignStmt => .stmt
  | .indexSetDomain | .rangeDomain => .domain
  | .slice | .exprParam => .readParam
  | .mapExpr | .eqExpr | .notExpr | .negExpr | .transposeExpr | .callExpr | .binary _
  | .tensorReadExpr | .tupleReadExpr | .fieldReadExpr | .parenExpr | .varExpr | .intLiteral
  | .floatLiteral | .boolLiteral | .denseTensorLiteral => .expr
  | .denseIntVector | .denseFloatVector | .denseNdTensor => .dense
  | .test => .test

/-- Nodes that may be the block of a tensor type. -/
def isTensorType : Variant → Bool
  | .scalarTensorType | .nonScalarTensorType => true
  | _ => false

end Variant

end TensorTree
