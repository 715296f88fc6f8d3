import TensorTree.Forest.Basic
import TensorTree.Json

/-!
# JSON dumps of spans, nodes and forests

Children are written as bare numbers and absent ones as null.  A node is an object whose only
field is named for its variant; a node without contents is written as null there.
-/

namespace TensorTree

/-! ## §1 Locations and spans -/

def Location.toJson (here : Location) : Json :=
  .obj [("line", .nat here.line.toNat), ("column", .nat here.column.toNat)]

def Span.toJson (s : Span) : Json :=
  .obj
    [("line_begin", .nat s.first.line.toNat), ("col_begin", .nat s.first.column.toNat),
     ("line_end", .nat s.last.line.toNat), ("col_end", .nat s.last.column.toNat)]

/-! ## §2 Nodes -/

def NodeId.toJson (id : NodeId) : Json := .nat id.index

def Ref.toJson {role : Role} (r : Ref role) : Json := r.node.toJson

/-- The contents of a node. -/
def Node.contentsJson : Node → Json
  | .program elems => .obj [("elems", .list NodeId.toJson elems)]
  | .stmtBlock stmts => .obj [("stmts", .list Ref.toJson stmts)]
  | .rangeIndexSet range => .obj [("range", .nat range)]
  | .setIndexSet name => .obj [("set_name", .str name)]
  | .dynamicIndexSet => .null
  | .elementType name => .obj [("ident", .str name)]
  | .endpoint name => .obj [("set_name", .str name)]
  | .setType element endpoints =>
    .obj [("element", element.toJson), ("endpoints", .list Ref.toJson endpoints)]
  | .tupleLength length => .obj [("val", .nat length)]
  | .tupleType element length => .obj [("element", element.toJson), ("length", length.toJson)]
  | .scalarTensorType kind => .obj [("kind", .str kind.name)]
  | .nonScalarTensorType indexSets block transposed =>
    .obj
      [("index_sets", .list Ref.toJson indexSets), ("block_type", block.toJson),
       ("transposed", .bool transposed)]
  | .identifier name => .obj [("ident", .str name)]
  | .identDecl name type => .obj [("name", name.toJson), ("ty", type.toJson)]
  | .field decl => .obj [("field", decl.toJson)]
  | .elementTypeDecl name fields =>
    .obj [("name", name.toJson), ("fields", .list Ref.toJson fields)]
  | .argument name type inout =>
    .obj [("decl", .obj [("name", name.toJson), ("ty", type.toJson)]), ("inout", .bool inout)]
  | .externalDecl var => .obj [("var", var.toJson)]
  | .callable _ name args results body =>
    .obj
      [("name", name.toJson), ("args", .list Ref.toJson args),
       ("results", .list Ref.toJson results), ("body", body.toJson)]
  | .binding _ var value => .obj [("var", var.toJson), ("init_val", .option Ref.toJson value)]
  | .loop _ cond body => .obj [("cond", cond.toJson), ("body", body.toJson)]
  | .ifStmt cond thenBody elseBody =>
    .obj
      [("cond", cond.toJson), ("if_body", thenBody.toJson),
       ("else_body", .option Ref.toJson elseBody)]
  | .indexSetDomain set => .obj [("set", set.toJson)]
  | .rangeDomain lower upper => .obj [("lower", lower.toJson), ("upper", upper.toJson)]
  | .forStmt var domain body =>
    .obj [("loop_var", var.toJson), ("domain", domain.toJson), ("body", body.toJson)]
  | .printStmt expr => .obj [("expr", expr.toJson)]
  | .exprStmt expr => .obj [("expr", expr.toJson)]
  | .assignStmt targets value =>
    .obj [("lhs", .list Ref.toJson targets), ("expr", value.toJson)]
  | .slice => .null
  | .exprParam expr => .obj [("expr", expr.toJson)]
  | .mapExpr func actuals target reduction =>
    .obj
      [("func", func.toJson), ("partial_actuals", .list Ref.toJson actuals),
       ("target", target.toJson), ("op", .str reduction.name)]
  | .binary _ lhs rhs => .obj [("lhs", lhs.toJson), ("rhs", rhs.toJson)]
  | .eqExpr operands ops =>
    .obj
      [("operands", .list Ref.toJson operands),
       ("ops", .list (fun op => .str op.name) ops)]
  | .notExpr operand => .obj [("operand", operand.toJson)]
  | .negExpr operand negate => .obj [("operand", operand.toJson), ("negate", .bool negate)]
  | .transposeExpr operand => .obj [("operand", operand.toJson)]
  | .callExpr func args => .obj [("func", func.toJson), ("args", .list Ref.toJson args)]
  | .tensorReadExpr tensor indices =>
    .obj [("tensor", tensor.toJson), ("indices", .list Ref.toJson indices)]
  | .tupleReadExpr tuple index => .obj [("tuple", tuple.toJson), ("index", index.toJson)]
  | .fieldReadExpr base name => .obj [("set_or_elem", base.toJson), ("field", name.toJson)]
  | .parenExpr expr => .obj [("expr", expr.toJson)]
  | .varExpr name => .obj [("ident", .str name)]
  | .intLiteral value => .obj [("val", .int value)]
  | .floatLiteral value => .obj [("val", .float value)]
  | .boolLiteral value => .obj [("val", .bool value)]
  | .denseIntVector values => .obj [("vals", .list .int values)]
  | .denseFloatVector values => .obj [("vals", .list .float values)]
  | .denseNdTensor elems => .obj [("elems", .list Ref.toJson elems)]
  | .denseTensorLiteral tensor transposed =>
    .obj [("tensor", tensor.toJson), ("transposed", .bool transposed)]
  | .test func args expected =>
    .obj
      [("func", func.toJson), ("args", .list Ref.toJson args), ("expected", expected.toJson)]

/-- A node, marked with its variant. -/
def Node.toJson (n : Node) : Json := .obj [(n.variant.name, n.contentsJson)]

/-! ## §3 Forests -/

/-- A node with the span recorded for it. -/
def Entry.toJson (e : Entry) : Json := .obj [("span", e.span.toJson), ("node", e.node.toJson)]

/-- All nodes in order, and the root. -/
def Forest.toJson (f : Forest) : Json :=
  .obj [("nodes", .list Entry.toJson f.nodes.toList), ("root", .option Ref.toJson f.root)]

def Forest.dump (f : Forest) : String := f.toJson.pretty 0

end TensorTree
