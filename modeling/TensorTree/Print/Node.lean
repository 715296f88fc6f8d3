import TensorTree.Forest.Extent
import TensorTree.Print.Number
import TensorTree.Print.Piece

/-!
# Printing nodes

Nodes are printed as program text.  Parentheses are added around operands that bind looser than
the operator that they belong to, around comparison chains inside other operators, and around
signs and negations that are raised to a power.

A node lists the fragments of its own text (`Forest.fragments`), among them its children by
number only.  Writing goes down to a child when its turn comes, so that a fault is reported
without a look at what stands behind it, however large that is.
-/

namespace TensorTree

/-! ## §1 Parentheses -/

namespace Forest

/-- The operator of an operand, if it is a binary expression. -/
def operandOp? (f : Forest) (expr : Ref .expr) : Option BinaryOp :=
  (f.node? expr.node).bind Node.binaryOp?

/-- The operand is of a variant. -/
def operandIs (f : Forest) (expr : Ref .expr) (v : Variant) : Bool :=
  (f.node? expr.node).any fun n => n.variant == v

/-- An operand of a sign, a negation or a postfix operator needs parentheses. -/
def wrapsAtom (f : Forest) (expr : Ref .expr) : Bool :=
  (f.operandOp? expr).isSome || f.operandIs expr .eqExpr

/-- An operand of a binary operator needs parentheses: it binds looser, or it binds as tight but
stands on the side to which the operator does not group. -/
def wrapsOperand (f : Forest) (op : BinaryOp) (isRight : Bool) (expr : Ref .expr) : Bool :=
  match f.operandOp? expr with
  | some inner =>
    inner.precedence < op.precedence ||
      (inner.precedence == op.precedence && isRight != op.groupsRight)
  | none =>
    f.operandIs expr .eqExpr ||
      (op == .exp && !isRight && (f.operandIs expr .negExpr || f.operandIs expr .notExpr))

/-- An operand of a comparison chain needs parentheses: it is a chain itself or a logical
connective. -/
def wrapsComparand (f : Forest) (expr : Ref .expr) : Bool :=
  f.operandIs expr .eqExpr ||
    (f.operandOp? expr).any fun op => op.precedence < ComparisonOp.precedence

end Forest

/-! ## §2 Fragments -/

/-- Whether a conditional statement opens a chain or goes on with one. -/
inductive Branch where
  | opening
  | continuing
deriving DecidableEq

/-- A fragment of the text of a node. -/
inductive Fragment where
  /-- A piece that the node writes itself. -/
  | own (piece : Piece)
  /-- The text of a child. -/
  | child (branch : Branch) (id : NodeId)
deriving DecidableEq

namespace Fragment

def text (s : String) : Fragment := .own (.text s)

/-- The end of a line. -/
def lineEnd (subject : Option NodeId) : Fragment := .own (.lineEnd subject)

/-- What cannot be printed. -/
def fault (f : ReadFault) : Fragment := .own (.fault f)

/-- The text of a child that opens a chain, if it is a conditional statement. -/
def node (id : NodeId) : Fragment := .child .opening id

/-- The text of a child that is referred to. -/
def ofRef {role : Role} (r : Ref role) : Fragment := node r.node

/-- The texts of children with commas between them. -/
def commas {role : Role} (rs : List (Ref role)) : List Fragment :=
  (rs.map ofRef).intersperse (text ", ")

/-- Fragments in parentheses. -/
def inParens (fragments : List Fragment) : List Fragment := text "(" :: fragments ++ [text ")"]

/-- The text of an operand, in parentheses if it needs them. -/
def operand (needsParens : Bool) (expr : Ref .expr) : List Fragment :=
  if needsParens then inParens [ofRef expr] else [ofRef expr]

/-- Fragments on lines that stand one level deeper. -/
def deeper (fragments : List Fragment) : List Fragment :=
  .own .indent :: fragments ++ [.own .dedent]

/-- A line with a fixed text. -/
def line (s : String) : List Fragment := [text s, lineEnd none]

/-- The end of the line of a statement. -/
def statementEnd (id : NodeId) : List Fragment := [text ";", lineEnd (some id)]

/-- Write a fragment on a page, given how children are written. -/
def write (o : LayoutOptions) (spanOf : NodeId → Except ReadFault Span)
    (writeChild : Branch → NodeId → Page → Except ReadFault Page) (page : Page) :
    Fragment → Except ReadFault Page
  | .own piece => page.add o spanOf piece
  | .child branch id => writeChild branch id page

end Fragment

/-! ## §3 Nodes -/

/-- The word in front of the condition. -/
def Branch.word : Branch → String
  | .opening => "if"
  | .continuing => "elif"

def CallableKind.word : CallableKind → String
  | .func => "func"
  | .proc => "proc"

def BindingKind.word : BindingKind → String
  | .variable => "var"
  | .constant => "const"

namespace Forest

open Fragment

/-- The links of a comparison chain.  Operators without operands cannot be printed, and operands
without an operator are left out. -/
def chainFragments (f : Forest) : List ComparisonOp → List (Ref .expr) → List Fragment
  | [], _ => []
  | _ :: _, [] => [fault .outOfRange]
  | op :: ops, expr :: exprs =>
    [text " ", text op.spelling, text " "] ++ operand (f.wrapsComparand expr) expr ++
      f.chainFragments ops exprs

/-- The text between the elements of a tensor: rows are parted by semicolons and higher levels by
bars. -/
def elementSeparator (f : Forest) : List (Ref .dense) → String
  | [] => "; "
  | elem :: _ =>
    match f.node? elem.node with
    | some (.denseNdTensor _) => " | "
    | _ => "; "

/-- The fragments of the text of a node.  Only a conditional statement looks at whether it goes on
with a chain. -/
def fragments (f : Forest) (branch : Branch) (id : NodeId) (node : Node) : List Fragment :=
  let atom (expr : Ref .expr) : List Fragment := operand (f.wrapsAtom expr) expr
  let noted : Fragment := lineEnd (some id)
  match node with
  | .program elems => (elems.map Fragment.node).intersperse (lineEnd none)
  | .stmtBlock stmts => stmts.map ofRef
  | .rangeIndexSet range => [text (toString range)]
  | .setIndexSet name => [text name]
  | .dynamicIndexSet => [text "*"]
  | .elementType name => [text name]
  | .endpoint name => [text name]
  | .setType element endpoints =>
    [text "set\x7b", ofRef element, text "\x7d"] ++
      if endpoints.isEmpty then [] else inParens (commas endpoints)
  | .tupleLength length => [text (toString length)]
  | .tupleType element length => inParens [ofRef element, text " * ", ofRef length]
  | .scalarTensorType kind => [text kind.spelling]
  | .nonScalarTensorType indexSets block transposed =>
    text "tensor[" :: commas indexSets ++ [text "](", ofRef block, text ")"] ++
      if transposed then [text "'"] else []
  | .identifier name => [text name]
  | .identDecl name type => [ofRef name, text " : ", ofRef type]
  | .field decl => ofRef decl :: statementEnd id
  | .elementTypeDecl name fields =>
    [text "element ", ofRef name, noted] ++ deeper (fields.map ofRef) ++ line "end"
  | .argument name type inout =>
    (if inout then [text "inout "] else []) ++ [ofRef name, text " : ", ofRef type]
  | .externalDecl var => [text "extern ", ofRef var] ++ statementEnd id
  | .callable kind name args results body =>
    [text kind.word, text " ", ofRef name] ++ inParens (commas args) ++
      (if results.isEmpty then [] else text " -> " :: inParens (commas results)) ++
      noted :: deeper [ofRef body] ++ line "end"
  | .binding kind var value =>
    [text kind.word, text " ", ofRef var] ++
      (match value with
        | some expr => [text " = ", ofRef expr]
        | none => []) ++
      statementEnd id
  | .loop .before cond body =>
    [text "while ", ofRef cond, noted] ++ deeper [ofRef body] ++ line "end"
  | .loop .after cond body =>
    [text "do", noted] ++ deeper [ofRef body] ++ [text "end while ", ofRef cond, lineEnd none]
  | .ifStmt cond thenBody elseBody =>
    [text branch.word, text " ", ofRef cond, noted] ++ deeper [ofRef thenBody] ++
      (match elseBody with
        | none => []
        | some stmt =>
          if (f.nodeAs? stmt.node .ifStmt).isSome then [.child .continuing stmt.node]
          else line "else" ++ deeper [ofRef stmt]) ++
      if branch = .opening then line "end" else []
  | .indexSetDomain set => [ofRef set]
  | .rangeDomain lower upper => [ofRef lower, text ":", ofRef upper]
  | .forStmt var domain body =>
    [text "for ", ofRef var, text " in ", ofRef domain, noted] ++ deeper [ofRef body] ++ line "end"
  | .printStmt expr => [text "print ", ofRef expr] ++ statementEnd id
  | .exprStmt expr => ofRef expr :: statementEnd id
  | .assignStmt targets value => commas targets ++ [text " = ", ofRef value] ++ statementEnd id
  | .slice => [text ":"]
  | .exprParam expr => [ofRef expr]
  | .mapExpr func actuals target reduction =>
    [text "map ", ofRef func] ++ (if actuals.isEmpty then [] else inParens (commas actuals)) ++
      [text " to ", ofRef target] ++
      if reduction = .sum then [text " reduce ", text reduction.spelling] else []
  | .binary op lhs rhs =>
    operand (f.wrapsOperand op false lhs) lhs ++ [text " ", text op.spelling, text " "] ++
      operand (f.wrapsOperand op true rhs) rhs
  | .eqExpr [] _ => [fault .outOfRange]
  | .eqExpr (expr :: exprs) ops =>
    operand (f.wrapsComparand expr) expr ++ f.chainFragments ops exprs
  | .notExpr expr => text "not " :: atom expr
  | .negExpr expr negate => text (if negate then "-" else "+") :: atom expr
  | .transposeExpr expr => atom expr ++ [text "'"]
  | .callExpr func args => ofRef func :: inParens (commas args)
  | .tensorReadExpr tensor indices => atom tensor ++ inParens (commas indices)
  | .tupleReadExpr tuple index => atom tuple ++ inParens [ofRef index]
  | .fieldReadExpr base name => atom base ++ [text ".", ofRef name]
  | .parenExpr expr => inParens [ofRef expr]
  | .varExpr name => [text name]
  | .intLiteral value => [text (toString value)]
  | .floatLiteral value => [text value.programText]
  | .boolLiteral value => [text (if value then "true" else "false")]
  | .denseIntVector values =>
    (values.map fun n => text (toString n)).intersperse (text ", ")
  | .denseFloatVector values =>
    (values.map fun x => text x.programText).intersperse (text ", ")
  | .denseNdTensor elems => (elems.map ofRef).intersperse (text (f.elementSeparator elems))
  | .denseTensorLiteral tensor transposed =>
    [text "[", ofRef tensor, text "]"] ++ if transposed then [text "'"] else []
  | .test func args expected =>
    [text "%! ", ofRef func] ++ inParens (commas args) ++ [text " == ", ofRef expected] ++
      statementEnd id

/-! ## §4 Texts -/

/-- Write a node and everything below it on a page, for at most the given number of levels.  The
first fault ends the writing: nothing that stands behind it is looked at. -/
def writeWithin (f : Forest) (o : LayoutOptions) :
    Nat → Branch → NodeId → Page → Except ReadFault Page
  | 0, _, _, _ => .error .endless
  | n + 1, branch, id, page =>
    match f.node? id with
    | none => .error (.unknownNode id)
    | some node =>
      (f.fragments branch id node).foldlM (Fragment.write o f.span (writeWithin f o n)) page

/-- The text of a node. -/
def print (f : Forest) (o : LayoutOptions) (id : NodeId) : Except ReadFault String :=
  (f.writeWithin o f.depthBound .opening id {}).map Page.text

/-- The text of the root; without a root it is empty. -/
def printProgram (f : Forest) (o : LayoutOptions) : Except ReadFault String :=
  match f.root with
  | none => .ok (o.finish "")
  | some root => (f.print o root.node).map o.finish

end Forest

end TensorTree
