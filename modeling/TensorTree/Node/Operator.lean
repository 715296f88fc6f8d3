/-!
# Operators and scalar kinds

The binary operators with their precedence, the comparison operators, the ways to combine the
results of a map, and the kinds of scalars.
-/

namespace TensorTree

/-! ## §1 Binary operators -/

/-- The binary operators; `mul` is the tensor product, and the elementwise operators work
component by component. -/
inductive BinaryOp where
  | or | and | xor | add | sub | mul | div | elwiseMul | elwiseDiv | exp
deriving DecidableEq

namespace BinaryOp

def all : List BinaryOp := [.or, .and, .xor, .add, .sub, .mul, .div, .elwiseMul, .elwiseDiv, .exp]

def name : BinaryOp → String
  | .or => "Or"
  | .and => "And"
  | .xor => "Xor"
  | .add => "Add"
  | .sub => "Sub"
  | .mul => "Mul"
  | .div => "Div"
  | .elwiseMul => "ElwiseMul"
  | .elwiseDiv => "ElwiseDiv"
  | .exp => "Exp"

def spelling : BinaryOp → String
  | .or => "or"
  | .and => "and"
  | .xor => "xor"
  | .add => "+"
  | .sub => "-"
  | .mul => "*"
  | .div => "/"
  | .elwiseMul => ".*"
  | .elwiseDiv => "./"
  | .exp => "^"

/-- An operator of higher precedence binds tighter. -/
def precedence : BinaryOp → Nat
  | .or | .xor => 1
  | .and => 2
  | .add | .sub => 4
  | .mul | .div | .elwiseMul | .elwiseDiv => 5
  | .exp => 7

/-- Powers group to the right, all other operators to the left. -/
def groupsRight (op : BinaryOp) : Bool := op == .exp

end BinaryOp

/-! ## §2 Comparisons -/

/-- The comparison operators. -/
inductive ComparisonOp where
  | lt | le | gt | ge | eq | ne
deriving DecidableEq

namespace ComparisonOp

def all : List ComparisonOp := [.lt, .le, .gt, .ge, .eq, .ne]

def name : ComparisonOp → String
  | .lt => "Lt"
  | .le => "Le"
  | .gt => "Gt"
  | .ge => "Ge"
  | .eq => "Eq"
  | .ne => "Ne"

def spelling : ComparisonOp → String
  | .lt => "<"
  | .le => "<="
  | .gt => ">"
  | .ge => ">="
  | .eq => "=="
  | .ne => "!="

/-- Comparisons bind tighter than `and` and looser than `+`. -/
def precedence : Nat := 3

end ComparisonOp

/-! ## §3 Reductions and scalars -/

/-- How the results of a map are combined. -/
inductive Reduction where
  | sum
  /-- The results are kept one by one. -/
  | absent
deriving DecidableEq

namespace Reduction

def name : Reduction → String
  | .sum => "Sum"
  | .absent => "None"

def spelling : Reduction → String
  | .sum => "+"
  | .absent => ""

end Reduction

/-- The kinds of scalars. -/
inductive ScalarKind where
  | int | float | bool
deriving DecidableEq

namespace ScalarKind

def name : ScalarKind → String
  | .int => "Int"
  | .float => "Float"
  | .bool => "Bool"

def spelling : ScalarKind → String
  | .int => "int"
  | .float => "float"
  | .bool => "bool"

end ScalarKind

/-! ## §4 Kinds of statements and declarations of one shape -/

/-- Whether a local declaration may be assigned to. -/
inductive BindingKind where
  | variable | constant
deriving DecidableEq

/-- Whether a loop tests its condition before or after its body. -/
inductive LoopTest where
  | before | after
deriving DecidableEq

/-- Functions and procedures. -/
inductive CallableKind where
  | func | proc
deriving DecidableEq

end TensorTree
