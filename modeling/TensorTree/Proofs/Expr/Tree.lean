import TensorTree.Print.Node
import TensorTree.Proofs.Forest.Kinds
import TensorTree.Proofs.Token.Lexeme

/-!
# Trees of expressions

A forest shares nodes; the tree of an expression is what one sees when going down from it
(`Forest.expr?`).  Expressions that use only variables, literals, operators, comparisons, calls and
maps have such a tree (`Forest.Fitted.exists_expr_and_name`).  Trees that differ only in parentheses
have the same bare tree.
-/

namespace TensorTree

/-! ## §1 Trees -/

/-- The tree of an expression. -/
inductive Expr where
  | var (name : String)
  | int (value : Int)
  | bool (value : Bool)
  | paren (inner : Expr)
  | binary (op : BinaryOp) (lhs rhs : Expr)
  | chain (operands : List Expr) (ops : List ComparisonOp)
  | not (operand : Expr)
  | sign (negate : Bool) (operand : Expr)
  | call (func : String) (args : List Expr)
  | map (func : String) (args : List Expr) (target : String) (reduction : Reduction)

namespace Expr

mutual

/-- The tree without parentheses: each of them is replaced by what it encloses. -/
def bare : Expr → Expr
  | var name => var name
  | int value => int value
  | bool value => bool value
  | paren inner => inner.bare
  | binary op lhs rhs => binary op lhs.bare rhs.bare
  | chain operands ops => chain (bareAll operands) ops
  | not operand => not operand.bare
  | sign negate operand => sign negate operand.bare
  | call func args => call func (bareAll args)
  | map func args target reduction => map func (bareAll args) target reduction

def bareAll : List Expr → List Expr
  | [] => []
  | e :: es => e.bare :: bareAll es

end

@[simp] theorem bareAll_eq_map (es : List Expr) : bareAll es = es.map bare := by
  induction es with
  | nil => rfl
  | cons e es ih => simp [bareAll, ih]

/-- Numbers are not negative, names are scanned as identifiers, and chains compare something. -/
inductive Plain : Expr → Prop where
  | var {name : String} (hname : IsName name) : Plain (var name)
  | int (value : Nat) : Plain (int value)
  | bool (value : Bool) : Plain (bool value)
  | paren {inner : Expr} (hinner : Plain inner) : Plain (paren inner)
  | binary (op : BinaryOp) {lhs rhs : Expr} (hlhs : Plain lhs) (hrhs : Plain rhs) :
      Plain (binary op lhs rhs)
  | chain {operands : List Expr} {ops : List ComparisonOp}
      (hlength : operands.length = ops.length + 1) (hops : ops ≠ [])
      (hoperands : ∀ e ∈ operands, Plain e) : Plain (chain operands ops)
  | not {operand : Expr} (hoperand : Plain operand) : Plain (not operand)
  | sign (negate : Bool) {operand : Expr} (hoperand : Plain operand) :
      Plain (sign negate operand)
  | call {func : String} {args : List Expr} (hfunc : IsName func)
      (hargs : ∀ e ∈ args, Plain e) : Plain (call func args)
  | map {func : String} {args : List Expr} {target : String} (reduction : Reduction)
      (hfunc : IsName func) (hargs : ∀ e ∈ args, Plain e) (htarget : IsName target) :
      Plain (map func args target reduction)

end Expr

/-! ## §2 Trees in forests -/

namespace Forest

/-- The name that an identifier holds, if at least one level may be looked at. -/
def nameWithin (f : Forest) : Nat → Ref .ident → Option String
  | 0, _ => none
  | _ + 1, r =>
    match f.node? r.node with
    | some (.identifier name) => some name
    | _ => none

/-- The tree that one sees when going down from a node at most the given number of levels, if it is
an expression of variables, literals, operators, comparisons, calls and maps. -/
def exprWithin (f : Forest) : Nat → NodeId → Option Expr
  | 0, _ => none
  | n + 1, id =>
    match f.node? id with
    | some (.varExpr name) => some (.var name)
    | some (.intLiteral value) => some (.int value)
    | some (.boolLiteral value) => some (.bool value)
    | some (.parenExpr e) => (exprWithin f n e.node).map .paren
    | some (.binary op lhs rhs) => do
      some (.binary op (← exprWithin f n lhs.node) (← exprWithin f n rhs.node))
    | some (.eqExpr operands ops) => do
      some (.chain (← operands.mapM fun r => exprWithin f n r.node) ops)
    | some (.notExpr e) => (exprWithin f n e.node).map .not
    | some (.negExpr e negate) => (exprWithin f n e.node).map (.sign negate)
    | some (.callExpr func args) => do
      some (.call (← f.nameWithin n func) (← args.mapM fun r => exprWithin f n r.node))
    | some (.mapExpr func args target reduction) => do
      some (.map (← f.nameWithin n func) (← args.mapM fun r => exprWithin f n r.node)
        (← f.nameWithin n target) reduction)
    | _ => none

def expr? (f : Forest) (e : Ref .expr) : Option Expr := f.exprWithin f.depthBound e.node

end Forest

/-- A node of an expression of variables, literals, operators, comparisons, calls and maps: numbers
are not negative, names are scanned as identifiers, and chains compare something. -/
def Node.IsPlain : Node → Prop
  | .varExpr name | .identifier name => IsName name
  | .intLiteral value => 0 ≤ value
  | .eqExpr _ ops => ops ≠ []
  | .boolLiteral _ | .parenExpr _ | .binary .. | .notExpr _ | .negExpr .. | .callExpr ..
  | .mapExpr .. => True
  | _ => False

namespace Forest

/-- All nodes below an expression, itself included, are plain. -/
def PlainBelow (f : Forest) (id : NodeId) : Prop :=
  ∀ below node, Relation.ReflTransGen f.IsChild id below → f.node? below = some node → node.IsPlain

variable {f : Forest}

theorem PlainBelow.child {id child : NodeId} (h : f.PlainBelow id) (hchild : f.IsChild id child) :
    f.PlainBelow child :=
  fun below node hbelow hnode => h below node (hbelow.head hchild) hnode

theorem exists_mapM {α β : Type} {g : α → Option β} {P : β → Prop} {as : List α}
    (h : ∀ a ∈ as, ∃ b, g a = some b ∧ P b) :
    ∃ bs, as.mapM g = some bs ∧ bs.length = as.length ∧ ∀ b ∈ bs, P b := by
  induction as with
  | nil => exact ⟨[], by simp, rfl, by simp⟩
  | cons a as ih =>
    obtain ⟨b, hb, hP⟩ := h a List.mem_cons_self
    obtain ⟨bs, hbs, hlength, hall⟩ := ih fun a' ha' => h a' (List.mem_cons_of_mem a ha')
    exact ⟨b :: bs, by simp [List.mapM_cons, hb, hbs], by simp [hlength], by simpa [hP] using hall⟩

/-- No other role stands in for that of an identifier or of an expression. -/
theorem wider?_ne_ident (other : Role) : other.wider? ≠ some .ident := by
  cases other <;> simp [Role.wider?]

theorem wider?_ne_expr (other : Role) : other.wider? ≠ some .expr := by
  cases other <;> simp [Role.wider?]

/-- What a plain node refers to was seen: there are trees in the places of expressions, and names in
those of identifiers. -/
structure Seen (f : Forest) (n : Nat) (node : Node) : Prop where
  tree : ∀ r : Ref .expr, r.slot ∈ node.slots →
    ∃ tree, f.exprWithin n r.node = some tree ∧ tree.Plain
  name : ∀ r : Ref .ident, r.slot ∈ node.slots →
    ∃ name, f.nameWithin n r = some name ∧ IsName name

variable {n : Nat} {id : NodeId} {node : Node}

theorem Seen.trees (h : f.Seen n node) (refs : List (Ref .expr))
    (hrefs : ∀ r ∈ refs, r.slot ∈ node.slots) :
    ∃ trees, refs.mapM (fun r => f.exprWithin n r.node) = some trees ∧
      trees.length = refs.length ∧ ∀ tree ∈ trees, tree.Plain :=
  exists_mapM fun r hr => h.tree r (hrefs r hr)

/-- One level up, a plain expression has a tree. -/
theorem Seen.exists_expr (h : f.Seen n node) (hnode : f.node? id = some node)
    (hplain : node.IsPlain) (hrole : node.variant.role = .expr)
    (hchain : ∀ operands ops, node = .eqExpr operands ops → operands.length = ops.length + 1) :
    ∃ tree, f.exprWithin (n + 1) id = some tree ∧ tree.Plain := by
  cases node with
  | varExpr name => exact ⟨.var name, by simp [exprWithin, hnode], .var hplain⟩
  | intLiteral value =>
    obtain ⟨k, rfl⟩ := Int.eq_ofNat_of_zero_le hplain
    exact ⟨.int k, by simp [exprWithin, hnode], .int k⟩
  | boolLiteral value => exact ⟨.bool value, by simp [exprWithin, hnode], .bool value⟩
  | parenExpr inner =>
    obtain ⟨tree, htree, hp⟩ := h.tree inner (by simp [Node.slots])
    exact ⟨.paren tree, by simp [exprWithin, hnode, htree], .paren hp⟩
  | binary op lhs rhs =>
    obtain ⟨left, hleft, hl⟩ := h.tree lhs (by simp [Node.slots])
    obtain ⟨right, hright, hr⟩ := h.tree rhs (by simp [Node.slots])
    exact ⟨.binary op left right, by simp [exprWithin, hnode, hleft, hright], .binary op hl hr⟩
  | eqExpr operands ops =>
    obtain ⟨trees, htrees, hlength, hps⟩ := h.trees operands (by simp [Node.slots]; grind)
    refine ⟨.chain trees ops, by simp [exprWithin, hnode, htrees], .chain ?_ hplain hps⟩
    rw [hlength, hchain operands ops rfl]
  | notExpr operand =>
    obtain ⟨tree, htree, hp⟩ := h.tree operand (by simp [Node.slots])
    exact ⟨.not tree, by simp [exprWithin, hnode, htree], .not hp⟩
  | negExpr operand negate =>
    obtain ⟨tree, htree, hp⟩ := h.tree operand (by simp [Node.slots])
    exact ⟨.sign negate tree, by simp [exprWithin, hnode, htree], .sign negate hp⟩
  | callExpr func args =>
    obtain ⟨name, hfunc, hn⟩ := h.name func (by simp [Node.slots])
    obtain ⟨trees, htrees, -, hps⟩ := h.trees args (by simp [Node.slots]; grind)
    exact ⟨.call name trees, by simp [exprWithin, hnode, hfunc, htrees], .call hn hps⟩
  | mapExpr func args target reduction =>
    obtain ⟨name, hfunc, hn⟩ := h.name func (by simp [Node.slots])
    obtain ⟨trees, htrees, -, hps⟩ := h.trees args (by simp [Node.slots]; grind)
    obtain ⟨last, htarget, hl⟩ := h.name target (by simp [Node.slots])
    exact ⟨.map name trees last reduction,
      by simp [exprWithin, hnode, hfunc, htrees, htarget], .map reduction hn hps hl⟩
  | identifier name => cases hrole
  -- no other node is plain
  | _ => cases hplain

theorem exists_name (hnode : f.node? id = some node) (hplain : node.IsPlain)
    (hrole : node.variant.role = .ident) :
    ∃ name, f.nameWithin (n + 1) ⟨id⟩ = some name ∧ IsName name := by
  cases node with
  | identifier name => exact ⟨name, by simp [nameWithin, hnode], hplain⟩
  | varExpr | intLiteral | boolLiteral | parenExpr | binary | eqExpr | notExpr | negExpr
  | callExpr | mapExpr => cases hrole
  | _ => cases hplain

/-- Plain expressions have plain trees, and plain identifiers hold names. -/
theorem Fitted.exists_expr_and_name (hf : f.Fitted) (hwell : f.WellFormed)
    (hid : f.node? id = some node) (hplain : f.PlainBelow id) :
    (node.variant.role = .expr →
      ∃ tree, f.exprWithin f.depthBound id = some tree ∧ tree.Plain) ∧
    (node.variant.role = .ident →
      ∃ name, f.nameWithin f.depthBound ⟨id⟩ = some name ∧ IsName name) := by
  refine hwell.descend_depthBound
    (P := fun n id => f.PlainBelow id → ∀ node, f.node? id = some node →
      (node.variant.role = .expr → ∃ tree, f.exprWithin n id = some tree ∧ tree.Plain) ∧
      (node.variant.role = .ident → ∃ name, f.nameWithin n ⟨id⟩ = some name ∧ IsName name))
    ?_ ⟨node, hid⟩ hplain node hid
  intro n id node hnode ih hplain other hother
  obtain rfl := Option.some.inj (hother.symm.trans hnode)
  have hthis : other.IsPlain := hplain id other .refl hnode
  -- the places are filled, and what fills them is plain in turn
  have hseen : f.Seen n other := by
    constructor
    · intro r hr
      have hmem : r.node ∈ other.children := List.mem_map.2 ⟨r.slot, hr, rfl⟩
      obtain ⟨filler, hfiller, hfits⟩ := hf.exists_filler hnode hr wider?_ne_expr
      exact (ih r.node hmem (hplain.child ⟨other, hnode, hmem⟩) filler hfiller).1 hfits
    · intro r hr
      have hmem : r.node ∈ other.children := List.mem_map.2 ⟨r.slot, hr, rfl⟩
      obtain ⟨filler, hfiller, hfits⟩ := hf.exists_filler hnode hr wider?_ne_ident
      exact (ih r.node hmem (hplain.child ⟨other, hnode, hmem⟩) filler hfiller).2 hfits
  have hchain : ∀ operands ops, other = .eqExpr operands ops →
      operands.length = ops.length + 1 := by
    rintro operands ops rfl
    exact hwell.operands_length hnode
  constructor
  · intro hrole
    exact hseen.exists_expr hnode hthis hrole hchain
  · intro hrole
    exact exists_name hnode hthis hrole

end Forest

end TensorTree
