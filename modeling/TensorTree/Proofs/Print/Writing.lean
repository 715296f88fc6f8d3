import TensorTree.Print.Node
import TensorTree.Proofs.Forest.Reading
import TensorTree.Proofs.Text.Separators

/-!
# Writing a well-formed forest

The fragments of a node are texts, line ends that at most note the node's own span, changes of
depth, and children; in a well-formed forest none of them is a fault (`Forest.fragments_safe`).
So every node that exists can be written, whatever the layout.
-/

namespace TensorTree

/-! ## §1 Fragments -/

/-- All fragments of a list have a property. -/
def AllOf (P : Fragment → Prop) (fragments : List Fragment) : Prop :=
  ∀ fragment ∈ fragments, P fragment

namespace AllOf

variable {P : Fragment → Prop} {fragments left right : List Fragment}

@[simp] theorem nil : AllOf P [] := by simp [AllOf]

@[simp] theorem cons_iff {fragment : Fragment} :
    AllOf P (fragment :: fragments) ↔ P fragment ∧ AllOf P fragments :=
  List.forall_mem_cons

@[simp] theorem append_iff : AllOf P (left ++ right) ↔ AllOf P left ∧ AllOf P right :=
  List.forall_mem_append

@[simp] theorem ite_iff {p : Prop} [Decidable p] :
    AllOf P (if p then left else right) ↔ (p → AllOf P left) ∧ (¬ p → AllOf P right) := by
  split <;> simp_all

end AllOf

/-! ### Safe fragments -/

/-- A fragment of a node that can be written as soon as the node has a span and the children can be
written. -/
def Fragment.Safe (id : NodeId) (children : List NodeId) : Fragment → Prop
  | .own (.fault _) => False
  | .own (.lineEnd (some subject)) => subject = id
  | .own _ => True
  | .child _ below => below ∈ children

/-- All fragments of a list are safe. -/
abbrev AllSafe (id : NodeId) (children : List NodeId) (fragments : List Fragment) : Prop :=
  AllOf (Fragment.Safe id children) fragments

namespace AllSafe

open Fragment

variable {id : NodeId} {children : List NodeId}

@[simp] theorem text_safe (s : String) : (text s).Safe id children := trivial

@[simp] theorem lineEnd_none_safe : (lineEnd none).Safe id children := trivial

@[simp] theorem lineEnd_some_safe {subject : NodeId} :
    (lineEnd (some subject)).Safe id children ↔ subject = id := Iff.rfl

@[simp] theorem indent_safe : (own .indent).Safe id children := trivial

@[simp] theorem dedent_safe : (own .dedent).Safe id children := trivial

@[simp] theorem child_safe_iff {branch : Branch} {child : NodeId} :
    (Fragment.child branch child).Safe id children ↔ child ∈ children := Iff.rfl

@[simp] theorem node_safe_iff {child : NodeId} :
    (node child).Safe id children ↔ child ∈ children := Iff.rfl

@[simp] theorem ofRef_safe_iff {role : Role} {r : Ref role} :
    (ofRef r).Safe id children ↔ r.node ∈ children := Iff.rfl

theorem intersperse {fragments : List Fragment} {separator : Fragment}
    (h : AllSafe id children fragments) (hsep : separator.Safe id children) :
    AllSafe id children (fragments.intersperse separator) :=
  forall_mem_intersperse h hsep

end AllSafe

namespace Forest

open Fragment

variable {id : NodeId} {children : List NodeId}

theorem refs_safe {role : Role} {refs : List (Ref role)} (h : ∀ r ∈ refs, r.node ∈ children) :
    AllSafe id children (refs.map ofRef) := by
  intro fragment hfragment
  obtain ⟨r, hr, rfl⟩ := List.mem_map.1 hfragment
  exact h r hr

theorem commas_safe {role : Role} {refs : List (Ref role)} (h : ∀ r ∈ refs, r.node ∈ children) :
    AllSafe id children (commas refs) :=
  (refs_safe h).intersperse trivial

theorem texts_safe {α : Type} (values : List α) (render : α → String) (separator : String) :
    AllSafe id children ((values.map fun a => text (render a)).intersperse (text separator)) := by
  refine AllSafe.intersperse ?_ trivial
  intro fragment hfragment
  obtain ⟨a, -, rfl⟩ := List.mem_map.1 hfragment
  trivial

theorem operand_safe {needsParens : Bool} {expr : Ref .expr} (h : expr.node ∈ children) :
    AllSafe id children (operand needsParens expr) := by
  cases needsParens <;> simp [operand, inParens, h]

/-- The links of a chain can be printed if no operand is missing. -/
theorem chainFragments_safe (f : Forest) {ops : List ComparisonOp} {exprs : List (Ref .expr)}
    (hlength : ops.length ≤ exprs.length) (h : ∀ r ∈ exprs, r.node ∈ children) :
    AllSafe id children (f.chainFragments ops exprs) := by
  induction ops generalizing exprs with
  | nil => simp [chainFragments]
  | cons op ops ih =>
    match exprs, hlength, h with
    | expr :: exprs, hlength, h =>
      have hexpr : AllSafe id children (operand (f.wrapsComparand expr) expr) :=
        operand_safe (h expr List.mem_cons_self)
      have hrest := ih (Nat.le_of_succ_le_succ hlength) fun r hr => h r (List.mem_cons_of_mem _ hr)
      simp [chainFragments, hexpr, hrest]

@[grind =>]
theorem mem_map_node {role : Role} {refs : List (Ref role)} {r : Ref role} (h : r ∈ refs) :
    r.node ∈ refs.map (Slot.node ∘ Ref.slot) :=
  List.mem_map.2 ⟨r, h, rfl⟩

/-- All fragments of a node are safe, if a chain has one operand more than operators. -/
theorem fragments_safe (f : Forest) (branch : Branch) (id : NodeId) {node : Node}
    (hchain : ∀ operands ops, node = .eqExpr operands ops → operands.length = ops.length + 1) :
    AllSafe id node.children (f.fragments branch id node) := by
  cases node with
  | program elems =>
    refine AllSafe.intersperse ?_ trivial
    intro fragment hfragment
    obtain ⟨elem, helem, rfl⟩ := List.mem_map.1 hfragment
    exact List.mem_map.2 ⟨elem.slot, List.mem_map.2 ⟨elem, helem, rfl⟩, rfl⟩
  | eqExpr operands ops =>
    have hlength := hchain operands ops rfl
    cases operands with
    | nil => simp at hlength
    | cons expr exprs =>
      have hops : ops.length ≤ exprs.length := by simp at hlength; omega
      simp only [fragments, AllOf.append_iff]
      exact ⟨operand_safe (by simp [Node.children, Node.slots]),
        f.chainFragments_safe hops (by simp [Node.children, Node.slots]; grind)⟩
  | loop timing cond body =>
    cases timing <;> simp [fragments, deeper, line, Node.children, Node.slots]
  | binding kind var value =>
    cases value <;> simp [fragments, statementEnd, Node.children, Node.slots]
  | ifStmt cond thenBody elseBody =>
    cases elseBody <;> simp [fragments, deeper, line, Node.children, Node.slots]
  | denseNdTensor elems =>
    exact AllSafe.intersperse (refs_safe (by simp [Node.children, Node.slots]; grind)) trivial
  | stmtBlock stmts => exact refs_safe (by simp [Node.children, Node.slots]; grind)
  | setType | nonScalarTensorType | elementTypeDecl | callable | assignStmt | mapExpr | callExpr
  | tensorReadExpr | test =>
    simp [fragments, inParens, deeper, line, statementEnd, Node.children, Node.slots]
    grind [commas_safe, refs_safe, operand_safe]
  | _ =>
    simp [fragments, inParens, deeper, line, statementEnd, Node.children, Node.slots,
      operand_safe, texts_safe]

/-! ## §2 Writing -/

/-- Safe fragments are written on any page. -/
theorem foldlM_write_ok {o : LayoutOptions} {spanOf : NodeId → Except ReadFault Span}
    {writeChild : Branch → NodeId → Page → Except ReadFault Page} {fragments : List Fragment}
    (hsafe : AllSafe id children fragments) (hspan : ∃ span, spanOf id = .ok span)
    (hchild : ∀ child ∈ children, ∀ branch page, ∃ page', writeChild branch child page = .ok page')
    (page : Page) :
    ∃ page', fragments.foldlM (Fragment.write o spanOf writeChild) page = .ok page' := by
  induction fragments generalizing page with
  | nil => exact ⟨page, rfl⟩
  | cons fragment fragments ih =>
    rw [AllSafe, AllOf.cons_iff] at hsafe
    -- one fragment leads to a page, and the others go on from there
    have hone : ∃ next, fragment.write o spanOf writeChild page = .ok next := by
      cases fragment with
      | child branch below => exact hchild below hsafe.1 branch page
      | own piece =>
        cases piece with
        | fault e => exact hsafe.1.elim
        | lineEnd subject =>
          cases subject with
          | none => exact ⟨_, rfl⟩
          | some subject =>
            obtain rfl : subject = id := hsafe.1
            obtain ⟨span, hspan⟩ := hspan
            by_cases hshow : o.showSpans
            · exact ⟨_, by simp [Fragment.write, Page.add, hshow, hspan, Except.map]; rfl⟩
            · exact ⟨_, by simp [Fragment.write, Page.add, hshow]; rfl⟩
        | text => exact ⟨_, rfl⟩
        | indent => exact ⟨_, rfl⟩
        | dedent => exact ⟨_, rfl⟩
    obtain ⟨next, hnext⟩ := hone
    obtain ⟨page', hrest⟩ := ih hsafe.2 next
    exact ⟨page', by rw [List.foldlM_cons, hnext]; exact hrest⟩

theorem WellFormed.print_ok {f : Forest} (h : f.WellFormed) (o : LayoutOptions) {id : NodeId}
    (hid : ∃ node, f.node? id = some node) : ∃ text, f.print o id = .ok text := by
  have hwrite : ∀ branch page, ∃ page', f.writeWithin o f.depthBound branch id page = .ok page' := by
    -- the page is part of the induction: children are written on what was written so far
    refine h.descend_depthBound
      (P := fun n id => ∀ branch page, ∃ page', f.writeWithin o n branch id page = .ok page') ?_ hid
    intro n id node hnode ih branch page
    have hsafe : AllSafe id node.children (f.fragments branch id node) := by
      refine f.fragments_safe branch id ?_
      rintro operands ops rfl
      exact h.operands_length hnode
    simp only [writeWithin, hnode]
    exact foldlM_write_ok hsafe (h.span_ok ⟨node, hnode⟩) ih page
  obtain ⟨page, hpage⟩ := hwrite .opening {}
  exact ⟨page.text, by simp [Forest.print, hpage, Except.map]⟩

/-- A well-formed forest can be printed as a program if its root exists. -/
theorem WellFormed.printProgram_ok {f : Forest} (h : f.WellFormed) (o : LayoutOptions)
    (hroot : ∀ root, f.root = some root → ∃ node, f.node? root.node = some node) :
    ∃ text, f.printProgram o = .ok text := by
  unfold printProgram
  cases hf : f.root with
  | none => exact ⟨_, rfl⟩
  | some root =>
    obtain ⟨text, htext⟩ := h.print_ok o (hroot root hf)
    exact ⟨o.finish text, by simp [htext, Except.map]⟩

end Forest

end TensorTree
