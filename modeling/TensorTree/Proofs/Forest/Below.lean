import Mathlib.Data.List.Nodup
import Mathlib.Data.List.Perm.Subperm
import TensorTree.Proofs.Print.Writing

/-!
# What lies below a node

Readers go down from a node to its children and look at nothing else.  If going down ends
(`Forest.EndsWithin`), more levels than it takes make no difference, and neither does the forest
that the nodes are read in, as long as it holds the same entries below (`Forest.SameBelow`).  Each
reader needs one step for this; the descent itself is `Forest.EndsWithin.agree`.
-/

namespace TensorTree

namespace Forest

open Relation (ReflTransGen TransGen)

variable {f g : Forest} {n m k : Nat} {id : NodeId}

/-! ## §1 Descents that end -/

/-- A node exists, and so does all that lies below it; no way down from it has more nodes than the
number says. -/
inductive EndsWithin (f : Forest) : Nat → NodeId → Prop where
  | step {n : Nat} {id : NodeId} {e : Entry} (found : f.entry? id = some e)
      (below : ∀ child ∈ e.node.children, EndsWithin f n child) : EndsWithin f (n + 1) id

theorem node?_of_found {e : Entry} (found : f.entry? id = some e) :
    f.node? id = some e.node :=
  Option.map_eq_some_iff.2 ⟨e, found, rfl⟩

theorem isChild_iff {e : Entry} (found : f.entry? id = some e) (child : NodeId) :
    f.IsChild id child ↔ child ∈ e.node.children := by
  constructor
  · intro hc
    obtain ⟨node, hnode, hmem⟩ := hc
    obtain rfl := Option.some.inj ((node?_of_found found).symm.trans hnode)
    exact hmem
  · exact fun hmem => ⟨e.node, node?_of_found found, hmem⟩

theorem EndsWithin.mono (h : f.EndsWithin n id) (hnm : n ≤ m) : f.EndsWithin m id := by
  induction h generalizing m with
  | @step n id e found _ ih =>
    obtain ⟨m, rfl⟩ : ∃ k, m = k + 1 := ⟨m - 1, by omega⟩
    exact .step found fun child hchild => ih child hchild (by omega)

/-- In a well-formed forest numbers fall on every way down. -/
theorem WellFormed.endsWithin (h : f.WellFormed) (hid : ∃ node, f.node? id = some node)
    (hn : id.index < n) : f.EndsWithin n id := by
  refine h.descend (P := fun n id => f.EndsWithin n id) ?_ hid hn
  intro n id node hnode ih
  obtain ⟨e, found, rfl⟩ := Option.map_eq_some_iff.1 hnode
  exact .step found ih

/-- All that lies below a node exists, the node included, and none of it lies below itself. -/
structure Grounded (f : Forest) (id : NodeId) : Prop where
  exists_entry : ∀ below, ReflTransGen f.IsChild id below → ∃ e, f.entry? below = some e
  acyclic : ∀ below, ReflTransGen f.IsChild id below → ¬ TransGen f.IsChild below below

theorem WellFormed.grounded (h : f.WellFormed) (hid : ∃ node, f.node? id = some node) :
    f.Grounded id where
  exists_entry below hbelow := by
    have hexists : ∃ node, f.node? below = some node := by
      cases hbelow with
      | refl => exact hid
      | tail _ hlast => exact h.exists_child hlast
    obtain ⟨node, hnode⟩ := hexists
    obtain ⟨e, found, -⟩ := Option.map_eq_some_iff.1 hnode
    exact ⟨e, found⟩
  acyclic below _ := h.acyclic below

theorem Grounded.child (h : f.Grounded id) {child : NodeId} (hc : f.IsChild id child) :
    f.Grounded child where
  exists_entry below hbelow := h.exists_entry below (hbelow.head hc)
  acyclic below hbelow := h.acyclic below (hbelow.head hc)

/-- Different numbers below a bound are no more than the bound. -/
theorem length_le_of_nodup {path : List NodeId} (hnodup : path.Nodup)
    (hlt : ∀ id ∈ path, id.index < n) : path.length ≤ n := by
  have hinjective : Function.Injective NodeId.index := by
    rintro ⟨a⟩ ⟨b⟩ rfl
    rfl
  have hsubset : path.map NodeId.index ⊆ List.range n := by
    intro i hi
    obtain ⟨id, hid, rfl⟩ := List.mem_map.1 hi
    exact List.mem_range.2 (hlt id hid)
  have hle := ((List.Nodup.map hinjective hnodup).subperm hsubset).length_le
  simpa using hle

/-- Where nothing lies below itself, a way down ends before it has used up all numbers. -/
theorem Grounded.endsWithin_of_path {size : Nat} (h : f.Grounded id)
    (hsize : ∀ below, ReflTransGen f.IsChild id below → below.index < size) {path : List NodeId}
    (hnodup : path.Nodup) (hlt : ∀ above ∈ path, above.index < size)
    (habove : ∀ above ∈ path, TransGen f.IsChild above id) (hn : size = path.length + n) :
    f.EndsWithin n id := by
  -- the path gets longer on the way down, and no node is on the path that leads to it
  induction n generalizing id path with
  | zero =>
    have hid : id ∉ path := fun hmem => h.acyclic id .refl (habove id hmem)
    have hle : (id :: path).length ≤ size := by
      apply length_le_of_nodup (List.nodup_cons.2 ⟨hid, hnodup⟩)
      exact List.forall_mem_cons.2 ⟨hsize id .refl, hlt⟩
    rw [List.length_cons] at hle
    omega
  | succ n ih =>
    have hid : id ∉ path := fun hmem => h.acyclic id .refl (habove id hmem)
    obtain ⟨e, found⟩ := h.exists_entry id .refl
    refine .step found fun child hchild => ?_
    have hc : f.IsChild id child := (isChild_iff found child).2 hchild
    apply ih (h.child hc) (fun below hbelow => hsize below (hbelow.head hc))
      (List.nodup_cons.2 ⟨hid, hnodup⟩)
    · exact List.forall_mem_cons.2 ⟨hsize id .refl, hlt⟩
    · exact List.forall_mem_cons.2 ⟨.single hc, fun above hmem => (habove above hmem).tail hc⟩
    · rw [List.length_cons]
      omega

theorem Grounded.endsWithin (h : f.Grounded id) {size : Nat}
    (hsize : ∀ below, ReflTransGen f.IsChild id below → below.index < size) :
    f.EndsWithin size id :=
  h.endsWithin_of_path hsize List.nodup_nil (by simp) (by simp) (by simp)

/-- A descent that ends does not come back to where it was. -/
theorem EndsWithin.acyclic (h : f.EndsWithin n id) : ¬ TransGen f.IsChild id id := by
  induction h with
  | @step n id e found _ ih =>
    intro hcycle
    obtain ⟨child, hc, hback⟩ := TransGen.head'_iff.1 hcycle
    -- the cycle can be entered at the child as well
    exact ih child ((isChild_iff found child).1 hc) (TransGen.tail' hback hc)

/-- What a descent comes by ends as well. -/
theorem EndsWithin.descendant (h : f.EndsWithin n id) {below : NodeId}
    (hbelow : ReflTransGen f.IsChild id below) : f.EndsWithin n below := by
  induction hbelow with
  | refl => exact h
  | tail _ hlast ih =>
    cases ih with
    | step found hchildren =>
      exact (hchildren _ ((isChild_iff found _).1 hlast)).mono (Nat.le_succ _)

theorem EndsWithin.grounded (h : f.EndsWithin n id) : f.Grounded id where
  exists_entry below hbelow := by
    cases h.descendant hbelow with
    | step found _ => exact ⟨_, found⟩
  acyclic below hbelow := (h.descendant hbelow).acyclic

/-! ## §2 The same entries below -/

/-- Two forests hold the same entries at a node and at all that lies below it in the first one. -/
def SameBelow (f g : Forest) (id : NodeId) : Prop :=
  ∀ below, ReflTransGen f.IsChild id below → f.entry? below = g.entry? below

theorem SameBelow.refl (f : Forest) (id : NodeId) : f.SameBelow f id := fun _ _ => rfl

theorem SameBelow.child (h : f.SameBelow g id) {child : NodeId} (hc : f.IsChild id child) :
    f.SameBelow g child :=
  fun below hbelow => h below (hbelow.head hc)

theorem SameBelow.node?_eq (h : f.SameBelow g id) : f.node? id = g.node? id :=
  congrArg (Option.map Entry.node) (h id .refl)

/-- What two readers have in common at a node as soon as they have it in common at all children,
they have in common at every node below which descents end. -/
theorem EndsWithin.agree {P : Nat → Nat → NodeId → Prop}
    (step : ∀ n m id e, f.entry? id = some e → g.entry? id = some e →
      (∀ child ∈ e.node.children, f.node? child = g.node? child) →
      (∀ child ∈ e.node.children, P n m child) → P (n + 1) (m + 1) id)
    (h : f.EndsWithin k id) (hsame : f.SameBelow g id) (hn : k ≤ n) (hm : k ≤ m) : P n m id := by
  induction h generalizing n m with
  | @step k id e found _ ih =>
    obtain ⟨n, rfl⟩ : ∃ i, n = i + 1 := ⟨n - 1, by omega⟩
    obtain ⟨m, rfl⟩ : ∃ i, m = i + 1 := ⟨m - 1, by omega⟩
    have hchild : ∀ child ∈ e.node.children, f.SameBelow g child :=
      fun child hchild => hsame.child ((isChild_iff found child).2 hchild)
    apply step n m id e found ((hsame id .refl).symm.trans found)
    · exact fun child hmem => (hchild child hmem).node?_eq
    · exact fun child hmem => ih child hmem (hchild child hmem) (by omega) (by omega)

/-! ## §3 Spans, extents and visits -/

variable {e : Entry}

theorem entry_of_found (found : f.entry? id = some e) : f.entry id = .ok e := by
  simp [Forest.entry, found]

theorem EndsWithin.firstWithin_eq (h : f.EndsWithin k id) (hsame : f.SameBelow g id) (hn : k ≤ n)
    (hm : k ≤ m) : f.firstWithin n id = g.firstWithin m id := by
  refine h.agree (P := fun n m id => f.firstWithin n id = g.firstWithin m id) ?_ hsame hn hm
  intro n m id e hf hg _ ih
  simp only [firstWithin, entry_of_found hf, entry_of_found hg]
  cases hanchor : e.node.firstAnchor with
  | child next => exact ih next (Node.mem_children_of_firstAnchor hanchor)
  | recorded | missing => rfl

theorem EndsWithin.lastWithin_eq (h : f.EndsWithin k id) (hsame : f.SameBelow g id) (hn : k ≤ n)
    (hm : k ≤ m) : f.lastWithin n id = g.lastWithin m id := by
  refine h.agree (P := fun n m id => f.lastWithin n id = g.lastWithin m id) ?_ hsame hn hm
  intro n m id e hf hg _ ih
  simp only [lastWithin, entry_of_found hf, entry_of_found hg]
  cases hanchor : e.node.lastAnchor e.span with
  | child next => exact ih next (Node.mem_children_of_lastAnchor hanchor)
  | recorded | missing => rfl

theorem EndsWithin.span_eq (h : f.EndsWithin k id) (hsame : f.SameBelow g id)
    (hf : k ≤ f.depthBound) (hg : k ≤ g.depthBound) : f.span id = g.span id := by
  unfold span first last
  rw [h.firstWithin_eq hsame hf hg, h.lastWithin_eq hsame hf hg]

theorem EndsWithin.extentsWithin_eq (h : f.EndsWithin k id) (hsame : f.SameBelow g id) (hn : k ≤ n)
    (hm : k ≤ m) : f.extentsWithin n id = g.extentsWithin m id := by
  refine h.agree (P := fun n m id => f.extentsWithin n id = g.extentsWithin m id) ?_ hsame hn hm
  intro n m id e hf hg _ ih
  simp only [extentsWithin, Forest.node, entry_of_found hf, entry_of_found hg, Except.map]
  cases hnode : e.node with
  | denseNdTensor elems =>
    cases elems with
    | nil => rfl
    | cons elem elems =>
      have hmem : elem.node ∈ e.node.children := by simp [hnode, Node.children, Node.slots]
      simp only [ih elem.node hmem]
  | _ => rfl

theorem runActions_congr {ε : Type} {visit visit' : NodeId → Except ReadFault (List ε)}
    {actions : List (Action ε)} (h : ∀ id, Action.visit id ∈ actions → visit id = visit' id) :
    runActions visit actions = runActions visit' actions := by
  induction actions with
  | nil => rfl
  | cons action actions ih =>
    have hrest := ih fun id hid => h id (List.mem_cons_of_mem _ hid)
    cases action with
    | report event => simp only [runActions, hrest]
    | visit id => simp only [runActions, hrest, h id List.mem_cons_self]

theorem EndsWithin.visitWithin_eq (h : f.EndsWithin k id) (hsame : f.SameBelow g id) (hn : k ≤ n)
    (hm : k ≤ m) {ε : Type} {v : Visitor ε} (hv : v.GoesDown) :
    f.visitWithin v n id = g.visitWithin v m id := by
  refine h.agree (P := fun n m id => f.visitWithin v n id = g.visitWithin v m id) ?_ hsame hn hm
  intro n m id e hf hg _ ih
  simp only [visitWithin, Forest.node, entry_of_found hf, entry_of_found hg, Except.map]
  exact runActions_congr fun child hchild => ih child (hv id e.node child hchild)

end Forest

/-! ## §4 Texts -/

/-- A fragment of a node that notes at most the span of the node itself and goes on only with
children.  Unlike a safe fragment it may be a fault. -/
def Fragment.Local (id : NodeId) (children : List NodeId) : Fragment → Prop
  | .own (.lineEnd (some subject)) => subject = id
  | .own _ => True
  | .child _ below => below ∈ children

theorem Fragment.Safe.toLocal {id : NodeId} {children : List NodeId} {fragment : Fragment}
    (h : fragment.Safe id children) : fragment.Local id children := by
  cases fragment with
  | child branch below => exact h
  | own piece =>
    cases piece with
    | lineEnd subject =>
      cases subject with
      | none => trivial
      | some subject => exact h
    | text | indent | dedent => trivial
    | fault e => exact h.elim

namespace Forest

open Fragment

variable {f g : Forest} {n m k : Nat} {id : NodeId}

theorem operand_local {children : List NodeId} {needsParens : Bool} {expr : Ref .expr}
    (h : expr.node ∈ children) :
    ∀ fragment ∈ operand needsParens expr, fragment.Local id children :=
  fun fragment hmem => (operand_safe h fragment hmem).toLocal

theorem chainFragments_local {children : List NodeId} (ops : List ComparisonOp)
    {exprs : List (Ref .expr)} (h : ∀ r ∈ exprs, r.node ∈ children) :
    ∀ fragment ∈ f.chainFragments ops exprs, fragment.Local id children := by
  induction ops generalizing exprs with
  | nil => simp [chainFragments]
  | cons op ops ih =>
    cases exprs with
    | nil => simp [chainFragments, fault, Fragment.Local]
    | cons expr exprs =>
      rw [List.forall_mem_cons] at h
      have hhead : ∀ fragment ∈ operand (f.wrapsComparand expr) expr, fragment.Local id children :=
        operand_local h.1
      have hrest := ih h.2
      simp only [chainFragments, List.forall_mem_append]
      exact ⟨⟨by simp [text, Fragment.Local], hhead⟩, hrest⟩

/-- All fragments of a node are local, whether it is well-formed or not. -/
theorem fragments_local (f : Forest) (branch : Branch) (id : NodeId) (node : Node) :
    ∀ fragment ∈ f.fragments branch id node, fragment.Local id node.children := by
  cases node with
  | eqExpr operands ops =>
    -- only here an operand can be missing
    cases operands with
    | nil => simp [fragments, fault, Fragment.Local]
    | cons expr exprs =>
      simp only [fragments, List.forall_mem_append]
      constructor
      · exact operand_local (by simp [Node.children, Node.slots])
      · exact chainFragments_local ops (by simp [Node.children, Node.slots]; grind)
  | _ =>
    intro fragment hmem
    exact (f.fragments_safe branch id (by rintro _ _ ⟨⟩) fragment hmem).toLocal

/-! ### What a node looks at -/

theorem wrapsAtom_congr {r : Ref .expr} (h : f.node? r.node = g.node? r.node) :
    f.wrapsAtom r = g.wrapsAtom r := by
  simp only [wrapsAtom, operandOp?, operandIs, h]

theorem wrapsOperand_congr {r : Ref .expr} (h : f.node? r.node = g.node? r.node) (op : BinaryOp)
    (isRight : Bool) : f.wrapsOperand op isRight r = g.wrapsOperand op isRight r := by
  simp only [wrapsOperand, operandOp?, operandIs, h]

theorem wrapsComparand_congr {r : Ref .expr} (h : f.node? r.node = g.node? r.node) :
    f.wrapsComparand r = g.wrapsComparand r := by
  simp only [wrapsComparand, operandOp?, operandIs, h]

theorem chainFragments_congr (ops : List ComparisonOp) {exprs : List (Ref .expr)}
    (h : ∀ r ∈ exprs, f.node? r.node = g.node? r.node) :
    f.chainFragments ops exprs = g.chainFragments ops exprs := by
  induction ops generalizing exprs with
  | nil => rfl
  | cons op ops ih =>
    cases exprs with
    | nil => rfl
    | cons expr exprs =>
      rw [List.forall_mem_cons] at h
      simp only [chainFragments, wrapsComparand_congr h.1, ih h.2]

/-- The fragments of a node depend on its children and on nothing else in the forest. -/
theorem fragments_congr (branch : Branch) (id : NodeId) {node : Node}
    (h : ∀ child ∈ node.children, f.node? child = g.node? child) :
    f.fragments branch id node = g.fragments branch id node := by
  have hchild : ∀ {role : Role} (r : Ref role), r.slot ∈ node.slots →
      f.node? r.node = g.node? r.node :=
    fun r hr => h r.node (List.mem_map.2 ⟨r.slot, hr, rfl⟩)
  cases node with
  | ifStmt cond thenBody elseBody =>
    cases elseBody with
    | none => rfl
    | some stmt =>
      have hstmt : f.nodeAs? stmt.node .ifStmt = g.nodeAs? stmt.node .ifStmt := by
        rw [nodeAs?, nodeAs?, hchild stmt (by simp [Node.slots])]
      simp only [fragments, hstmt]
  | binary op lhs rhs =>
    simp only [fragments, wrapsOperand_congr (hchild lhs (by simp [Node.slots])),
      wrapsOperand_congr (hchild rhs (by simp [Node.slots]))]
  | eqExpr operands ops =>
    have hall : ∀ r ∈ operands, f.node? r.node = g.node? r.node :=
      fun r hr => hchild r (List.mem_map.2 ⟨r, hr, rfl⟩)
    cases operands with
    | nil => rfl
    | cons expr exprs =>
      rw [List.forall_mem_cons] at hall
      simp only [fragments, wrapsComparand_congr hall.1, chainFragments_congr ops hall.2]
  | notExpr expr | negExpr expr | transposeExpr expr | tensorReadExpr expr
  | tupleReadExpr expr | fieldReadExpr expr =>
    simp only [fragments, wrapsAtom_congr (hchild expr (by simp [Node.slots]))]
  | denseNdTensor elems =>
    cases elems with
    | nil => rfl
    | cons elem elems =>
      simp only [fragments, elementSeparator, hchild elem (by simp [Node.slots])]
  | loop timing => cases timing <;> rfl
  | _ => rfl

/-- Local fragments are written alike if the span of the node and the children are. -/
theorem foldlM_write_congr {o : LayoutOptions} {spanOf spanOf' : NodeId → Except ReadFault Span}
    {writeChild writeChild' : Branch → NodeId → Page → Except ReadFault Page}
    {children : List NodeId} {fragments : List Fragment}
    (hlocal : ∀ fragment ∈ fragments, fragment.Local id children) (hspan : spanOf id = spanOf' id)
    (hchild : ∀ child ∈ children, ∀ branch page,
      writeChild branch child page = writeChild' branch child page) (page : Page) :
    fragments.foldlM (Fragment.write o spanOf writeChild) page =
      fragments.foldlM (Fragment.write o spanOf' writeChild') page := by
  induction fragments generalizing page with
  | nil => rfl
  | cons fragment fragments ih =>
    rw [List.forall_mem_cons] at hlocal
    have hone : fragment.write o spanOf writeChild page =
        fragment.write o spanOf' writeChild' page := by
      cases fragment with
      | child branch below => exact hchild below hlocal.1 branch page
      | own piece =>
        cases piece with
        | lineEnd subject =>
          cases subject with
          | none => rfl
          | some subject =>
            obtain rfl : subject = id := hlocal.1
            simp only [Fragment.write, Page.add, hspan]
        | text | indent | dedent | fault => rfl
    rw [List.foldlM_cons, List.foldlM_cons, hone]
    exact congrArg _ (funext (ih hlocal.2))

theorem EndsWithin.writeWithin_eq (h : f.EndsWithin k id) (hsame : f.SameBelow g id) (hn : k ≤ n)
    (hm : k ≤ m) (hf : k ≤ f.depthBound) (hg : k ≤ g.depthBound) (o : LayoutOptions)
    (branch : Branch) (page : Page) :
    f.writeWithin o n branch id page = g.writeWithin o m branch id page := by
  -- here the span of every node on the way down is needed as well
  induction h generalizing n m branch page with
  | @step k id e found hbelow ih =>
    obtain ⟨n, rfl⟩ : ∃ i, n = i + 1 := ⟨n - 1, by omega⟩
    obtain ⟨m, rfl⟩ : ∃ i, m = i + 1 := ⟨m - 1, by omega⟩
    have hspan : f.span id = g.span id := (EndsWithin.step found hbelow).span_eq hsame hf hg
    have hchild : ∀ child ∈ e.node.children, f.SameBelow g child :=
      fun child hchild => hsame.child ((isChild_iff found child).2 hchild)
    have hnode := node?_of_found found
    have hnode' : g.node? id = some e.node := hsame.node?_eq.symm.trans hnode
    simp only [writeWithin, hnode, hnode',
      fragments_congr branch id fun child hmem => (hchild child hmem).node?_eq]
    apply foldlM_write_congr (g.fragments_local branch id e.node) hspan
    intro child hmem branch page
    exact ih child hmem (hchild child hmem) (by omega) (by omega) (by omega) (by omega) branch page

end Forest

end TensorTree
