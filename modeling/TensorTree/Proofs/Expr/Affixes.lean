import TensorTree.Proofs.Forest.Below

/-!
# Operators in front and behind

A sign or a negation stands in front of its operand, a transposition or a read behind it.  The
printer puts parentheses around an operand of either kind only if it is a binary expression or a
comparison chain.  So where operators of both kinds meet, the text does not tell which of them was
applied first (`Session.print_affixes_swapped`).
-/

namespace TensorTree

/-! ## §1 Operators of one operand -/

/-- An operator that stands in front of its operand. -/
inductive PrefixOp where
  | sign (negate : Bool)
  | not

/-- An operator that stands behind its operand, with what else it is applied to. -/
inductive PostfixOp where
  | transpose
  | tensorRead (indices : List (Ref .readParam))
  | tupleRead (index : Ref .expr)
  | fieldRead (name : Ref .ident)

namespace PrefixOp

/-- The operator applied to an operand. -/
def node (operand : Ref .expr) : PrefixOp → Node
  | sign negate => .negExpr operand negate
  | not => .notExpr operand

/-- What stands in front of the operand. -/
def front : PrefixOp → String
  | sign negate => if negate then "-" else "+"
  | not => "not "

end PrefixOp

namespace PostfixOp

/-- The operator applied to an operand. -/
def node (operand : Ref .expr) : PostfixOp → Node
  | transpose => .transposeExpr operand
  | tensorRead indices => .tensorReadExpr operand indices
  | tupleRead index => .tupleReadExpr operand index
  | fieldRead name => .fieldReadExpr operand name

/-- What stands behind the operand. -/
def back : PostfixOp → List Fragment
  | transpose => [.text "'"]
  | tensorRead indices => Fragment.inParens (Fragment.commas indices)
  | tupleRead index => Fragment.inParens [.ofRef index]
  | fieldRead name => [.text ".", .ofRef name]

end PostfixOp

/-! ## §2 Fragments -/

namespace Forest

open Fragment

variable {f : Forest} {id : NodeId} {r x : Ref .expr} {u : PrefixOp} {p : PostfixOp}

theorem fragments_prefixOp (f : Forest) (branch : Branch) (id : NodeId) (u : PrefixOp)
    (x : Ref .expr) :
    f.fragments branch id (u.node x) = text u.front :: operand (f.wrapsAtom x) x := by
  cases u <;> rfl

theorem fragments_postfixOp (f : Forest) (branch : Branch) (id : NodeId) (p : PostfixOp)
    (x : Ref .expr) :
    f.fragments branch id (p.node x) = operand (f.wrapsAtom x) x ++ p.back := by
  cases p <;> rfl

theorem wrapsAtom_eq_false {node : Node} (h : f.node? r.node = some node)
    (hop : node.binaryOp? = none) (hchain : node.variant ≠ .eqExpr) : f.wrapsAtom r = false := by
  simp [wrapsAtom, operandOp?, operandIs, h, hop, hchain]

/-- An operator in front of its operand gets no parentheses as an operand. -/
theorem wrapsAtom_prefixOp (h : f.node? r.node = some (u.node x)) : f.wrapsAtom r = false := by
  apply wrapsAtom_eq_false h
  · cases u <;> rfl
  · cases u <;> simp [PrefixOp.node, Node.variant]

/-- An operator behind its operand gets no parentheses as an operand. -/
theorem wrapsAtom_postfixOp (h : f.node? r.node = some (p.node x)) : f.wrapsAtom r = false := by
  apply wrapsAtom_eq_false h
  · cases p <;> rfl
  · cases p <;> simp [PostfixOp.node, Node.variant]

/-- What stands behind an operand refers to children of the operator. -/
theorem back_local (p : PostfixOp) (x : Ref .expr) (id : NodeId) :
    ∀ fragment ∈ p.back, fragment.Local id (p.node x).children := by
  intro fragment hmem
  apply empty.fragments_local .opening id (p.node x)
  rw [fragments_postfixOp]
  exact List.mem_append_right _ hmem

/-! ## §3 Texts -/

variable {o : LayoutOptions} {n : Nat} {page : Page}

/-- A node is written by writing its fragments in turn. -/
theorem writeWithin_succ {node : Node} (h : f.node? id = some node) (branch : Branch) :
    f.writeWithin o (n + 1) branch id page =
      (f.fragments branch id node).foldlM (Fragment.write o f.span (f.writeWithin o n)) page := by
  rw [writeWithin, h]

/-- The outer operator stands behind: the inner one is written first, then the rest. -/
theorem writeWithin_postfixOp {inner outer : NodeId} (hinner : f.node? inner = some (u.node x))
    (houter : f.node? outer = some (p.node ⟨inner⟩)) :
    f.writeWithin o (n + 2) .opening outer page =
      (text u.front :: operand (f.wrapsAtom x) x).foldlM
          (Fragment.write o f.span (f.writeWithin o n)) page >>=
        p.back.foldlM (Fragment.write o f.span (f.writeWithin o (n + 1))) := by
  have hbare : f.wrapsAtom ⟨inner⟩ = false := wrapsAtom_prefixOp hinner
  rw [writeWithin_succ houter, fragments_postfixOp, hbare,
    ← fragments_prefixOp f .opening inner u x, ← writeWithin_succ hinner]
  rfl

/-- The outer operator stands in front: the inner one is written behind it. -/
theorem writeWithin_prefixOp {inner outer : NodeId} (hinner : f.node? inner = some (p.node x))
    (houter : f.node? outer = some (u.node ⟨inner⟩)) :
    f.writeWithin o (n + 2) .opening outer page =
      (text u.front :: (operand (f.wrapsAtom x) x ++ p.back)).foldlM
        (Fragment.write o f.span (f.writeWithin o n)) page := by
  have hbare : f.wrapsAtom ⟨inner⟩ = false := wrapsAtom_postfixOp hinner
  have hfront : f.writeWithin o (n + 2) .opening outer page =
      f.writeWithin o (n + 1) .opening inner (page.write o u.front) := by
    rw [writeWithin_succ houter, fragments_prefixOp, hbare]
    exact bind_pure (f.writeWithin o (n + 1) .opening inner (page.write o u.front))
  rw [hfront, writeWithin_succ hinner, fragments_postfixOp]
  rfl

/-- Below the uppermost two levels of a forest one level less makes no difference. -/
theorem WellFormed.foldlM_back (h : f.WellFormed) (hid : f.node? id = some (p.node x))
    (hn : id.index ≤ n) (hsize : n < f.size) :
    p.back.foldlM (Fragment.write o f.span (f.writeWithin o (n + 1))) page =
      p.back.foldlM (Fragment.write o f.span (f.writeWithin o n)) page := by
  apply foldlM_write_congr (back_local p x id) rfl
  intro child hchild branch page
  have hc : f.IsChild id child := ⟨_, hid, hchild⟩
  have hends : f.EndsWithin n child :=
    h.endsWithin (h.exists_child hc) (Nat.lt_of_lt_of_le (h.child_lt hc) hn)
  have hbound : n ≤ f.depthBound := Nat.le_succ_of_le (Nat.le_of_lt hsize)
  exact hends.writeWithin_eq (.refl f child) (Nat.le_succ n) (Nat.le_refl n) hbound hbound o
    branch page

/-- Both orders of an operator in front and one behind are printed with the same text. -/
theorem WellFormed.print_swapped (h : f.WellFormed) {ux pux px upx : NodeId}
    (hux : f.node? ux = some (u.node x)) (hpux : f.node? pux = some (p.node ⟨ux⟩))
    (hpx : f.node? px = some (p.node x)) (hupx : f.node? upx = some (u.node ⟨px⟩))
    (o : LayoutOptions) : f.print o pux = f.print o upx := by
  -- the outer operator has a number above that of the inner one, so there are two nodes at least
  have hlt : px.index < upx.index := by
    apply h.child_lt
    refine ⟨_, hupx, ?_⟩
    cases u <;> simp [PrefixOp.node, Node.children, Node.slots]
  have hupper : upx.index < f.size := lt_size_of_node? hupx
  obtain ⟨n, hn⟩ : ∃ n, f.depthBound = n + 2 := ⟨f.size - 1, by unfold depthBound; omega⟩
  have hsize : f.size = n + 1 := Nat.succ.inj hn
  have hback : ∀ page, p.back.foldlM (Fragment.write o f.span (f.writeWithin o (n + 1))) page =
      p.back.foldlM (Fragment.write o f.span (f.writeWithin o n)) page :=
    fun page => h.foldlM_back hpx (by omega) (by omega)
  unfold print
  rw [hn, writeWithin_postfixOp hux hpux, writeWithin_prefixOp hpx hupx,
    ← List.cons_append, List.foldlM_append]
  simp only [hback]

end Forest

/-! ## §4 Sessions -/

namespace Session

/-- After any attempts at changes: an operator behind its operand, applied to one in front of its
operand, is printed as the one in front applied to the one behind, whatever the operand and the
options are. -/
theorem print_affixes_swapped (cs : List Change) (u : PrefixOp) (p : PostfixOp) (x : Ref .expr)
    (ux pux px upx : NodeId) (hux : (start.run cs).forest.node? ux = some (u.node x))
    (hpux : (start.run cs).forest.node? pux = some (p.node ⟨ux⟩))
    (hpx : (start.run cs).forest.node? px = some (p.node x))
    (hupx : (start.run cs).forest.node? upx = some (u.node ⟨px⟩)) (o : LayoutOptions) :
    (start.run cs).forest.print o pux = (start.run cs).forest.print o upx :=
  (sound_run cs).admitted.wellFormed.print_swapped hux hpux hpx hupx o

/-- A variable that is negated and then transposed, and one that is transposed and then negated. -/
def negatedTransposed : List Change :=
  [.insert ⟨⟨1, 2⟩, ⟨1, 2⟩⟩ (.varExpr "x"),
    .insert ⟨⟨1, 1⟩, ⟨1, 2⟩⟩ (.negExpr ⟨⟨0⟩⟩ true),
    .insert ⟨⟨1, 1⟩, ⟨1, 3⟩⟩ (.transposeExpr ⟨⟨1⟩⟩),
    .insert ⟨⟨1, 2⟩, ⟨1, 3⟩⟩ (.transposeExpr ⟨⟨0⟩⟩),
    .insert ⟨⟨1, 1⟩, ⟨1, 3⟩⟩ (.negExpr ⟨⟨3⟩⟩ true)]

/-- The two orders of a minus and a transposition are printed alike. -/
theorem print_negatedTransposed :
    ((start.run negatedTransposed).forest.node? ⟨2⟩ = some (.transposeExpr ⟨⟨1⟩⟩) ∧
      (start.run negatedTransposed).forest.node? ⟨4⟩ = some (.negExpr ⟨⟨3⟩⟩ true)) ∧
      ∀ o, (start.run negatedTransposed).forest.print o ⟨2⟩ =
        (start.run negatedTransposed).forest.print o ⟨4⟩ :=
  ⟨⟨rfl, rfl⟩, print_affixes_swapped negatedTransposed (.sign true) .transpose ⟨⟨0⟩⟩
    ⟨1⟩ ⟨2⟩ ⟨3⟩ ⟨4⟩ rfl rfl rfl rfl⟩

/-- Different expressions that combine an operator in front with one behind need not have different
texts. -/
theorem not_forall_print_postfix_ne :
    ¬ ∀ (cs : List Change) (u : PrefixOp) (p : PostfixOp) (x : Ref .expr)
      (ux pux px upx : NodeId), (start.run cs).forest.node? ux = some (u.node x) →
      (start.run cs).forest.node? pux = some (p.node ⟨ux⟩) →
      (start.run cs).forest.node? px = some (p.node x) →
      (start.run cs).forest.node? upx = some (u.node ⟨px⟩) →
      ∀ o, (start.run cs).forest.print o pux ≠ (start.run cs).forest.print o upx := by
  intro h
  have hne := h negatedTransposed (.sign true) .transpose ⟨⟨0⟩⟩ ⟨1⟩ ⟨2⟩ ⟨3⟩ ⟨4⟩ rfl rfl rfl rfl {}
  have htext : (start.run negatedTransposed).forest.print {} ⟨2⟩ = .ok "-x'" := by decide +kernel
  have htext' : (start.run negatedTransposed).forest.print {} ⟨4⟩ = .ok "-x'" := by decide +kernel
  exact hne (htext.trans htext'.symm)

end Session

end TensorTree
