import TensorTree.Print.Node

/-!
# All pieces of a node

The expansion of a node is the list of all pieces that it and everything below it consist of.  It
is independent of how text is laid out, but in a forest that shares nodes it can be far longer
than the forest is large.  Printing therefore never builds it.  `print_eq_layout_expansion` says
that the text is the same as if it did.
-/

namespace TensorTree

/-! ## §1 Expansions -/

/-- The pieces of a fragment, given those of children. -/
def Fragment.expand (ofChild : Branch → NodeId → List Piece) : Fragment → List Piece
  | .own piece => [piece]
  | .child branch id => ofChild branch id

/-- Writing fragments is writing their pieces, if that holds for every child. -/
theorem foldlM_write_eq_foldlM_add {o : LayoutOptions} {spanOf : NodeId → Except ReadFault Span}
    {writeChild : Branch → NodeId → Page → Except ReadFault Page}
    {ofChild : Branch → NodeId → List Piece}
    (hChild : ∀ branch id page,
      writeChild branch id page = (ofChild branch id).foldlM (Page.add o spanOf) page)
    (fragments : List Fragment) (page : Page) :
    fragments.foldlM (Fragment.write o spanOf writeChild) page =
      (fragments.flatMap (Fragment.expand ofChild)).foldlM (Page.add o spanOf) page := by
  induction fragments generalizing page with
  | nil => rfl
  | cons fragment fragments ih =>
    have hHead : Fragment.write o spanOf writeChild page fragment =
        (fragment.expand ofChild).foldlM (Page.add o spanOf) page := by
      cases fragment with
      | own piece => simp [Fragment.write, Fragment.expand]
      | child branch id => exact hChild branch id page
    rw [List.foldlM_cons, List.flatMap_cons, List.foldlM_append, hHead]
    exact congrArg _ (funext ih)

/-! ## §2 Writing the expansion -/

namespace Forest

/-- The pieces of a node and of everything below it, for at most the given number of levels. -/
def expandWithin (f : Forest) : Nat → Branch → NodeId → List Piece
  | 0, _, _ => [.fault .endless]
  | n + 1, branch, id =>
    match f.node? id with
    | none => [.fault (.unknownNode id)]
    | some node => (f.fragments branch id node).flatMap (Fragment.expand (expandWithin f n))

/-- The pieces of a node and of everything below it. -/
def expansion (f : Forest) (id : NodeId) : List Piece := f.expandWithin f.depthBound .opening id

/-- Writing a node is writing the pieces of its expansion, one after the other. -/
theorem writeWithin_eq_foldlM (f : Forest) (o : LayoutOptions) (n : Nat) (branch : Branch)
    (id : NodeId) (page : Page) :
    f.writeWithin o n branch id page =
      (f.expandWithin n branch id).foldlM (Page.add o f.span) page := by
  induction n generalizing branch id page with
  | zero => rfl
  | succ n ih =>
    rw [writeWithin, expandWithin]
    cases f.node? id with
    | none => rfl
    | some node => exact foldlM_write_eq_foldlM_add ih (f.fragments branch id node) page

/-- The text of a node is its expansion laid out. -/
theorem print_eq_layout_expansion (f : Forest) (o : LayoutOptions) (id : NodeId) :
    f.print o id = o.layout f.span (f.expansion id) := by
  rw [print, writeWithin_eq_foldlM, LayoutOptions.layout, expansion]

end Forest

end TensorTree
