import TensorTree.Forest.Basic

/-!
# Nodes below the root

The nodes that the root leads to through children, each listed once, at its first place in a walk
that takes a node before its children and its children from left to right.
-/

namespace TensorTree

namespace Forest

/-- The number of references to children in the whole forest. -/
def childCount (f : Forest) : Nat := (f.nodes.toList.flatMap fun e => e.node.children).length

/-- Go on with the nodes that are waiting.  A node that was met before is passed over; any other
is listed, and its children wait in front of the rest.  The nodes met so far are listed in
reverse. -/
def meet (f : Forest) : Nat → List NodeId → List NodeId → Except ReadFault (List NodeId)
  | _, [], met => .ok met.reverse
  | 0, _ :: _, _ => .error .endless
  | n + 1, id :: waiting, met =>
    match f.node? id with
    | none => .error .outOfRange
    | some node =>
      if met.contains id then meet f n waiting met
      else meet f n (node.children ++ waiting) (id :: met)

/-- The nodes below the root and the root itself; without a root there are none.  Each reference
to a child makes a node wait at most once, which bounds the number of steps. -/
def reachable (f : Forest) : Except ReadFault (List NodeId) :=
  match f.root with
  | none => .ok []
  | some root => f.meet (f.childCount + 1) [root.node] []

end Forest

end TensorTree
