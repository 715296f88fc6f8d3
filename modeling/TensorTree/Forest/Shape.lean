import TensorTree.Forest.Basic

/-!
# The extents of tensors written out

The extent of a level is the number of its elements; deeper levels are measured along the first
element.
-/

namespace TensorTree

namespace Forest

/-- The extents of a tensor, outermost first, for at most the given number of levels. -/
def extentsWithin (f : Forest) : Nat → NodeId → Except ReadFault (List Nat)
  | 0, _ => .error .endless
  | n + 1, id =>
    match f.node id with
    | .error e => .error e
    | .ok (.denseIntVector values) => .ok [values.length]
    | .ok (.denseFloatVector values) => .ok [values.length]
    | .ok (.denseNdTensor []) => .ok [0]
    | .ok (.denseNdTensor (elem :: elems)) =>
      (extentsWithin f n elem.node).map ((elem :: elems).length :: ·)
    | .ok _ => .ok []

/-- The extents of a tensor, outermost first. -/
def extents (f : Forest) (tensor : Ref .dense) : Except ReadFault (List Nat) :=
  f.extentsWithin f.depthBound tensor.node

end Forest

end TensorTree
