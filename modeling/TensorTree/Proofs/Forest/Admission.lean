import TensorTree.Proofs.Forest.Reading

/-!
# Which nodes are accepted

A node is accepted exactly if its children exist, its form is right, and its block, if it is a
tensor type that has one, is a tensor type.  Otherwise the first of these that fails is the error,
and nothing is changed (`Forest.insert_outcome`).  The block is looked up like any other node, which
faults where there is no node; what was checked before excludes that (`Forest.attempt_eq`).
-/

namespace TensorTree

/-! ## §1 The form of a node -/

/-- The form of a node breaks a rule, whatever its children are. -/
inductive Node.Misformed (span : Span) : Node → BuildError → Prop where
  | targets (value : Ref .expr) : Misformed span (.assignStmt [] value) .emptyAssignTargets
  | operators {operands : List (Ref .expr)} {ops : List ComparisonOp}
      (hlength : ops.length + 1 ≠ operands.length) :
      Misformed span (.eqExpr operands ops) (.comparisonArity operands.length ops.length)
  | dimensions (block : Ref .type) (transposed : Bool) :
      Misformed span (.nonScalarTensorType [] block transposed) .zeroDimensionTensor
  | ending (cond : Ref .expr) (thenBody : Ref .stmt) (hlast : span.last.line = 0) :
      Misformed span (.ifStmt cond thenBody none) .missingIfEnd

theorem Node.formError?_eq_some_iff (span : Span) (node : Node) (e : BuildError) :
    node.formError? span = some e ↔ node.Misformed span e := by
  constructor
  · intro h
    unfold formError? at h
    split at h
    next value =>
      obtain rfl := Option.some.inj h
      exact .targets value
    next operands ops =>
      split at h
      next hbad =>
        obtain rfl := Option.some.inj h
        refine .operators fun hlength => ?_
        -- without operands no number of operators is right
        cases operands <;> simp_all
      next => cases h
    next block transposed =>
      obtain rfl := Option.some.inj h
      exact .dimensions block transposed
    next cond thenBody =>
      split at h
      next => cases h
      next hlast =>
        obtain rfl := Option.some.inj h
        exact .ending cond thenBody (by simpa [Span.hasLast, Location.isUnset] using hlast)
    next => cases h
  · rintro (_ | hlength | _ | ⟨_, _, hlast⟩)
    · rfl
    · simp [formError?, hlength]
    · rfl
    · simp [formError?, Span.hasLast, Location.isUnset, hlast]

theorem Node.formError?_eq_none_iff (span : Span) (node : Node) :
    node.formError? span = none ↔ ∀ e, ¬node.Misformed span e := by
  rw [Option.eq_none_iff_forall_ne_some]
  exact forall_congr' fun e => not_congr (node.formError?_eq_some_iff span e)

/-! ## §2 The children of a node -/

namespace Forest

/-- The block of a tensor type is no tensor type. -/
inductive Misblocked (f : Forest) : Node → BuildError → Prop where
  | block {block : Ref .type} {found : Node} (indexSets : List (Ref .indexSet))
      (transposed : Bool) (hfound : f.node? block.node = some found)
      (hscalar : found.variant ≠ .scalarTensorType)
      (hnonScalar : found.variant ≠ .nonScalarTensorType) :
      Misblocked f (.nonScalarTensorType indexSets block transposed)
        (.nonTensorBlockType found.variant)

theorem isTensorType_eq_false_iff (v : Variant) :
    v.isTensorType = false ↔ v ≠ .scalarTensorType ∧ v ≠ .nonScalarTensorType := by
  cases v <;> simp [Variant.isTensorType]

theorem blockError?_eq_some_iff (f : Forest) (node : Node) (e : BuildError) :
    f.blockError? node = some e ↔ f.Misblocked node e := by
  constructor
  · intro h
    unfold blockError? at h
    split at h
    next indexSets block transposed =>
      split at h
      next found hfound =>
        split at h
        next => cases h
        next hvariant =>
          obtain rfl := Option.some.inj h
          obtain ⟨hscalar, hnonScalar⟩ :=
            (isTensorType_eq_false_iff found.variant).1 (Bool.eq_false_iff.2 hvariant)
          exact .block indexSets transposed hfound hscalar hnonScalar
      next => cases h
    next => cases h
  · rintro ⟨indexSets, transposed, hfound, hscalar, hnonScalar⟩
    simp [blockError?, hfound, (isTensorType_eq_false_iff _).2 ⟨hscalar, hnonScalar⟩]

theorem blockError?_eq_none_iff (f : Forest) (node : Node) :
    f.blockError? node = none ↔ ∀ e, ¬f.Misblocked node e := by
  rw [Option.eq_none_iff_forall_ne_some]
  exact forall_congr' fun e => not_congr (f.blockError?_eq_some_iff node e)

theorem danglingChild?_eq_some_iff (f : Forest) (node : Node) (child : NodeId) :
    f.danglingChild? node = some child ↔
      ∃ before after, node.children = before ++ child :: after ∧
        (∀ other ∈ before, other.index < f.size) ∧ f.size ≤ child.index := by
  have hcontains (id : NodeId) : f.nodes.contains id = true ↔ id.index < f.size := by
    simp [NodeTable.contains, size]
  rw [danglingChild?, List.find?_eq_some_iff_append]
  simp only [Bool.not_eq_true', Bool.not_not, ← Bool.not_eq_true, hcontains, Nat.not_lt]
  constructor
  · rintro ⟨hchild, before, after, hchildren, hbefore⟩
    exact ⟨before, after, hchildren, hbefore, hchild⟩
  · rintro ⟨before, after, hchildren, hbefore, hchild⟩
    exact ⟨hchild, before, after, hchildren, hbefore⟩

/-! ## §3 Adding a node in place -/

/-- What is wrong with the block of a tensor type, where the block is looked up like any other
node. -/
def readBlockError? (f : Forest) : Node → Except ReadFault (Option BuildError)
  | .nonScalarTensorType _ block _ =>
    (f.variant block.node).map fun v =>
      if v.isTensorType then none else some (.nonTensorBlockType v)
  | _ => .ok none

/-- Add a node in place: the answer, and the forest behind it. -/
def attempt (f : Forest) (span : Span) (node : Node) :
    Except ReadFault (Except BuildError Handle × Forest) :=
  match f.danglingChild? node with
  | some child => .ok (.error (.danglingChild node.variant child), f)
  | none =>
    match node.formError? span with
    | some e => .ok (.error e, f)
    | none =>
      (f.readBlockError? node).map fun
        | some e => (.error e, f)
        | none =>
          (.ok ⟨node.variant.role, f.nodes.nextId⟩, { f with nodes := f.nodes.push ⟨span, node⟩ })

/-- What a node brings about, whether it is accepted or not. -/
inductive Outcome (f : Forest) (span : Span) (node : Node) :
    Except BuildError Handle → Forest → Prop where
  /-- A child does not exist; it is the first one in source order. -/
  | dangling {before after : List NodeId} {child : NodeId}
      (hchildren : node.children = before ++ child :: after)
      (hbefore : ∀ other ∈ before, other.index < f.size) (hchild : f.size ≤ child.index) :
      Outcome f span node (.error (.danglingChild node.variant child)) f
  /-- All children exist, but the form is wrong. -/
  | misformed {e : BuildError} (hchildren : ∀ child ∈ node.children, child.index < f.size)
      (hform : node.Misformed span e) : Outcome f span node (.error e) f
  /-- All children exist and the form is right, but the block is of a wrong variant. -/
  | misblocked {e : BuildError} (hchildren : ∀ child ∈ node.children, child.index < f.size)
      (hform : ∀ e, ¬node.Misformed span e) (hblock : f.Misblocked node e) :
      Outcome f span node (.error e) f
  /-- Nothing is wrong; the node stands behind all others. -/
  | accepted {g : Forest} (hchildren : ∀ child ∈ node.children, child.index < f.size)
      (hform : ∀ e, ¬node.Misformed span e) (hblock : ∀ e, ¬f.Misblocked node e)
      (hnodes : g.nodes.toList = f.nodes.toList ++ [⟨span, node⟩]) (hroot : g.root = f.root) :
      Outcome f span node (.ok ⟨node.variant.role, ⟨f.size⟩⟩) g

/-- Where all children exist, looking up the block does not fault. -/
theorem readBlockError?_eq {f : Forest} {node : Node}
    (hchildren : ∀ child ∈ node.children, child.index < f.size) :
    f.readBlockError? node = .ok (f.blockError? node) := by
  cases node with
  | nonScalarTensorType indexSets block transposed =>
    obtain ⟨found, hfound⟩ := exists_node?_block hchildren
    simp only [readBlockError?, blockError?, hfound, variant, node_eq_ok hfound, Except.map]
  | _ => rfl

/-- Adding a node in place never faults. -/
theorem attempt_eq (f : Forest) (span : Span) (node : Node) : f.attempt span node =
    .ok (match f.buildError? span node with
      | some e => (.error e, f)
      | none => (.ok ⟨node.variant.role, f.nodes.nextId⟩, f.snoc ⟨span, node⟩)) := by
  unfold attempt buildError?
  cases hdangling : f.danglingChild? node with
  | some child => rfl
  | none =>
    have hchildren := (f.danglingChild?_eq_none_iff node).1 hdangling
    cases hform : node.formError? span with
    | some e => rfl
    | none =>
      -- the block is only looked up behind the check that it exists
      simp only [readBlockError?_eq hchildren, Except.map]
      cases f.blockError? node <;> rfl

/-! ## §4 What adding a node brings about -/

theorem eq_snoc_iff (f g : Forest) (e : Entry) :
    g = f.snoc e ↔ g.nodes.toList = f.nodes.toList ++ [e] ∧ g.root = f.root := by
  obtain ⟨⟨entries⟩, root⟩ := f
  obtain ⟨⟨entries'⟩, root'⟩ := g
  simp [snoc, NodeTable.push, NodeTable.toList, ← Array.toList_inj]

variable {f : Forest} {span : Span} {node : Node}

theorem outcome_of_error {e : BuildError} (h : f.buildError? span node = some e) :
    f.Outcome span node (.error e) f := by
  unfold buildError? at h
  cases hdangling : f.danglingChild? node with
  | some child =>
    rw [hdangling] at h
    obtain rfl := Option.some.inj h
    obtain ⟨before, after, hsplit, hbefore, hchild⟩ :=
      (f.danglingChild?_eq_some_iff node child).1 hdangling
    exact .dangling hsplit hbefore hchild
  | none =>
    have hchildren := (f.danglingChild?_eq_none_iff node).1 hdangling
    rw [hdangling] at h
    cases hform : node.formError? span with
    | some e' =>
      rw [hform] at h
      obtain rfl := Option.some.inj h
      exact .misformed hchildren ((node.formError?_eq_some_iff span e').1 hform)
    | none =>
      rw [hform] at h
      exact .misblocked hchildren ((node.formError?_eq_none_iff span).1 hform)
        ((f.blockError?_eq_some_iff node e).1 h)

theorem outcome_of_accepted (h : f.buildError? span node = none) :
    f.Outcome span node (.ok ⟨node.variant.role, f.nodes.nextId⟩) (f.snoc ⟨span, node⟩) := by
  obtain ⟨hchildren, hform, hblock⟩ := (f.buildError?_eq_none_iff span node).1 h
  obtain ⟨hnodes, hroot⟩ := (f.eq_snoc_iff (f.snoc ⟨span, node⟩) _).1 rfl
  exact .accepted hchildren ((node.formError?_eq_none_iff span).1 hform)
    ((f.blockError?_eq_none_iff node).1 hblock) hnodes hroot

/-- The rules leave no choice. -/
theorem Outcome.attempt_eq {answer : Except BuildError Handle} {after : Forest}
    (h : f.Outcome span node answer after) : f.attempt span node = .ok (answer, after) := by
  rw [Forest.attempt_eq]
  cases h with
  | dangling hsplit hbefore hchild =>
    have hdangling := (f.danglingChild?_eq_some_iff node _).2 ⟨_, _, hsplit, hbefore, hchild⟩
    simp only [buildError?, hdangling]
  | misformed hchildren hform =>
    have hdangling := (f.danglingChild?_eq_none_iff node).2 hchildren
    have hform' := (node.formError?_eq_some_iff span _).2 hform
    simp [buildError?, hdangling, hform']
  | misblocked hchildren hform hblock =>
    have hdangling := (f.danglingChild?_eq_none_iff node).2 hchildren
    have hform' := (node.formError?_eq_none_iff span).2 hform
    have hblock' := (f.blockError?_eq_some_iff node _).2 hblock
    simp [buildError?, hdangling, hform', hblock']
  | accepted hchildren hform hblock hnodes hroot =>
    have haccepted := (f.buildError?_eq_none_iff span node).2
      ⟨hchildren, (node.formError?_eq_none_iff span).2 hform,
        (f.blockError?_eq_none_iff node).2 hblock⟩
    obtain rfl := (f.eq_snoc_iff _ _).2 ⟨hnodes, hroot⟩
    rw [haccepted]
    rfl

/-- Adding a node never faults, and it brings about what the rules say and nothing else. -/
theorem insert_outcome (f : Forest) (span : Span) (node : Node) :
    ∃ answer after, f.attempt span node = .ok (answer, after) ∧
      f.insert span node = answer.map (fun handle => (handle, after)) ∧
      ∀ answer' after',
        f.Outcome span node answer' after' ↔ answer' = answer ∧ after' = after := by
  have hunique {answer after} (h : f.Outcome span node answer after) (answer' after') :
      f.Outcome span node answer' after' ↔ answer' = answer ∧ after' = after := by
    constructor
    · intro h'
      exact Prod.mk.inj (Except.ok.inj (h'.attempt_eq.symm.trans h.attempt_eq))
    · rintro ⟨rfl, rfl⟩
      exact h
  cases hbuild : f.buildError? span node with
  | some e =>
    have h := outcome_of_error hbuild
    exact ⟨.error e, f, h.attempt_eq, by simp [insert, hbuild, Except.map], hunique h⟩
  | none =>
    have h := outcome_of_accepted hbuild
    exact ⟨_, _, h.attempt_eq, by simp [insert, hbuild, Except.map, snoc], hunique h⟩

/-- A child that does not exist counts before everything else. -/
example (span : Span) :
    empty.insert span (.nonScalarTensorType [] ⟨⟨3⟩⟩ false) =
      .error (.danglingChild .nonScalarTensorType ⟨3⟩) := rfl

end Forest

end TensorTree
