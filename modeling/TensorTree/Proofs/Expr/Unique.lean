import TensorTree.Proofs.Expr.Reading

/-!
# Printed expressions are unambiguous

What a plain expression is printed as determines its bare tree: the printer encloses an operand in
parentheses wherever the operand would be read differently without them
(`Session.bare_eq_of_print_eq`).
-/

namespace TensorTree

/-! ## §1 The same text, the same tree -/

/-- Plain trees with the same text differ only in parentheses. -/
theorem Expr.Plain.bare_eq_of_text_eq {s t : Expr} (hs : s.Plain) (ht : t.Plain)
    (h : Glyph.textOf s.script = Glyph.textOf t.script) : s.bare = t.bare := by
  -- the text has its lexemes in only one way, and they are read in only one way
  have hlexemes : Glyph.lexemesOf s.script = Glyph.lexemesOf t.script := by
    have hlexes := hs.lexes
    rw [h] at hlexes
    exact hlexes.unique ht.lexes
  have hread := hs.read_script
  rw [hlexemes, ht.read_script] at hread
  exact (Option.some.inj hread).symm

/-! ## §2 Trees of sessions -/

/-- A change that adds no node but a plain one. -/
def Change.IsPlain : Change → Prop
  | .insert _ node => node.IsPlain
  | .setSpan _ _ | .setRoot _ => True

namespace Session

/-- In a session that is built with its own handles, a plain expression that was handed out has a
plain tree. -/
theorem exists_expr_of_run {cs : List Change} (hcs : start.OwnHandles cs) {e : Ref .expr}
    (he : e.handle ∈ (start.run cs).handles) (hplain : (start.run cs).forest.PlainBelow e.node) :
    ∃ tree, (start.run cs).forest.expr? e = some tree ∧ tree.Plain := by
  have hsound := sound_run cs
  obtain ⟨node, hnode, hrole⟩ := (hsound.mem_handles_iff e.handle).1 he
  have htrees := (fitted_run hcs).exists_expr_and_name hsound.admitted.wellFormed hnode hplain
  exact htrees.1 hrole

theorem plainBelow_of_run {cs : List Change} (h : ∀ c ∈ cs, c.IsPlain) (id : NodeId) :
    (start.run cs).forest.PlainBelow id := by
  have hadds : ∀ c ∈ cs, c.AddsOnly Node.IsPlain := by
    intro c hc
    cases c with
    | insert => exact h _ hc
    | setSpan | setRoot => trivial
  exact fun below node _ hnode => forall_node_run hadds below node hnode

/-- If plain expressions of two sessions, each built with its own handles, are printed as the same
text, then they have trees that differ only in parentheses, whatever the layouts. -/
theorem bare_eq_of_print_eq {cs ds : List Change} (hcs : start.OwnHandles cs)
    (hds : start.OwnHandles ds) {a b : Ref .expr} (ha : a.handle ∈ (start.run cs).handles)
    (hb : b.handle ∈ (start.run ds).handles)
    (haplain : (start.run cs).forest.PlainBelow a.node)
    (hbplain : (start.run ds).forest.PlainBelow b.node) {o o' : LayoutOptions}
    (h : (start.run cs).forest.print o a.node = (start.run ds).forest.print o' b.node) :
    ∃ s t, (start.run cs).forest.expr? a = some s ∧ (start.run ds).forest.expr? b = some t ∧
      s.bare = t.bare := by
  obtain ⟨s, hs, hsplain⟩ := exists_expr_of_run hcs ha haplain
  obtain ⟨t, ht, htplain⟩ := exists_expr_of_run hds hb hbplain
  rw [Forest.print_eq_script hs hsplain, Forest.print_eq_script ht htplain] at h
  have htext := String.ofList_injective (Except.ok.inj h)
  exact ⟨s, t, hs, ht, hsplain.bare_eq_of_text_eq htplain htext⟩

/-- A product whose left operand is a sum. -/
def productOfSum : List Change :=
  [.insert ⟨⟨1, 1⟩, ⟨1, 1⟩⟩ (.varExpr "a"),
    .insert ⟨⟨1, 5⟩, ⟨1, 5⟩⟩ (.intLiteral 2),
    .insert ⟨⟨1, 1⟩, ⟨1, 5⟩⟩ (.binary .add ⟨⟨0⟩⟩ ⟨⟨1⟩⟩),
    .insert ⟨⟨1, 9⟩, ⟨1, 9⟩⟩ (.varExpr "c"),
    .insert ⟨⟨1, 1⟩, ⟨1, 9⟩⟩ (.binary .mul ⟨⟨2⟩⟩ ⟨⟨3⟩⟩)]

/-- The same product with parentheses around the sum. -/
def productOfParens : List Change :=
  [.insert ⟨⟨1, 11⟩, ⟨1, 11⟩⟩ (.varExpr "c"),
    .insert ⟨⟨1, 2⟩, ⟨1, 2⟩⟩ (.varExpr "a"),
    .insert ⟨⟨1, 6⟩, ⟨1, 6⟩⟩ (.intLiteral 2),
    .insert ⟨⟨1, 2⟩, ⟨1, 6⟩⟩ (.binary .add ⟨⟨1⟩⟩ ⟨⟨2⟩⟩),
    .insert ⟨⟨1, 1⟩, ⟨1, 7⟩⟩ (.parenExpr ⟨⟨3⟩⟩),
    .insert ⟨⟨1, 1⟩, ⟨1, 11⟩⟩ (.binary .mul ⟨⟨4⟩⟩ ⟨⟨0⟩⟩)]

/-- The parentheses that the printer puts around a sum look like those that stand in the tree. -/
theorem bare_eq_productOfSum :
    (start.OwnHandles productOfSum ∧ start.OwnHandles productOfParens) ∧
      ((⟨.expr, ⟨4⟩⟩ : Handle) ∈ (start.run productOfSum).handles ∧
        (⟨.expr, ⟨5⟩⟩ : Handle) ∈ (start.run productOfParens).handles) ∧
      ((start.run productOfSum).forest.PlainBelow ⟨4⟩ ∧
        (start.run productOfParens).forest.PlainBelow ⟨5⟩) ∧
      (start.run productOfSum).forest.print {} ⟨4⟩ =
        (start.run productOfParens).forest.print {} ⟨5⟩ ∧
      ∃ s t, (start.run productOfSum).forest.expr? ⟨⟨4⟩⟩ = some s ∧
        (start.run productOfParens).forest.expr? ⟨⟨5⟩⟩ = some t ∧ s.bare = t.bare := by
  have hown : start.OwnHandles productOfSum ∧ start.OwnHandles productOfParens := by decide
  have hmem : (⟨.expr, ⟨4⟩⟩ : Handle) ∈ (start.run productOfSum).handles ∧
      (⟨.expr, ⟨5⟩⟩ : Handle) ∈ (start.run productOfParens).handles := by decide
  have hname : IsName "a" ∧ IsName "c" := by decide
  have hplain : (start.run productOfSum).forest.PlainBelow ⟨4⟩ :=
    plainBelow_of_run (by simp [productOfSum, Change.IsPlain, Node.IsPlain, hname]) ⟨4⟩
  have hplain' : (start.run productOfParens).forest.PlainBelow ⟨5⟩ :=
    plainBelow_of_run (by simp [productOfParens, Change.IsPlain, Node.IsPlain, hname]) ⟨5⟩
  have hprint : (start.run productOfSum).forest.print {} ⟨4⟩ =
      (start.run productOfParens).forest.print {} ⟨5⟩ := by decide +kernel
  exact ⟨hown, hmem, ⟨hplain, hplain'⟩, hprint,
    bare_eq_of_print_eq hown.1 hown.2 hmem.1 hmem.2 hplain hplain' hprint⟩

end Session

end TensorTree
