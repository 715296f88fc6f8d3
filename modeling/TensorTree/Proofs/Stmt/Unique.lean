import TensorTree.Proofs.Stmt.Outline

/-!
# Printed statements are unambiguous

What a statement is printed as determines its outline: which statements it consists of, how they
are nested, and what stands in the places of names, types and expressions
(`Session.outline_eq_of_print_eq`).  Blocks leave no trace in the text, so this is all that the text
can tell.
-/

namespace TensorTree

/-- What fits a role fits wherever that role fits. -/
theorem Role.fits_trans {role middle place : Role} (hleft : role.fits middle = true)
    (hright : middle.fits place = true) : role.fits place = true := by
  simp only [fits, Bool.or_eq_true, beq_iff_eq] at hleft hright ⊢
  rcases hleft with rfl | hleft
  · exact hright
  · rcases hright with rfl | hright
    · exact .inr hleft
    · -- a role that is wider than another one has no wider one itself
      cases role <;> simp only [wider?, Option.some.injEq, reduceCtorEq] at hleft <;>
        subst hleft <;> cases hright

namespace Forest

open Fragment

/-! ## §1 All statements are written as lines -/

variable {f : Forest} {o : LayoutOptions} {n : Nat} {id : NodeId} {node : Node}

theorem writes_ofRef_of_found {role : Role} {r : Ref role} {cs : List Char}
    (hnode : f.node? r.node = some node)
    (h : f.Writes o n (f.fragments .opening r.node node) cs) : f.Writes o (n + 1) [ofRef r] cs := by
  apply writes_ofRef
  intro page
  simp only [writeWithin, hnode]
  exact h page

theorem printed?_eq {role : Role} {r : Ref role} {s : String} (h : f.print o r.node = .ok s) :
    f.printed? o r = some s := by
  simp [printed?, h, Except.toOption]

section

variable (h : f.WellFormed) (hf : f.Fitted) (hnames : f.Named)
include h hf hnames

theorem exists_printed (hnode : f.node? id = some node) (hn : id.index ≤ n) {role : Role}
    (r : Ref role) (hr : r.slot ∈ node.slots) (hrole : role ∈ Role.inline) :
    ∃ s : String, f.printed? o r = some s ∧ f.Writes o n [ofRef r] s.toList ∧
      role.Suits s.toList := by
  obtain ⟨s, hprint, hs⟩ := h.exists_text hf hnames hnode hn hr hrole
  exact ⟨s, printed?_eq hprint, hs⟩

theorem exists_declared (hnode : f.node? id = some node) (hn : id.index ≤ n)
    (r : Ref .identDecl) (hr : r.slot ∈ node.slots) :
    ∃ name type : String, f.declared? o r = some (name, type) ∧
      f.Writes o n [ofRef r] (name.toList ++ ' ' :: ':' :: ' ' :: type.toList) ∧
      Phrase false name.toList ∧ Phrase false type.toList := by
  have hmem : r.node ∈ node.children := List.mem_map.2 ⟨r.slot, hr, rfl⟩
  have hlt : r.node.index < n := Nat.lt_of_lt_of_le (h.child_lt ⟨node, hnode, hmem⟩) hn
  obtain ⟨m, rfl⟩ : ∃ m, n = m + 1 := ⟨n - 1, by omega⟩
  obtain ⟨filler, hfiller, hrole⟩ :=
    hf.exists_filler hnode hr fun other => by cases other <;> simp [Role.wider?]
  cases filler with
  | identDecl name type =>
    have hle : r.node.index ≤ m := Nat.le_of_lt_succ hlt
    obtain ⟨s, hs, hname, hsname⟩ :=
      exists_printed (o := o) h hf hnames hfiller hle name (by simp [Node.slots]) (by decide)
    obtain ⟨t, ht, htype, htphrase⟩ :=
      exists_printed (o := o) h hf hnames hfiller hle type (by simp [Node.slots]) (by decide)
    refine ⟨s, t, by simp [declared?, hfiller, hs, ht], ?_, hsname.1.phrase, htphrase⟩
    apply writes_ofRef_of_found hfiller
    show f.Writes o m [ofRef name, text " : ", ofRef type] _
    simpa using hname.cons ((writes_text " : ").cons htype)
  | callable kind => cases kind <;> cases hrole
  | _ => cases hrole

theorem exists_domain (hnode : f.node? id = some node) (hn : id.index ≤ n)
    (r : Ref .domain) (hr : r.slot ∈ node.slots) :
    ∃ d : Domain, f.domain? o r = some d ∧ f.Writes o n [ofRef r] d.text ∧ d.Fits := by
  have hmem : r.node ∈ node.children := List.mem_map.2 ⟨r.slot, hr, rfl⟩
  have hlt : r.node.index < n := Nat.lt_of_lt_of_le (h.child_lt ⟨node, hnode, hmem⟩) hn
  obtain ⟨m, rfl⟩ : ∃ m, n = m + 1 := ⟨n - 1, by omega⟩
  obtain ⟨filler, hfiller, hrole⟩ :=
    hf.exists_filler hnode hr fun other => by cases other <;> simp [Role.wider?]
  have hle : r.node.index ≤ m := Nat.le_of_lt_succ hlt
  cases filler with
  | indexSetDomain set =>
    obtain ⟨s, hs, hwrites, hsuits⟩ :=
      exists_printed (o := o) h hf hnames hfiller hle set (by simp [Node.slots]) (by decide)
    refine ⟨.set s, by simp [domain?, hfiller, hs], ?_, hsuits.1.phrase⟩
    exact writes_ofRef_of_found hfiller hwrites
  | rangeDomain lower upper =>
    obtain ⟨s, hs, hlower, hterm⟩ :=
      exists_printed (o := o) h hf hnames hfiller hle lower (by simp [Node.slots]) (by decide)
    obtain ⟨t, ht, hupper, hterm'⟩ :=
      exists_printed (o := o) h hf hnames hfiller hle upper (by simp [Node.slots]) (by decide)
    refine ⟨.range s t, by simp [domain?, hfiller, hs, ht], ?_, hterm.phrase, hterm'.phrase⟩
    apply writes_ofRef_of_found hfiller
    show f.Writes o m [ofRef lower, text ":", ofRef upper] _
    simpa [Domain.text] using hlower.cons ((writes_text ":").cons hupper)
  | callable kind => cases kind <;> cases hrole
  | _ => cases hrole

/-- Every statement is written as lines that are read as its outline, and so is every conditional
statement behind a branch. -/
theorem displays (ho : o.showSpans = false) (hnode : f.node? id = some node)
    (hrole : node.variant.role.fits .stmt = true) (hn : id.index < n) :
    f.Displays o n id ∧ ((f.nodeAs? id .ifStmt).isSome → f.DisplaysElse o n id) := by
  refine h.descend (P := fun n id => id.index < n → ∀ node, f.node? id = some node →
    node.variant.role.fits .stmt = true →
      f.Displays o n id ∧ ((f.nodeAs? id .ifStmt).isSome → f.DisplaysElse o n id))
    ?_ ⟨node, hnode⟩ hn hn node hnode hrole
  intro n id node hnode ih hn other hother hrole
  obtain rfl := Option.some.inj (hother.symm.trans hnode)
  have hle : id.index ≤ n := Nat.le_of_lt_succ hn
  -- what stands in the place of a statement is a statement or a block, and it has a lower number
  have hbody {role : Role} (r : Ref role) (hr : r.slot ∈ other.slots)
      (hfits : role.fits .stmt = true) :
      f.Displays o n r.node ∧ ((f.nodeAs? r.node .ifStmt).isSome → f.DisplaysElse o n r.node) := by
    have hmem : r.node ∈ other.children := List.mem_map.2 ⟨r.slot, hr, rfl⟩
    have hlt : r.node.index < n := Nat.lt_of_lt_of_le (h.child_lt ⟨other, hnode, hmem⟩) hle
    obtain ⟨filler, hfiller, hfiller'⟩ := hf id other hnode r.slot hr
    exact ih r.node hmem hlt filler hfiller (Role.fits_trans (hfiller' role rfl) hfits)
  have hsurveyed : f.Surveyed o n id other :=
    { hidden := ho
      found := hnode
      printed := exists_printed h hf hnames hnode hle
      declared := exists_declared h hf hnames hnode hle
      domain := exists_domain h hf hnames hnode hle
      body := fun r hr hfits => (hbody r hr hfits).1
      chained := fun r hr => (hbody r hr (by decide)).2 }
  have hplain : other.variant ≠ .ifStmt →
      f.Displays o (n + 1) id → f.Displays o (n + 1) id ∧
        ((f.nodeAs? id .ifStmt).isSome → f.DisplaysElse o (n + 1) id) := by
    intro hne hdisplays
    refine ⟨hdisplays, fun hif => ?_⟩
    simp [nodeAs?, hnode, hne] at hif
  cases other with
  | ifStmt => exact ⟨hsurveyed.choice.1, fun _ => hsurveyed.choice.2⟩
  | stmtBlock => exact hplain (by simp [Node.variant]) hsurveyed.stmtBlock
  | binding => exact hplain (by simp [Node.variant]) hsurveyed.binding
  | loop => exact hplain (by simp [Node.variant]) hsurveyed.loop
  | forStmt => exact hplain (by simp [Node.variant]) hsurveyed.iteration
  | printStmt => exact hplain (by simp [Node.variant]) hsurveyed.printStmt
  | exprStmt => exact hplain (by simp [Node.variant]) hsurveyed.exprStmt
  | assignStmt =>
    exact hplain (by simp [Node.variant]) (hsurveyed.assign (h.targets_ne_nil hnode))
  | callable kind => cases kind <;> cases hrole
  | _ => cases hrole

/-- A statement is printed as lines that are read as its outline. -/
theorem exists_print (ho : o.showSpans = false) {stmt : Ref .stmt}
    (hnode : f.node? stmt.node = some node) (hrole : node.variant.role.fits .stmt = true) :
    ∃ stmts lines cs, f.outline? o stmt = some stmts ∧
      f.print o stmt.node = .ok (String.ofList cs) ∧ Indented lines cs ∧
      (∀ l ∈ lines, l.Fits) ∧ Reads lines stmts := by
  have hn : stmt.node.index < f.depthBound :=
    Nat.lt_succ_of_lt ((f.node?_isSome_iff stmt.node).1 ⟨node, hnode⟩)
  obtain ⟨stmts, lines, houtline, hlines, hreads⟩ := (displays h hf hnames ho hnode hrole hn).1
  obtain ⟨cs, hcs, hwrite⟩ := hlines.write {} rfl
  have hpage : f.writeWithin o f.depthBound .opening stmt.node {} =
      .ok { ({} : Page) with text := "" ++ String.ofList cs } := by
    simpa [Fragment.write] using hwrite
  have hprint : f.print o stmt.node = .ok (String.ofList cs) := by
    rw [print, hpage]
    simp [Except.map]
  exact ⟨stmts, lines, cs, houtline, hprint, hcs, hlines.fits, hreads⟩

end

end Forest

/-! ## §2 The same text, the same outline -/

/-- Lines are read as only one list of statements. -/
theorem Reads.unique {lines : List Line} {stmts others : List Stmt} (h : Reads lines stmts)
    (h' : Reads lines others) : stmts = others := by
  have hread := (h {}).symm.trans (h' {})
  simpa using hread

namespace Session

/-- In a session that is built with its own handles, a statement that was handed out is printed as
lines that are read as its outline. -/
theorem exists_print_of_run {cs : List Change} (hcs : start.OwnHandles cs)
    (hnames : (start.run cs).forest.Named) {stmt : Ref .stmt}
    (hstmt : ∃ handle ∈ (start.run cs).handles, handle.ref? .stmt = some stmt)
    {o : LayoutOptions} (ho : o.showSpans = false) :
    ∃ stmts lines text, (start.run cs).forest.outline? o stmt = some stmts ∧
      (start.run cs).forest.print o stmt.node = .ok (String.ofList text) ∧
      Indented lines text ∧ (∀ l ∈ lines, l.Fits) ∧ Reads lines stmts := by
  have hsound := sound_run cs
  obtain ⟨handle, hhandle, href⟩ := hstmt
  obtain ⟨node, hnode, hrole⟩ := (hsound.mem_handles_iff handle).1 hhandle
  obtain ⟨hfits, hsome⟩ := Option.ite_some_none_eq_some.1 href
  subst hsome
  exact Forest.exists_print hsound.admitted.wellFormed (fitted_run hcs) hnames ho hnode
    (hrole ▸ hfits)

/-- If two statements of sessions, each built with its own handles and with names that are scanned
as identifiers, are printed as the same text, then they have the same outline. -/
theorem outline_eq_of_print_eq {cs ds : List Change} (hcs : start.OwnHandles cs)
    (hds : start.OwnHandles ds) (hnames : (start.run cs).forest.Named)
    (hnames' : (start.run ds).forest.Named) {a b : Ref .stmt}
    (ha : ∃ handle ∈ (start.run cs).handles, handle.ref? .stmt = some a)
    (hb : ∃ handle ∈ (start.run ds).handles, handle.ref? .stmt = some b)
    {o : LayoutOptions} (ho : o.showSpans = false)
    (h : (start.run cs).forest.print o a.node = (start.run ds).forest.print o b.node) :
    ∃ stmts, (start.run cs).forest.outline? o a = some stmts ∧
      (start.run ds).forest.outline? o b = some stmts := by
  obtain ⟨stmts, lines, text, hstmts, hprint, hlines, hfits, hreads⟩ :=
    exists_print_of_run hcs hnames ha ho
  obtain ⟨others, lines', text', hothers, hprint', hlines', hfits', hreads'⟩ :=
    exists_print_of_run hds hnames' hb ho
  -- the text is parted into lines in only one way, and these are read in only one way
  have htext : text = text' := by
    rw [hprint, hprint'] at h
    exact String.ofList_injective (Except.ok.inj h)
  subst htext
  obtain rfl := hlines.unique hlines' hfits hfits'
  obtain rfl := hreads.unique hreads'
  exact ⟨stmts, hstmts, hothers⟩

/-- Two branches, with a block inside of a block. -/
def branchesOfBlocks : List Change :=
  [.insert ⟨⟨1, 4⟩, ⟨1, 4⟩⟩ (.varExpr "c"),
    .insert ⟨⟨2, 5⟩, ⟨2, 5⟩⟩ (.varExpr "x"),
    .insert ⟨⟨2, 9⟩, ⟨2, 9⟩⟩ (.intLiteral 1),
    .insert ⟨⟨2, 5⟩, ⟨2, 10⟩⟩ (.assignStmt [⟨⟨1⟩⟩] ⟨⟨2⟩⟩),
    .insert ⟨⟨2, 5⟩, ⟨2, 10⟩⟩ (.stmtBlock [⟨⟨3⟩⟩]),
    .insert ⟨⟨3, 5⟩, ⟨3, 12⟩⟩ (.printStmt ⟨⟨1⟩⟩),
    .insert ⟨⟨2, 5⟩, ⟨3, 12⟩⟩ (.stmtBlock [⟨⟨4⟩⟩, ⟨⟨5⟩⟩]),
    .insert ⟨⟨4, 1⟩, ⟨6, 3⟩⟩ (.ifStmt ⟨⟨1⟩⟩ ⟨⟨5⟩⟩ none),
    .insert ⟨⟨1, 1⟩, ⟨6, 3⟩⟩ (.ifStmt ⟨⟨0⟩⟩ ⟨⟨6⟩⟩ (some ⟨⟨7⟩⟩))]

/-- The same branches in a block, with blocks elsewhere. -/
def blockOfBranches : List Change :=
  [.insert ⟨⟨2, 5⟩, ⟨2, 5⟩⟩ (.varExpr "x"),
    .insert ⟨⟨3, 5⟩, ⟨3, 12⟩⟩ (.printStmt ⟨⟨0⟩⟩),
    .insert ⟨⟨2, 9⟩, ⟨2, 9⟩⟩ (.intLiteral 1),
    .insert ⟨⟨2, 5⟩, ⟨2, 10⟩⟩ (.assignStmt [⟨⟨0⟩⟩] ⟨⟨2⟩⟩),
    .insert ⟨⟨2, 5⟩, ⟨3, 12⟩⟩ (.stmtBlock [⟨⟨3⟩⟩, ⟨⟨1⟩⟩]),
    .insert ⟨⟨5, 5⟩, ⟨5, 12⟩⟩ (.stmtBlock [⟨⟨1⟩⟩]),
    .insert ⟨⟨4, 1⟩, ⟨6, 3⟩⟩ (.ifStmt ⟨⟨0⟩⟩ ⟨⟨5⟩⟩ none),
    .insert ⟨⟨1, 4⟩, ⟨1, 4⟩⟩ (.varExpr "c"),
    .insert ⟨⟨1, 1⟩, ⟨6, 3⟩⟩ (.ifStmt ⟨⟨7⟩⟩ ⟨⟨4⟩⟩ (some ⟨⟨6⟩⟩)),
    .insert ⟨⟨1, 1⟩, ⟨6, 3⟩⟩ (.stmtBlock [⟨⟨8⟩⟩])]

/-- Without indentation both are printed as the same text, and they have the same outline. -/
theorem outline_eq_blockOfBranches :
    (start.OwnHandles branchesOfBlocks ∧ start.OwnHandles blockOfBranches) ∧
      ((start.run branchesOfBlocks).forest.Named ∧ (start.run blockOfBranches).forest.Named) ∧
      ((⟨.stmt, ⟨8⟩⟩ : Handle) ∈ (start.run branchesOfBlocks).handles ∧
        (⟨.block, ⟨9⟩⟩ : Handle) ∈ (start.run blockOfBranches).handles) ∧
      (start.run branchesOfBlocks).forest.print ⟨0, false, true⟩ ⟨8⟩ =
        (start.run blockOfBranches).forest.print ⟨0, false, true⟩ ⟨9⟩ ∧
      ∃ stmts, (start.run branchesOfBlocks).forest.outline? ⟨0, false, true⟩ ⟨⟨8⟩⟩ = some stmts ∧
        (start.run blockOfBranches).forest.outline? ⟨0, false, true⟩ ⟨⟨9⟩⟩ = some stmts := by
  have hown : start.OwnHandles branchesOfBlocks ∧ start.OwnHandles blockOfBranches := by decide
  have hname : IsName "c" ∧ IsName "x" := by decide
  have hnames : (start.run branchesOfBlocks).forest.Named :=
    forall_node_run (by simp [branchesOfBlocks, Change.AddsOnly, Node.names, hname])
  have hnames' : (start.run blockOfBranches).forest.Named :=
    forall_node_run (by simp [blockOfBranches, Change.AddsOnly, Node.names, hname])
  have hmem : (⟨.stmt, ⟨8⟩⟩ : Handle) ∈ (start.run branchesOfBlocks).handles := by decide
  have hmem' : (⟨.block, ⟨9⟩⟩ : Handle) ∈ (start.run blockOfBranches).handles := by decide
  have hprint : (start.run branchesOfBlocks).forest.print ⟨0, false, true⟩ ⟨8⟩ =
      (start.run blockOfBranches).forest.print ⟨0, false, true⟩ ⟨9⟩ := by decide +kernel
  exact ⟨hown, ⟨hnames, hnames'⟩, ⟨hmem, hmem'⟩, hprint,
    outline_eq_of_print_eq hown.1 hown.2 hnames hnames' ⟨_, hmem, rfl⟩ ⟨_, hmem', rfl⟩ rfl hprint⟩

/-- The outline of both. -/
example : (start.run blockOfBranches).forest.outline? ⟨0, false, true⟩ ⟨⟨9⟩⟩ =
    some [.choice "c" [.assign ["x"] "1", .print "x"] (some [.choice "x" [.print "x"] none])] := by
  rfl

/-- The text of both. -/
example : (start.run blockOfBranches).forest.print ⟨0, false, true⟩ ⟨9⟩ =
    .ok "if c\nx = 1;\nprint x;\nelif x\nprint x;\nend\n" := by
  decide +kernel

end Session

end TensorTree
