import TensorTree.Proofs.Stmt.Inline
import TensorTree.Proofs.Stmt.Reader

/-!
# Outlines of statements

The outline of a statement is what one sees of it when blocks are replaced by the statements in them
(`Forest.outline?`).  A statement is displayed if it is written as lines that are read as its
outline (`Forest.Displays`).  This holds of statements of each kind as soon as all is known that
they refer to (`Forest.Surveyed`).
-/

namespace TensorTree

namespace Forest

open Fragment

/-! ## §1 Outlines -/

/-- What a node is printed as. -/
def printed? (f : Forest) (o : LayoutOptions) {role : Role} (r : Ref role) : Option String :=
  (f.print o r.node).toOption

/-- The name and the type of a declaration. -/
def declared? (f : Forest) (o : LayoutOptions) (var : Ref .identDecl) : Option (String × String) :=
  match f.node? var.node with
  | some (.identDecl name type) => do some (← f.printed? o name, ← f.printed? o type)
  | _ => none

/-- What a loop runs over. -/
def domain? (f : Forest) (o : LayoutOptions) (domain : Ref .domain) : Option Domain :=
  match f.node? domain.node with
  | some (.indexSetDomain set) => (f.printed? o set).map .set
  | some (.rangeDomain lower upper) => do
    some (.range (← f.printed? o lower) (← f.printed? o upper))
  | _ => none

/-- What one sees when going down from a node at most the given number of levels, if it is a
statement: one statement, or all that stand in a block. -/
def outlineWithin (f : Forest) (o : LayoutOptions) : Nat → NodeId → Option (List Stmt)
  | 0, _ => none
  | n + 1, id =>
    match f.node? id with
    | some (.stmtBlock stmts) =>
      (stmts.mapM fun r => outlineWithin f o n r.node).map List.flatten
    | some (.binding kind var none) => do
      let (name, type) ← f.declared? o var
      some [.binding kind name type none]
    | some (.binding kind var (some value)) => do
      let (name, type) ← f.declared? o var
      some [.binding kind name type (some (← f.printed? o value))]
    | some (.loop test cond body) => do
      some [.loop test (← f.printed? o cond) (← outlineWithin f o n body.node)]
    | some (.ifStmt cond body none) => do
      some [.choice (← f.printed? o cond) (← outlineWithin f o n body.node) none]
    | some (.ifStmt cond body (some other)) => do
      some [.choice (← f.printed? o cond) (← outlineWithin f o n body.node)
        (some (← outlineWithin f o n other.node))]
    | some (.forStmt var domain body) => do
      some [.iteration (← f.printed? o var) (← f.domain? o domain)
        (← outlineWithin f o n body.node)]
    | some (.printStmt value) => do some [.print (← f.printed? o value)]
    | some (.exprStmt value) => do some [.expr (← f.printed? o value)]
    | some (.assignStmt targets value) => do
      some [.assign (← targets.mapM fun r => f.printed? o r) (← f.printed? o value)]
    | _ => none

def outline? (f : Forest) (o : LayoutOptions) (stmt : Ref .stmt) : Option (List Stmt) :=
  f.outlineWithin o f.depthBound stmt.node

/-! ## §2 Fragments that are written as lines -/

/-- The fragments are written as lines whose texts fit, on any page on which a line begins. -/
structure WritesLines (f : Forest) (o : LayoutOptions) (n : Nat) (fragments : List Fragment)
    (lines : List Line) : Prop where
  fits : ∀ l ∈ lines, l.Fits
  write : ∀ page : Page, page.opensLine = true → ∃ cs, Indented lines cs ∧
    fragments.foldlM (Fragment.write o f.span (f.writeWithin o n)) page =
      .ok { page with text := page.text ++ String.ofList cs }

variable {f : Forest} {o : LayoutOptions} {n : Nat}

namespace WritesLines

variable {left right fragments : List Fragment} {lines others : List Line}

theorem nil : f.WritesLines o n [] [] where
  fits := by simp
  write page _ := ⟨[], .nil, by simp [pure, Except.pure]⟩

theorem append (hleft : f.WritesLines o n left lines) (hright : f.WritesLines o n right others) :
    f.WritesLines o n (left ++ right) (lines ++ others) where
  fits := List.forall_mem_append.2 ⟨hleft.fits, hright.fits⟩
  write page hpage := by
    obtain ⟨cs, hcs, hwrite⟩ := hleft.write page hpage
    obtain ⟨ds, hds, hwrite'⟩ :=
      hright.write { page with text := page.text ++ String.ofList cs } hpage
    refine ⟨cs ++ ds, hcs.append hds, ?_⟩
    rw [List.foldlM_append, hwrite]
    simpa [String.append_assoc, bind, Except.bind] using hwrite'

/-- Without spans a line ends behind its text. -/
theorem single (ho : o.showSpans = false) {l : Line} (hfits : l.Fits)
    (h : f.Writes o n fragments l.text) (subject : Option NodeId) :
    f.WritesLines o n (fragments ++ [lineEnd subject]) [l] where
  fits := by simpa using hfits
  write page hpage := by
    refine ⟨_, .cons (page.depth * o.indentWidth) .nil, ?_⟩
    have hne : (String.ofList l.text).isEmpty = false := by
      obtain ⟨c, rest, htext, -⟩ := Line.visible_text hfits
      simp [htext]
    have hend (page : Page) :
        [lineEnd subject].foldlM (Fragment.write o f.span (f.writeWithin o n)) page =
          .ok page.breakLine := by
      cases subject <;> simp [lineEnd, Fragment.write, Page.add, ho]
    -- the page opens a line, so the indentation is written in front of the text
    have hline : (page.write o (String.ofList l.text)).breakLine =
        { page with
          text := page.text ++ String.ofList
            (List.replicate (page.depth * o.indentWidth) ' ' ++ (l.text ++ ['\n'])) } := by
      simp only [Page.write, hne, hpage, Page.breakLine, LayoutOptions.indentation,
        String.ofList_append]
      simp [String.append_assoc]
    rw [List.foldlM_append, h page]
    exact (hend _).trans (congrArg Except.ok hline)

/-- Lines that stand deeper are the same lines. -/
theorem deeper (h : f.WritesLines o n fragments lines) :
    f.WritesLines o n (Fragment.deeper fragments) lines where
  fits := h.fits
  write page hpage := by
    obtain ⟨cs, hcs, hwrite⟩ := h.write { page with depth := page.depth + 1 } hpage
    refine ⟨cs, hcs, ?_⟩
    rw [Fragment.deeper, List.foldlM_append, List.foldlM_cons]
    show (fragments.foldlM (Fragment.write o f.span (f.writeWithin o n))
      { page with depth := page.depth + 1 } >>= fun next => _) = _
    rw [hwrite]
    rfl

/-- A line of a statement that ends with a semicolon. -/
theorem statement (ho : o.showSpans = false) {l : Line} {cs : List Char} (hfits : l.Fits)
    (h : f.Writes o n fragments cs) (htext : l.text = cs ++ [';']) (id : NodeId) :
    f.WritesLines o n (fragments ++ statementEnd id) [l] := by
  have htexts : f.Writes o n (fragments ++ [text ";"]) l.text := by
    rw [htext]
    exact h.append (writes_text ";")
  have hline := single ho hfits htexts (some id)
  rwa [List.append_assoc] at hline

/-- A body between the first and the last line of a statement. -/
theorem block {first last : Line} {body : List Fragment} (hfirst : f.WritesLines o n left [first])
    (hbody : f.WritesLines o n body lines) (hlast : f.WritesLines o n right [last]) :
    f.WritesLines o n (left ++ Fragment.deeper body ++ right) (first :: (lines ++ [last])) := by
  simpa using (hfirst.append hbody.deeper).append hlast

theorem endLine (ho : o.showSpans = false) : f.WritesLines o n (line "end") [.blockEnd] :=
  single ho (l := .blockEnd) trivial (writes_text "end") none

/-- A node is written as the lines of its fragments. -/
theorem child {branch : Branch} {id : NodeId} {node : Node} (hnode : f.node? id = some node)
    (h : f.WritesLines o n (f.fragments branch id node) lines) :
    f.WritesLines o (n + 1) [.child branch id] lines where
  fits := h.fits
  write page hpage := by
    obtain ⟨cs, hcs, hwrite⟩ := h.write page hpage
    refine ⟨cs, hcs, ?_⟩
    simp only [List.foldlM_cons, List.foldlM_nil, Fragment.write, writeWithin, hnode, hwrite]
    rfl

end WritesLines

/-! ## §3 Statements whose children were seen -/

/-- A node is written as lines that are read as its outline. -/
def Displays (f : Forest) (o : LayoutOptions) (n : Nat) (id : NodeId) : Prop :=
  ∃ stmts lines, f.outlineWithin o n id = some stmts ∧
    f.WritesLines o n [.child .opening id] lines ∧ Reads lines stmts

/-- Behind a branch a node is written as lines that are read as its outline. -/
def DisplaysElse (f : Forest) (o : LayoutOptions) (n : Nat) (id : NodeId) : Prop :=
  ∃ stmts lines, f.outlineWithin o n id = some stmts ∧
    f.WritesLines o n [.child .continuing id] lines ∧ ReadsElse lines (some stmts)

/-- A statement of which all is known that its fragments refer to. -/
structure Surveyed (f : Forest) (o : LayoutOptions) (n : Nat) (id : NodeId) (node : Node) :
    Prop where
  hidden : o.showSpans = false
  found : f.node? id = some node
  printed {role : Role} (r : Ref role) : r.slot ∈ node.slots → role ∈ Role.inline →
    ∃ s : String, f.printed? o r = some s ∧ f.Writes o n [ofRef r] s.toList ∧ role.Suits s.toList
  declared (r : Ref .identDecl) : r.slot ∈ node.slots →
    ∃ name type : String, f.declared? o r = some (name, type) ∧
      f.Writes o n [ofRef r] (name.toList ++ ' ' :: ':' :: ' ' :: type.toList) ∧
      Phrase false name.toList ∧ Phrase false type.toList
  domain (r : Ref .domain) : r.slot ∈ node.slots →
    ∃ d : Domain, f.domain? o r = some d ∧ f.Writes o n [ofRef r] d.text ∧ d.Fits
  body {role : Role} (r : Ref role) : r.slot ∈ node.slots → role.fits .stmt = true →
    f.Displays o n r.node
  chained (r : Ref .stmt) : r.slot ∈ node.slots → (f.nodeAs? r.node .ifStmt).isSome →
    f.DisplaysElse o n r.node

/-- What a conditional statement writes behind its first body, without the end of all branches. -/
def elseFragments (f : Forest) : Option (Ref .stmt) → List Fragment
  | none => []
  | some stmt =>
    if (f.nodeAs? stmt.node .ifStmt).isSome then [.child .continuing stmt.node]
    else line "else" ++ Fragment.deeper [ofRef stmt]

theorem fragments_ifStmt (f : Forest) (branch : Branch) (id : NodeId) (cond : Ref .expr)
    (thenBody : Ref .stmt) (elseBody : Option (Ref .stmt)) :
    f.fragments branch id (.ifStmt cond thenBody elseBody) =
      [text branch.word, text " ", ofRef cond] ++ [lineEnd (some id)] ++
        Fragment.deeper [ofRef thenBody] ++ f.elseFragments elseBody ++
        if branch = .opening then line "end" else [] := by
  cases elseBody <;> rfl

namespace Surveyed

variable {id : NodeId}

theorem expr {node : Node} (h : f.Surveyed o n id node) (r : Ref .expr)
    (hr : r.slot ∈ node.slots) :
    ∃ s : String, f.printed? o r = some s ∧ f.Writes o n [ofRef r] s.toList ∧ Term s.toList :=
  h.printed r hr (by decide)

/-! ### Statements on one line -/

theorem printStmt {value : Ref .expr} (h : f.Surveyed o n id (.printStmt value)) :
    f.Displays o (n + 1) id := by
  obtain ⟨s, hs, hwrites, hterm⟩ := h.expr value (by simp [Node.slots])
  refine ⟨[.print s], [.print s], by simp [outlineWithin, h.found, hs], ?_, .single fun _ => rfl⟩
  apply WritesLines.child h.found
  exact .statement h.hidden (l := .print s) hterm.phrase ((writes_text "print ").cons hwrites)
    (by simp [Line.text, Line.ahead]) id

theorem exprStmt {value : Ref .expr} (h : f.Surveyed o n id (.exprStmt value)) :
    f.Displays o (n + 1) id := by
  obtain ⟨s, hs, hwrites, hterm⟩ := h.expr value (by simp [Node.slots])
  refine ⟨[.expr s], [.expr s], by simp [outlineWithin, h.found, hs], ?_, .single fun _ => rfl⟩
  apply WritesLines.child h.found
  exact .statement h.hidden (l := .expr s) ⟨hterm.phrase, hterm.leads⟩ hwrites rfl id

theorem binding {kind : BindingKind} {var : Ref .identDecl} {value : Option (Ref .expr)}
    (h : f.Surveyed o n id (.binding kind var value)) : f.Displays o (n + 1) id := by
  obtain ⟨name, type, hvar, hwrites, hname, htype⟩ := h.declared var (by simp [Node.slots])
  have hfront : f.Writes o n [text kind.word, text " ", ofRef var]
      (kind.word.toList ++ ' ' :: (name.toList ++ ' ' :: ':' :: ' ' :: type.toList)) := by
    simpa using (writes_text kind.word).cons ((writes_text " ").cons hwrites)
  cases value with
  | none =>
    refine ⟨[.binding kind name type none], [.binding kind name type none],
      by simp [outlineWithin, h.found, hvar], ?_, .single fun _ => rfl⟩
    apply WritesLines.child h.found
    have hline : f.WritesLines o n
        ([text kind.word, text " ", ofRef var] ++ [] ++ statementEnd id) _ :=
      .statement h.hidden (l := .binding kind name type none) ⟨hname, htype, by simp⟩
        (hfront.append writes_nil) (by simp [Line.text, Line.ahead, Line.valueText]) id
    exact hline
  | some expr =>
    obtain ⟨s, hs, hexpr, hterm⟩ := h.expr expr (by simp [Node.slots])
    refine ⟨[.binding kind name type (some s)], [.binding kind name type (some s)],
      by simp [outlineWithin, h.found, hvar, hs], ?_, .single fun _ => rfl⟩
    apply WritesLines.child h.found
    have hline : f.WritesLines o n
        ([text kind.word, text " ", ofRef var] ++ [text " = ", ofRef expr] ++ statementEnd id) _ :=
      .statement h.hidden (l := .binding kind name type (some s))
        ⟨hname, htype, by simpa using hterm.phrase⟩
        (hfront.append ((writes_text " = ").cons hexpr))
        (by simp [Line.text, Line.ahead, Line.valueText]) id
    exact hline

/-- The targets of an assignment are written with commas between them. -/
theorem exists_targets {targets : List (Ref .expr)} (hne : targets ≠ [])
    (h : ∀ r ∈ targets, ∃ s : String, f.printed? o r = some s ∧
      f.Writes o n [ofRef r] s.toList ∧ Term s.toList) :
    ∃ (first : String) (others : List String),
      targets.mapM (fun r => f.printed? o r) = some (first :: others) ∧
      f.Writes o n (commas targets) (first.toList ++ Line.targetsText others) ∧
      Term first.toList ∧ ∀ other ∈ others, Phrase false other.toList := by
  induction targets with
  | nil => exact absurd rfl hne
  | cons target targets ih =>
    rw [List.forall_mem_cons] at h
    obtain ⟨⟨s, hs, hwrites, hterm⟩, hrest⟩ := h
    cases targets with
    | nil =>
      refine ⟨s, [], by simp [hs], ?_, hterm, by simp⟩
      simpa [commas, Line.targetsText] using hwrites
    | cons next targets =>
      obtain ⟨first, others, hothers, hcommas, hfirst, hphrases⟩ := ih (by simp) hrest
      refine ⟨s, first :: others, ?_, ?_, hterm, ?_⟩
      · rw [List.mapM_cons, hs, hothers]
        rfl
      · have hall := hwrites.append ((writes_text ", ").cons hcommas)
        simpa [commas, List.intersperse_cons_cons, Line.targetsText] using hall
      · exact List.forall_mem_cons.2 ⟨hfirst.phrase, hphrases⟩

theorem assign {targets : List (Ref .expr)} {value : Ref .expr} (hne : targets ≠ [])
    (h : f.Surveyed o n id (.assignStmt targets value)) : f.Displays o (n + 1) id := by
  obtain ⟨first, others, htargets, hcommas, hfirst, hothers⟩ :=
    exists_targets hne fun r hr => h.expr r (by simp [Node.slots]; grind)
  obtain ⟨s, hs, hwrites, hterm⟩ := h.expr value (by simp [Node.slots])
  refine ⟨[.assign (first :: others) s], [.assign first others s],
    by simp [outlineWithin, h.found, htargets, hs], ?_, .single fun _ => rfl⟩
  apply WritesLines.child h.found
  exact .statement h.hidden (l := .assign first others s)
    ⟨⟨hfirst.phrase, hfirst.leads⟩, hothers, hterm.phrase⟩
    (hcommas.append ((writes_text " = ").cons hwrites)) (by simp [Line.text, Line.valueText]) id

/-! ### Loops -/

theorem loop {test : LoopTest} {cond : Ref .expr} {body : Ref .block}
    (h : f.Surveyed o n id (.loop test cond body)) : f.Displays o (n + 1) id := by
  have hslots : cond.slot ∈ Node.slots (.loop test cond body) ∧
      body.slot ∈ Node.slots (.loop test cond body) := by cases test <;> simp [Node.slots]
  obtain ⟨s, hs, hwrites, hterm⟩ := h.expr cond hslots.1
  obtain ⟨stmts, lines, hbody, hlines, hreads⟩ := h.body body hslots.2 (by decide)
  refine ⟨[.loop test s stmts], ?_⟩
  -- the condition is written on the first or on the last line
  cases test with
  | before =>
    refine ⟨.whileHead s :: (lines ++ [.blockEnd]),
      by simp [outlineWithin, h.found, hs, hbody], ?_, ?_⟩
    · apply WritesLines.child h.found
      have hhead : f.WritesLines o n ([text "while ", ofRef cond] ++ [lineEnd (some id)])
          [.whileHead s] :=
        .single h.hidden (l := .whileHead s) hterm.phrase ((writes_text "while ").cons hwrites) _
      exact hhead.block hlines (.endLine h.hidden)
    · exact hreads.enclose (fun _ => rfl) fun _ _ => rfl
  | after =>
    refine ⟨.doHead :: (lines ++ [.doEnd s]),
      by simp [outlineWithin, h.found, hs, hbody], ?_, ?_⟩
    · apply WritesLines.child h.found
      have hhead : f.WritesLines o n ([text "do"] ++ [lineEnd (some id)]) [.doHead] :=
        .single h.hidden (l := .doHead) trivial (writes_text "do") _
      have hend : f.WritesLines o n ([text "end while ", ofRef cond] ++ [lineEnd none])
          [.doEnd s] :=
        .single h.hidden (l := .doEnd s) hterm.phrase ((writes_text "end while ").cons hwrites) _
      exact hhead.block hlines hend
    · exact hreads.enclose (fun _ => rfl) fun _ _ => rfl

theorem iteration {var : Ref .ident} {domain : Ref .domain} {body : Ref .block}
    (h : f.Surveyed o n id (.forStmt var domain body)) : f.Displays o (n + 1) id := by
  obtain ⟨s, hs, hwrites, hname⟩ := h.printed var (by simp [Node.slots]) (by decide)
  obtain ⟨d, hd, hdomain, hfits⟩ := h.domain domain (by simp [Node.slots])
  obtain ⟨stmts, lines, hbody, hlines, hreads⟩ :=
    h.body body (by simp [Node.slots]) (by decide)
  refine ⟨[.iteration s d stmts], .forHead s d :: (lines ++ [.blockEnd]),
    by simp [outlineWithin, h.found, hs, hd, hbody], ?_, ?_⟩
  · apply WritesLines.child h.found
    have htext : f.Writes o n [text "for ", ofRef var, text " in ", ofRef domain]
        (Line.forHead s d).text := by
      have hall := (writes_text "for ").cons
        (hwrites.cons ((writes_text " in ").cons hdomain))
      simpa [Line.text, Line.ahead] using hall
    have hhead : f.WritesLines o n
        ([text "for ", ofRef var, text " in ", ofRef domain] ++ [lineEnd (some id)])
        [.forHead s d] :=
      .single h.hidden (l := .forHead s d) ⟨hname.2, hfits⟩ htext _
    exact hhead.block hlines (.endLine h.hidden)
  · exact hreads.enclose (fun _ => rfl) fun _ _ => rfl

/-! ### Blocks and conditional statements -/

/-- Statements one behind the other are written as their lines. -/
theorem exists_stmts (refs : List (Ref .stmt)) (h : ∀ r ∈ refs, f.Displays o n r.node) :
    ∃ outlines lines, refs.mapM (fun r => f.outlineWithin o n r.node) = some outlines ∧
      f.WritesLines o n (refs.map ofRef) lines ∧ Reads lines outlines.flatten := by
  induction refs with
  | nil => exact ⟨[], [], by simp, .nil, .nil⟩
  | cons r refs ih =>
    rw [List.forall_mem_cons] at h
    obtain ⟨stmts, lines, hstmts, hlines, hreads⟩ := h.1
    obtain ⟨outlines, others, houtlines, hothers, hreads'⟩ := ih h.2
    refine ⟨stmts :: outlines, lines ++ others, ?_, hlines.append hothers, hreads.append hreads'⟩
    rw [List.mapM_cons, hstmts, houtlines]
    rfl

theorem stmtBlock {stmts : List (Ref .stmt)} (h : f.Surveyed o n id (.stmtBlock stmts)) :
    f.Displays o (n + 1) id := by
  obtain ⟨outlines, lines, houtlines, hlines, hreads⟩ :=
    exists_stmts stmts fun r hr => h.body r (List.mem_map_of_mem hr) (by decide)
  exact ⟨outlines.flatten, lines, by simp [outlineWithin, h.found, houtlines],
    .child h.found hlines, hreads⟩

/-- What is written behind the first body is read as the alternative. -/
theorem exists_else {cond : Ref .expr} {thenBody : Ref .stmt} {elseBody : Option (Ref .stmt)}
    (h : f.Surveyed o n id (.ifStmt cond thenBody elseBody)) :
    ∃ other lines, elseBody.map (fun r => f.outlineWithin o n r.node) = other.map some ∧
      f.WritesLines o n (f.elseFragments elseBody) lines ∧ ReadsElse lines other := by
  cases elseBody with
  | none => exact ⟨none, [], rfl, .nil, .nil⟩
  | some stmt =>
    rw [elseFragments]
    split
    next hchain =>
      obtain ⟨stmts, lines, hstmts, hlines, hreads⟩ :=
        h.chained stmt (by simp [Node.slots]) hchain
      exact ⟨some stmts, lines, by simp [hstmts], hlines, hreads⟩
    next =>
      obtain ⟨stmts, lines, hstmts, hlines, hreads⟩ :=
        h.body stmt (by simp [Node.slots]) (by decide)
      have helse : f.WritesLines o n (line "else") [.otherwise] :=
        .single h.hidden (l := .otherwise) trivial (writes_text "else") none
      exact ⟨some stmts, .otherwise :: lines, by simp [hstmts], helse.append hlines.deeper,
        .otherwise hreads⟩

/-- A conditional statement opens a chain of branches or goes on with one. -/
theorem choice {cond : Ref .expr} {thenBody : Ref .stmt} {elseBody : Option (Ref .stmt)}
    (h : f.Surveyed o n id (.ifStmt cond thenBody elseBody)) :
    f.Displays o (n + 1) id ∧ f.DisplaysElse o (n + 1) id := by
  obtain ⟨s, hs, hwrites, hterm⟩ := h.expr cond (by simp [Node.slots])
  obtain ⟨stmts, lines, hstmts, hlines, hreads⟩ :=
    h.body thenBody (by simp [Node.slots]) (by decide)
  obtain ⟨other, others, hother, hothers, helse⟩ := exists_else h
  have houtline : f.outlineWithin o (n + 1) id = some [.choice s stmts other] := by
    cases elseBody with
    | none =>
      cases other with
      | none => simp [outlineWithin, h.found, hs, hstmts]
      | some other => cases hother
    | some stmt =>
      cases other with
      | none => cases hother
      | some other =>
        have hfound : f.outlineWithin o n stmt.node = some other := by simpa using hother
        simp [outlineWithin, h.found, hs, hstmts, hfound]
  -- up to the first line and the last one both texts are the same
  have hhead (branch : Branch) : f.WritesLines o n
      ([text branch.word, text " ", ofRef cond] ++ [lineEnd (some id)]) [.branch branch s] :=
    .single h.hidden (l := .branch branch s) hterm.phrase
      ((writes_text branch.word).cons ((writes_text " ").cons hwrites)) _
  have hbody : f.WritesLines o n [ofRef thenBody] lines := hlines
  have hboth (branch : Branch) := ((hhead branch).append hbody.deeper).append hothers
  constructor
  · refine ⟨_, .branch .opening s :: (lines ++ others ++ [.blockEnd]), houtline, ?_,
      hreads.choice helse⟩
    apply WritesLines.child h.found
    rw [fragments_ifStmt]
    simpa using (hboth .opening).append (.endLine h.hidden)
  · refine ⟨_, .branch .continuing s :: (lines ++ others), houtline, ?_, .continuing hreads helse⟩
    apply WritesLines.child h.found
    rw [fragments_ifStmt]
    simpa using hboth .continuing

end Surveyed

end Forest

end TensorTree
