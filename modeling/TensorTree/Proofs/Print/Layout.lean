import TensorTree.Proofs.Forest.Answers
import TensorTree.Proofs.Location.Lines
import TensorTree.Proofs.Print.Legible

/-!
# Layout and tokens

Pages that are filled with the same pieces under different layouts differ in the spaces in front of
their lines and in the spans that are noted behind them.  The scanner skips both, whatever else is
on the page (`EndsLine.lexes_spaces`, `Lexes.insert_note`).  So the tokens of a printed text do not
depend on the layout, and as long as no spans are shown they hold all of it but blank characters
(`Session.print_alike_of_run`).
-/

namespace TensorTree

/-! ## §1 Spaces in front of a line and comments behind it -/

theorem isBlank_of_mem_spaces {n : Nat} : ∀ c ∈ List.replicate n ' ', isBlank c = true := by
  intro c hc
  rw [List.eq_of_mem_replicate hc]
  rfl

/-- Spaces at the beginning of a line leave the lexemes as they are. -/
theorem EndsLine.lexes_spaces {front rest : List Char} {lexemes : List Lexeme}
    (hfront : EndsLine front) (n : Nat) (h : Lexes (front ++ rest) lexemes) :
    Lexes (front ++ (List.replicate n ' ' ++ rest)) lexemes := by
  rcases hfront with rfl | ⟨init, rfl⟩
  · exact (lexes_blanks_iff isBlank_of_mem_spaces rest lexemes).2 h
  · -- what stands in front of the line feed and what stands behind it are scanned apart
    obtain ⟨left, hinit⟩ := Lexes.exists_lexes init
    obtain ⟨right, hrest⟩ := Lexes.exists_lexes rest
    have hspaces := (lexes_blanks_iff (isBlank_of_mem_spaces (n := n)) rest right).2 hrest
    rw [List.append_assoc, List.singleton_append] at h ⊢
    rw [h.unique (hinit.append_line hrest)]
    exact hinit.append_line hspaces

theorem dropWhile_append_newline {w : List Char} (hw : '\n' ∉ w) (rest : List Char) :
    (w ++ '\n' :: rest).dropWhile (· != '\n') = '\n' :: rest := by
  have hline : ∀ c ∈ w, (c != '\n') = true := by
    intro c hc
    simpa using fun heq : c = '\n' => hw (heq ▸ hc)
  rw [List.dropWhile_append_of_pos hline]
  rfl

/-- A comment behind spaces at the end of a line leaves the lexemes as they are. -/
theorem Lexes.insert_note {front note rest : List Char} {lexemes : List Lexeme} {n : Nat}
    (hnote : '\n' ∉ note) (hhead : ∀ c ∈ note.head?, c = ' ')
    (h : Lexes (front ++ '\n' :: rest) lexemes) :
    Lexes (front ++ (List.replicate (n + 1) ' ' ++ '%' :: (note ++ '\n' :: rest))) lexemes := by
  obtain ⟨left, hfront⟩ := Lexes.exists_lexes front
  obtain ⟨right, hrest⟩ := Lexes.exists_lexes rest
  have hline : Lexes ('\n' :: rest) right := (lexes_blank_iff rfl rest right).2 hrest
  -- the comment, or one that is open already, ends at the line feed and takes nothing behind it
  have hcomment := dropWhile_append_newline hnote rest
  have hadded : (List.replicate (n + 1) ' ' ++ '%' :: (note ++ '\n' :: rest)).dropWhile
      (· != '\n') = '\n' :: rest := by
    have hall : '\n' ∉ List.replicate (n + 1) ' ' ++ '%' :: note := by
      simp [hnote, List.mem_replicate]
    simpa using dropWhile_append_newline hall rest
  have hmark : (note ++ '\n' :: rest).head? ≠ some '!' := by
    cases note with
    | nil => simp
    | cons c note => simpa using fun heq : c = '!' => by simp [heq] at hhead
  rw [h.unique (hfront.append_line hrest)]
  refine hfront.append (by simp [List.replicate_succ, isBlank]) ?_ (by rwa [hadded])
  rw [lexes_blanks_iff isBlank_of_mem_spaces, lexes_comment_iff hmark, hcomment]
  exact hline

/-! ## §2 What a page says -/

/-- The characters of a text that are not blank. -/
def inked (cs : List Char) : List Char := cs.filter (!isBlank ·)

@[simp] theorem inked_append (cs ds : List Char) : inked (cs ++ ds) = inked cs ++ inked ds :=
  List.filter_append ..

theorem inked_eq_nil {cs : List Char} (h : ∀ c ∈ cs, isBlank c = true) : inked cs = [] := by
  simpa [inked, List.filter_eq_nil_iff] using h

/-- The text of a span stands in one line. -/
theorem Span.newline_not_mem_text (s : Span) : '\n' ∉ s.text.toList := by
  have hnumber (n : Nat) : '\n' ∉ Nat.toDigits 10 n := by
    intro hmem
    cases isDigit_of_mem_toDigits hmem
  have hlocation (here : Location) : '\n' ∉ here.text.toList := by
    rw [show here.text = toString here.line.toNat ++ ":" ++ toString here.column.toNat from rfl]
    simpa using ⟨hnumber here.line.toNat, hnumber here.column.toNat⟩
  rw [show s.text = s.first.text ++ "-" ++ s.last.text from rfl]
  simpa using ⟨hlocation s.first, hlocation s.last⟩

namespace LayoutOptions

theorem toList_indentation (o : LayoutOptions) (depth : Nat) :
    (o.indentation depth).toList = List.replicate (depth * o.indentWidth) ' ' :=
  String.toList_ofList

/-- The note of a span is a comment behind two spaces. -/
theorem toList_spanNote (s : Span) :
    (spanNote s).toList = List.replicate 2 ' ' ++ '%' :: ' ' :: s.text.toList := by
  simp [spanNote]

end LayoutOptions

namespace Page

/-- A text is written behind the spaces that open its line, if it opens one. -/
theorem exists_toList_write (o : LayoutOptions) (page : Page) {s : String} (hs : s ≠ "") :
    ∃ n, (page.write o s).text.toList = page.text.toList ++ (List.replicate n ' ' ++ s.toList) ∧
      (page.opensLine = false → n = 0) ∧ (page.write o s).opensLine = false := by
  rw [write, if_neg (by simpa using hs)]
  cases hopens : page.opensLine with
  | false => exact ⟨0, by simp⟩
  | true => exact ⟨page.depth * o.indentWidth, by simp [LayoutOptions.toList_indentation]⟩

/-- A page under a layout says what is read where its text stands. -/
structure Says (o : LayoutOptions) (page : Page) (cs : List Char) : Prop where
  /-- Whatever is written behind it, the lexemes are the same. -/
  lexes : ∀ {more lexemes}, Lexes (cs ++ more) lexemes → Lexes (page.text.toList ++ more) lexemes
  opens : page.opensLine = true → EndsLine page.text.toList
  inked_eq : o.showSpans = false → inked page.text.toList = inked cs

namespace Says

variable {o : LayoutOptions} {page : Page} {cs : List Char}

theorem empty (o : LayoutOptions) : Says o {} [] where
  lexes h := h
  opens _ := .inl rfl
  inked_eq _ := rfl

theorem breakLine (h : page.Says o cs) : page.breakLine.Says o (cs ++ ['\n']) where
  lexes hlexes := by
    rw [List.append_assoc] at hlexes
    simpa [Page.breakLine] using h.lexes hlexes
  opens _ := .inr ⟨page.text.toList, by simp [Page.breakLine]⟩
  inked_eq ho := by simp [Page.breakLine, h.inked_eq ho]

theorem write (h : page.Says o cs) (s : String) : (page.write o s).Says o (cs ++ s.toList) := by
  by_cases hs : s = ""
  · subst hs
    simpa [Page.write] using h
  obtain ⟨n, htext, hn, hopens⟩ := page.exists_toList_write o hs
  constructor
  case lexes =>
    intro more lexemes hlexes
    rw [List.append_assoc] at hlexes
    rw [htext, List.append_assoc, List.append_assoc]
    -- spaces are written only where a line begins, and there the scanner skips them
    cases hpage : page.opensLine with
    | true => exact (h.opens hpage).lexes_spaces n (h.lexes hlexes)
    | false =>
      rw [hn hpage]
      exact h.lexes hlexes
  case opens =>
    intro hopens'
    rw [hopens] at hopens'
    cases hopens'
  case inked_eq =>
    intro ho
    rw [htext, inked_append, inked_append, inked_eq_nil isBlank_of_mem_spaces, h.inked_eq ho]
    simp

/-- Where spans are shown, the end of a line says no more than where they are not. -/
theorem note (h : page.Says o cs) (ho : o.showSpans = true) (span : Span) :
    (page.write o (LayoutOptions.spanNote span)).breakLine.Says o (cs ++ ['\n']) := by
  have hne : LayoutOptions.spanNote span ≠ "" := by
    intro hnil
    have hlist := LayoutOptions.toList_spanNote span
    simp [hnil] at hlist
  obtain ⟨n, htext, -, -⟩ := page.exists_toList_write o hne
  constructor
  case lexes =>
    intro more lexemes hlexes
    rw [List.append_assoc] at hlexes
    have hnote : Lexes (page.text.toList ++ (List.replicate (n + 1 + 1) ' ' ++
        '%' :: (' ' :: span.text.toList ++ '\n' :: more))) lexemes :=
      (h.lexes hlexes).insert_note (by simpa using span.newline_not_mem_text) (by simp)
    have hspaces : List.replicate (n + 1 + 1) ' ' =
        List.replicate n ' ' ++ List.replicate 2 ' ' := by
      rw [List.replicate_append_replicate]
    simpa [Page.breakLine, htext, LayoutOptions.toList_spanNote, hspaces] using hnote
  case opens =>
    intro _
    exact .inr ⟨(page.write o (LayoutOptions.spanNote span)).text.toList, by simp [Page.breakLine]⟩
  case inked_eq =>
    intro ho'
    rw [ho] at ho'
    cases ho'

/-- A page goes on with what a piece says. -/
theorem add (h : page.Says o cs) {spanOf : NodeId → Except ReadFault Span} {piece : Piece}
    {next : Page} (hadd : page.add o spanOf piece = .ok next) :
    next.Says o (cs ++ piece.plain) := by
  cases piece with
  | text s =>
    obtain rfl := Except.ok.inj hadd
    exact h.write s
  | lineEnd subject =>
    cases subject with
    | none =>
      obtain rfl := Except.ok.inj hadd
      exact h.breakLine
    | some id =>
      rw [Page.add] at hadd
      split at hadd
      next hshow =>
        cases hspan : spanOf id with
        | error e => simp [hspan, Except.map] at hadd
        | ok span =>
          simp only [hspan, Except.map, Except.ok.injEq] at hadd
          exact hadd ▸ h.note hshow span
      next =>
        obtain rfl := Except.ok.inj hadd
        exact h.breakLine
  | indent | dedent =>
    obtain rfl := Except.ok.inj hadd
    simpa [Piece.plain] using ⟨h.lexes, h.opens, h.inked_eq⟩
  | fault e => cases hadd

/-- A page goes on with what pieces say. -/
theorem foldlM_add (h : page.Says o cs) {spanOf : NodeId → Except ReadFault Span}
    {pieces : List Piece} {last : Page} (hadd : pieces.foldlM (Page.add o spanOf) page = .ok last) :
    last.Says o (cs ++ plainText pieces) := by
  induction pieces generalizing page cs with
  | nil =>
    obtain rfl := Except.ok.inj hadd
    simpa using h
  | cons piece pieces ih =>
    rw [List.foldlM_cons] at hadd
    cases hnext : page.add o spanOf piece with
    | error e =>
      rw [hnext] at hadd
      cases hadd
    | ok next =>
      rw [hnext] at hadd
      simpa using ih (h.add hnext) hadd

end Says

end Page

/-! ## §3 Printed texts -/

namespace LayoutOptions

/-- A text that is printed under a layout has the lexemes of what it says and, as long as no spans
are shown, no other characters but blank ones. -/
structure Says (o : LayoutOptions) (text : String) (cs : List Char) : Prop where
  lexes : ∀ {lexemes}, Lexes cs lexemes → Lexes text.toList lexemes
  inked_eq : o.showSpans = false → inked text.toList = inked cs

variable {o : LayoutOptions} {text : String} {cs : List Char}

/-- Pieces that are laid out say the same under every layout. -/
theorem says_of_layout {spanOf : NodeId → Except ReadFault Span} {pieces : List Piece}
    (h : o.layout spanOf pieces = .ok text) : o.Says text (plainText pieces) := by
  unfold layout at h
  cases hpage : pieces.foldlM (Page.add o spanOf) {} with
  | error e => simp [hpage, Except.map] at h
  | ok page =>
    simp only [hpage, Except.map, Except.ok.injEq] at h
    have hsays := (Page.Says.empty o).foldlM_add hpage
    subst h
    constructor
    case lexes =>
      intro lexemes hlexes
      rw [← List.append_nil (plainText pieces)] at hlexes
      simpa using hsays.lexes hlexes
    case inked_eq => exact hsays.inked_eq

/-- Only blank space is removed from the end of a program. -/
theorem exists_eq_dropFinalNewlines_append (cs : List Char) :
    ∃ tail, cs = dropFinalNewlines cs ++ tail ∧ ∀ c ∈ tail, isBlank c = true := by
  refine ⟨(cs.reverse.takeWhile (· == '\n')).reverse, ?_, ?_⟩
  · rw [dropFinalNewlines, ← List.reverse_append, List.takeWhile_append_dropWhile,
      List.reverse_reverse]
  · intro c hc
    have hnewline := List.all_eq_true.1 List.all_takeWhile c (List.mem_reverse.1 hc)
    obtain rfl : c = '\n' := by simpa using hnewline
    rfl

/-- Texts that differ in blank space at their end say the same. -/
theorem says_iff_of_eq_append {longer : String} {w : List Char}
    (hw : ∀ c ∈ w, isBlank c = true) (heq : longer.toList = text.toList ++ w) :
    o.Says longer cs ↔ o.Says text cs := by
  have hlexes {lexemes : List Lexeme} : Lexes longer.toList lexemes ↔ Lexes text.toList lexemes :=
    heq ▸ lexes_append_blanks_iff hw text.toList lexemes
  have hinked : inked longer.toList = inked text.toList := by
    rw [heq, inked_append, inked_eq_nil hw, List.append_nil]
  constructor
  · exact fun h => ⟨fun h' => hlexes.1 (h.lexes h'), fun ho => hinked.symm.trans (h.inked_eq ho)⟩
  · exact fun h => ⟨fun h' => hlexes.2 (h.lexes h'), fun ho => hinked.trans (h.inked_eq ho)⟩

/-- Line breaks at the end of a program say nothing. -/
theorem Says.finish (h : o.Says text cs) : o.Says (o.finish text) cs := by
  unfold LayoutOptions.finish
  split
  next =>
    split
    next => exact h
    next => exact (says_iff_of_eq_append (by simp [isBlank]) (String.toList_append ..)).2 h
  next =>
    obtain ⟨tail, htail, hw⟩ := exists_eq_dropFinalNewlines_append text.toList
    refine (says_iff_of_eq_append hw ?_).1 h
    rw [String.toList_ofList]
    exact htail

end LayoutOptions

/-! ## §4 The tokens of printed texts -/

/-- A text is printed under every layout, and all these texts have the same tokens and no errors.
As long as no spans are shown, the tokens hold all of the text but blank characters. -/
def PrintsAlike (print : LayoutOptions → Except ReadFault String) : Prop :=
  ∃ lexemes : List Lexeme, ∀ o, ∃ text, print o = .ok text ∧
    (Scanner.tokenize text).2 = [] ∧
    (Scanner.tokenize text).1.map Token.bare = lexemes ++ [⟨.eof, []⟩] ∧
    (o.showSpans = false → lexemes.flatMap Lexeme.chars = inked text.toList)

/-- Texts that say the same under all layouts are printed alike if what they say is legible. -/
theorem printsAlike_of_legible {print : LayoutOptions → Except ReadFault String} {cs : List Char}
    (hcs : Legible cs) (h : ∀ o, ∃ text, print o = .ok text ∧ o.Says text cs) :
    PrintsAlike print := by
  obtain ⟨lexemes, hlexes⟩ := Lexes.exists_lexes cs
  obtain ⟨hkinds, hchars⟩ := hlexes.of_legible hcs
  refine ⟨lexemes, fun o => ?_⟩
  obtain ⟨text, hprint, hsays⟩ := h o
  have htext := hsays.lexes hlexes
  refine ⟨text, hprint, Scanner.errors_eq_nil_of_lexes htext hkinds,
    Scanner.tokenize_of_lexes htext, fun ho => ?_⟩
  rw [hchars, hsays.inked_eq ho]
  rfl

namespace Forest

variable {f : Forest}

theorem WellFormed.print_says (h : f.WellFormed) {id : NodeId}
    (hid : ∃ node, f.node? id = some node) (o : LayoutOptions) :
    ∃ text, f.print o id = .ok text ∧ o.Says text (plainText (f.expansion id)) := by
  obtain ⟨text, htext⟩ := h.print_ok o hid
  exact ⟨text, htext, LayoutOptions.says_of_layout (f.print_eq_layout_expansion o id ▸ htext)⟩

/-- In a well-formed forest whose names are names, every node is printed alike. -/
theorem WellFormed.printsAlike (h : f.WellFormed) (hnames : f.Named) {id : NodeId}
    (hid : ∃ node, f.node? id = some node) : PrintsAlike fun o => f.print o id :=
  printsAlike_of_legible (legible_plainText_expandWithin hnames _ _ id) (h.print_says hid)

theorem WellFormed.printsAlike_program (h : f.WellFormed) (hnames : f.Named)
    (hroot : ∀ root, f.root = some root → ∃ node, f.node? root.node = some node) :
    PrintsAlike f.printProgram := by
  cases hf : f.root with
  | none =>
    refine printsAlike_of_legible .nil fun o => ⟨o.finish "", by simp [printProgram, hf], ?_⟩
    exact LayoutOptions.Says.finish ⟨id, fun _ => rfl⟩
  | some root =>
    refine printsAlike_of_legible
      (legible_plainText_expandWithin hnames f.depthBound .opening root.node) fun o => ?_
    obtain ⟨text, htext, hsays⟩ := h.print_says (hroot root hf) o
    exact ⟨o.finish text, by simp [printProgram, hf, htext, Except.map], hsays.finish⟩

end Forest

namespace Session

/-- After any attempts at changes that leave all names names, every node that exists is printed
alike under all layouts, and so is the program if its root is not marked or was handed out. -/
theorem print_alike_of_run (cs : List Change) (hnames : (start.run cs).forest.Named)
    (hroot : ∀ root, (start.run cs).forest.root = some root →
      root.handle ∈ (start.run cs).handles) :
    (∀ id node, (start.run cs).forest.node? id = some node →
      PrintsAlike fun o => (start.run cs).forest.print o id) ∧
      PrintsAlike (start.run cs).forest.printProgram := by
  have hsound := sound_run cs
  have hwell := hsound.admitted.wellFormed
  exact ⟨fun id node hid => hwell.printsAlike hnames ⟨node, hid⟩,
    hwell.printsAlike_program hnames fun root h => hsound.exists_root (hroot root h)⟩

/-- A procedure with a comparison, and a test of it. -/
def testedProcedure : List Change :=
  [.insert ⟨⟨1, 6⟩, ⟨1, 6⟩⟩ (.identifier "f"),
    .insert ⟨⟨2, 8⟩, ⟨2, 8⟩⟩ (.varExpr "x"),
    .insert ⟨⟨2, 13⟩, ⟨2, 14⟩⟩ (.intLiteral (-1)),
    .insert ⟨⟨2, 8⟩, ⟨2, 14⟩⟩ (.eqExpr [⟨⟨1⟩⟩, ⟨⟨2⟩⟩] [.ne]),
    .insert ⟨⟨3, 9⟩, ⟨3, 16⟩⟩ (.printStmt ⟨⟨1⟩⟩),
    .insert ⟨⟨2, 5⟩, ⟨4, 7⟩⟩ (.ifStmt ⟨⟨3⟩⟩ ⟨⟨4⟩⟩ none),
    .insert ⟨⟨2, 5⟩, ⟨4, 7⟩⟩ (.stmtBlock [⟨⟨5⟩⟩]),
    .insert ⟨⟨1, 1⟩, ⟨5, 3⟩⟩ (.callable .proc ⟨⟨0⟩⟩ [] [] ⟨⟨6⟩⟩),
    .insert ⟨⟨6, 1⟩, ⟨6, 16⟩⟩ (.test ⟨⟨0⟩⟩ [⟨⟨1⟩⟩] ⟨⟨2⟩⟩),
    .insert ⟨⟨1, 1⟩, ⟨6, 16⟩⟩ (.program [⟨7⟩, ⟨8⟩]),
    .setRoot ⟨⟨9⟩⟩]

/-- A test and the program that it belongs to are printed alike. -/
theorem print_alike_testedProcedure :
    (start.run testedProcedure).forest.Named ∧
      (start.run testedProcedure).forest.root = some ⟨⟨9⟩⟩ ∧
      (⟨.program, ⟨9⟩⟩ : Handle) ∈ (start.run testedProcedure).handles ∧
      (start.run testedProcedure).forest.node? ⟨8⟩ = some (.test ⟨⟨0⟩⟩ [⟨⟨1⟩⟩] ⟨⟨2⟩⟩) ∧
      PrintsAlike (fun o => (start.run testedProcedure).forest.print o ⟨8⟩) ∧
      PrintsAlike (start.run testedProcedure).forest.printProgram := by
  have hname : IsName "f" ∧ IsName "x" := by decide
  have hnames : (start.run testedProcedure).forest.Named :=
    forall_node_run (by simp [testedProcedure, Change.AddsOnly, Node.names, hname])
  have hroot : (start.run testedProcedure).forest.root = some ⟨⟨9⟩⟩ := by decide
  have hhandle : (⟨.program, ⟨9⟩⟩ : Handle) ∈ (start.run testedProcedure).handles := by decide
  have htest : (start.run testedProcedure).forest.node? ⟨8⟩ =
      some (.test ⟨⟨0⟩⟩ [⟨⟨1⟩⟩] ⟨⟨2⟩⟩) := by decide
  have halike := print_alike_of_run testedProcedure hnames fun root h => by
    obtain rfl := Option.some.inj (hroot.symm.trans h)
    exact hhandle
  exact ⟨hnames, hroot, hhandle, htest, halike.1 _ _ htest, halike.2⟩

/-- With spans and without indentation it is still the same test. -/
example : (start.run testedProcedure).forest.print ⟨0, true, false⟩ ⟨8⟩ =
    .ok "%! f(x) == -1;  % 6:1-6:16\n" := by
  decide +kernel

end Session

end TensorTree
