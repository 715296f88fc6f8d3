import TensorTree.Proofs.Forest.Kinds
import TensorTree.Proofs.Print.Rows
import TensorTree.Proofs.Stmt.Line
import TensorTree.Proofs.Stmt.Inline

/-!
# Nodes that are printed within a line

Where all places are filled, names, types and expressions consist of texts only
(`Forest.expandWithin_texts`).  A line that begins with one of them begins with none of the words at
the edges of blocks (`Forest.begins_expandWithin`).  The exception are rows of tensors: they can be
empty, and then the separator behind them stands first (`Forest.dense_cases`).
-/

namespace TensorTree

/-! ## §1 First words -/

/-- The first word of a line. -/
def firstWord (line : List Char) : List Char := (line.dropWhile (· == ' ')).takeWhile isNamePart

/-- The words of lines behind which the depth is greater. -/
def openingWords : List String :=
  ["element", "func", "proc", "while", "do", "if", "for", "else", "elif"]

/-- The words of lines that stand at a lower depth than the line in front of them. -/
def closingWords : List String := ["end", "else", "elif"]

/-- The first word of the line is one of the list. -/
def beginsWith (words : List String) (line : List Char) : Bool :=
  words.any fun word => word.toList == firstWord line

theorem firstWord_of_visible {cs : List Char} (h : Visible cs) :
    firstWord cs = cs.takeWhile isNamePart := by
  obtain ⟨c, rest, rfl, hc⟩ := h
  have hspace : (c == ' ') = false := by
    rw [beq_eq_false_iff_ne]
    rintro rfl
    cases hc
  rw [firstWord, List.dropWhile_cons, hspace]
  rfl

/-- What follows a text that is more than a name adds nothing to its first word. -/
theorem takeWhile_append_of_all {cs : List Char} (h : cs.all isNamePart = false) (ds : List Char) :
    (cs ++ ds).takeWhile isNamePart = cs.takeWhile isNamePart := by
  obtain ⟨c, hmem, hc⟩ := List.all_eq_false.1 h
  rw [Bool.not_eq_true] at hc
  obtain ⟨front, rest, rfl⟩ := List.append_of_mem hmem
  rw [List.append_assoc, List.cons_append,
    takeWhile_append_of_endsName front (endsName_cons hc (rest ++ ds)),
    takeWhile_append_of_endsName front (endsName_cons hc rest)]

/-- A text that can stand at the beginning of a line, and that is not taken for the edge of a
block. -/
structure Begins (cs : List Char) : Prop where
  visible : Visible cs
  noEdge : beginsWith (openingWords ++ closingWords) cs = false

namespace Begins

variable {cs : List Char}

theorem of_firstWord {ds : List Char} (h : Begins cs) (hvisible : Visible ds)
    (heq : ds.takeWhile isNamePart = cs.takeWhile isNamePart) : Begins ds := by
  refine ⟨hvisible, ?_⟩
  have hedge := h.noEdge
  unfold beginsWith at hedge ⊢
  rwa [firstWord_of_visible hvisible, heq, ← firstWord_of_visible h.visible]

theorem append (h : Begins cs) {ds : List Char} (hds : EndsName ds) : Begins (cs ++ ds) :=
  h.of_firstWord (h.visible.append ds) (takeWhile_append_of_endsName cs hds)

theorem append_of_all (h : Begins cs) (hname : cs.all isNamePart = false) (ds : List Char) :
    Begins (cs ++ ds) :=
  h.of_firstWord (h.visible.append ds) (takeWhile_append_of_all hname ds)

/-- A fixed text, looked at. -/
theorem of_decide (hblank : cs.head?.any (!isBlank ·) = true)
    (hedge : beginsWith (openingWords ++ closingWords) cs = false) : Begins cs := by
  cases cs with
  | nil => cases hblank
  | cons c cs => exact ⟨⟨c, cs, rfl, by simpa using hblank⟩, hedge⟩

end Begins

/-- What begins with a character that no edge of a block begins with. -/
theorem begins_cons {c : Char} {cs : List Char} (hblank : isBlank c = false)
    (hc : ∀ word ∈ openingWords ++ closingWords, word.toList.head? ≠ some c) :
    Begins (c :: cs) := by
  have hvisible : Visible (c :: cs) := ⟨c, cs, rfl, hblank⟩
  refine ⟨hvisible, ?_⟩
  unfold beginsWith
  rw [List.any_eq_false]
  intro word hword heq
  rw [beq_iff_eq, firstWord_of_visible hvisible] at heq
  -- the first word begins with the character, or it is empty, which no word at an edge is
  by_cases hpart : isNamePart c = true
  · rw [List.takeWhile_cons_of_pos hpart] at heq
    exact hc word hword (by rw [heq]; rfl)
  · rw [List.takeWhile_cons_of_neg hpart] at heq
    have hwords : ∀ word ∈ openingWords ++ closingWords, word.toList ≠ [] := by decide
    exact hwords word hword heq

/-- The words at the edges of blocks are no names. -/
theorem IsName.begins {name : String} (h : IsName name) : Begins name.toList := by
  have hparts := h.isNamePart_of_mem
  have hvisible := h.term.leads.visible
  refine ⟨hvisible, ?_⟩
  unfold beginsWith
  rw [List.any_eq_false]
  intro word hword heq
  rw [beq_iff_eq, firstWord_of_visible hvisible, takeWhile_of_isNamePart hparts] at heq
  have hwords : ∀ word ∈ openingWords ++ closingWords, ¬ IsName word := by decide
  exact hwords word hword (String.toList_injective heq ▸ h)

theorem begins_number {cs : List Char} (hne : cs ≠ []) (h : ∀ c ∈ cs, isNumberPart c = true) :
    Begins cs := by
  obtain ⟨c, rest, rfl, hblank⟩ := (leads_number hne h).visible
  -- the words at the edges of blocks begin with letters
  have hletters : ∀ word ∈ openingWords ++ closingWords,
      word.toList.head?.any isNumberPart = false := by decide
  refine begins_cons hblank fun word hword heq => ?_
  have hnone := hletters word hword
  simp [heq, h c List.mem_cons_self] at hnone

theorem begins_programText (x : Binary64) : Begins x.programText.toList := by
  rcases x.programText_cases with ⟨hne, hparts⟩ | hword
  · exact begins_number hne hparts
  · have hwords : ∀ word ∈ ["NaN", "-inf", "inf"],
        word.toList.head?.any (!isBlank ·) = true ∧
          beginsWith (openingWords ++ closingWords) word.toList = false := by decide
    exact .of_decide (hwords _ hword).1 (hwords _ hword).2

/-! ## §2 Fragments of nodes within a line -/

/-- The roles of nodes that are printed within a line. -/
def Role.within : List Role := Role.inline ++ [.domain, .identDecl, .argument]

/-- What fits a place within a line is printed within a line, and rows of tensors fit only places
for them. -/
theorem Role.within_of_fits {role place : Role} (hfits : role.fits place = true)
    (hplace : place ∈ within) : role ∈ within ∧ (place ≠ .dense → role ≠ .dense) := by
  have hall : role.fits place = true → place ∈ within →
      role ∈ within ∧ (place ≠ .dense → role ≠ .dense) := by
    cases role <;> cases place <;> decide
  exact hall hfits hplace

/-- A fragment that neither ends a line nor changes the depth nor goes on with a chain. -/
def Fragment.Level : Fragment → Prop
  | .own (.lineEnd _) | .own .indent | .own .dedent | .child .continuing _ => False
  | _ => True

/-- All fragments of a list are level. -/
abbrev AllLevel (fragments : List Fragment) : Prop := AllOf Fragment.Level fragments

namespace AllLevel

open Fragment

@[simp] theorem text_level (s : String) : (text s).Level := trivial

@[simp] theorem fault_level (e : ReadFault) : (fault e).Level := trivial

@[simp] theorem ofRef_level {role : Role} (r : Ref role) : (ofRef r).Level := trivial

theorem refs {role : Role} (refs : List (Ref role)) : AllLevel (refs.map ofRef) := by
  simp [AllOf]

@[simp] theorem commas {role : Role} (refs : List (Ref role)) : AllLevel (Fragment.commas refs) :=
  forall_mem_intersperse (AllLevel.refs refs) trivial

@[simp] theorem operand (needsParens : Bool) (expr : Ref .expr) :
    AllLevel (Fragment.operand needsParens expr) := by
  cases needsParens <;> simp [Fragment.operand, inParens]

theorem texts {α : Type} (values : List α) (render : α → String) (separator : String) :
    AllLevel ((values.map fun a => text (render a)).intersperse (text separator)) := by
  refine forall_mem_intersperse ?_ trivial
  simp

end AllLevel

namespace Forest

open Fragment

theorem chainFragments_level (f : Forest) (ops : List ComparisonOp) (exprs : List (Ref .expr)) :
    AllLevel (f.chainFragments ops exprs) := by
  induction ops generalizing exprs with
  | nil => simp [chainFragments]
  | cons op ops ih =>
    cases exprs with
    | nil => simp [chainFragments]
    | cons expr exprs => simp [chainFragments, ih exprs]

/-- A node within a line neither ends lines nor changes the depth itself. -/
theorem fragments_level (f : Forest) (branch : Branch) (id : NodeId) {node : Node}
    (hrole : node.variant.role ∈ Role.within) : AllLevel (f.fragments branch id node) := by
  cases node with
  | callable kind =>
    cases kind <;> simp [Node.variant, Variant.role, Role.within, Role.inline] at hrole
  | program | stmtBlock | field | elementTypeDecl | externalDecl | binding | loop | ifStmt | forStmt
  | printStmt | exprStmt | assignStmt | test =>
    simp [Node.variant, Variant.role, Role.within, Role.inline] at hrole
  | eqExpr operands ops =>
    cases operands with
    | nil => simp [fragments]
    | cons expr exprs => simp [fragments, f.chainFragments_level]
  | denseNdTensor elems => exact forall_mem_intersperse (AllLevel.refs elems) trivial
  | denseIntVector values => exact AllLevel.texts values _ _
  | denseFloatVector values => exact AllLevel.texts values _ _
  | _ => simp [fragments, inParens]

end Forest

/-- A place for a node that is printed within a line. -/
def Slot.Within (slot : Slot) : Prop := ∃ place ∈ Role.within, slot.role? = some place

theorem Ref.slot_within {role : Role} (r : Ref role) (h : role ∈ Role.within) : r.slot.Within :=
  ⟨role, h, rfl⟩

/-- All children of a node within a line are printed within that line. -/
theorem Node.slots_within {node : Node} (hrole : node.variant.role ∈ Role.within) :
    ∀ slot ∈ node.slots, slot.Within := by
  cases node with
  | callable kind => cases kind <;> simp [variant, Variant.role, Role.within, Role.inline] at hrole
  | program | stmtBlock | field | elementTypeDecl | externalDecl | binding | loop | ifStmt | forStmt
  | printStmt | exprStmt | assignStmt | test =>
    simp [variant, Variant.role, Role.within, Role.inline] at hrole
  | _ =>
    simp (disch := decide) only [slots, List.forall_mem_cons, List.forall_mem_append,
      List.forall_mem_map, Ref.slot_within, implies_true, and_self, List.not_mem_nil, false_imp_iff]

/-! ## §3 Expansions of nodes within a line -/

/-- Pieces that only go on with a line. -/
def AllTexts (pieces : List Piece) : Prop := ∀ piece ∈ pieces, ∃ s, piece = .text s

namespace Forest

open Fragment

variable {f : Forest} {n : Nat} {id : NodeId} {node : Node}

/-- What fills a place within a line is printed within that line. -/
theorem Fitted.exists_within (hf : f.Fitted) (hnode : f.node? id = some node) {slot : Slot}
    (hslot : slot ∈ node.slots) (hwithin : slot.Within) :
    ∃ filler, f.node? slot.node = some filler ∧ filler.variant.role ∈ Role.within ∧
      (slot.role? ≠ some .dense → filler.variant.role ≠ .dense) := by
  obtain ⟨place, hplace, hrole⟩ := hwithin
  obtain ⟨filler, hfiller, hfits⟩ := hf id node hnode slot hslot
  obtain ⟨hmem, hdense⟩ := Role.within_of_fits (hfits place hrole) hplace
  exact ⟨filler, hfiller, hmem, fun hne => hdense fun heq => hne (heq ▸ hrole)⟩

theorem WellFormed.fragments_safe (h : f.WellFormed) (hnode : f.node? id = some node)
    (branch : Branch) : AllSafe id node.children (f.fragments branch id node) := by
  refine f.fragments_safe branch id ?_
  rintro operands ops rfl
  exact h.operands_length hnode

/-- A node within a line consists of texts. -/
theorem expandWithin_texts (h : f.WellFormed) (hf : f.Fitted) (hnode : f.node? id = some node)
    (hrole : node.variant.role ∈ Role.within) (hn : id.index < n) (branch : Branch) :
    AllTexts (f.expandWithin n branch id) := by
  refine h.descend (P := fun n id => ∀ node, f.node? id = some node →
    node.variant.role ∈ Role.within → ∀ branch, AllTexts (f.expandWithin n branch id))
    ?_ ⟨node, hnode⟩ hn node hnode hrole branch
  intro n id node hnode ih other hother hrole branch
  obtain rfl := Option.some.inj (hnode.symm.trans hother)
  intro piece hpiece
  simp only [expandWithin, hnode] at hpiece
  obtain ⟨fragment, hfragment, hmem⟩ := List.mem_flatMap.1 hpiece
  have hsafe := h.fragments_safe hnode branch fragment hfragment
  have hlevel := f.fragments_level branch id hrole fragment hfragment
  cases fragment with
  | own written =>
    obtain rfl := List.mem_singleton.1 hmem
    cases piece with
    | text s => exact ⟨s, rfl⟩
    | lineEnd | indent | dedent => exact hlevel.elim
    | fault e => exact hsafe.elim
  | child below childId =>
    obtain ⟨slot, hslot, rfl⟩ := List.mem_map.1 hsafe
    obtain ⟨filler, hfiller, hwithin, -⟩ :=
      hf.exists_within hnode hslot (Node.slots_within hrole slot hslot)
    exact ih slot.node hsafe filler hfiller hwithin below piece hmem

/-! ### What stands first -/

/-- Nothing follows, or a text that is not taken for the rest of a name. -/
def Trailing : List Fragment → Prop
  | [] => True
  | .own (.text s) :: _ => s.toList.head?.any (!isNamePart ·) = true
  | _ => False

/-- The fragments begin with a word or a mark, or with a child and no more of a name behind it. -/
inductive Leading (node : Node) : List Fragment → Prop
  /-- The first word is over before the text is. -/
  | mark {s : String} {rest : List Fragment} (begins : Begins s.toList)
      (closed : s.toList.all isNamePart = false) : Leading node (text s :: rest)
  /-- A text that may be a name as a whole, so that nothing may follow it. -/
  | word {s : String} (begins : Begins s.toList) : Leading node [text s]
  /-- Rows of tensors are left out because their text can be empty. -/
  | child {role : Role} {r : Ref role} {rest : List Fragment} (slot : r.slot ∈ node.slots)
      (within : role ∈ Role.within) (notDense : role ≠ .dense) (trailing : Trailing rest) :
      Leading node (ofRef r :: rest)

theorem Leading.operand {needsParens : Bool} {expr : Ref .expr} {rest : List Fragment}
    (hslot : expr.slot ∈ node.slots) (hrest : Trailing rest) :
    Leading node (Fragment.operand needsParens expr ++ rest) := by
  cases needsParens with
  | false => exact .child hslot (by decide) (by decide) hrest
  | true => exact .mark (.of_decide (by decide) (by decide)) (by decide)

theorem trailing_text {s : String} {rest : List Fragment}
    (h : s.toList.head?.any (!isNamePart ·) = true) : Trailing (text s :: rest) := h

theorem trailing_chain (f : Forest) (ops : List ComparisonOp) {exprs : List (Ref .expr)}
    (hlength : ops.length ≤ exprs.length) : Trailing (f.chainFragments ops exprs) := by
  cases ops with
  | nil => trivial
  | cons op ops =>
    cases exprs with
    | nil => cases hlength
    | cons expr exprs => exact trailing_text (by decide)

/-- A node within a line begins with a word, a mark or a child. -/
theorem WellFormed.leading (h : f.WellFormed) (hnames : f.Named) (hnode : f.node? id = some node)
    (hrole : node.variant.role ∈ Role.within) (hdense : node.variant.role ≠ .dense)
    (branch : Branch) : Leading node (f.fragments branch id node) := by
  cases node with
  | callable kind =>
    cases kind <;> simp [Node.variant, Variant.role, Role.within, Role.inline] at hrole
  | program | stmtBlock | field | elementTypeDecl | externalDecl | binding | loop | ifStmt | forStmt
  | printStmt | exprStmt | assignStmt | test =>
    simp [Node.variant, Variant.role, Role.within, Role.inline] at hrole
  | denseIntVector | denseFloatVector | denseNdTensor => exact absurd rfl hdense
  | setIndexSet name | elementType name | endpoint name | identifier name | varExpr name =>
    exact .word (hnames id _ hnode name List.mem_cons_self).begins
  | rangeIndexSet k | tupleLength k =>
    refine .word (begins_number ?_ isNumberPart_of_mem_toString_nat)
    simp
  | intLiteral k =>
    exact .word (begins_number (toList_toString_int_ne_nil k) isNumberPart_of_mem_toString_int)
  | floatLiteral x => exact .word (begins_programText x)
  | boolLiteral value => cases value <;> exact .word (.of_decide (by decide) (by decide))
  | scalarTensorType kind => cases kind <;> exact .word (.of_decide (by decide) (by decide))
  | dynamicIndexSet | slice => exact .word (.of_decide (by decide) (by decide))
  | negExpr expr negate =>
    cases negate <;> exact .mark (.of_decide (by decide) (by decide)) (by decide)
  | setType | tupleType | nonScalarTensorType | mapExpr | notExpr | parenExpr
  | denseTensorLiteral =>
    exact .mark (.of_decide (by decide) (by decide)) (by decide)
  | argument name type inout =>
    cases inout with
    | true => exact .mark (.of_decide (by decide) (by decide)) (by decide)
    | false =>
      exact .child (by simp [Node.slots]) (by decide) (by decide) (trailing_text (by decide))
  | identDecl | rangeDomain | callExpr =>
    exact .child (by simp [Node.slots]) (by decide) (by decide) (trailing_text (by decide))
  | indexSetDomain | exprParam =>
    exact .child (by simp [Node.slots]) (by decide) (by decide) trivial
  | binary =>
    simp only [fragments, List.append_assoc]
    exact .operand (by simp [Node.slots]) (trailing_text (by decide))
  | transposeExpr | tensorReadExpr | tupleReadExpr | fieldReadExpr =>
    exact .operand (by simp [Node.slots]) (trailing_text (by decide))
  | eqExpr operands ops =>
    have hlength := h.operands_length hnode
    cases operands with
    | nil => cases hlength
    | cons expr exprs =>
      refine .operand (by simp [Node.slots]) (trailing_chain f ops ?_)
      exact (Nat.succ.inj hlength).ge

/-- No part of a name follows a child that stands first. -/
theorem Trailing.endsName {rest : List Fragment} (h : Trailing rest)
    (ofChild : Branch → NodeId → List Piece) :
    EndsName (plainText (rest.flatMap (Fragment.expand ofChild))) := by
  match rest, h with
  | [], _ => simp [EndsName]
  | .own (.text s) :: rest, h =>
    have hs : s.toList.head?.any (!isNamePart ·) = true := h
    cases hchars : s.toList with
    | nil => simp [hchars] at hs
    | cons c cs =>
      have hc : isNamePart c = false := by simpa [hchars] using hs
      simpa [Fragment.expand, Piece.plain, hchars] using endsName_cons hc _

/-- What begins with a word, a mark or a child can stand at the beginning of a line, if the child
can. -/
theorem Leading.begins {ofChild : Branch → NodeId → List Piece} {fragments : List Fragment}
    (hchild : ∀ {role : Role} (r : Ref role), r.slot ∈ node.slots → role ∈ Role.within →
      role ≠ .dense → Begins (plainText (ofChild .opening r.node)))
    (h : Leading node fragments) :
    Begins (plainText (fragments.flatMap (Fragment.expand ofChild))) := by
  cases h with
  | mark begins closed => exact begins.append_of_all closed _
  | word begins => simpa [text, Fragment.expand, Piece.plain] using begins
  | @child role r rest slot within notDense trailing =>
    rw [List.flatMap_cons, plainText_append]
    exact (hchild r slot within notDense).append (trailing.endsName ofChild)

/-- A node within a line that is no row of a tensor can stand at the beginning of a line. -/
theorem begins_expandWithin (h : f.WellFormed) (hf : f.Fitted) (hnames : f.Named)
    (hnode : f.node? id = some node) (hrole : node.variant.role ∈ Role.within)
    (hdense : node.variant.role ≠ .dense) (hn : id.index < n) (branch : Branch) :
    Begins (plainText (f.expandWithin n branch id)) := by
  refine h.descend (P := fun n id => ∀ node, f.node? id = some node →
    node.variant.role ∈ Role.within → node.variant.role ≠ .dense →
      ∀ branch, Begins (plainText (f.expandWithin n branch id)))
    ?_ ⟨node, hnode⟩ hn node hnode hrole hdense branch
  intro n id node hnode ih other hother hrole hdense branch
  obtain rfl := Option.some.inj (hnode.symm.trans hother)
  simp only [expandWithin, hnode]
  refine (h.leading hnames hnode hrole hdense branch).begins ?_
  intro role r hslot hplace hne
  obtain ⟨filler, hfiller, hwithin, hdense'⟩ := hf.exists_within hnode hslot (r.slot_within hplace)
  exact ih r.node (List.mem_map.2 ⟨r.slot, hslot, rfl⟩) filler hfiller hwithin
    (hdense' fun heq => hne (Option.some.inj heq)) .opening

/-! ### Rows of tensors -/

/-- A row of a tensor is empty, or it can stand at the beginning of a line, or the bar that parts
rows stands first. -/
def Barred (cs : List Char) : Prop := cs = [] ∨ Begins cs ∨ " | ".toList <+: cs

/-- Behind the first element of a list stands nothing or the separator. -/
theorem plainText_intersperse (ofChild : Branch → NodeId → List Piece) (first : Fragment)
    (rest : List Fragment) (separator : String) :
    ∃ tail, plainText (((first :: rest).intersperse (text separator)).flatMap
        (Fragment.expand ofChild)) = plainText (first.expand ofChild) ++ tail ∧
      (tail = [] ∨ separator.toList <+: tail) := by
  cases rest with
  | nil => exact ⟨[], by simp, .inl rfl⟩
  | cons second rest =>
    rw [List.intersperse_cons_cons]
    refine ⟨_, by rw [List.flatMap_cons, plainText_append], .inr ?_⟩
    exact List.prefix_append _ _

theorem endsName_of_separator {s tail : List Char} (hs : s.head?.any (!isNamePart ·) = true)
    (h : tail = [] ∨ s <+: tail) : EndsName tail := by
  rcases h with rfl | ⟨rest, rfl⟩
  · simp [EndsName]
  · cases s with
    | nil => cases hs
    | cons c s => exact endsName_cons (by simpa using hs) _

/-- A row of numbers. -/
theorem begins_texts {α : Type} {render : α → String} (hbegins : ∀ a, Begins (render a).toList)
    (ofChild : Branch → NodeId → List Piece) (values : List α) :
    let cs := plainText (((values.map fun a => text (render a)).intersperse (text ", ")).flatMap
      (Fragment.expand ofChild))
    cs = [] ∨ Begins cs := by
  cases values with
  | nil => exact .inl rfl
  | cons a values =>
    obtain ⟨tail, heq, htail⟩ := plainText_intersperse ofChild (text (render a))
      (values.map fun a => text (render a)) ", "
    simp only [List.map_cons, heq]
    refine .inr (Begins.append ?_ (endsName_of_separator (by decide) htail))
    simpa [text, Fragment.expand, Piece.plain] using hbegins a

theorem begins_int (n : Int) : Begins (toString n).toList :=
  begins_number (toList_toString_int_ne_nil n) isNumberPart_of_mem_toString_int

theorem elementSeparator_cases (f : Forest) (elems : List (Ref .dense)) :
    f.elementSeparator elems = "; " ∨ f.elementSeparator elems = " | " := by
  unfold elementSeparator
  split
  · exact .inl rfl
  · split
    · exact .inr rfl
    · exact .inl rfl

/-- Rows of a tensor, the first of which may be empty. -/
theorem Barred.append_separator {cs tail : List Char} (h : Barred cs) {separator : String}
    (hseparator : separator = "; " ∨ separator = " | ")
    (htail : tail = [] ∨ separator.toList <+: tail) : Barred (cs ++ tail) := by
  rcases h with rfl | hbegins | hbar
  · rw [List.nil_append]
    rcases htail with rfl | hprefix
    · exact .inl rfl
    · rcases hseparator with rfl | rfl
      · obtain ⟨rest, rfl⟩ := hprefix
        have hmark : Begins "; ".toList := .of_decide (by decide) (by decide)
        exact .inr (.inl (hmark.append_of_all (by decide) rest))
      · exact .inr (.inr hprefix)
  · have hends : EndsName tail := by
      refine endsName_of_separator ?_ htail
      rcases hseparator with rfl | rfl <;> decide
    exact .inr (.inl (hbegins.append hends))
  · exact .inr (.inr (hbar.trans (List.prefix_append cs tail)))

/-- Rows of tensors are empty, or can stand at the beginning of a line, or begin with a bar. -/
theorem barred_expandWithin (h : f.WellFormed) (hf : f.Fitted) (hnode : f.node? id = some node)
    (hrole : node.variant.role = .dense) (hn : id.index < n) (branch : Branch) :
    Barred (plainText (f.expandWithin n branch id)) := by
  refine h.descend (P := fun n id => ∀ node, f.node? id = some node →
    node.variant.role = .dense → ∀ branch, Barred (plainText (f.expandWithin n branch id)))
    ?_ ⟨node, hnode⟩ hn node hnode hrole branch
  intro n id node hnode ih other hother hrole branch
  obtain rfl := Option.some.inj (hnode.symm.trans hother)
  simp only [expandWithin, hnode]
  cases node with
  | denseIntVector values => exact (begins_texts begins_int _ values).imp_right .inl
  | denseFloatVector values => exact (begins_texts begins_programText _ values).imp_right .inl
  | denseNdTensor elems =>
    cases elems with
    | nil => exact .inl rfl
    | cons elem elems =>
      have hslot : elem.slot ∈ (Node.denseNdTensor (elem :: elems)).slots := by simp [Node.slots]
      obtain ⟨filler, hfiller, hfits⟩ :=
        hf.exists_filler hnode hslot fun other => by cases other <;> simp [Role.wider?]
      have hfirst := ih elem.node (List.mem_map.2 ⟨_, hslot, rfl⟩) filler hfiller hfits .opening
      obtain ⟨tail, heq, htail⟩ := plainText_intersperse (f.expandWithin n) (ofRef elem)
        (elems.map ofRef) (f.elementSeparator (elem :: elems))
      simp only [fragments, List.map_cons, heq]
      exact hfirst.append_separator (f.elementSeparator_cases _) htail
  | callable kind => cases kind <;> cases hrole
  | _ => cases hrole

/-- Only where rows of rows are parted a bar can stand first. -/
theorem dense_cases (h : f.WellFormed) (hf : f.Fitted) (hnode : f.node? id = some node)
    (hrole : node.variant.role = .dense) (hn : id.index < n) (branch : Branch) :
    let cs := plainText (f.expandWithin n branch id)
    cs = [] ∨ Begins cs ∨ (" | ".toList <+: cs ∧ ∃ elems, node = .denseNdTensor elems) := by
  obtain ⟨n, rfl⟩ : ∃ m, n = m + 1 := ⟨n - 1, by omega⟩
  have hbarred := barred_expandWithin h hf hnode hrole hn branch
  cases node with
  | denseNdTensor elems =>
    exact hbarred.imp_right fun hcs => hcs.imp_right fun hbar => ⟨hbar, elems, rfl⟩
  | denseIntVector values =>
    simp only [expandWithin, hnode]
    exact (begins_texts begins_int _ values).imp_right .inl
  | denseFloatVector values =>
    simp only [expandWithin, hnode]
    exact (begins_texts begins_programText _ values).imp_right .inl
  | callable kind => cases kind <;> cases hrole
  | _ => cases hrole

end Forest

end TensorTree
