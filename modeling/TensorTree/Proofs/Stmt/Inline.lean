import TensorTree.Proofs.Expr.Affixes
import TensorTree.Proofs.Expr.Script
import TensorTree.Proofs.Print.Legible
import TensorTree.Proofs.Stmt.Line

/-!
# Texts within a line

Names, types and expressions are printed within a line.  Each of their texts stays in one field, and
an expression is not mistaken for a word that lines begin with (`Role.Suits`).  This holds of a node
if it holds of its children (`Forest.spells_fragments`), and so of all such nodes
(`Forest.WellFormed.exists_inline`).
-/

namespace TensorTree

/-! ## §1 Kinds of texts -/

/-- The text of an expression. -/
structure Term (cs : List Char) : Prop where
  phrase : Phrase false cs
  leads : Leads cs

/-- A text that can follow a name. -/
structure Tail (cs : List Char) : Prop where
  phrase : Phrase false cs
  endsName : EndsName cs

/-- Anything can follow what is more than a name. -/
theorem Leads.append_of_all {cs : List Char} (h : Leads cs) (hname : cs.all isNamePart = false)
    (ds : List Char) : Leads (cs ++ ds) := by
  refine ⟨h.visible.append ds, ?_⟩
  -- the word in front is over before `ds` begins
  obtain ⟨c, hmem, hc⟩ := List.all_eq_false.1 hname
  rw [Bool.not_eq_true] at hc
  obtain ⟨front, rest, rfl⟩ := List.append_of_mem hmem
  have hends (more : List Char) : EndsName (c :: more) := endsName_cons hc more
  have hlead := h.lead
  rw [lead?_append front (hends rest)] at hlead
  rw [List.append_assoc, List.cons_append, lead?_append front (hends (rest ++ ds)), hlead]

/-- A character that belongs to no name and is not blank can stand at the beginning of a line. -/
theorem leads_cons {c : Char} (hc : isNamePart c = false) (hblank : isBlank c = false)
    (cs : List Char) : Leads (c :: cs) := by
  exact ⟨⟨c, cs, rfl, hblank⟩, lead?_append [] (endsName_cons hc cs)⟩

/-- The words in front of lines are no names. -/
theorem IsName.term {name : String} (h : IsName name) : Term name.toList := by
  have hparts := h.isNamePart_of_mem
  obtain ⟨c, cs, hchars, hc⟩ := h.exists_head
  have hblank : isBlank c = false := isBlank_eq_false (by simp [isNamePart, hc])
  refine ⟨.of_forall fun c hc => isQuiet_of_isNamePart (hparts c hc), ⟨c, cs, hchars, hblank⟩, ?_⟩
  unfold lead?
  rw [List.find?_eq_none, takeWhile_of_isNamePart hparts]
  intro lead hlead heq
  have hword : lead.word = name := String.toList_injective (by simpa using heq)
  have hwords : ∀ lead ∈ Lead.all, ¬ IsName lead.word := by decide
  exact hwords lead hlead (hword ▸ h)

theorem isQuiet_of_isNumberPart {c : Char} (h : isNumberPart c = true) : isQuiet c = true := by
  have hmarks : isQuiet '.' = true ∧ isQuiet '-' = true := by decide
  simp only [isNumberPart, Bool.or_eq_true, beq_iff_eq] at h
  obtain (hdigit | rfl) | rfl := h
  · exact isQuiet_of_isNamePart (by simp [isNamePart, hdigit])
  · exact hmarks.1
  · exact hmarks.2

theorem Phrase.number {inside : Bool} {cs : List Char} (h : ∀ c ∈ cs, isNumberPart c = true) :
    Phrase inside cs :=
  .of_forall fun c hc => isQuiet_of_isNumberPart (h c hc)

/-- Numbers are no words that lines begin with. -/
theorem leads_number {cs : List Char} (hne : cs ≠ []) (h : ∀ c ∈ cs, isNumberPart c = true) :
    Leads cs := by
  obtain ⟨c, rest, rfl⟩ := List.exists_cons_of_ne_nil hne
  have hc := h c List.mem_cons_self
  simp only [isNumberPart, Bool.or_eq_true, beq_iff_eq] at hc
  obtain (hdigit | rfl) | rfl := hc
  · have hpart : isNamePart c = true := by simp [isNamePart, hdigit]
    refine ⟨⟨c, rest, rfl, isBlank_eq_false hpart⟩, ?_⟩
    unfold lead?
    rw [List.find?_eq_none, List.takeWhile_cons_of_pos hpart]
    intro lead hlead heq
    -- every word begins with a letter
    have hwords : ∀ lead ∈ Lead.all, lead.word.toList.head?.any isDigit = false := by decide
    have hword : lead.word.toList = c :: rest.takeWhile isNamePart := by simpa using heq
    have hnone := hwords lead hlead
    simp [hword, hdigit] at hnone
  · exact leads_cons (by decide) (by decide) rest
  · exact leads_cons (by decide) (by decide) rest

/-- A fixed text, looked through for what would end it or be taken for something else. -/
theorem Term.of_all {cs : List Char} (hquiet : cs.all isQuiet = true)
    (hblank : cs.head?.any (!isBlank ·) = true) (hlead : lead? cs = none) : Term cs := by
  cases cs with
  | nil => cases hblank
  | cons c cs => exact ⟨.of_all hquiet, ⟨c, cs, rfl, by simpa using hblank⟩, hlead⟩

theorem term_programText (x : Binary64) : Term x.programText.toList := by
  rcases x.programText_cases with ⟨hne, hparts⟩ | hword
  · exact ⟨.number hparts, leads_number hne hparts⟩
  · simp only [List.mem_cons, List.not_mem_nil, or_false] at hword
    rcases hword with h | h | h <;>
      rw [h] <;>
      exact .of_all (by decide) (by decide) (by decide)

namespace Term

variable {cs ds : List Char}

theorem append (h : Term cs) (h' : Tail ds) : Term (cs ++ ds) :=
  ⟨h.phrase.append h'.phrase, h.leads.append h'.endsName⟩

theorem append_phrase (h : Term cs) (hname : cs.all isNamePart = false) (h' : Phrase false ds) :
    Term (cs ++ ds) :=
  ⟨h.phrase.append h', h.leads.append_of_all hname ds⟩

end Term

theorem Tail.nil : Tail [] := ⟨.nil, by simp [EndsName]⟩

/-- A text in brackets is an expression, and it can follow a name. -/
theorem term_and_tail_bracket {opening closing : Char} {cs : List Char}
    (hopen : opensBracket opening = true) (hclose : closesBracket closing = true)
    (h : Phrase true cs) :
    Term (opening :: (cs ++ [closing])) ∧ Tail (opening :: (cs ++ [closing])) := by
  have hstart : isNamePart opening = false ∧ isBlank opening = false := by
    simp only [opensBracket, Bool.or_eq_true, beq_iff_eq] at hopen
    rcases hopen with (rfl | rfl) | rfl <;> decide
  have hphrase : Phrase false (opening :: (cs ++ [closing])) := h.bracket hopen hclose
  exact ⟨⟨hphrase, leads_cons hstart.1 hstart.2 _⟩, hphrase, endsName_cons hstart.1 _⟩

/-! ## §2 Fragments -/

namespace Forest

open Fragment

/-- The fragments are written as a text of a kind, whatever the page. -/
def Spells (f : Forest) (o : LayoutOptions) (n : Nat) (P : List Char → Prop)
    (fragments : List Fragment) : Prop :=
  ∃ cs, f.Writes o n fragments cs ∧ P cs

variable {f : Forest} {o : LayoutOptions} {n : Nat} {P Q R : List Char → Prop}
  {left right fragments : List Fragment}

theorem spells_nil (h : P []) : f.Spells o n P [] := ⟨[], writes_nil, h⟩

theorem spells_text {s : String} (h : P s.toList) : f.Spells o n P [text s] :=
  ⟨s.toList, writes_text s, h⟩

namespace Spells

theorem imp (h : f.Spells o n P fragments) (hPQ : ∀ cs, P cs → Q cs) :
    f.Spells o n Q fragments := by
  obtain ⟨cs, hwrites, hcs⟩ := h
  exact ⟨cs, hwrites, hPQ cs hcs⟩

theorem append (hleft : f.Spells o n P left) (hright : f.Spells o n Q right)
    (hboth : ∀ cs ds, P cs → Q ds → R (cs ++ ds)) : f.Spells o n R (left ++ right) := by
  obtain ⟨cs, hwrites, hcs⟩ := hleft
  obtain ⟨ds, hwrites', hds⟩ := hright
  exact ⟨cs ++ ds, hwrites.append hwrites', hboth cs ds hcs hds⟩

theorem text_cons {s : String} (h : f.Spells o n P fragments)
    (hs : ∀ cs, P cs → Q (s.toList ++ cs)) : f.Spells o n Q (text s :: fragments) := by
  obtain ⟨cs, hwrites, hcs⟩ := h
  exact ⟨s.toList ++ cs, (writes_text s).cons hwrites, hs cs hcs⟩

theorem between {s t : String} (h : f.Spells o n P fragments)
    (hst : ∀ cs, P cs → Q (s.toList ++ (cs ++ t.toList))) :
    f.Spells o n Q (text s :: fragments ++ [text t]) := by
  obtain ⟨cs, hwrites, hcs⟩ := h
  exact ⟨_, (writes_text s).cons (hwrites.append (writes_text t)), hst cs hcs⟩

theorem ite {p : Prop} [Decidable p] (hleft : f.Spells o n P left)
    (hright : f.Spells o n P right) : f.Spells o n P (if p then left else right) := by
  split
  · exact hleft
  · exact hright

theorem inParens (h : f.Spells o n (Phrase true) fragments) :
    f.Spells o n (fun cs => Term cs ∧ Tail cs) (Fragment.inParens fragments) :=
  h.between fun _ hcs => term_and_tail_bracket (by decide) (by decide) hcs

theorem operand {needsParens : Bool} {r : Ref .expr} (h : f.Spells o n Term [ofRef r]) :
    f.Spells o n Term (Fragment.operand needsParens r) := by
  cases needsParens with
  | false => exact h
  | true => exact (h.imp fun _ hcs => hcs.phrase.toInside).inParens.imp fun _ hcs => hcs.1

end Spells

/-- Texts in brackets with separators between them. -/
theorem spells_intersperse {separator : String} (hsep : Phrase true separator.toList)
    (h : ∀ fragment ∈ fragments, f.Spells o n (Phrase true) [fragment]) :
    f.Spells o n (Phrase true) (fragments.intersperse (text separator)) := by
  induction fragments with
  | nil => exact spells_nil .nil
  | cons fragment fragments ih =>
    rw [List.forall_mem_cons] at h
    cases fragments with
    | nil => exact h.1
    | cons next fragments =>
      rw [List.intersperse_cons_cons]
      exact h.1.append ((ih h.2).text_cons fun _ => hsep.append) fun _ _ => Phrase.append

theorem phrase_comma : Phrase true ", ".toList := .divider (by decide) (.of_all (by decide))

theorem spells_commas {role : Role} {refs : List (Ref role)}
    (h : ∀ r ∈ refs, f.Spells o n (Phrase true) [ofRef r]) :
    f.Spells o n (Phrase true) (commas refs) := by
  apply spells_intersperse phrase_comma
  intro fragment hfragment
  obtain ⟨r, hr, rfl⟩ := List.mem_map.1 hfragment
  exact h r hr

/-- An operator between spaces, with what follows it. -/
theorem spells_operator {op : String} (hop : Phrase false (' ' :: (op.toList ++ [' '])))
    (h : f.Spells o n (Phrase false) fragments) :
    f.Spells o n Tail ([text " ", text op, text " "] ++ fragments) := by
  obtain ⟨cs, hwrites, hcs⟩ := h
  refine ⟨' ' :: (op.toList ++ [' ']) ++ cs, ?_, hop.append hcs, endsName_cons (by decide) _⟩
  simpa using (writes_texts [" ", op, " "]).append hwrites

/-- The links of a chain whose operands are as many as its operators. -/
theorem spells_chain {ops : List ComparisonOp} {exprs : List (Ref .expr)}
    (hlength : exprs.length = ops.length) (h : ∀ r ∈ exprs, f.Spells o n Term [ofRef r]) :
    f.Spells o n Tail (f.chainFragments ops exprs) := by
  induction ops generalizing exprs with
  | nil => exact spells_nil .nil
  | cons op ops ih =>
    cases exprs with
    | nil => cases hlength
    | cons expr exprs =>
      rw [List.forall_mem_cons] at h
      have hrest : f.Spells o n (Phrase false)
          (operand (f.wrapsComparand expr) expr ++ f.chainFragments ops exprs) :=
        h.1.operand.append (ih (Nat.succ.inj hlength) h.2) fun _ _ hcs hds =>
          hcs.phrase.append hds.phrase
      rw [chainFragments, List.append_assoc]
      exact spells_operator (Phrase.comparison op) hrest

end Forest

/-! ## §3 Nodes -/

/-- The roles of nodes that are printed within a line, whatever their children are. -/
def Role.inline : List Role :=
  [.expr, .type, .indexSet, .readParam, .dense, .setIndexSet, .elementType, .endpoint,
   .tupleLength, .ident]

/-- What the texts of nodes within a line are like. -/
def Role.Suits : Role → List Char → Prop
  | .expr => Term
  | .ident | .setIndexSet => fun cs => Term cs ∧ ∀ c ∈ cs, isNamePart c = true
  | .readParam | .dense => Phrase true
  | _ => Phrase false

/-- A text that suits a role suits every place for it. -/
theorem Role.Suits.of_fits {role place : Role} (hfits : role.fits place = true)
    (hplace : place ∈ Role.inline) :
    role ∈ Role.inline ∧ ∀ cs, role.Suits cs → place.Suits cs := by
  rw [Role.fits, Bool.or_eq_true, beq_iff_eq, beq_iff_eq] at hfits
  rcases hfits with rfl | hwider
  · exact ⟨hplace, fun _ hcs => hcs⟩
  · cases role with
    | setIndexSet =>
      obtain rfl := Option.some.inj hwider
      exact ⟨by decide, fun _ hcs => hcs.1.phrase⟩
    | elementType =>
      obtain rfl := Option.some.inj hwider
      exact ⟨by decide, fun _ hcs => hcs⟩
    | block =>
      obtain rfl := Option.some.inj hwider
      simp [Role.inline] at hplace
    | _ => cases hwider

/-- In brackets every such text is a phrase. -/
theorem Role.Suits.inside {role : Role} {cs : List Char} (h : role.Suits cs)
    (hrole : role ∈ Role.inline) : Phrase true cs := by
  cases role with
  | expr => exact h.phrase.toInside
  | ident | setIndexSet => exact h.1.phrase.toInside
  | readParam | dense => exact h
  | type | indexSet | elementType | endpoint | tupleLength => exact h.toInside
  | _ => simp [Role.inline] at hrole

namespace Forest

open Fragment

variable {f : Forest} {o : LayoutOptions} {n : Nat}

/-- The texts of the children of a node that stand on a line suit their places. -/
def SuitsBelow (f : Forest) (o : LayoutOptions) (n : Nat) (node : Node) : Prop :=
  ∀ {role : Role} (r : Ref role), r.slot ∈ node.slots → role ∈ Role.inline →
    f.Spells o n role.Suits [ofRef r]

variable {node : Node}

namespace SuitsBelow

theorem expr (h : f.SuitsBelow o n node) {r : Ref .expr} (hr : r.slot ∈ node.slots) :
    f.Spells o n Term [ofRef r] :=
  h r hr (by decide)

theorem name (h : f.SuitsBelow o n node) {r : Ref .ident} (hr : r.slot ∈ node.slots) :
    f.Spells o n Term [ofRef r] :=
  (h r hr (by decide)).imp fun _ hcs => hcs.1

/-- A child in brackets. -/
theorem inside (h : f.SuitsBelow o n node) {role : Role} {r : Ref role} (hr : r.slot ∈ node.slots)
    (hrole : role ∈ Role.inline) : f.Spells o n (Phrase true) [ofRef r] :=
  (h r hr hrole).imp fun _ hcs => hcs.inside hrole

theorem args (h : f.SuitsBelow o n node) {role : Role} (refs : List (Ref role))
    (hrefs : ∀ r ∈ refs, r.slot ∈ node.slots) (hrole : role ∈ Role.inline) :
    f.Spells o n (fun cs => Term cs ∧ Tail cs) (Fragment.inParens (commas refs)) :=
  (spells_commas fun r hr => h.inside (hrefs r hr) hrole).inParens

end SuitsBelow

/-! ### Types -/

theorem spells_setType {element : Ref .elementType} {endpoints : List (Ref .endpoint)}
    (h : f.SuitsBelow o n (.setType element endpoints)) (branch : Branch) (id : NodeId) :
    f.Spells o n (Phrase false) (f.fragments branch id (.setType element endpoints)) := by
  have helement : f.Spells o n (Phrase false) [text "set\x7b", ofRef element, text "\x7d"] := by
    apply (h.inside (r := element) (by simp [Node.slots]) (by decide)).between
    intro cs hcs
    exact .cons (by decide) (.cons (by decide) (.cons (by decide)
      (hcs.bracket (by decide) (by decide))))
  have hends := h.args endpoints (by simp [Node.slots]; grind) (by decide)
  have htail : f.Spells o n (Phrase false)
      (if endpoints.isEmpty then [] else inParens (commas endpoints)) :=
    .ite (spells_nil .nil) (hends.imp fun _ hcs => hcs.2.phrase)
  exact helement.append htail fun _ _ => Phrase.append

theorem spells_tupleType {element : Ref .elementType} {length : Ref .tupleLength}
    (h : f.SuitsBelow o n (.tupleType element length)) (branch : Branch) (id : NodeId) :
    f.Spells o n (Phrase false) (f.fragments branch id (.tupleType element length)) := by
  have hlength : f.Spells o n (Phrase true) [text " * ", ofRef length] := by
    apply (h.inside (r := length) (by simp [Node.slots]) (by decide)).text_cons
    exact fun _ => Phrase.append (.of_all (by decide))
  have helement := h.inside (r := element) (by simp [Node.slots]) (by decide)
  have hboth : f.Spells o n (Phrase true) [ofRef element, text " * ", ofRef length] :=
    helement.append hlength fun _ _ => Phrase.append
  exact hboth.inParens.imp fun _ hcs => hcs.1.phrase

theorem spells_transposed (transposed : Bool) :
    f.Spells o n Tail (if transposed then [text "'"] else []) :=
  .ite (spells_text ⟨.of_all (by decide), endsName_cons (by decide) _⟩) (spells_nil .nil)

theorem spells_tensorType {indexSets : List (Ref .indexSet)} {block : Ref .type}
    {transposed : Bool} (h : f.SuitsBelow o n (.nonScalarTensorType indexSets block transposed))
    (branch : Branch) (id : NodeId) :
    f.Spells o n (Phrase false)
      (f.fragments branch id (.nonScalarTensorType indexSets block transposed)) := by
  have hslots : ∀ r ∈ indexSets,
      r.slot ∈ Node.slots (.nonScalarTensorType indexSets block transposed) := by
    simp [Node.slots]
    grind
  obtain ⟨sets, hsets, hs⟩ := spells_commas fun r hr => h.inside (hslots r hr) (by decide)
  obtain ⟨inner, hinner, hi⟩ := h.inside (r := block) (by simp [Node.slots]) (by decide)
  have htensor : f.Spells o n (Phrase false)
      (text "tensor[" :: commas indexSets ++ [text "](", ofRef block, text ")"]) := by
    refine ⟨"tensor".toList ++ ('[' :: (sets ++ [']']) ++ ('(' :: (inner ++ [')']))), ?_, ?_⟩
    · have hall := (writes_text "tensor[").cons
        (hsets.append ((writes_text "](").cons (hinner.append (writes_text ")"))))
      simpa using hall
    · exact .append (.of_all (by decide))
        ((hs.bracket (by decide) (by decide)).append (hi.bracket (by decide) (by decide)))
  exact htensor.append (spells_transposed transposed) fun _ _ hcs hds => hcs.append hds.phrase

/-! ### Expressions -/

theorem spells_binary {op : BinaryOp} {lhs rhs : Ref .expr}
    (h : f.SuitsBelow o n (.binary op lhs rhs)) (branch : Branch) (id : NodeId) :
    f.Spells o n Term (f.fragments branch id (.binary op lhs rhs)) := by
  have hlhs := h.expr (r := lhs) (by simp [Node.slots])
  have hrhs := h.expr (r := rhs) (by simp [Node.slots])
  have hop : Phrase false (' ' :: (op.spelling.toList ++ [' '])) := by
    cases op <;> exact .of_all (by decide)
  have hright : f.Spells o n (Phrase false) (operand (f.wrapsOperand op true rhs) rhs) :=
    hrhs.operand.imp fun _ hcs => hcs.phrase
  rw [fragments, List.append_assoc]
  exact hlhs.operand.append (spells_operator hop hright) fun _ _ => Term.append

theorem spells_comparison {operands : List (Ref .expr)} {ops : List ComparisonOp}
    (hlength : operands.length = ops.length + 1) (h : f.SuitsBelow o n (.eqExpr operands ops))
    (branch : Branch) (id : NodeId) :
    f.Spells o n Term (f.fragments branch id (.eqExpr operands ops)) := by
  cases operands with
  | nil => cases hlength
  | cons first rest =>
    have hfirst := h.expr (r := first) (by simp [Node.slots])
    have hrest := spells_chain (Nat.succ.inj hlength) fun r hr =>
      h.expr (r := r) (by simp [Node.slots]; grind)
    exact hfirst.operand.append hrest fun _ _ => Term.append

/-- What stands behind an operand can follow a name. -/
theorem spells_back {p : PostfixOp} {x : Ref .expr} (h : f.SuitsBelow o n (p.node x)) :
    f.Spells o n Tail p.back := by
  cases p with
  | transpose => exact spells_transposed true
  | tensorRead indices =>
    have hargs := h.args indices (by simp [PostfixOp.node, Node.slots]; grind) (by decide)
    exact hargs.imp fun _ hcs => hcs.2
  | tupleRead index =>
    have hindex := h.inside (r := index) (by simp [PostfixOp.node, Node.slots]) (by decide)
    exact hindex.inParens.imp fun _ hcs => hcs.2
  | fieldRead name =>
    have hname := h.name (r := name) (by simp [PostfixOp.node, Node.slots])
    exact hname.text_cons fun _ hcs =>
      ⟨.append (.of_all (by decide)) hcs.phrase, endsName_cons (by decide) _⟩

theorem slot_mem_postfixOp (p : PostfixOp) (x : Ref .expr) : x.slot ∈ (p.node x).slots := by
  cases p <;> simp [PostfixOp.node, Node.slots]

theorem spells_postfixOp {p : PostfixOp} {x : Ref .expr} (h : f.SuitsBelow o n (p.node x))
    (branch : Branch) (id : NodeId) : f.Spells o n Term (f.fragments branch id (p.node x)) := by
  rw [fragments_postfixOp]
  exact (h.expr (slot_mem_postfixOp p x)).operand.append (spells_back h) fun _ _ => Term.append

theorem spells_map {func target : Ref .ident} {actuals : List (Ref .expr)} {reduction : Reduction}
    (h : f.SuitsBelow o n (.mapExpr func actuals target reduction)) (branch : Branch)
    (id : NodeId) :
    f.Spells o n (fun cs => Term cs ∧ "map ".toList <+: cs)
      (f.fragments branch id (.mapExpr func actuals target reduction)) := by
  have hfunc : f.Spells o n (Phrase false) [ofRef func] :=
    (h.name (by simp [Node.slots])).imp fun _ hcs => hcs.phrase
  have hargs : f.Spells o n (Phrase false)
      (if actuals.isEmpty then [] else inParens (commas actuals)) :=
    .ite (spells_nil .nil) ((h.args actuals (by simp [Node.slots]; grind)
      (by decide)).imp fun _ hcs => hcs.1.phrase)
  have htarget : f.Spells o n (Phrase false) [text " to ", ofRef target] :=
    (h.name (by simp [Node.slots])).text_cons fun _ hcs =>
      Phrase.append (.of_all (by decide)) hcs.phrase
  have hreduction : f.Spells o n (Phrase false)
      (if reduction = .sum then [text " reduce ", text reduction.spelling] else []) := by
    refine .ite ⟨_, writes_texts [" reduce ", reduction.spelling], ?_⟩ (spells_nil .nil)
    cases reduction <;> exact .of_all (by decide)
  have hword : Term "map ".toList := .of_all (by decide) (by decide) (by decide)
  -- whatever follows the word and the space, it is no word that lines begin with
  have hall := ((hfunc.append hargs fun _ _ => Phrase.append).append htarget
    fun _ _ => Phrase.append).append hreduction fun _ _ => Phrase.append
  exact hall.text_cons (s := "map ") fun _ hcs =>
    ⟨hword.append_phrase (by decide) hcs, List.prefix_append _ _⟩

/-! ### All nodes -/

/-- The text of a node is that of its fragments. -/
theorem spells_fragments (branch : Branch) (id : NodeId) {node : Node}
    (hinline : node.variant.role ∈ Role.inline) (hnames : ∀ name ∈ node.names, IsName name)
    (hchain : ∀ operands ops, node = .eqExpr operands ops → operands.length = ops.length + 1)
    (h : f.SuitsBelow o n node) :
    f.Spells o n node.variant.role.Suits (f.fragments branch id node) := by
  cases node with
  | varExpr name => exact spells_text (hnames name (by simp [Node.names])).term
  | identifier name | setIndexSet name =>
    have hname : IsName name := hnames name (by simp [Node.names])
    exact spells_text ⟨hname.term, hname.isNamePart_of_mem⟩
  | elementType name | endpoint name =>
    exact spells_text (hnames name (by simp [Node.names])).term.phrase
  | rangeIndexSet k | tupleLength k =>
    exact spells_text (.number isNumberPart_of_mem_toString_nat)
  | dynamicIndexSet => exact spells_text (.of_all (by decide))
  | slice => exact spells_text (.divider (by decide) .nil)
  | exprParam expr => exact h.inside (by simp [Node.slots]) (by decide)
  | scalarTensorType kind =>
    refine spells_text (.of_all ?_)
    cases kind <;> decide
  | setType => exact spells_setType h branch id
  | tupleType => exact spells_tupleType h branch id
  | nonScalarTensorType => exact spells_tensorType h branch id
  | denseIntVector values =>
    refine spells_intersperse phrase_comma ?_
    simp only [List.forall_mem_map]
    exact fun value _ => spells_text (.number isNumberPart_of_mem_toString_int)
  | denseFloatVector values =>
    refine spells_intersperse phrase_comma ?_
    simp only [List.forall_mem_map]
    exact fun value _ => spells_text (term_programText value).phrase.toInside
  | denseNdTensor elems =>
    -- the separator depends on what the first element is
    have hsep : Phrase true (f.elementSeparator elems).toList := by
      unfold elementSeparator
      split
      · exact .divider (by decide) (.of_all (by decide))
      · split
        · exact .of_all (by decide)
        · exact .divider (by decide) (.of_all (by decide))
    refine spells_intersperse hsep ?_
    simp only [List.forall_mem_map]
    exact fun r hr => h.inside (by simp [Node.slots]; grind) (by decide)
  | intLiteral value =>
    refine spells_text ⟨.number isNumberPart_of_mem_toString_int, ?_⟩
    exact leads_number (toList_toString_int_ne_nil value) isNumberPart_of_mem_toString_int
  | floatLiteral value => exact spells_text (term_programText value)
  | boolLiteral value =>
    cases value <;>
      exact spells_text (.of_all (by decide) (by decide) (by decide))
  | denseTensorLiteral tensor transposed =>
    have htensor := h.inside (r := tensor) (by simp [Node.slots]) (by decide)
    have hbrackets : f.Spells o n Term [text "[", ofRef tensor, text "]"] :=
      htensor.between fun _ hcs => (term_and_tail_bracket (by decide) (by decide) hcs).1
    exact hbrackets.append (spells_transposed transposed) fun _ _ => Term.append
  | parenExpr expr =>
    have hexpr := h.inside (r := expr) (by simp [Node.slots]) (by decide)
    exact hexpr.inParens.imp fun _ hcs => hcs.1
  | binary => exact spells_binary h branch id
  | eqExpr operands ops => exact spells_comparison (hchain operands ops rfl) h branch id
  | notExpr expr =>
    have hword : Term "not ".toList := .of_all (by decide) (by decide) (by decide)
    exact (h.expr (by simp [Node.slots])).operand.text_cons fun _ hcs =>
      hword.append_phrase (by decide) hcs.phrase
  | negExpr expr negate =>
    have hsign : Term (if negate then "-" else "+").toList := by
      cases negate <;> exact ⟨.of_all (by decide), leads_cons (by decide) (by decide) []⟩
    have hmark : (if negate then "-" else "+").toList.all isNamePart = false := by
      cases negate <;> decide
    exact (h.expr (by simp [Node.slots])).operand.text_cons fun _ hcs =>
      hsign.append_phrase hmark hcs.phrase
  | transposeExpr expr => exact spells_postfixOp (p := .transpose) h branch id
  | callExpr func args =>
    have hargs := h.args args (by simp [Node.slots]; grind) (by decide)
    exact (h.name (by simp [Node.slots])).append hargs fun _ _ hcs hds => hcs.append hds.2
  | tensorReadExpr tensor indices => exact spells_postfixOp (p := .tensorRead indices) h branch id
  | tupleReadExpr tuple index => exact spells_postfixOp (p := .tupleRead index) h branch id
  | fieldReadExpr base name => exact spells_postfixOp (p := .fieldRead name) h branch id
  | mapExpr => exact (spells_map h branch id).imp fun _ hcs => hcs.1
  | callable kind => cases kind <;> simp [Node.variant, Variant.role, Role.inline] at hinline
  | _ => simp [Node.variant, Variant.role, Role.inline] at hinline

/-- The places of a node are filled by nodes whose texts suit them. -/
theorem SuitsBelow.of_fillers {id : NodeId} (hf : f.Fitted) (hnode : f.node? id = some node)
    (h : ∀ child ∈ node.children, ∀ filler, f.node? child = some filler →
      filler.variant.role ∈ Role.inline →
        ∃ cs, (∀ page : Page, f.writeWithin o n .opening child page =
          .ok (page.write o (String.ofList cs))) ∧ filler.variant.role.Suits cs) :
    f.SuitsBelow o n node := by
  intro role r hr hrole
  obtain ⟨filler, hfiller, hfits⟩ := hf id node hnode r.slot hr
  obtain ⟨hinline, hsuits⟩ := Role.Suits.of_fits (hfits role rfl) hrole
  have hmem : r.node ∈ node.children := List.mem_map.2 ⟨r.slot, hr, rfl⟩
  obtain ⟨cs, hwrites, hcs⟩ := h r.node hmem filler hfiller hinline
  exact ⟨cs, writes_ofRef hwrites, hsuits cs hcs⟩

/-- Every node that is printed within a line has a text that suits its role. -/
theorem WellFormed.exists_inline (h : f.WellFormed) (hf : f.Fitted) (hnames : f.Named)
    {id : NodeId} (hnode : f.node? id = some node) (hinline : node.variant.role ∈ Role.inline)
    (hn : id.index < n) :
    ∃ cs, (∀ page : Page, f.writeWithin o n .opening id page =
      .ok (page.write o (String.ofList cs))) ∧ node.variant.role.Suits cs := by
  refine h.descend (P := fun n id => ∀ node, f.node? id = some node →
    node.variant.role ∈ Role.inline →
      ∃ cs, (∀ page : Page, f.writeWithin o n .opening id page =
        .ok (page.write o (String.ofList cs))) ∧ node.variant.role.Suits cs)
    ?_ ⟨node, hnode⟩ hn node hnode hinline
  intro n id node hnode ih other hother hinline
  obtain rfl := Option.some.inj (hother.symm.trans hnode)
  have hchain : ∀ operands ops, other = .eqExpr operands ops →
      operands.length = ops.length + 1 := by
    intro operands ops heq
    subst heq
    exact h.operands_length hnode
  obtain ⟨cs, hwrites, hcs⟩ := spells_fragments .opening id hinline
    (hnames id other hnode) hchain (SuitsBelow.of_fillers hf hnode ih)
  refine ⟨cs, fun page => ?_, hcs⟩
  simp only [writeWithin, hnode]
  exact hwrites page

/-- What a node is printed as suits its place on a line, and that is what is written there. -/
theorem WellFormed.exists_text (h : f.WellFormed) (hf : f.Fitted) (hnames : f.Named)
    {id : NodeId} (hnode : f.node? id = some node) (hn : id.index ≤ n) {role : Role}
    {r : Ref role} (hr : r.slot ∈ node.slots) (hrole : role ∈ Role.inline) :
    ∃ s : String, f.print o r.node = .ok s ∧ f.Writes o n [ofRef r] s.toList ∧
      role.Suits s.toList := by
  have hmem : r.node ∈ node.children := List.mem_map.2 ⟨r.slot, hr, rfl⟩
  have hlt : r.node.index < n := Nat.lt_of_lt_of_le (h.child_lt ⟨node, hnode, hmem⟩) hn
  obtain ⟨filler, hfiller, hfits⟩ := hf id node hnode r.slot hr
  have hfound : f.node? r.node = some filler := hfiller
  obtain ⟨hinline, hsuits⟩ := Role.Suits.of_fits (hfits role rfl) hrole
  obtain ⟨cs, hwrites, hcs⟩ := h.exists_inline (o := o) hf hnames hfound hinline hlt
  -- the descent ends before either bound is reached
  have hends : f.EndsWithin (r.node.index + 1) r.node :=
    h.endsWithin ⟨filler, hfound⟩ (Nat.lt_succ_self _)
  have hbound : r.node.index + 1 ≤ f.depthBound :=
    Nat.succ_le_succ (Nat.le_of_lt ((f.node?_isSome_iff r.node).1 ⟨filler, hfound⟩))
  have hprint : f.print o r.node = .ok (String.ofList cs) := by
    rw [print, hends.writeWithin_eq (.refl f r.node) hbound hlt hbound hbound, hwrites {}]
    exact congrArg Except.ok (Page.text_write_new o (String.ofList cs))
  refine ⟨String.ofList cs, hprint, ?_, ?_⟩
  · rw [String.toList_ofList]
    exact writes_ofRef hwrites
  · rw [String.toList_ofList]
    exact hsuits cs hcs

end Forest

end TensorTree
