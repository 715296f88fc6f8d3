import TensorTree.Proofs.Stmt.Inline

/-!
# Signs in front of powers

A power binds tighter than a sign or a negation in front of it, so a base that is one of them is
put in parentheses.  But expressions of other kinds begin with a sign as well: a negative number
does, and so does what stands in front of a postfix operator (`Forest.OpensWithSign`).  As bases
they are printed as they are, and these are all powers that begin with a sign
(`Session.print_power_of_run`).
-/

namespace TensorTree

/-! ## §1 Texts -/

/-- The text begins with a sign or a negation. -/
def Signed (cs : List Char) : Prop := ∃ u : PrefixOp, u.front.toList <+: cs

/-- The text begins with neither, and neither does the text with more behind it. -/
structure Unsigned (cs : List Char) : Prop where
  head : ∃ c rest, cs = c :: rest ∧ c ≠ '-' ∧ c ≠ '+'
  word : cs.takeWhile isNamePart ≠ "not".toList

theorem Signed.append {cs : List Char} (h : Signed cs) (ds : List Char) : Signed (cs ++ ds) := by
  obtain ⟨u, hu⟩ := h
  exact ⟨u, hu.trans (List.prefix_append cs ds)⟩

namespace Unsigned

variable {cs : List Char}

theorem append (h : Unsigned cs) {ds : List Char} (hds : EndsName ds) : Unsigned (cs ++ ds) := by
  obtain ⟨c, rest, rfl, hc⟩ := h.head
  refine ⟨⟨c, rest ++ ds, rfl, hc⟩, ?_⟩
  rw [takeWhile_append_of_endsName _ hds]
  exact h.word

theorem not_signed (h : Unsigned cs) : ¬ Signed cs := by
  rintro ⟨u, rest, rfl⟩
  cases u with
  | sign negate =>
    obtain ⟨c, more, heq, hminus, hplus⟩ := h.head
    cases negate with
    | true => exact hminus (List.cons.inj heq).1.symm
    | false => exact hplus (List.cons.inj heq).1.symm
  | not =>
    have hends : EndsName (' ' :: rest) := endsName_cons (by decide) rest
    exact h.word (takeWhile_append_of_endsName "not".toList hends)

end Unsigned

theorem unsigned_cons {c : Char} (hc : c ∉ ['-', '+', 'n']) (cs : List Char) :
    Unsigned (c :: cs) := by
  simp only [List.mem_cons, List.not_mem_nil, or_false, not_or] at hc
  refine ⟨⟨c, cs, rfl, hc.1, hc.2.1⟩, fun hword => ?_⟩
  by_cases hpart : isNamePart c = true
  · rw [List.takeWhile_cons_of_pos hpart] at hword
    exact hc.2.2 (List.cons.inj hword).1
  · rw [List.takeWhile_cons_of_neg hpart] at hword
    cases hword

theorem unsigned_of_isDigit {c : Char} (hc : isDigit c = true) (cs : List Char) :
    Unsigned (c :: cs) := by
  have hmarks : isDigit '-' = false ∧ isDigit '+' = false ∧ isDigit 'n' = false := by decide
  apply unsigned_cons
  simp only [List.mem_cons, List.not_mem_nil, or_false]
  rintro (rfl | rfl | rfl) <;>
    simp [hmarks] at hc

theorem IsName.unsigned {name : String} (h : IsName name) : Unsigned name.toList := by
  obtain ⟨c, cs, hchars, hc⟩ := h.exists_head
  have hmarks : isNameStart '-' = false ∧ isNameStart '+' = false := by decide
  refine ⟨⟨c, cs, hchars, ?_, ?_⟩, ?_⟩
  · rintro rfl
    simp [hmarks] at hc
  · rintro rfl
    simp [hmarks] at hc
  · rw [takeWhile_of_isNamePart h.isNamePart_of_mem]
    intro hword
    have hnot : ¬ IsName "not" := by decide
    exact hnot (String.toList_injective hword ▸ h)

/-! ### Numbers -/

theorem signed_minus (cs : List Char) : Signed ('-' :: cs) := ⟨.sign true, cs, rfl⟩

theorem signed_toString_int {value : Int} (h : value < 0) : Signed (toString value).toList := by
  rw [Int.toString_eq_repr, Int.repr_eq_if, if_neg (Int.not_le.2 h), String.toList_append]
  exact signed_minus _

theorem unsigned_toString_int {value : Int} (h : 0 ≤ value) :
    Unsigned (toString value).toList := by
  rw [Int.toString_eq_repr, Int.repr_eq_if, if_pos h, Nat.toList_repr]
  obtain ⟨c, cs, hdigits⟩ := List.exists_cons_of_ne_nil
    (Nat.toDigits_ne_nil (n := value.toNat) (b := 10))
  have hc : isDigit c = true := isDigit_of_mem_toDigits (hdigits ▸ List.mem_cons_self)
  rw [hdigits]
  exact unsigned_of_isDigit hc cs

/-- A decimal without a power of ten begins with a digit. -/
theorem Decimal.unsigned_plain (d : Decimal) : Unsigned d.plain := by
  obtain ⟨u, v, hplain, hu, -⟩ := d.exists_plain_eq
  obtain ⟨hne, hdigits⟩ := (Rule.matches_digits_iff u).1 hu
  obtain ⟨c, u, rfl⟩ := List.exists_cons_of_ne_nil hne
  rw [hplain, List.cons_append]
  exact unsigned_of_isDigit (hdigits c List.mem_cons_self) _

namespace Binary64

variable {x : Binary64}

theorem isNaN_eq_false_of_isFinite (h : x.isFinite = true) : x.isNaN = false := by
  simp only [isFinite, bne_iff_ne] at h
  simp [isNaN, h]

/-- The sign of every number but a NaN is written. -/
theorem signed_programText (h : x.negative = true) (hnan : x.isNaN = false) :
    Signed x.programText.toList := by
  unfold programText
  split
  next =>
    rw [NumberFormat.render, if_pos h, String.toList_ofList]
    exact signed_minus _
  next =>
    rw [hnan, if_neg Bool.false_ne_true]
    exact signed_minus _

theorem unsigned_programText (h : ¬ (x.negative = true ∧ x.isNaN = false)) :
    Unsigned x.programText.toList := by
  unfold programText
  split
  next hfinite =>
    have hnan : x.isNaN = false := isNaN_eq_false_of_isFinite hfinite
    rw [NumberFormat.render, if_neg fun hneg => h ⟨hneg, hnan⟩, String.toList_ofList]
    exact Decimal.unsigned_plain _
  next =>
    split
    next => exact unsigned_cons (by decide) _
    next hnan =>
      rw [if_neg fun hneg => h ⟨hneg, Bool.eq_false_iff.2 hnan⟩]
      exact unsigned_cons (by decide) _

end Binary64

/-! ## §2 Expressions that open with a sign -/

/-- A name, or an expression that is neither a binary one nor a comparison chain.  The operators of
one operand put no parentheses around it. -/
structure Node.Simple (node : Node) : Prop where
  role : node.variant.role ∈ [.expr, .ident]
  op : node.binaryOp? = none
  chain : node.variant ≠ .eqExpr

namespace Forest

open Fragment

/-- The text of the node opens with a sign or a negation: of its own, or of an operand that a
postfix operator stands behind. -/
inductive OpensWithSign (f : Forest) : NodeId → Prop where
  | int {id : NodeId} {value : Int} (found : f.node? id = some (.intLiteral value))
      (negative : value < 0) : OpensWithSign f id
  | float {id : NodeId} {value : Binary64} (found : f.node? id = some (.floatLiteral value))
      (negative : value.negative = true) (number : value.isNaN = false) : OpensWithSign f id
  | prefixOp {id : NodeId} {u : PrefixOp} {x : Ref .expr}
      (found : f.node? id = some (u.node x)) : OpensWithSign f id
  | postfixOp {id : NodeId} {p : PostfixOp} {x : Ref .expr}
      (found : f.node? id = some (p.node x)) (operand : OpensWithSign f x.node) :
      OpensWithSign f id

variable {f : Forest} {o : LayoutOptions} {n : Nat} {id : NodeId} {node : Node}

/-- What a node has to be to open with a sign. -/
def SignInFront (f : Forest) : Node → Prop
  | .intLiteral value => value < 0
  | .floatLiteral value => value.negative = true ∧ value.isNaN = false
  | .notExpr _ | .negExpr _ _ => True
  | .transposeExpr x | .tensorReadExpr x _ | .tupleReadExpr x _ | .fieldReadExpr x _ =>
    f.OpensWithSign x.node
  | _ => False

theorem opensWithSign_iff (hnode : f.node? id = some node) :
    f.OpensWithSign id ↔ f.SignInFront node := by
  constructor
  · intro h
    cases h with
    | int found negative =>
      obtain rfl := Option.some.inj (found.symm.trans hnode)
      exact negative
    | float found negative number =>
      obtain rfl := Option.some.inj (found.symm.trans hnode)
      exact ⟨negative, number⟩
    | @prefixOp _ u x found =>
      obtain rfl := Option.some.inj (found.symm.trans hnode)
      cases u <;> trivial
    | @postfixOp _ p x found operand =>
      obtain rfl := Option.some.inj (found.symm.trans hnode)
      cases p <;> exact operand
  · intro h
    cases node with
    | intLiteral => exact .int hnode h
    | floatLiteral => exact .float hnode h.1 h.2
    | notExpr => exact .prefixOp (u := .not) hnode
    | negExpr x negate => exact .prefixOp (u := .sign negate) hnode
    | transposeExpr => exact .postfixOp (p := .transpose) hnode h
    | tensorReadExpr x indices => exact .postfixOp (p := .tensorRead indices) hnode h
    | tupleReadExpr x index => exact .postfixOp (p := .tupleRead index) hnode h
    | fieldReadExpr x name => exact .postfixOp (p := .fieldRead name) hnode h
    | _ => exact h.elim

theorem OpensWithSign.simple (h : f.OpensWithSign id) (hnode : f.node? id = some node) :
    node.Simple := by
  rw [opensWithSign_iff hnode] at h
  cases node <;>
    first
    | exact h.elim
    | exact ⟨by simp [Node.variant, Variant.role], rfl, by simp [Node.variant]⟩

/-- The text shows whether the node opens with a sign. -/
def ShowsSign (f : Forest) (id : NodeId) (cs : List Char) : Prop :=
  (f.OpensWithSign id ∧ Signed cs) ∨ (¬ f.OpensWithSign id ∧ Unsigned cs)

theorem ShowsSign.append {cs ds : List Char} (h : f.ShowsSign id cs) (hds : EndsName ds) :
    f.ShowsSign id (cs ++ ds) :=
  h.imp (fun hsign => ⟨hsign.1, hsign.2.append ds⟩) fun hsign => ⟨hsign.1, hsign.2.append hds⟩

theorem ShowsSign.signed_iff {cs : List Char} (h : f.ShowsSign id cs) :
    Signed cs ↔ f.OpensWithSign id := by
  rcases h with ⟨hopens, hsigned⟩ | ⟨hopens, hunsigned⟩
  · exact iff_of_true hsigned hopens
  · exact iff_of_false hunsigned.not_signed hopens

/-! ## §3 Texts of nodes -/

theorem wrapsAtom_eq_false_iff {x : Ref .expr} (hnode : f.node? x.node = some node)
    (hrole : node.variant.role = .expr) : f.wrapsAtom x = false ↔ node.Simple := by
  have hsimple : node.Simple ↔ node.binaryOp? = none ∧ node.variant ≠ .eqExpr :=
    ⟨fun h => ⟨h.op, h.chain⟩, fun h => ⟨by simp [hrole], h.1, h.2⟩⟩
  rw [hsimple]
  simp [wrapsAtom, operandOp?, operandIs, hnode]

/-- A base of a power is printed as it is if it is simple, and no sign or negation. -/
theorem wrapsOperand_exp_eq_false_iff {x : Ref .expr} (hnode : f.node? x.node = some node)
    (hrole : node.variant.role = .expr) :
    f.wrapsOperand .exp false x = false ↔ node.Simple ∧ ∀ (u : PrefixOp) y, node ≠ u.node y := by
  have hother : (∀ (u : PrefixOp) y, node ≠ u.node y) ↔
      node.variant ≠ .negExpr ∧ node.variant ≠ .notExpr := by
    constructor
    · intro h
      constructor
      · intro hneg
        cases node <;> cases hneg
        exact h (.sign _) _ rfl
      · intro hnot
        cases node <;> cases hnot
        exact h .not _ rfl
    · rintro ⟨hneg, hnot⟩ u y rfl
      cases u with
      | sign => exact hneg rfl
      | not => exact hnot rfl
  rw [hother, ← wrapsAtom_eq_false_iff hnode hrole]
  cases hop : node.binaryOp? with
  | none => simp [wrapsOperand, wrapsAtom, operandOp?, operandIs, hnode, hop]
  | some op =>
    -- a binary base binds looser, or it is a power, and powers do not group to the left
    simp only [wrapsOperand, wrapsAtom, operandOp?, hnode, Option.bind_some, hop]
    cases op <;> simp [BinaryOp.precedence, BinaryOp.groupsRight]

/-- The texts of simple children show whether they open with a sign. -/
def ShowsSignsBelow (f : Forest) (o : LayoutOptions) (n : Nat) (node : Node) : Prop :=
  ∀ {role : Role} (r : Ref role), r.slot ∈ node.slots →
    (∃ filler, f.node? r.node = some filler ∧ filler.Simple) →
      f.Spells o n (f.ShowsSign r.node) [ofRef r]

/-- What stands in parentheses begins with no sign. -/
theorem Spells.inParens_unsigned {fragments : List Fragment} {P : List Char → Prop}
    (h : f.Spells o n P fragments) : f.Spells o n Unsigned (Fragment.inParens fragments) :=
  h.between fun _ _ => unsigned_cons (by decide) _

theorem exists_operand (hf : f.Fitted) (hnode : f.node? id = some node) {x : Ref .expr}
    (hx : x.slot ∈ node.slots) :
    ∃ filler, f.node? x.node = some filler ∧ filler.variant.role = .expr :=
  hf.exists_filler hnode hx fun other => by cases other <;> simp [Role.wider?]

/-- The operand of a postfix operator, in parentheses or not. -/
theorem spells_postfixOp_sign {p : PostfixOp} {x : Ref .expr} (hf : f.Fitted)
    (hnode : f.node? id = some (p.node x)) (h : f.SuitsBelow o n (p.node x))
    (hsigns : f.ShowsSignsBelow o n (p.node x)) (branch : Branch) :
    f.Spells o n (f.ShowsSign id) (f.fragments branch id (p.node x)) := by
  have hslot := slot_mem_postfixOp p x
  obtain ⟨filler, hfiller, hrole⟩ := exists_operand hf hnode hslot
  have hoperand : f.Spells o n (f.ShowsSign x.node) (operand (f.wrapsAtom x) x) := by
    have hsimple := wrapsAtom_eq_false_iff hfiller hrole
    cases hwraps : f.wrapsAtom x with
    | false => exact hsigns x hslot ⟨filler, hfiller, hsimple.1 hwraps⟩
    | true =>
      -- what gets parentheses opens with no sign of its own
      refine (h.expr hslot).inParens_unsigned.imp fun cs hcs => .inr ⟨fun hopens => ?_, hcs⟩
      rw [hsimple.2 (hopens.simple hfiller)] at hwraps
      cases hwraps
  have hopens : f.OpensWithSign id ↔ f.OpensWithSign x.node := by
    rw [opensWithSign_iff hnode]
    cases p <;> rfl
  rw [fragments_postfixOp]
  refine hoperand.append (spells_back h) fun cs ds hcs hds => ?_
  rw [ShowsSign, hopens]
  exact hcs.append hds.endsName

/-- The text of a simple node shows whether it opens with a sign. -/
theorem spells_sign (hf : f.Fitted) (hnode : f.node? id = some node) (hsimple : node.Simple)
    (hnames : ∀ name ∈ node.names, IsName name) (h : f.SuitsBelow o n node)
    (hsigns : f.ShowsSignsBelow o n node) (branch : Branch) :
    f.Spells o n (f.ShowsSign id) (f.fragments branch id node) := by
  have hopens := opensWithSign_iff hnode
  cases node with
  | identifier name | varExpr name =>
    exact spells_text (.inr ⟨hopens.1, (hnames name (by simp [Node.names])).unsigned⟩)
  | intLiteral value =>
    refine spells_text ?_
    by_cases hneg : value < 0
    · exact .inl ⟨hopens.2 hneg, signed_toString_int hneg⟩
    · exact .inr ⟨mt hopens.1 hneg, unsigned_toString_int (Int.not_lt.1 hneg)⟩
  | floatLiteral value =>
    refine spells_text ?_
    by_cases hneg : value.negative = true ∧ value.isNaN = false
    · exact .inl ⟨hopens.2 hneg, Binary64.signed_programText hneg.1 hneg.2⟩
    · exact .inr ⟨mt hopens.1 hneg, Binary64.unsigned_programText hneg⟩
  | boolLiteral value =>
    cases value <;> exact spells_text (.inr ⟨hopens.1, unsigned_cons (by decide) _⟩)
  | denseTensorLiteral tensor transposed =>
    have hbrackets : f.Spells o n Unsigned [text "[", ofRef tensor, text "]"] :=
      (h.inside (r := tensor) (by simp [Node.slots]) (by decide)).between
        fun _ _ => unsigned_cons (by decide) _
    exact hbrackets.append (spells_transposed transposed) fun _ _ hcs hds =>
      .inr ⟨hopens.1, hcs.append hds.endsName⟩
  | parenExpr expr =>
    have hexpr := h.inside (r := expr) (by simp [Node.slots]) (by decide)
    exact hexpr.inParens_unsigned.imp fun _ hcs => .inr ⟨hopens.1, hcs⟩
  | notExpr expr =>
    exact (h.expr (by simp [Node.slots])).operand.text_cons fun cs _ =>
      .inl ⟨hopens.2 trivial, .not, cs, rfl⟩
  | negExpr expr negate =>
    exact (h.expr (by simp [Node.slots])).operand.text_cons fun cs _ =>
      .inl ⟨hopens.2 trivial, .sign negate, cs, rfl⟩
  | transposeExpr expr => exact spells_postfixOp_sign (p := .transpose) hf hnode h hsigns branch
  | tensorReadExpr tensor indices =>
    exact spells_postfixOp_sign (p := .tensorRead indices) hf hnode h hsigns branch
  | tupleReadExpr tuple index =>
    exact spells_postfixOp_sign (p := .tupleRead index) hf hnode h hsigns branch
  | fieldReadExpr base name =>
    exact spells_postfixOp_sign (p := .fieldRead name) hf hnode h hsigns branch
  | callExpr func args =>
    -- the name of what is called stands first
    have hslot : func.slot ∈ (Node.callExpr func args).slots := by simp [Node.slots]
    obtain ⟨filler, hfiller, hrole⟩ :=
      hf.exists_filler hnode hslot fun other => by cases other <;> simp [Role.wider?]
    have hfunc : filler.Simple ∧ ¬ f.OpensWithSign func.node := by
      rw [opensWithSign_iff hfiller]
      cases filler with
      | identifier =>
        exact ⟨⟨by simp [Node.variant, Variant.role], rfl, by simp [Node.variant]⟩, False.elim⟩
      | callable kind => cases kind <;> cases hrole
      | _ => cases hrole
    have hargs := h.args args (by simp [Node.slots]; grind) (by decide)
    refine (hsigns func hslot ⟨filler, hfiller, hfunc.1⟩).append hargs fun cs ds hcs hds => ?_
    obtain ⟨hsign, -⟩ | ⟨-, hunsigned⟩ := hcs
    · exact (hfunc.2 hsign).elim
    · exact .inr ⟨hopens.1, hunsigned.append hds.2.endsName⟩
  | mapExpr =>
    refine (spells_map h branch id).imp fun cs hcs => .inr ⟨hopens.1, ?_⟩
    obtain ⟨-, rest, rfl⟩ := hcs
    exact unsigned_cons (by decide) _
  | binary op => cases hsimple.op
  | eqExpr => exact (hsimple.chain rfl).elim
  | callable kind => cases kind <;> simpa [Node.variant, Variant.role] using hsimple.role
  | _ => simpa [Node.variant, Variant.role] using hsimple.role

/-- The places of a node are filled by nodes that show their signs if they are simple. -/
theorem ShowsSignsBelow.of_fillers
    (h : ∀ child ∈ node.children, ∀ filler, f.node? child = some filler → filler.Simple →
      ∃ cs, (∀ page : Page, f.writeWithin o n .opening child page =
        .ok (page.write o (String.ofList cs))) ∧ f.ShowsSign child cs) :
    f.ShowsSignsBelow o n node := by
  intro role r hr hfiller
  obtain ⟨filler, hfiller, hsimple⟩ := hfiller
  obtain ⟨cs, hwrites, hcs⟩ := h r.node (List.mem_map.2 ⟨r.slot, hr, rfl⟩) filler hfiller hsimple
  exact ⟨cs, writes_ofRef hwrites, hcs⟩

/-- What lies below a node within a line suits its place. -/
theorem WellFormed.suitsBelow (h : f.WellFormed) (hf : f.Fitted) (hnames : f.Named)
    (hnode : f.node? id = some node) (hn : id.index ≤ n) : f.SuitsBelow o n node :=
  SuitsBelow.of_fillers hf hnode fun _ hchild _ hfiller hinline =>
    h.exists_inline hf hnames hfiller hinline
      (Nat.lt_of_lt_of_le (h.child_lt ⟨node, hnode, hchild⟩) hn)

/-- The text of every simple node shows whether it opens with a sign. -/
theorem WellFormed.exists_sign (h : f.WellFormed) (hf : f.Fitted) (hnames : f.Named)
    (hnode : f.node? id = some node) (hsimple : node.Simple) (hn : id.index < n) :
    ∃ cs, (∀ page : Page, f.writeWithin o n .opening id page =
      .ok (page.write o (String.ofList cs))) ∧ f.ShowsSign id cs := by
  -- the operand of a postfix operator is written on one level less
  induction n generalizing id node with
  | zero => cases hn
  | succ n ih =>
    have hle : id.index ≤ n := Nat.le_of_lt_succ hn
    have hsigns : f.ShowsSignsBelow o n node := by
      refine ShowsSignsBelow.of_fillers fun child hchild filler hfiller hsimple => ?_
      exact ih hfiller hsimple (Nat.lt_of_lt_of_le (h.child_lt ⟨node, hnode, hchild⟩) hle)
    obtain ⟨cs, hwrites, hcs⟩ := spells_sign hf hnode hsimple (hnames id node hnode)
      (h.suitsBelow hf hnames hnode hle) hsigns .opening
    refine ⟨cs, fun page => ?_, hcs⟩
    rw [writeWithin_succ hnode]
    exact hwrites page

/-! ## §4 Powers -/

/-- A power begins with a sign if its base does and is printed as it is. -/
theorem spells_power {base exponent : Ref .expr} (hf : f.Fitted)
    (hnode : f.node? id = some (.binary .exp base exponent))
    (h : f.SuitsBelow o n (.binary .exp base exponent))
    (hsigns : f.ShowsSignsBelow o n (.binary .exp base exponent)) (branch : Branch) :
    f.Spells o n
      (fun cs => Signed cs ↔
        f.OpensWithSign base.node ∧ ∀ (u : PrefixOp) x, f.node? base.node ≠ some (u.node x))
      (f.fragments branch id (.binary .exp base exponent)) := by
  have hslot : base.slot ∈ (Node.binary .exp base exponent).slots := by simp [Node.slots]
  obtain ⟨filler, hfiller, hrole⟩ := exists_operand hf hnode hslot
  have hwraps := wrapsOperand_exp_eq_false_iff hfiller hrole
  have hexponent : f.Spells o n (Phrase false)
      (operand (f.wrapsOperand .exp true exponent) exponent) :=
    (h.expr (r := exponent) (by simp [Node.slots])).operand.imp fun _ hcs => hcs.phrase
  have hspaced : Phrase false (' ' :: (BinaryOp.exp.spelling.toList ++ [' '])) :=
    .of_all (by decide)
  have hrest := spells_operator hspaced hexponent
  rw [fragments, List.append_assoc]
  simp only [hfiller, ne_eq, Option.some.injEq]
  by_cases hbare : f.wrapsOperand .exp false base = false
  -- the text of the base stands first, or a parenthesis does
  · obtain ⟨hsimple, hother⟩ := hwraps.1 hbare
    rw [hbare]
    refine (hsigns base hslot ⟨filler, hfiller, hsimple⟩).append hrest fun cs ds hcs hds => ?_
    rw [(hcs.append hds.endsName).signed_iff]
    exact ⟨fun hopens => ⟨hopens, hother⟩, And.left⟩
  · rw [Bool.not_eq_false] at hbare
    rw [hbare]
    refine (h.expr hslot).inParens_unsigned.append hrest fun cs ds hcs hds => ?_
    apply iff_of_false (hcs.append hds.endsName).not_signed
    rintro ⟨hopens, hother⟩
    rw [hwraps.2 ⟨hopens.simple hfiller, hother⟩] at hbare
    cases hbare

theorem WellFormed.print_power (h : f.WellFormed) (hf : f.Fitted) (hnames : f.Named)
    {base exponent : Ref .expr} (hnode : f.node? id = some (.binary .exp base exponent))
    (o : LayoutOptions) :
    ∃ text, f.print o id = .ok text ∧
      (Signed text.toList ↔
        f.OpensWithSign base.node ∧ ∀ (u : PrefixOp) x, f.node? base.node ≠ some (u.node x)) := by
  have hlt : id.index < f.size := lt_size_of_node? hnode
  have hsigns : f.ShowsSignsBelow o f.size (.binary .exp base exponent) := by
    refine ShowsSignsBelow.of_fillers fun child hchild filler hfiller hsimple => ?_
    exact h.exists_sign hf hnames hfiller hsimple
      (Nat.lt_trans (h.child_lt ⟨_, hnode, hchild⟩) hlt)
  obtain ⟨cs, hwrites, hcs⟩ := spells_power hf hnode
    (h.suitsBelow hf hnames hnode (Nat.le_of_lt hlt)) hsigns .opening
  refine ⟨String.ofList cs, ?_, by rwa [String.toList_ofList]⟩
  rw [print, depthBound, writeWithin_succ hnode, hwrites {}]
  exact congrArg Except.ok (Page.text_write_new o (String.ofList cs))

end Forest

/-! ## §5 Sessions -/

namespace Session

/-- In a session that is built with its own handles, with names that are scanned as identifiers, a
power is printed, and its text begins with a sign or a negation if and only if its base opens with
one without being one. -/
theorem print_power_of_run {cs : List Change} (hcs : start.OwnHandles cs)
    (hnames : (start.run cs).forest.Named) {id : NodeId} {base exponent : Ref .expr}
    (hid : (start.run cs).forest.node? id = some (.binary .exp base exponent))
    (o : LayoutOptions) :
    ∃ text, (start.run cs).forest.print o id = .ok text ∧
      (Signed text.toList ↔
        (start.run cs).forest.OpensWithSign base.node ∧
          ∀ (u : PrefixOp) x, (start.run cs).forest.node? base.node ≠ some (u.node x)) :=
  (sound_run cs).admitted.wellFormed.print_power (fitted_run hcs) hnames hid o

/-- The square of a negative number. -/
def squareOfNegative : List Change :=
  [.insert ⟨⟨1, 1⟩, ⟨1, 2⟩⟩ (.intLiteral (-1)),
    .insert ⟨⟨1, 6⟩, ⟨1, 6⟩⟩ (.intLiteral 2),
    .insert ⟨⟨1, 1⟩, ⟨1, 6⟩⟩ (.binary .exp ⟨⟨0⟩⟩ ⟨⟨1⟩⟩)]

theorem own_squareOfNegative :
    start.OwnHandles squareOfNegative ∧ (start.run squareOfNegative).forest.Named := by
  refine ⟨by decide, forall_node_run ?_⟩
  simp [squareOfNegative, Change.AddsOnly, Node.names]

/-- Whatever the options are, its text begins with the sign of the number. -/
theorem signed_squareOfNegative :
    (start.OwnHandles squareOfNegative ∧ (start.run squareOfNegative).forest.Named) ∧
      (start.run squareOfNegative).forest.node? ⟨2⟩ = some (.binary .exp ⟨⟨0⟩⟩ ⟨⟨1⟩⟩) ∧
      ∀ o, ∃ text, (start.run squareOfNegative).forest.print o ⟨2⟩ = .ok text ∧
        Signed text.toList := by
  obtain ⟨hown, hnames⟩ := own_squareOfNegative
  have hbase : (start.run squareOfNegative).forest.node? ⟨0⟩ = some (.intLiteral (-1)) := rfl
  have hpower : (start.run squareOfNegative).forest.node? ⟨2⟩ =
      some (.binary .exp ⟨⟨0⟩⟩ ⟨⟨1⟩⟩) := rfl
  refine ⟨⟨hown, hnames⟩, hpower, fun o => ?_⟩
  obtain ⟨text, hprint, hiff⟩ := print_power_of_run hown hnames hpower o
  refine ⟨text, hprint, hiff.2 ⟨.int hbase (by decide), fun u x heq => ?_⟩⟩
  rw [hbase, Option.some.injEq] at heq
  cases u <;> cases heq

/-- Powers that begin with a sign exist, although a sign in front of a power is not a part of its
base. -/
theorem not_forall_not_signed_power :
    ¬ ∀ (cs : List Change), start.OwnHandles cs → (start.run cs).forest.Named →
      ∀ (id : NodeId) (base exponent : Ref .expr),
        (start.run cs).forest.node? id = some (.binary .exp base exponent) →
        ∀ o text, (start.run cs).forest.print o id = .ok text → ¬ Signed text.toList := by
  intro h
  obtain ⟨hown, hnames⟩ := own_squareOfNegative
  have htext : (start.run squareOfNegative).forest.print {} ⟨2⟩ = .ok "-1 ^ 2" := by
    decide +kernel
  have hunsigned := h squareOfNegative hown hnames ⟨2⟩ ⟨⟨0⟩⟩ ⟨⟨1⟩⟩ rfl {} "-1 ^ 2" htext
  exact hunsigned (signed_minus "1 ^ 2".toList)

end Session

end TensorTree
