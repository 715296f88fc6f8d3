import TensorTree.Proofs.Expr.Reader

/-!
# Reading printed expressions

Started on the script of a plain tree, a reader ends with the bare tree
(`Expr.Plain.read_script`).  The printer leaves out the parentheses of an operand only where the
frame that waits for the operand is not closed by what the operand consists of, and where the
operand ends in front of the lexeme behind it (`Expr.Under`, `Expr.bound`).
-/

namespace TensorTree

/-! ## §1 Operands without parentheses -/

namespace BinaryOp

theorem precedence_le_exp (op : BinaryOp) : op.precedence ≤ exp.precedence := by
  cases op <;> decide

theorem bound_le_exp (op : BinaryOp) : op.bound ≤ exp.bound := by
  cases op <;> decide

theorem bound_exp_le : exp.bound ≤ exp.precedence := by decide

theorem precedence_le_of_ne_exp {op : BinaryOp} (h : op ≠ exp) : op.precedence ≤ exp.bound := by
  cases op <;> first | decide | exact absurd rfl h

/-- An operation that stands without parentheses on the left ends in front of the operator. -/
theorem precedence_le_bound {op inner : BinaryOp} (hlt : ¬ inner.precedence < op.precedence)
    (hside : (inner.precedence == op.precedence && false != op.groupsRight) = false) :
    op.precedence ≤ inner.bound := by
  revert hlt hside
  cases op <;> cases inner <;> decide

/-- An operation that stands without parentheses on the right binds tighter than the operator that
waits, and it ends no sooner. -/
theorem bound_lt_precedence {op inner : BinaryOp} (hlt : ¬ inner.precedence < op.precedence)
    (hside : (inner.precedence == op.precedence && true != op.groupsRight) = false) :
    op.bound < inner.precedence ∧ op.bound ≤ inner.bound := by
  revert hlt hside
  cases op <;> cases inner <;> decide

end BinaryOp

namespace Expr

/-- No frame is closed by the outermost operator of a tree. -/
def Under (frames : List Frame) : Expr → Prop
  | binary op _ _ => Holds frames op.precedence
  | chain _ _ => Holds frames ComparisonOp.precedence
  | _ => True

/-- The highest strength of a lexeme that the text of a tree ends in front of. -/
def bound : Expr → Nat
  | binary op _ _ => op.bound
  | chain _ _ => ComparisonOp.precedence
  | not _ | sign _ _ => BinaryOp.exp.bound
  | _ => BinaryOp.exp.precedence

variable {op : BinaryOp} {e : Expr} {frames : List Frame}

/-- A left operand without parentheses ends in front of the operator. -/
theorem under_of_lhs (h : e.wrapsOperand op false = false)
    (hframes : Holds frames op.precedence) : e.Under frames ∧ op.precedence ≤ e.bound := by
  cases e with
  | binary inner lhs rhs =>
    simp only [wrapsOperand, op?, Bool.or_eq_false_iff, decide_eq_false_iff_not] at h
    -- what waits for the operation waits all the more for one that binds tighter
    exact ⟨hframes.mono (Nat.le_of_not_lt h.1), BinaryOp.precedence_le_bound h.1 h.2⟩
  | chain => simp [wrapsOperand, op?, isChain] at h
  | not | sign =>
    -- in front of a power they would take the power for their operand
    have hne : op ≠ .exp := by simpa [wrapsOperand, op?, isChain, isPrefixed] using h
    exact ⟨trivial, BinaryOp.precedence_le_of_ne_exp hne⟩
  | _ => exact ⟨trivial, op.precedence_le_exp⟩

/-- A right operand without parentheses ends no sooner than the operation. -/
theorem under_of_rhs (h : e.wrapsOperand op true = false) (lhs : Expr) :
    e.Under (.binary op lhs :: frames) ∧ op.bound ≤ e.bound := by
  cases e with
  | binary inner _ _ =>
    simp only [wrapsOperand, op?, Bool.or_eq_false_iff, decide_eq_false_iff_not] at h
    obtain ⟨hlt, hle⟩ := BinaryOp.bound_lt_precedence h.1 h.2
    exact ⟨by simp [Under, Holds, Frame.yields, hlt], hle⟩
  | chain => simp [wrapsOperand, op?, isChain] at h
  | not | sign => exact ⟨trivial, op.bound_le_exp⟩
  | _ => exact ⟨trivial, Nat.le_trans op.bound_le_exp BinaryOp.bound_exp_le⟩

/-- An operand of a chain without parentheses ends in front of a comparison. -/
theorem under_of_comparand (h : e.wrapsComparand = false)
    (hframes : Holds frames (ComparisonOp.precedence + 1)) :
    e.Under frames ∧ ComparisonOp.precedence + 1 ≤ e.bound := by
  cases e with
  | binary inner _ _ =>
    have hlt : ¬ inner.precedence < ComparisonOp.precedence := by
      simpa [wrapsComparand, isChain, op?] using h
    have hle : ComparisonOp.precedence + 1 ≤ inner.precedence ∧
        ComparisonOp.precedence + 1 ≤ inner.bound := by
      revert hlt
      cases inner <;> decide
    exact ⟨hframes.mono hle.1, hle.2⟩
  | chain => simp [wrapsComparand, isChain] at h
  | not | sign => exact ⟨trivial, by show _ ≤ BinaryOp.exp.bound; decide⟩
  | _ => exact ⟨trivial, by show _ ≤ BinaryOp.exp.precedence; decide⟩

/-- An operand of a sign or a negation without parentheses ends no sooner than these. -/
theorem under_of_atom (h : e.wrapsAtom = false) :
    e.Under frames ∧ BinaryOp.exp.bound ≤ e.bound := by
  cases e with
  | binary => simp [wrapsAtom, op?] at h
  | chain => simp [wrapsAtom, isChain] at h
  | not | sign => exact ⟨trivial, Nat.le_refl _⟩
  | _ => exact ⟨trivial, BinaryOp.bound_exp_le⟩

end Expr

/-! ## §2 Reading scripts -/

namespace Glyph

@[simp] theorem lexemesOf_space (gs : List Glyph) : lexemesOf (space :: gs) = lexemesOf gs := rfl

@[simp] theorem lexemesOf_ofMark (mark : Mark) (gs : List Glyph) :
    lexemesOf (ofMark mark :: gs) = ⟨.mark mark, mark.spelling.toList⟩ :: lexemesOf gs := rfl

@[simp] theorem lexemesOf_ofWord (word : Word) (gs : List Glyph) :
    lexemesOf (ofWord word :: gs) = ⟨.word word, word.spelling.toList⟩ :: lexemesOf gs := rfl

@[simp] theorem lexemesOf_ofName (name : String) (gs : List Glyph) :
    lexemesOf (ofName name :: gs) = ⟨.ident, name.toList⟩ :: lexemesOf gs := rfl

@[simp] theorem lexemesOf_ofInt (value : Int) (gs : List Glyph) :
    lexemesOf (ofInt value :: gs) = ⟨.int, (ofInt value).chars⟩ :: lexemesOf gs := rfl

/-- Spaces around an operator leave no lexemes. -/
theorem lexemesOf_operator (g : Glyph) (gs : List Glyph) :
    lexemesOf ([space, g, space] ++ gs) = lexemesOf [g] ++ lexemesOf gs := by
  have hsplit := lexemesOf_append [g] (space :: gs)
  rwa [lexemesOf_space] at hsplit

end Glyph

/-- In front of all that its lexemes do not go on with, the script of a tree is read as the bare
tree, whatever waits for it. -/
def Expr.Reads (e : Expr) : Prop :=
  ∀ (frames : List Frame) (rest : List Lexeme), e.Under frames → headStrength rest ≤ e.bound →
    GoesOn rest →
      Reader.run ⟨frames, .operand⟩ (Glyph.lexemesOf e.script ++ rest) =
        Reader.run ⟨frames, .value e.bare⟩ rest

namespace Expr

open Glyph Reader

variable {e : Expr} {frames : List Frame} {rest : List Lexeme}

theorem goesOn_parenClose (chars : List Char) (rest : List Lexeme) :
    GoesOn (⟨.mark .parenClose, chars⟩ :: rest) := by
  simp [GoesOn]

/-- Parentheses are read away. -/
theorem Reads.inParens (h : e.Reads) :
    run ⟨frames, .operand⟩ (lexemesOf (Glyph.inParens e.script) ++ rest) =
      run ⟨frames, .value e.bare⟩ rest := by
  -- nothing inside of parentheses closes them
  have hunder : e.Under (.paren :: frames) := by
    cases e <;> simp [Under, Holds, Frame.yields]
  have hinner := h (.paren :: frames) (⟨.mark .parenClose, Mark.parenClose.spelling.toList⟩ :: rest)
    hunder (Nat.zero_le _) (goesOn_parenClose _ _)
  have hsettle : settle 0 (.paren :: frames) e.bare = (.paren :: frames, e.bare) := by
    simp [settle, Frame.yields]
  calc run ⟨frames, .operand⟩ (lexemesOf (Glyph.inParens e.script) ++ rest)
      = run ⟨.paren :: frames, .operand⟩ (lexemesOf e.script ++
          ⟨.mark .parenClose, Mark.parenClose.spelling.toList⟩ :: rest) := by
        simp [Glyph.inParens, run, step, stepOperand]
    _ = run ⟨.paren :: frames, .value e.bare⟩
          (⟨.mark .parenClose, Mark.parenClose.spelling.toList⟩ :: rest) := hinner
    _ = run ⟨frames, .value e.bare⟩ rest := by
        simp [run, step, stepValue, stepSettled, TokenKind.strength, TokenKind.binaryOp?,
          TokenKind.comparisonOp?, hsettle]

/-- An operand is read, in parentheses or where none are needed. -/
theorem Reads.wrapIf (h : e.Reads) {needsParens : Bool} (hgoes : GoesOn rest)
    (hunder : needsParens = false → e.Under frames ∧ headStrength rest ≤ e.bound) :
    run ⟨frames, .operand⟩ (lexemesOf (Glyph.wrapIf needsParens e.script) ++ rest) =
      run ⟨frames, .value e.bare⟩ rest := by
  cases needsParens with
  | false => exact h frames rest (hunder rfl).1 (hunder rfl).2 hgoes
  | true => exact h.inParens

theorem headStrength_binaryOp (op : BinaryOp) (rest : List Lexeme) :
    headStrength (lexemesOf [op.glyph] ++ rest) = op.precedence ∧
      GoesOn (lexemesOf [op.glyph] ++ rest) := by
  cases op <;> exact ⟨rfl, by simp [GoesOn, lexemesOf, lexeme?, BinaryOp.glyph, ofMark, ofWord]⟩

theorem headStrength_comparisonOp (op : ComparisonOp) (rest : List Lexeme) :
    headStrength (lexemesOf [op.glyph] ++ rest) = ComparisonOp.precedence + 1 ∧
      GoesOn (lexemesOf [op.glyph] ++ rest) := by
  cases op <;> exact ⟨rfl, by simp [GoesOn, lexemesOf, lexeme?, ComparisonOp.glyph, ofMark]⟩

theorem Reads.binary {op : BinaryOp} {lhs rhs : Expr} (hlhs : lhs.Reads) (hrhs : rhs.Reads) :
    (binary op lhs rhs).Reads := by
  intro frames rest hunder hbound hgoes
  have hop := headStrength_binaryOp op
    (lexemesOf (Glyph.wrapIf (rhs.wrapsOperand op true) rhs.script) ++ rest)
  calc run ⟨frames, .operand⟩ (lexemesOf (Expr.binary op lhs rhs).script ++ rest)
      = run ⟨frames, .operand⟩
          (lexemesOf (Glyph.wrapIf (lhs.wrapsOperand op false) lhs.script) ++
            (lexemesOf [op.glyph] ++
              (lexemesOf (Glyph.wrapIf (rhs.wrapsOperand op true) rhs.script) ++ rest))) := by
        simp only [script, List.append_assoc, lexemesOf_append _ (_ ++ _), lexemesOf_operator]
    _ = run ⟨frames, .value lhs.bare⟩ (lexemesOf [op.glyph] ++
          (lexemesOf (Glyph.wrapIf (rhs.wrapsOperand op true) rhs.script) ++ rest)) := by
        refine hlhs.wrapIf hop.2 fun hwraps => ?_
        rw [hop.1]
        exact under_of_lhs hwraps hunder
    _ = run ⟨.binary op lhs.bare :: frames, .operand⟩
          (lexemesOf (Glyph.wrapIf (rhs.wrapsOperand op true) rhs.script) ++ rest) :=
        run_binaryOp hunder lhs.bare _
    _ = run ⟨.binary op lhs.bare :: frames, .value rhs.bare⟩ rest := by
        refine hrhs.wrapIf hgoes fun hwraps => ?_
        have hrest := @under_of_rhs op rhs frames hwraps lhs.bare
        exact ⟨hrest.1, Nat.le_trans hbound hrest.2⟩
    _ = run ⟨frames, .value (Expr.binary op lhs rhs).bare⟩ rest :=
        run_close (decide_eq_true hbound) hgoes

/-- The operands that a chain waits for are read, each with the comparison in front of it. -/
theorem run_links {es : List Expr} {ops : List ComparisonOp} (he : e.Reads)
    (hes : ∀ x ∈ es, x.Reads) (hlength : es.length = ops.length)
    (hbound : headStrength rest ≤ ComparisonOp.precedence) (hgoes : GoesOn rest)
    (done : List Expr) (doneOps : List ComparisonOp) :
    run ⟨.chain done doneOps :: frames, .operand⟩
        (lexemesOf (Glyph.wrapIf e.wrapsComparand e.script) ++
          (lexemesOf (links (scripts wrapsComparand es) ops) ++ rest)) =
      run ⟨frames, .value (.chain (done ++ (e :: es).map bare) (doneOps ++ ops))⟩ rest := by
  have hholds : Holds (.chain done doneOps :: frames) (ComparisonOp.precedence + 1) := by
    simp [Holds, Frame.yields]
  -- each operand is moved into the frame, so the frame changes along the induction
  induction es generalizing e ops done doneOps with
  | nil =>
    obtain rfl : ops = [] := List.eq_nil_of_length_eq_zero hlength.symm
    calc run ⟨.chain done doneOps :: frames, .operand⟩
          (lexemesOf (Glyph.wrapIf e.wrapsComparand e.script) ++ rest)
        = run ⟨.chain done doneOps :: frames, .value e.bare⟩ rest := by
          refine he.wrapIf hgoes fun hwraps => ?_
          obtain ⟨hunder, hle⟩ := under_of_comparand hwraps hholds
          exact ⟨hunder, by omega⟩
      _ = run ⟨frames, .value (.chain (done ++ [e.bare]) doneOps)⟩ rest :=
          run_close (decide_eq_true hbound) hgoes
      _ = run ⟨frames, .value (.chain (done ++ [e].map bare) (doneOps ++ []))⟩ rest := by
          rw [List.append_nil]
          rfl
  | cons x es ih =>
    cases ops with
    | nil => cases hlength
    | cons op ops =>
      rw [List.forall_mem_cons] at hes
      have hop := headStrength_comparisonOp op
        (lexemesOf (Glyph.wrapIf x.wrapsComparand x.script) ++
          (lexemesOf (links (scripts wrapsComparand es) ops) ++ rest))
      have hnext : Holds (.chain (done ++ [e.bare]) (doneOps ++ [op]) :: frames)
          (ComparisonOp.precedence + 1) := by
        simp [Holds, Frame.yields]
      calc run ⟨.chain done doneOps :: frames, .operand⟩
            (lexemesOf (Glyph.wrapIf e.wrapsComparand e.script) ++
              (lexemesOf (links (scripts wrapsComparand (x :: es)) (op :: ops)) ++ rest))
          = run ⟨.chain done doneOps :: frames, .operand⟩
            (lexemesOf (Glyph.wrapIf e.wrapsComparand e.script) ++
              (lexemesOf [op.glyph] ++ (lexemesOf (Glyph.wrapIf x.wrapsComparand x.script) ++
                (lexemesOf (links (scripts wrapsComparand es) ops) ++ rest)))) := by
            simp only [links, scripts, List.append_assoc, lexemesOf_operator,
              lexemesOf_append _ (links _ _)]
        _ = run ⟨.chain done doneOps :: frames, .value e.bare⟩
            (lexemesOf [op.glyph] ++ (lexemesOf (Glyph.wrapIf x.wrapsComparand x.script) ++
              (lexemesOf (links (scripts wrapsComparand es) ops) ++ rest))) := by
            refine he.wrapIf hop.2 fun hwraps => ?_
            rw [hop.1]
            exact under_of_comparand hwraps hholds
        _ = run ⟨.chain (done ++ [e.bare]) (doneOps ++ [op]) :: frames, .operand⟩
            (lexemesOf (Glyph.wrapIf x.wrapsComparand x.script) ++
              (lexemesOf (links (scripts wrapsComparand es) ops) ++ rest)) :=
            run_comparisonOp hholds e.bare _
        _ = run ⟨frames, .value (.chain (done ++ [e.bare] ++ (x :: es).map bare)
            (doneOps ++ [op] ++ ops))⟩ rest :=
            ih hes.1 hes.2 (Nat.succ.inj hlength) _ _ hnext
        _ = run ⟨frames, .value (.chain (done ++ (e :: x :: es).map bare)
            (doneOps ++ op :: ops))⟩ rest := by
            simp

theorem Reads.chain {operands : List Expr} {ops : List ComparisonOp}
    (hoperands : ∀ x ∈ operands, x.Reads) (hlength : operands.length = ops.length + 1)
    (hops : ops ≠ []) : (chain operands ops).Reads := by
  intro frames rest hunder hbound hgoes
  obtain ⟨op, ops, rfl⟩ := List.exists_cons_of_ne_nil hops
  match operands, hlength with
  | e :: x :: es, hlength =>
    simp only [List.forall_mem_cons] at hoperands
    obtain ⟨he, hx, hes⟩ := hoperands
    have hholds : Holds frames (ComparisonOp.precedence + 1) :=
      Holds.mono hunder (Nat.le_succ ComparisonOp.precedence)
    have hop := headStrength_comparisonOp op
      (lexemesOf (Glyph.wrapIf x.wrapsComparand x.script) ++
        (lexemesOf (links (scripts wrapsComparand es) ops) ++ rest))
    calc run ⟨frames, .operand⟩ (lexemesOf (Expr.chain (e :: x :: es) (op :: ops)).script ++ rest)
        = run ⟨frames, .operand⟩ (lexemesOf (Glyph.wrapIf e.wrapsComparand e.script) ++
          (lexemesOf [op.glyph] ++ (lexemesOf (Glyph.wrapIf x.wrapsComparand x.script) ++
            (lexemesOf (links (scripts wrapsComparand es) ops) ++ rest)))) := by
          simp only [script, chained, links, scripts, List.append_assoc, lexemesOf_operator,
            lexemesOf_append _ (links _ _), lexemesOf_append _ ([space, op.glyph, space] ++ _)]
      _ = run ⟨frames, .value e.bare⟩ (lexemesOf [op.glyph] ++
          (lexemesOf (Glyph.wrapIf x.wrapsComparand x.script) ++
            (lexemesOf (links (scripts wrapsComparand es) ops) ++ rest))) := by
          refine he.wrapIf hop.2 fun hwraps => ?_
          rw [hop.1]
          exact under_of_comparand hwraps hholds
      _ = run ⟨.chain [e.bare] [op] :: frames, .operand⟩
          (lexemesOf (Glyph.wrapIf x.wrapsComparand x.script) ++
            (lexemesOf (links (scripts wrapsComparand es) ops) ++ rest)) := by
          rw [run_comparisonOp hholds, compareWith_of_holds hunder]
      _ = run ⟨frames, .value (.chain ([e.bare] ++ (x :: es).map bare) ([op] ++ ops))⟩ rest :=
          run_links hx hes (by simpa using hlength) hbound hgoes _ _
      _ = run ⟨frames, .value (Expr.chain (e :: x :: es) (op :: ops)).bare⟩ rest := by
          simp [bare]

/-- The operand of a negation or a sign is read, and its frame is closed. -/
theorem Reads.atom (h : e.Reads) {frame : Frame}
    (hyields : frame.yields (headStrength rest) = true)
    (hbound : headStrength rest ≤ BinaryOp.exp.bound) (hgoes : GoesOn rest) :
    run ⟨frame :: frames, .operand⟩ (lexemesOf (Glyph.wrapIf e.wrapsAtom e.script) ++ rest) =
      run ⟨frames, .value (frame.fill e.bare)⟩ rest := by
  have hatom : run ⟨frame :: frames, .operand⟩
      (lexemesOf (Glyph.wrapIf e.wrapsAtom e.script) ++ rest) =
        run ⟨frame :: frames, .value e.bare⟩ rest := by
    refine h.wrapIf hgoes fun hwraps => ?_
    obtain ⟨hunder, hle⟩ := @under_of_atom e (frame :: frames) hwraps
    exact ⟨hunder, Nat.le_trans hbound hle⟩
  rw [hatom]
  exact run_close hyields hgoes

theorem Reads.not (h : e.Reads) : (not e).Reads := by
  intro frames rest _ hbound hgoes
  have hyields : Frame.not.yields (headStrength rest) = true := decide_eq_true hbound
  calc run ⟨frames, .operand⟩ (lexemesOf (Expr.not e).script ++ rest)
      = run ⟨.not :: frames, .operand⟩
          (lexemesOf (Glyph.wrapIf e.wrapsAtom e.script) ++ rest) := by
        simp [script, run, step, stepOperand]
    _ = run ⟨frames, .value (Expr.not e).bare⟩ rest := h.atom hyields hbound hgoes

theorem Reads.sign (h : e.Reads) (negate : Bool) : (sign negate e).Reads := by
  intro frames rest _ hbound hgoes
  have hyields : (Frame.sign negate).yields (headStrength rest) = true := decide_eq_true hbound
  calc run ⟨frames, .operand⟩ (lexemesOf (Expr.sign negate e).script ++ rest)
      = run ⟨.sign negate :: frames, .operand⟩
          (lexemesOf (Glyph.wrapIf e.wrapsAtom e.script) ++ rest) := by
        cases negate <;> simp [script, run, step, stepOperand]
    _ = run ⟨frames, .value (Expr.sign negate e).bare⟩ rest := h.atom hyields hbound hgoes

/-- Arguments are read up to the parenthesis behind them. -/
theorem run_args {es : List Expr} (he : e.Reads) (hes : ∀ x ∈ es, x.Reads) (owner : ArgsOwner)
    (func : String) (done : List Expr) (chars : List Char) :
    run ⟨.args owner func done :: frames, .operand⟩
        (lexemesOf (commas (scripts (fun _ => false) (e :: es))) ++
          ⟨.mark .parenClose, chars⟩ :: rest) =
      run ⟨frames, owner.closed func (done ++ (e :: es).map bare)⟩ rest := by
  have hunder : ∀ (x : Expr) (done : List Expr), x.Under (.args owner func done :: frames) := by
    intro x done
    cases x <;> simp [Under, Holds, Frame.yields]
  have hsettle : ∀ (x : Expr) (done : List Expr),
      settle 0 (.args owner func done :: frames) x = (.args owner func done :: frames, x) := by
    intro x done
    simp [settle, Frame.yields]
  -- as in a chain, each argument is moved into the frame
  induction es generalizing e done with
  | nil =>
    calc run ⟨.args owner func done :: frames, .operand⟩
          (lexemesOf (commas (scripts (fun _ => false) [e])) ++ ⟨.mark .parenClose, chars⟩ :: rest)
        = run ⟨.args owner func done :: frames, .operand⟩
            (lexemesOf e.script ++ ⟨.mark .parenClose, chars⟩ :: rest) := by
          simp [commas, scripts, Glyph.wrapIf]
      _ = run ⟨.args owner func done :: frames, .value e.bare⟩
            (⟨.mark .parenClose, chars⟩ :: rest) :=
          he _ _ (hunder e done) (Nat.zero_le _) (goesOn_parenClose _ _)
      _ = run ⟨frames, owner.closed func (done ++ [e].map bare)⟩ rest := by
          simp [run, step, stepValue, stepSettled, TokenKind.strength, TokenKind.binaryOp?,
            TokenKind.comparisonOp?, hsettle]
  | cons x es ih =>
    rw [List.forall_mem_cons] at hes
    let comma : Lexeme := ⟨.mark .comma, Mark.comma.spelling.toList⟩
    let later := lexemesOf (commas (scripts (fun _ => false) (x :: es))) ++
      ⟨.mark .parenClose, chars⟩ :: rest
    have hgoes : GoesOn (comma :: later) := by simp [GoesOn, comma]
    calc run ⟨.args owner func done :: frames, .operand⟩
          (lexemesOf (commas (scripts (fun _ => false) (e :: x :: es))) ++
            ⟨.mark .parenClose, chars⟩ :: rest)
        = run ⟨.args owner func done :: frames, .operand⟩
            (lexemesOf e.script ++ comma :: later) := by
          simp [commas, scripts, Glyph.wrapIf, List.intersperse_cons_cons, comma, later]
      _ = run ⟨.args owner func done :: frames, .value e.bare⟩ (comma :: later) :=
          he _ _ (hunder e done) (Nat.zero_le _) hgoes
      _ = run ⟨.args owner func (done ++ [e.bare]) :: frames, .operand⟩ later := by
          simp [run, step, stepValue, stepSettled, TokenKind.strength, TokenKind.binaryOp?,
            TokenKind.comparisonOp?, hsettle, comma]
      _ = run ⟨frames, owner.closed func (done ++ [e.bare] ++ (x :: es).map bare)⟩ rest :=
          ih hes.1 hes.2 _
      _ = run ⟨frames, owner.closed func (done ++ (e :: x :: es).map bare)⟩ rest := by
          simp

theorem Reads.call {args : List Expr} (hargs : ∀ x ∈ args, x.Reads) (func : String) :
    (call func args).Reads := by
  intro frames rest _ _ _
  cases args with
  | nil =>
    -- the closing parenthesis stands where an operand is expected
    simp [script, bare, scripts, commas, Glyph.inParens, run, step, stepOperand, stepValue]
  | cons e es =>
    rw [List.forall_mem_cons] at hargs
    have hrun := @run_args e frames rest es hargs.1 hargs.2 .call func []
      Mark.parenClose.spelling.toList
    simp only [List.nil_append, ArgsOwner.closed] at hrun
    simpa [script, bare, Glyph.inParens, run, step, stepOperand, stepValue] using hrun

/-- A map is read from the word in front of its target on. -/
theorem run_target (func : String) (args : List Expr) (target : String) (reduction : Reduction) :
    run ⟨frames, .mapTarget func args⟩
        (lexemesOf (ofName target ::
          if reduction = .sum then [space, ofWord .reduceWord, space, ofMark .plus] else []) ++
            rest) =
      run ⟨frames, .value (.map func args target reduction)⟩ rest := by
  cases reduction <;> simp [run, step, stepValue]

theorem Reads.map {args : List Expr} (hargs : ∀ x ∈ args, x.Reads) (func target : String)
    (reduction : Reduction) : (map func args target reduction).Reads := by
  intro frames rest _ _ _
  have htarget := @run_target frames rest func (args.map bare) target reduction
  cases args with
  | nil =>
    simpa [script, bare, run, step, stepOperand] using htarget
  | cons e es =>
    rw [List.forall_mem_cons] at hargs
    have hrun := fun rest => @run_args e frames rest es hargs.1 hargs.2 .map func []
      Mark.parenClose.spelling.toList
    simp only [List.nil_append, ArgsOwner.closed] at hrun
    simpa [script, bare, Glyph.inParens, run, step, stepOperand, hrun] using htarget

theorem reads_int (value : Nat) : (int value).Reads := by
  intro frames rest _ _ _
  simp [script, bare, run, step, stepOperand, chars_ofInt, Nat.ofDigitChars_ten_toDigits]

/-- The script of a plain tree is read as the bare tree. -/
theorem Plain.reads (h : e.Plain) : e.Reads := by
  induction h with
  | var =>
    intro frames rest _ _ _
    simp [script, bare, run, step, stepOperand]
  | int value => exact reads_int value
  | bool value =>
    intro frames rest _ _ _
    cases value <;> simp [script, bare, run, step, stepOperand]
  | paren _ ih =>
    intro frames rest _ _ _
    exact ih.inParens
  | binary op _ _ ihlhs ihrhs => exact ihlhs.binary ihrhs
  | chain hlength hops _ ih => exact .chain ih hlength hops
  | not _ ih => exact ih.not
  | sign negate _ ih => exact ih.sign negate
  | call _ _ ih => exact .call ih _
  | map reduction _ _ _ ih => exact .map ih _ _ reduction

/-- Reading the lexemes of a printed tree gives the tree without its parentheses. -/
theorem Plain.read_script (h : e.Plain) : readExpr (lexemesOf e.script) = some e.bare := by
  have hunder : e.Under [] := by
    cases e <;> simp [Under, Holds]
  have hread := h.reads [] [] hunder (Nat.zero_le _) (by simp [GoesOn])
  rw [List.append_nil] at hread
  rw [readExpr, hread]
  rfl

end Expr

end TensorTree
