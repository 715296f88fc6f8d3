import TensorTree.Proofs.Expr.Spacing

/-!
# Readers of expressions

A reader of lexemes keeps the operators and parentheses that wait for an operand on a stack of
frames.  Each lexeme closes the frames that bind at least as tight as itself: an operator waits in
front of its right operand when all of them are closed (`Reader.run_binaryOp`,
`Reader.run_comparisonOp`), and what the next lexeme closes can be closed at once
(`Reader.run_close`).
-/

namespace TensorTree

/-! ## §1 Frames -/

/-- What stands in front of arguments in parentheses. -/
inductive ArgsOwner where
  | call
  | map
deriving DecidableEq

/-- What waits for the operand that is being read. -/
inductive Frame where
  | binary (op : BinaryOp) (lhs : Expr)
  | not
  | sign (negate : Bool)
  | chain (operands : List Expr) (ops : List ComparisonOp)
  | paren
  | args (owner : ArgsOwner) (func : String) (done : List Expr)

/-- The highest strength of a lexeme that an operand of a binary operator ends in front of. -/
def BinaryOp.bound (op : BinaryOp) : Nat :=
  if op.groupsRight then op.precedence - 1 else op.precedence

namespace Frame

/-- The frame is closed by a lexeme of a strength. -/
def yields : Frame → Nat → Bool
  | binary op _, q => q ≤ op.bound
  | not, q | sign _, q => q ≤ BinaryOp.exp.bound
  | chain _ _, q => q ≤ ComparisonOp.precedence
  | paren, _ | args .., _ => false

/-- The tree that a frame makes of its last operand. -/
def fill : Frame → Expr → Expr
  | binary op lhs, e => .binary op lhs e
  | not, e => .not e
  | sign negate, e => .sign negate e
  | chain operands ops, e => .chain (operands ++ [e]) ops
  | paren, e | args .., e => e

end Frame

/-- Close the frames that a lexeme of a strength closes, from the innermost one on. -/
def settle (q : Nat) : List Frame → Expr → List Frame × Expr
  | [], e => ([], e)
  | frame :: frames, e =>
    if frame.yields q then settle q frames (frame.fill e) else (frame :: frames, e)

/-- Go on with the innermost chain, or open one. -/
def compareWith (op : ComparisonOp) (e : Expr) : List Frame → List Frame
  | .chain operands ops :: frames => .chain (operands ++ [e]) (ops ++ [op]) :: frames
  | frames => .chain [e] [op] :: frames

/-! ## §2 Readers -/

/-- What a reader is at. -/
inductive Focus where
  /-- An operand is expected. -/
  | operand
  /-- A tree was read. -/
  | value (e : Expr)
  /-- The function of a map is expected. -/
  | mapFunc
  /-- The arguments or the target of a map are expected. -/
  | mapArgs (func : String)
  /-- The word in front of the target of a map is expected. -/
  | mapTo (func : String) (args : List Expr)
  /-- The target of a map is expected. -/
  | mapTarget (func : String) (args : List Expr)
  /-- The operator of a reduction is expected. -/
  | mapSum (func : String) (args : List Expr) (target : String)

/-- What waits and what is expected. -/
structure Reader where
  frames : List Frame
  focus : Focus

/-- The binary operator that a kind of lexemes stands for. -/
def TokenKind.binaryOp? : TokenKind → Option BinaryOp
  | .word .orWord => some .or
  | .word .andWord => some .and
  | .word .xorWord => some .xor
  | .mark .plus => some .add
  | .mark .minus => some .sub
  | .mark .star => some .mul
  | .mark .slash => some .div
  | .mark .dotStar => some .elwiseMul
  | .mark .dotSlash => some .elwiseDiv
  | .mark .caret => some .exp
  | _ => none

/-- The comparison that a kind of lexemes stands for. -/
def TokenKind.comparisonOp? : TokenKind → Option ComparisonOp
  | .mark .less => some .lt
  | .mark .lessEqual => some .le
  | .mark .greater => some .gt
  | .mark .greaterEqual => some .ge
  | .mark .equal => some .eq
  | .mark .notEqual => some .ne
  | _ => none

/-- Operators close what binds at least as tight; comparisons close all but chains and what binds
looser than them, and everything else closes all that stands in no parentheses. -/
def TokenKind.strength (kind : TokenKind) : Nat :=
  match kind.binaryOp?, kind.comparisonOp? with
  | some op, _ => op.precedence
  | none, some _ => ComparisonOp.precedence + 1
  | none, none => 0

/-- What is expected behind arguments. -/
def ArgsOwner.closed : ArgsOwner → String → List Expr → Focus
  | .call, func, args => .value (.call func args)
  | .map, func, args => .mapTo func args

namespace Reader

/-- A lexeme where an operand is expected. -/
def stepOperand (frames : List Frame) : Lexeme → Option Reader
  | ⟨.ident, chars⟩ => some ⟨frames, .value (.var (.ofList chars))⟩
  | ⟨.int, chars⟩ => some ⟨frames, .value (.int (Nat.ofDigitChars 10 chars 0))⟩
  | ⟨.word .trueWord, _⟩ => some ⟨frames, .value (.bool true)⟩
  | ⟨.word .falseWord, _⟩ => some ⟨frames, .value (.bool false)⟩
  | ⟨.word .notWord, _⟩ => some ⟨.not :: frames, .operand⟩
  | ⟨.word .mapWord, _⟩ => some ⟨frames, .mapFunc⟩
  | ⟨.mark .minus, _⟩ => some ⟨.sign true :: frames, .operand⟩
  | ⟨.mark .plus, _⟩ => some ⟨.sign false :: frames, .operand⟩
  | ⟨.mark .parenOpen, _⟩ => some ⟨.paren :: frames, .operand⟩
  | ⟨.mark .parenClose, _⟩ =>
    match frames with
    | .args .call func [] :: frames => some ⟨frames, .value (.call func [])⟩
    | _ => none
  | _ => none

/-- A lexeme behind a tree, when the frames that it closes are closed. -/
def stepSettled : TokenKind → List Frame × Expr → Option Reader
  | .mark .comma, (.args owner func done :: frames, e) =>
    some ⟨.args owner func (done ++ [e]) :: frames, .operand⟩
  | .mark .parenClose, (.paren :: frames, e) => some ⟨frames, .value e⟩
  | .mark .parenClose, (.args owner func done :: frames, e) =>
    some ⟨frames, owner.closed func (done ++ [e])⟩
  | kind, (frames, e) =>
    match kind.binaryOp?, kind.comparisonOp? with
    | some op, _ => some ⟨.binary op e :: frames, .operand⟩
    | none, some op => some ⟨compareWith op e frames, .operand⟩
    | none, none => none

/-- A lexeme behind a tree: it makes a call of a variable or a sum of a map, or goes on. -/
def stepValue (frames : List Frame) (e : Expr) (kind : TokenKind) : Option Reader :=
  match kind, e with
  | .mark .parenOpen, .var func => some ⟨.args .call func [] :: frames, .operand⟩
  | .word .reduceWord, .map func args target _ => some ⟨frames, .mapSum func args target⟩
  | kind, e => stepSettled kind (settle kind.strength frames e)

/-- The reader after a lexeme, if it may stand there. -/
def step : Reader → Lexeme → Option Reader
  | ⟨frames, .operand⟩, lexeme => stepOperand frames lexeme
  | ⟨frames, .value e⟩, lexeme => stepValue frames e lexeme.kind
  | ⟨frames, .mapFunc⟩, ⟨.ident, chars⟩ => some ⟨frames, .mapArgs (.ofList chars)⟩
  | ⟨frames, .mapArgs func⟩, ⟨.mark .parenOpen, _⟩ => some ⟨.args .map func [] :: frames, .operand⟩
  | ⟨frames, .mapArgs func⟩, ⟨.word .toWord, _⟩ => some ⟨frames, .mapTarget func []⟩
  | ⟨frames, .mapTo func args⟩, ⟨.word .toWord, _⟩ => some ⟨frames, .mapTarget func args⟩
  | ⟨frames, .mapTarget func args⟩, ⟨.ident, chars⟩ =>
    some ⟨frames, .value (.map func args (.ofList chars) .absent)⟩
  | ⟨frames, .mapSum func args target⟩, ⟨.mark .plus, _⟩ =>
    some ⟨frames, .value (.map func args target .sum)⟩
  | _, _ => none

/-- The tree that is read when no lexeme is left. -/
def finish : Reader → Option Expr
  | ⟨frames, .value e⟩ =>
    match settle 0 frames e with
    | ([], e) => some e
    | _ => none
  | _ => none

def run : Reader → List Lexeme → Option Expr
  | r, [] => r.finish
  | r, lexeme :: lexemes =>
    match r.step lexeme with
    | some r => run r lexemes
    | none => none

end Reader

/-- The tree that lexemes are read as, if they are those of an expression. -/
def readExpr (lexemes : List Lexeme) : Option Expr := Reader.run ⟨[], .operand⟩ lexemes

/-! ## §3 Closing frames -/

/-- The strength of the first lexeme. -/
def headStrength : List Lexeme → Nat
  | [] => 0  -- the end closes everything
  | lexeme :: _ => lexeme.kind.strength

/-- The first lexeme makes neither a call of a variable nor a sum of a map. -/
def GoesOn (rest : List Lexeme) : Prop :=
  ∀ lexeme ∈ rest.head?, lexeme.kind ≠ .mark .parenOpen ∧ lexeme.kind ≠ .word .reduceWord

/-- The innermost frame is not closed by a lexeme of the strength. -/
def Holds (frames : List Frame) (q : Nat) : Prop := ∀ frame ∈ frames.head?, frame.yields q = false

theorem Frame.yields_anti {frame : Frame} {p q : Nat} (hpq : p ≤ q) (h : frame.yields q = true) :
    frame.yields p = true := by
  cases frame <;> simp [yields] at h ⊢ <;> omega

theorem Holds.mono {frames : List Frame} {p q : Nat} (h : Holds frames p) (hpq : p ≤ q) :
    Holds frames q := by
  intro frame hframe
  have hp := h frame hframe
  cases hq : frame.yields q with
  | false => rfl
  | true => rw [Frame.yields_anti hpq hq] at hp; cases hp

theorem settle_eq_self {frames : List Frame} {q : Nat} (h : Holds frames q) (e : Expr) :
    settle q frames e = (frames, e) := by
  cases frames with
  | nil => rfl
  | cons frame frames => simp [settle, h frame (by simp)]

theorem settle_of_yields {frame : Frame} {q : Nat} (h : frame.yields q = true)
    (frames : List Frame) (e : Expr) :
    settle q (frame :: frames) e = settle q frames (frame.fill e) := by
  simp [settle, h]

namespace Reader

theorem stepValue_eq {kind : TokenKind} (hopen : kind ≠ .mark .parenOpen)
    (hreduce : kind ≠ .word .reduceWord) (frames : List Frame) (e : Expr) :
    stepValue frames e kind = stepSettled kind (settle kind.strength frames e) := by
  unfold stepValue
  split
  · exact absurd rfl hopen
  · exact absurd rfl hreduce
  · rfl

/-- A frame that the next lexeme closes can be closed at once. -/
theorem run_close {frame : Frame} {frames : List Frame} {e : Expr} {rest : List Lexeme}
    (hyields : frame.yields (headStrength rest) = true) (hgoes : GoesOn rest) :
    run ⟨frame :: frames, .value e⟩ rest = run ⟨frames, .value (frame.fill e)⟩ rest := by
  -- the first step on either side is to close frames, and one of them is closed already
  cases rest with
  | nil =>
    have hsettle := settle_of_yields hyields frames e
    simp only [headStrength] at hsettle
    simp [run, finish, hsettle]
  | cons lexeme rest =>
    obtain ⟨hopen, hreduce⟩ := hgoes lexeme (by simp)
    have hsettle := settle_of_yields hyields frames e
    simp only [headStrength] at hsettle
    simp only [run, step, stepValue_eq hopen hreduce, hsettle]

/-- A binary operator waits for its right operand if what stands in front of it is settled. -/
theorem run_binaryOp {op : BinaryOp} {frames : List Frame} (h : Holds frames op.precedence)
    (e : Expr) (rest : List Lexeme) :
    run ⟨frames, .value e⟩ (Glyph.lexemesOf [op.glyph] ++ rest) =
      run ⟨.binary op e :: frames, .operand⟩ rest := by
  have hsettle := settle_eq_self h e
  -- the lexeme is known only by the operator
  cases op <;> simp only [BinaryOp.precedence] at hsettle <;>
    simp [run, step, stepValue, stepSettled, Glyph.lexemesOf, Glyph.lexeme?, BinaryOp.glyph,
      Glyph.ofMark, Glyph.ofWord, TokenKind.strength, TokenKind.binaryOp?, BinaryOp.precedence,
      hsettle]

theorem stepSettled_comparisonOp (op : ComparisonOp) (frames : List Frame) (e : Expr) :
    ∃ kind, op.glyph.lexeme? = some ⟨kind, op.glyph.chars⟩ ∧
      kind ≠ .mark .parenOpen ∧ kind ≠ .word .reduceWord ∧
      kind.strength = ComparisonOp.precedence + 1 ∧
      stepSettled kind (frames, e) = some ⟨compareWith op e frames, .operand⟩ := by
  cases op <;> exact ⟨_, rfl, by decide, by decide, rfl, rfl⟩

/-- A comparison goes on with a chain or opens one if what stands in front of it is settled. -/
theorem run_comparisonOp {op : ComparisonOp} {frames : List Frame}
    (h : Holds frames (ComparisonOp.precedence + 1)) (e : Expr) (rest : List Lexeme) :
    run ⟨frames, .value e⟩ (Glyph.lexemesOf [op.glyph] ++ rest) =
      run ⟨compareWith op e frames, .operand⟩ rest := by
  obtain ⟨kind, hlexeme, hopen, hreduce, hstrength, hstep⟩ := stepSettled_comparisonOp op frames e
  have hlist : Glyph.lexemesOf [op.glyph] = [⟨kind, op.glyph.chars⟩] := by
    simp [Glyph.lexemesOf, hlexeme]
  have hsettle : settle kind.strength frames e = (frames, e) := by
    rw [hstrength]
    exact settle_eq_self h e
  rw [hlist, List.singleton_append, run, step, stepValue_eq hopen hreduce, hsettle, hstep]

/-- A comparison opens a chain if what stands in front of it is no chain. -/
theorem compareWith_of_holds {frames : List Frame} (h : Holds frames ComparisonOp.precedence)
    (op : ComparisonOp) (e : Expr) : compareWith op e frames = .chain [e] [op] :: frames := by
  unfold compareWith
  split
  next _ operands ops frames =>
    -- a chain would be closed by a chain
    exact absurd (h (.chain operands ops) rfl) (by simp [Frame.yields])
  next => rfl

end Reader

end TensorTree
