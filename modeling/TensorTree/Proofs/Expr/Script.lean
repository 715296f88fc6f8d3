import Mathlib.Data.List.Forall2
import TensorTree.Proofs.Expr.Tree

/-!
# Scripts of expressions

The script of a tree is the list of the glyphs with which it is printed (`Expr.script`): printing an
expression gives the text of the script of its tree (`Forest.print_eq_script`).
-/

namespace TensorTree

/-! ## §1 Glyphs -/

namespace Glyph

def space : Glyph := ⟨.skip, [' ']⟩

def ofWord (word : Word) : Glyph := ⟨.token (.word word), word.spelling.toList⟩

def ofMark (mark : Mark) : Glyph := ⟨.token (.mark mark), mark.spelling.toList⟩

def ofName (name : String) : Glyph := ⟨.token .ident, name.toList⟩

def ofInt (value : Int) : Glyph := ⟨.token .int, (toString value).toList⟩

def inParens (glyphs : List Glyph) : List Glyph :=
  ofMark .parenOpen :: (glyphs ++ [ofMark .parenClose])

/-- Glyphs in parentheses, if they are needed. -/
def wrapIf (needsParens : Bool) (glyphs : List Glyph) : List Glyph :=
  if needsParens then inParens glyphs else glyphs

/-- Lists of glyphs with commas between them. -/
def commas (glyphs : List (List Glyph)) : List Glyph :=
  (glyphs.intersperse [ofMark .comma, space]).flatten

end Glyph

def BinaryOp.glyph : BinaryOp → Glyph
  | .or => .ofWord .orWord
  | .and => .ofWord .andWord
  | .xor => .ofWord .xorWord
  | .add => .ofMark .plus
  | .sub => .ofMark .minus
  | .mul => .ofMark .star
  | .div => .ofMark .slash
  | .elwiseMul => .ofMark .dotStar
  | .elwiseDiv => .ofMark .dotSlash
  | .exp => .ofMark .caret

def ComparisonOp.glyph : ComparisonOp → Glyph
  | .lt => .ofMark .less
  | .le => .ofMark .lessEqual
  | .gt => .ofMark .greater
  | .ge => .ofMark .greaterEqual
  | .eq => .ofMark .equal
  | .ne => .ofMark .notEqual

theorem BinaryOp.chars_glyph (op : BinaryOp) : op.glyph.chars = op.spelling.toList := by
  cases op <;> rfl

theorem ComparisonOp.chars_glyph (op : ComparisonOp) : op.glyph.chars = op.spelling.toList := by
  cases op <;> rfl

/-! ## §2 Parentheses and scripts -/

namespace Expr

def op? : Expr → Option BinaryOp
  | binary op _ _ => some op
  | _ => none

def isChain : Expr → Bool
  | chain _ _ => true
  | _ => false

/-- The tree is a sign or a negation. -/
def isPrefixed : Expr → Bool
  | not _ | sign _ _ => true
  | _ => false

/-- An operand of a sign or a negation needs parentheses. -/
def wrapsAtom (e : Expr) : Bool := e.op?.isSome || e.isChain

/-- An operand of a binary operator needs parentheses. -/
def wrapsOperand (op : BinaryOp) (isRight : Bool) (e : Expr) : Bool :=
  match e.op? with
  | some inner =>
    inner.precedence < op.precedence ||
      (inner.precedence == op.precedence && isRight != op.groupsRight)
  | none => e.isChain || (op == .exp && !isRight && e.isPrefixed)

/-- An operand of a comparison chain needs parentheses. -/
def wrapsComparand (e : Expr) : Bool :=
  e.isChain || e.op?.any fun op => op.precedence < ComparisonOp.precedence

open Glyph

/-- The glyphs of a chain without its first operand. -/
def links : List (List Glyph) → List ComparisonOp → List Glyph
  | glyphs :: rest, op :: ops => [space, op.glyph, space] ++ glyphs ++ links rest ops
  | _, _ => []

/-- The glyphs of a chain. -/
def chained : List (List Glyph) → List ComparisonOp → List Glyph
  | [], _ => []
  | glyphs :: rest, ops => glyphs ++ links rest ops

mutual

/-- The glyphs with which a tree is printed. -/
def script : Expr → List Glyph
  | var name => [ofName name]
  | int value => [ofInt value]
  | bool value => [ofWord (if value then .trueWord else .falseWord)]
  | paren inner => inParens inner.script
  | binary op lhs rhs =>
    wrapIf (lhs.wrapsOperand op false) lhs.script ++ [space, op.glyph, space] ++
      wrapIf (rhs.wrapsOperand op true) rhs.script
  | chain operands ops => chained (scripts wrapsComparand operands) ops
  | not operand => [ofWord .notWord, space] ++ wrapIf operand.wrapsAtom operand.script
  | sign negate operand =>
    ofMark (if negate then .minus else .plus) :: wrapIf operand.wrapsAtom operand.script
  | call func args => ofName func :: inParens (commas (scripts (fun _ => false) args))
  | map func args target reduction =>
    [ofWord .mapWord, space, ofName func] ++
      (if args.isEmpty then [] else inParens (commas (scripts (fun _ => false) args))) ++
      [space, ofWord .toWord, space, ofName target] ++
      if reduction = .sum then [space, ofWord .reduceWord, space, ofMark .plus] else []

/-- The glyphs of each tree of a list, in parentheses where they are needed. -/
def scripts (wraps : Expr → Bool) : List Expr → List (List Glyph)
  | [] => []
  | e :: es => wrapIf (wraps e) e.script :: scripts wraps es

end

theorem scripts_eq_map (wraps : Expr → Bool) (es : List Expr) :
    scripts wraps es = es.map fun e => wrapIf (wraps e) e.script := by
  induction es with
  | nil => rfl
  | cons e es ih => simp [scripts, ih]

end Expr

/-! ## §3 Printing writes the script -/

namespace Page

/-- Two texts are written one after the other as if they were one. -/
theorem write_append (o : LayoutOptions) (page : Page) (s t : String) :
    (page.write o s).write o t = page.write o (s ++ t) := by
  by_cases hs : s = ""
  · simp [write, hs]
  · by_cases ht : t = ""
    · simp [write, ht]
    · cases hopens : page.opensLine <;> simp [write, hs, ht, hopens, String.append_assoc]

@[simp] theorem write_empty (o : LayoutOptions) (page : Page) : page.write o "" = page := by
  simp [write]

/-- On a new page at the left margin a text is written as it is. -/
theorem text_write_new (o : LayoutOptions) (s : String) :
    (({} : Page).write o s).text = s := by
  by_cases hs : s = ""
  · simp [write, hs]
  · simp [write, hs, LayoutOptions.indentation]

end Page

namespace Forest

open Fragment Glyph

/-- The fragments are written as a text, whatever the page. -/
def Writes (f : Forest) (o : LayoutOptions) (n : Nat) (fragments : List Fragment)
    (cs : List Char) : Prop :=
  ∀ page : Page, fragments.foldlM (Fragment.write o f.span (f.writeWithin o n)) page =
    .ok (page.write o (String.ofList cs))

variable {f : Forest} {o : LayoutOptions} {n : Nat}

theorem writes_nil : f.Writes o n [] [] := by
  intro page
  have hempty : page.write o (String.ofList []) = page := Page.write_empty o page
  rw [hempty]
  rfl

theorem Writes.append {left right : List Fragment} {cs ds : List Char}
    (hleft : f.Writes o n left cs) (hright : f.Writes o n right ds) :
    f.Writes o n (left ++ right) (cs ++ ds) := by
  intro page
  rw [List.foldlM_append, hleft page]
  have hrest := hright (page.write o (String.ofList cs))
  rw [Page.write_append, ← String.ofList_append] at hrest
  exact hrest

theorem Writes.cons {fragment : Fragment} {fragments : List Fragment} {cs ds : List Char}
    (hfirst : f.Writes o n [fragment] cs) (hrest : f.Writes o n fragments ds) :
    f.Writes o n (fragment :: fragments) (cs ++ ds) :=
  Writes.append hfirst hrest

theorem writes_text (s : String) : f.Writes o n [text s] s.toList := by
  intro page
  rw [String.ofList_toList]
  rfl

theorem writes_texts (ss : List String) :
    f.Writes o n (ss.map text) (ss.flatMap String.toList) := by
  induction ss with
  | nil => exact writes_nil
  | cons s ss ih => exact (writes_text s).cons ih

theorem writes_ofRef {role : Role} {r : Ref role} {cs : List Char}
    (h : ∀ page : Page, f.writeWithin o n .opening r.node page =
      .ok (page.write o (String.ofList cs))) : f.Writes o n [ofRef r] cs := by
  intro page
  have hpage := h page
  simp [ofRef, Fragment.node, Fragment.write, hpage]

theorem Writes.inParens {fragments : List Fragment} {gs : List Glyph}
    (h : f.Writes o n fragments (textOf gs)) :
    f.Writes o n (Fragment.inParens fragments) (textOf (Glyph.inParens gs)) := by
  have hall := (writes_text "(").cons (h.append (writes_text ")"))
  simpa [Fragment.inParens, Glyph.inParens, ofMark, Mark.spelling] using hall

theorem Writes.wrapIf {needsParens : Bool} {r : Ref .expr} {gs : List Glyph}
    (h : f.Writes o n [ofRef r] (textOf gs)) :
    f.Writes o n (operand needsParens r) (textOf (Glyph.wrapIf needsParens gs)) := by
  cases needsParens with
  | false => exact h
  | true => exact h.inParens

theorem writes_name {r : Ref .ident} {name : String} (h : f.nameWithin n r = some name) :
    f.Writes o n [ofRef r] name.toList := by
  refine writes_ofRef fun page => ?_
  cases n with
  | zero => cases h
  | succ n =>
    simp only [nameWithin] at h
    split at h
    next name' hnode =>
      obtain rfl := Option.some.inj h
      simp only [writeWithin, hnode]
      exact writes_text name' page
    next => cases h

theorem writes_commas {refs : List (Ref .expr)} {glyphs : List (List Glyph)}
    (h : List.Forall₂ (fun r gs => f.Writes o n [ofRef r] (textOf gs)) refs glyphs) :
    f.Writes o n (Fragment.commas refs) (textOf (Glyph.commas glyphs)) := by
  induction h with
  | nil => exact writes_nil
  | @cons r gs refs glyphs hfirst hrest ih =>
    cases hrest with
    | nil => simpa [Fragment.commas, Glyph.commas] using hfirst
    | cons =>
      have hall := hfirst.append ((writes_text ", ").cons ih)
      simpa [Fragment.commas, Glyph.commas, List.intersperse_cons_cons, ofMark, space,
        Mark.spelling] using hall

theorem writes_links {refs : List (Ref .expr)} {glyphs : List (List Glyph)}
    (h : List.Forall₂
      (fun r gs => f.Writes o n (operand (f.wrapsComparand r) r) (textOf gs)) refs glyphs)
    {ops : List ComparisonOp} (hlength : refs.length = ops.length) :
    f.Writes o n (f.chainFragments ops refs) (textOf (Expr.links glyphs ops)) := by
  induction h generalizing ops with
  | nil =>
    obtain rfl : ops = [] := List.eq_nil_of_length_eq_zero hlength.symm
    exact writes_nil
  | @cons r gs refs glyphs hfirst hrest ih =>
    cases ops with
    | nil => cases hlength
    | cons op ops =>
      have hop := writes_texts (f := f) (o := o) (n := n) [" ", op.spelling, " "]
      have hall := (hop.append hfirst).append (ih (Nat.succ.inj hlength))
      simpa [chainFragments, Expr.links, space, ComparisonOp.chars_glyph] using hall

/-! ### Parentheses -/

/-- What a node is shows in its tree. -/
theorem exprWithin_shape {id : NodeId} {tree : Expr} (h : f.exprWithin n id = some tree) :
    ∃ node, f.node? id = some node ∧ node.binaryOp? = tree.op? ∧
      (node.variant == .eqExpr) = tree.isChain ∧
      (node.variant == .negExpr || node.variant == .notExpr) = tree.isPrefixed := by
  cases n with
  | zero => cases h
  | succ n =>
    simp only [exprWithin] at h
    cases hnode : f.node? id with
    | none => simp [hnode] at h
    | some node =>
      refine ⟨node, rfl, ?_⟩
      rw [hnode] at h
      cases node <;>
        simp only [Option.bind_eq_bind, Option.bind_eq_some_iff, Option.map_eq_some_iff,
          Option.some.injEq, reduceCtorEq] at h <;>
        grind [Node.variant, Node.binaryOp?, Expr.op?, Expr.isChain, Expr.isPrefixed]

/-- The printer wraps an operand exactly if its tree needs parentheses. -/
theorem wraps_eq {r : Ref .expr} {tree : Expr} (h : f.exprWithin n r.node = some tree) :
    f.wrapsAtom r = tree.wrapsAtom ∧
      (∀ op isRight, f.wrapsOperand op isRight r = tree.wrapsOperand op isRight) ∧
      f.wrapsComparand r = tree.wrapsComparand := by
  -- the printer looks at the node of an operand, the tree shows the same
  obtain ⟨node, hnode, hop, hchain, hprefixed⟩ := exprWithin_shape h
  have hoperand : f.operandOp? r = tree.op? := by
    rw [operandOp?, hnode]
    exact hop
  have his : ∀ v, f.operandIs r v = (node.variant == v) := by
    intro v
    simp [operandIs, hnode]
  refine ⟨?_, fun op isRight => ?_, ?_⟩
  · rw [wrapsAtom, Expr.wrapsAtom, hoperand, his, hchain]
  · rw [wrapsOperand, Expr.wrapsOperand, hoperand]
    cases tree.op? with
    | some inner => rfl
    | none => rw [his, his, his, hchain, hprefixed]
  · rw [wrapsComparand, Expr.wrapsComparand, hoperand, his, hchain]

theorem Writes.atom {r : Ref .expr} {tree : Expr}
    (h : f.Writes o n [ofRef r] (textOf tree.script)) (hwraps : f.wrapsAtom r = tree.wrapsAtom) :
    f.Writes o n (operand (f.wrapsAtom r) r)
      (textOf (Glyph.wrapIf tree.wrapsAtom tree.script)) := by
  rw [hwraps]
  exact h.wrapIf

theorem forall₂_of_mapM {α β : Type} {g : α → Option β} {as : List α} {bs : List β}
    (h : as.mapM g = some bs) : List.Forall₂ (fun a b => g a = some b) as bs := by
  induction as generalizing bs with
  | nil =>
    obtain rfl : [] = bs := by simpa using h
    exact .nil
  | cons a as ih =>
    simp only [List.mapM_cons, Option.bind_eq_bind, Option.bind_eq_some_iff, Option.pure_def,
      Option.some.injEq] at h
    obtain ⟨b, hb, bs, hbs, rfl⟩ := h
    exact .cons hb (ih hbs)

/-- The operands of a list are written as the glyphs of their trees, in the parentheses that they
need. -/
theorem forall₂_writes {refs : List (Ref .expr)} {trees : List Expr} {wrapsRef : Ref .expr → Bool}
    {wraps : Expr → Bool} (h : refs.mapM (fun r => f.exprWithin n r.node) = some trees)
    (hplain : ∀ tree ∈ trees, tree.Plain)
    (hwraps : ∀ (r : Ref .expr) (tree : Expr), f.exprWithin n r.node = some tree →
      wrapsRef r = wraps tree)
    (hwrites : ∀ (r : Ref .expr) (tree : Expr), f.exprWithin n r.node = some tree →
      tree.Plain → f.Writes o n [ofRef r] (textOf tree.script)) :
    List.Forall₂ (fun r gs => f.Writes o n (operand (wrapsRef r) r) (textOf gs)) refs
      (Expr.scripts wraps trees) := by
  have hall := forall₂_of_mapM h
  clear h
  induction hall with
  | nil => exact .nil
  | @cons r tree refs trees hfirst _ ih =>
    rw [List.forall_mem_cons] at hplain
    refine .cons ?_ (ih hplain.2)
    rw [hwraps r tree hfirst]
    exact (hwrites r tree hfirst hplain.1).wrapIf

theorem writes_args {refs : List (Ref .expr)} {trees : List Expr}
    (h : refs.mapM (fun r => f.exprWithin n r.node) = some trees)
    (hplain : ∀ tree ∈ trees, tree.Plain)
    (hwrites : ∀ (r : Ref .expr) (tree : Expr), f.exprWithin n r.node = some tree →
      tree.Plain → f.Writes o n [ofRef r] (textOf tree.script)) :
    f.Writes o n (Fragment.inParens (Fragment.commas refs))
      (textOf (Glyph.inParens (Glyph.commas (Expr.scripts (fun _ => false) trees)))) := by
  have hall := @forall₂_writes f o n refs trees (fun _ => false) (fun _ => false) h hplain
    (fun _ _ _ => rfl) hwrites
  exact (writes_commas hall).inParens

theorem writes_chain {id : NodeId} {branch : Branch} {refs : List (Ref .expr)} {trees : List Expr}
    {ops : List ComparisonOp} (h : refs.mapM (fun r => f.exprWithin n r.node) = some trees)
    (hplain : ∀ tree ∈ trees, tree.Plain) (hlength : trees.length = ops.length + 1)
    (hwrites : ∀ (r : Ref .expr) (tree : Expr), f.exprWithin n r.node = some tree →
      tree.Plain → f.Writes o n [ofRef r] (textOf tree.script)) :
    f.Writes o n (f.fragments branch id (.eqExpr refs ops))
      (textOf (Expr.chain trees ops).script) := by
  have hall := forall₂_writes h hplain (fun r tree h => (wraps_eq h).2.2) hwrites
  have hrefs := hall.length_eq
  rw [Expr.scripts_eq_map, List.length_map] at hrefs
  cases refs with
  | nil =>
    -- there is at least one operand
    rw [← hrefs] at hlength
    cases hlength
  | cons r refs =>
    simp only [Expr.script]
    generalize Expr.scripts Expr.wrapsComparand trees = glyphs at hall
    cases hall with
    | cons hfirst hrest =>
      rw [hlength, List.length_cons] at hrefs
      rw [Expr.chained, textOf_append]
      exact hfirst.append (writes_links hrest (Nat.succ.inj hrefs))

theorem writes_map {id : NodeId} {branch : Branch} {func target : Ref .ident} {name last : String}
    {refs : List (Ref .expr)} {trees : List Expr} (hfunc : f.nameWithin n func = some name)
    (htarget : f.nameWithin n target = some last)
    (h : refs.mapM (fun r => f.exprWithin n r.node) = some trees)
    (hplain : ∀ tree ∈ trees, tree.Plain)
    (hwrites : ∀ (r : Ref .expr) (tree : Expr), f.exprWithin n r.node = some tree →
      tree.Plain → f.Writes o n [ofRef r] (textOf tree.script)) (reduction : Reduction) :
    f.Writes o n (f.fragments branch id (.mapExpr func refs target reduction))
      (textOf (Expr.map name trees last reduction).script) := by
  have hempty : refs.isEmpty = trees.isEmpty := by
    cases forall₂_of_mapM h <;> rfl
  have hargs : f.Writes o n
      (if refs.isEmpty then [] else Fragment.inParens (Fragment.commas refs))
      (textOf (if trees.isEmpty then [] else
        Glyph.inParens (Glyph.commas (Expr.scripts (fun _ => false) trees)))) := by
    rw [hempty]
    split
    · exact writes_nil
    · exact writes_args h hplain hwrites
  have hreduction : f.Writes o n
      (if reduction = .sum then [text " reduce ", text reduction.spelling] else [])
      (textOf (if reduction = .sum then
        [space, ofWord .reduceWord, space, ofMark .plus] else [])) := by
    cases reduction with
    | sum => exact (writes_text " reduce ").cons (writes_text "+")
    | absent => exact writes_nil
  have hhead : f.Writes o n [text "map ", ofRef func] ("map ".toList ++ name.toList) :=
    (writes_text "map ").cons (writes_name hfunc)
  have hlast : f.Writes o n [text " to ", ofRef target] (" to ".toList ++ last.toList) :=
    (writes_text " to ").cons (writes_name htarget)
  simpa [fragments, Expr.script, space, ofWord, ofName, Word.spelling] using
    ((hhead.append hargs).append hlast).append hreduction

theorem writes_binary {id : NodeId} {branch : Branch} {lhs rhs : Ref .expr} {left right : Expr}
    (hleft : f.exprWithin n lhs.node = some left) (hright : f.exprWithin n rhs.node = some right)
    (hlhs : f.Writes o n [ofRef lhs] (textOf left.script))
    (hrhs : f.Writes o n [ofRef rhs] (textOf right.script)) (op : BinaryOp) :
    f.Writes o n (f.fragments branch id (.binary op lhs rhs))
      (textOf (Expr.binary op left right).script) := by
  have hop := writes_texts (f := f) (o := o) (n := n) [" ", op.spelling, " "]
  have hwrapped : f.Writes o n (operand (f.wrapsOperand op false lhs) lhs)
      (textOf (wrapIf (left.wrapsOperand op false) left.script)) := by
    rw [(wraps_eq hleft).2.1]
    exact hlhs.wrapIf
  have hwrapped' : f.Writes o n (operand (f.wrapsOperand op true rhs) rhs)
      (textOf (wrapIf (right.wrapsOperand op true) right.script)) := by
    rw [(wraps_eq hright).2.1]
    exact hrhs.wrapIf
  simpa [fragments, Expr.script, space, op.chars_glyph] using (hwrapped.append hop).append hwrapped'

theorem writes_not {id : NodeId} {branch : Branch} {r : Ref .expr} {tree : Expr}
    (h : f.Writes o n [ofRef r] (textOf tree.script)) (hwraps : f.wrapsAtom r = tree.wrapsAtom) :
    f.Writes o n (f.fragments branch id (.notExpr r)) (textOf (Expr.not tree).script) := by
  have hall := (writes_text "not ").cons (h.atom hwraps)
  simpa [fragments, Expr.script, space, ofWord, Word.spelling] using hall

theorem writes_sign {id : NodeId} {branch : Branch} {r : Ref .expr} {tree : Expr}
    (h : f.Writes o n [ofRef r] (textOf tree.script)) (hwraps : f.wrapsAtom r = tree.wrapsAtom)
    (negate : Bool) :
    f.Writes o n (f.fragments branch id (.negExpr r negate))
      (textOf (Expr.sign negate tree).script) := by
  have hall := (writes_text (if negate then "-" else "+")).cons (h.atom hwraps)
  cases negate <;> simpa [fragments, Expr.script, ofMark, Mark.spelling] using hall

/-- The fragments of an expression write the script of its tree as soon as those of the expressions
below it do. -/
theorem writes_fragments {id : NodeId} {node : Node} {tree : Expr} {branch : Branch}
    (hnode : f.node? id = some node) (h : f.exprWithin (n + 1) id = some tree)
    (hplain : tree.Plain)
    (hwrites : ∀ (r : Ref .expr) (tree : Expr), f.exprWithin n r.node = some tree →
      tree.Plain → f.Writes o n [ofRef r] (textOf tree.script)) :
    f.Writes o n (f.fragments branch id node) (textOf tree.script) := by
  simp only [exprWithin, hnode] at h
  cases node with
  | varExpr name =>
    obtain rfl := Option.some.inj h
    have htext := writes_text (f := f) (o := o) (n := n) name
    simpa [fragments, Expr.script, ofName] using htext
  | intLiteral value =>
    obtain rfl := Option.some.inj h
    have htext := writes_text (f := f) (o := o) (n := n) (toString value)
    simpa [fragments, Expr.script, ofInt] using htext
  | boolLiteral value =>
    obtain rfl := Option.some.inj h
    have htext := writes_text (f := f) (o := o) (n := n) (if value then "true" else "false")
    cases value <;> simpa [fragments, Expr.script, ofWord, Word.spelling] using htext
  | parenExpr inner =>
    obtain ⟨tree, htree, rfl⟩ := Option.map_eq_some_iff.1 h
    cases hplain with
    | paren hp => exact (hwrites inner tree htree hp).inParens
  | binary op lhs rhs =>
    simp only [Option.bind_eq_bind, Option.bind_eq_some_iff, Option.some.injEq] at h
    obtain ⟨left, hleft, right, hright, rfl⟩ := h
    cases hplain with
    | binary _ hl hr =>
      exact writes_binary hleft hright (hwrites lhs left hleft hl) (hwrites rhs right hright hr) op
  | eqExpr operands ops =>
    simp only [Option.bind_eq_bind, Option.bind_eq_some_iff, Option.some.injEq] at h
    obtain ⟨trees, htrees, rfl⟩ := h
    cases hplain with
    | chain hlength _ hps => exact writes_chain htrees hps hlength hwrites
  | notExpr operand =>
    obtain ⟨tree, htree, rfl⟩ := Option.map_eq_some_iff.1 h
    cases hplain with
    | not hp => exact writes_not (hwrites operand tree htree hp) (wraps_eq htree).1
  | negExpr operand negate =>
    obtain ⟨tree, htree, rfl⟩ := Option.map_eq_some_iff.1 h
    cases hplain with
    | sign _ hp => exact writes_sign (hwrites operand tree htree hp) (wraps_eq htree).1 negate
  | callExpr func args =>
    simp only [Option.bind_eq_bind, Option.bind_eq_some_iff, Option.some.injEq] at h
    obtain ⟨name, hname, trees, htrees, rfl⟩ := h
    cases hplain with
    | call _ hps => exact (writes_name hname).append (writes_args htrees hps hwrites)
  | mapExpr func args target reduction =>
    simp only [Option.bind_eq_bind, Option.bind_eq_some_iff, Option.some.injEq] at h
    obtain ⟨name, hname, trees, htrees, last, hlast, rfl⟩ := h
    cases hplain with
    | map _ _ hps _ => exact writes_map hname hlast htrees hps hwrites reduction
  -- no other node has a tree
  | _ => cases h

/-- An expression is written as the script of its tree. -/
theorem writeWithin_eq_script {id : NodeId} {tree : Expr} (h : f.exprWithin n id = some tree)
    (hplain : tree.Plain) (page : Page) :
    f.writeWithin o n .opening id page =
      .ok (page.write o (String.ofList (textOf tree.script))) := by
  -- induction on the levels that may be looked at: what is one level down writes its script
  induction n generalizing id tree page with
  | zero => cases h
  | succ n ih =>
    obtain ⟨node, hnode, -⟩ := exprWithin_shape h
    have hchild : ∀ (r : Ref .expr) (tree : Expr), f.exprWithin n r.node = some tree →
        tree.Plain → f.Writes o n [ofRef r] (textOf tree.script) :=
      fun r tree h hp => writes_ofRef (ih h hp)
    have hwrites : f.Writes o n (f.fragments .opening id node) (textOf tree.script) :=
      writes_fragments hnode h hplain hchild
    simp only [writeWithin, hnode]
    exact hwrites page

/-- Whatever the layout, an expression is printed as the text of the script of its tree. -/
theorem print_eq_script {e : Ref .expr} {tree : Expr} (h : f.expr? e = some tree)
    (hplain : tree.Plain) (o : LayoutOptions) :
    f.print o e.node = .ok (String.ofList (textOf tree.script)) := by
  have hwrite := writeWithin_eq_script (o := o) h hplain {}
  simp only [print, hwrite, Except.map, Page.text_write_new]

end Forest

end TensorTree
