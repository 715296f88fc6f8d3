import TensorTree.Proofs.Expr.Script

/-!
# Scripts are spaced

No glyph of the script of a plain tree reaches into the next one, so the scanner finds the lexemes
of the script in the text that is printed (`Expr.Plain.lexes`).
-/

namespace TensorTree

open Glyph

/-! ## §1 Single glyphs -/

/-- What may stand behind the script of a tree: nothing, or a character that no lexeme of the script
goes on with. -/
def Clean (cs : List Char) : Prop := ∀ c ∈ cs.head?, c = ' ' ∨ c = ')' ∨ c = ','

/-- What may stand behind a space: a character that is no blank. -/
def Visible (cs : List Char) : Prop := ∃ c rest, cs = c :: rest ∧ isBlank c = false

/-- What a tree begins with: a character that is no blank, and that makes no arrow of a minus. -/
def Starts (cs : List Char) : Prop := ∃ c rest, cs = c :: rest ∧ isBlank c = false ∧ c ≠ '>'

theorem Starts.append {cs : List Char} (h : Starts cs) (ds : List Char) : Starts (cs ++ ds) := by
  obtain ⟨c, rest, rfl, hc⟩ := h
  exact ⟨c, rest ++ ds, rfl, hc⟩

theorem Starts.visible {cs : List Char} (h : Starts cs) : Visible cs := by
  obtain ⟨c, rest, heq, hc, -⟩ := h
  exact ⟨c, rest, heq, hc⟩

theorem Visible.append {cs : List Char} (h : Visible cs) (ds : List Char) : Visible (cs ++ ds) := by
  obtain ⟨c, rest, rfl, hc⟩ := h
  exact ⟨c, rest ++ ds, rfl, hc⟩

/-- No part of a name stands first. -/
def EndsName (cs : List Char) : Prop := ∀ c ∈ cs.head?, isNamePart c = false

theorem endsName_cons {c : Char} (hc : isNamePart c = false) (cs : List Char) :
    EndsName (c :: cs) := by
  simp [EndsName, hc]

theorem Clean.endsName {cs : List Char} (h : Clean cs) : EndsName cs := by
  intro c hc
  rcases h c hc with rfl | rfl | rfl <;> rfl

theorem starts_of_isNameStart {c : Char} {cs : List Char} (h : isNameStart c = true) :
    Starts (c :: cs) := by
  refine ⟨c, cs, rfl, isBlank_eq_false (by simp [isNamePart, h]), ?_⟩
  -- an angle bracket begins no name
  rintro rfl
  cases h

theorem starts_of_isDigit {c : Char} {cs : List Char} (h : isDigit c = true) :
    Starts (c :: cs) := by
  refine ⟨c, cs, rfl, isBlank_eq_false (by simp [isNamePart, h]), ?_⟩
  rintro rfl
  cases h

namespace Spaced

variable {gs : List Glyph}

theorem space (h : Spaced gs) (hvisible : Visible (textOf gs)) : Spaced (Glyph.space :: gs) := by
  obtain ⟨c, rest, heq, hc⟩ := hvisible
  refine .cons isLexeme_blank ?_ h
  rw [heq]
  exact stops_of_blank rfl hc rest

theorem mark {mark : Mark} (h : Spaced gs)
    (hnext : ∀ c ∈ (textOf gs).head?, mark.growsWith c = false) : Spaced (ofMark mark :: gs) := by
  refine .cons (isLexeme_mark mark) ?_ h
  cases hgs : textOf gs with
  | nil => exact stops_nil _
  | cons c rest => exact stops_of_mark (hnext c (by simp [hgs])) rest

/-- What begins like a name ends in front of what is no part of a name. -/
theorem nameLike {g : Glyph} {c : Char} {w : List Char} (h : Spaced gs)
    (hlexeme : IsLexeme g.rule g.chars) (hchars : g.chars = c :: w) (hc : isNameStart c = true)
    (hends : EndsName (textOf gs)) : Spaced (g :: gs) := by
  refine .cons hlexeme ?_ h
  rw [hchars]
  cases hgs : textOf gs with
  | nil => exact stops_nil _
  | cons d rest => exact stops_of_isNameStart hc (hends d (by simp [hgs])) rest

theorem name {name : String} (h : Spaced gs) (hname : IsName name)
    (hends : EndsName (textOf gs)) : Spaced (ofName name :: gs) := by
  obtain ⟨c, w, hchars, hc⟩ := hname.exists_head
  exact h.nameLike hname.isLexeme hchars hc hends

theorem word {word : Word} (h : Spaced gs) (hends : EndsName (textOf gs)) :
    Spaced (ofWord word :: gs) := by
  obtain ⟨c, w, hchars, hc, -⟩ := word.exists_head
  exact h.nameLike (isLexeme_word word) hchars hc hends

end Spaced

/-! ## §2 Numbers and operators -/

theorem chars_ofInt (n : Nat) : (ofInt n).chars = Nat.toDigits 10 n := by
  simp [ofInt, Int.toString_eq_repr, Int.repr_eq_if, Nat.toList_repr]

/-- The text of a number that is not negative is a row of digits. -/
theorem isDigit_of_mem_ofInt {n : Nat} {c : Char} (h : c ∈ (ofInt n).chars) :
    isDigit c = true := by
  rw [chars_ofInt] at h
  exact isDigit_of_mem_toDigits h

theorem exists_head_ofInt (n : Nat) :
    ∃ c w, (ofInt n).chars = c :: w ∧ isDigit c = true := by
  have hne : (ofInt n).chars ≠ [] := by
    rw [chars_ofInt]
    exact Nat.toDigits_ne_nil
  obtain ⟨c, w, hchars⟩ := List.exists_cons_of_ne_nil hne
  exact ⟨c, w, hchars, isDigit_of_mem_ofInt (by rw [hchars]; exact List.mem_cons_self)⟩

/-- An operator ends in front of a space. -/
theorem BinaryOp.isLexeme_glyph (op : BinaryOp) :
    IsLexeme op.glyph.rule op.glyph.chars ∧ ∀ rest, Stops op.glyph.chars (' ' :: rest) := by
  cases op with
  | or | and | xor =>
    exact ⟨isLexeme_word _, fun rest => stops_of_isNameStart (by decide) (by decide) rest⟩
  | _ => exact ⟨isLexeme_mark _, fun rest => stops_of_mark (by decide) rest⟩

theorem ComparisonOp.isLexeme_glyph (op : ComparisonOp) :
    IsLexeme op.glyph.rule op.glyph.chars ∧ ∀ rest, Stops op.glyph.chars (' ' :: rest) := by
  cases op <;> exact ⟨isLexeme_mark _, fun rest => stops_of_mark (by decide) rest⟩

theorem BinaryOp.visible_glyph (op : BinaryOp) : Visible op.glyph.chars := by
  cases op <;> exact ⟨_, _, rfl, by decide⟩

theorem ComparisonOp.visible_glyph (op : ComparisonOp) : Visible op.glyph.chars := by
  cases op <;> exact ⟨_, _, rfl, by decide⟩

namespace Spaced

variable {gs : List Glyph}

theorem int {n : Nat} (h : Spaced gs) (hclean : Clean (textOf gs)) : Spaced (ofInt n :: gs) := by
  obtain ⟨c, w, hchars, hc⟩ := exists_head_ofInt n
  have hall : ∀ d ∈ c :: w, isDigit d = true := by
    intro d hd
    rw [← hchars] at hd
    exact isDigit_of_mem_ofInt hd
  have hlexeme : IsLexeme (ofInt n).rule (ofInt n).chars := by
    rw [hchars]
    exact isLexeme_digits (List.cons_ne_nil c w) hall
  refine .cons hlexeme ?_ h
  rw [hchars]
  cases hgs : textOf gs with
  | nil => exact stops_nil _
  | cons d rest =>
    have hd : d = ' ' ∨ d = ')' ∨ d = ',' := hclean d (by simp [hgs])
    rcases hd with rfl | rfl | rfl <;> exact stops_of_digits hall (by decide) (by decide) rest

/-- An operator with a space on either side. -/
theorem operator {g : Glyph} (h : Spaced gs) (hstarts : Starts (textOf gs))
    (hg : IsLexeme g.rule g.chars ∧ ∀ rest, Stops g.chars (' ' :: rest))
    (hvisible : Visible g.chars) : Spaced (Glyph.space :: g :: Glyph.space :: gs) := by
  refine Spaced.space ?_ (hvisible.append _)
  exact .cons hg.1 (hg.2 (textOf gs)) (h.space hstarts.visible)

theorem inParens {inner : List Glyph} (h : Spaced gs)
    (hinner : ∀ hs, Spaced hs → Clean (textOf hs) → Spaced (inner ++ hs)) :
    Spaced (Glyph.inParens inner ++ gs) := by
  have hclose : Spaced (ofMark .parenClose :: gs) := h.mark fun c _ => rfl
  have hclean : Clean (textOf (ofMark .parenClose :: gs)) := by
    simp [Clean, ofMark, Mark.spelling]
  have hopen : Spaced (ofMark .parenOpen :: (inner ++ ofMark .parenClose :: gs)) :=
    (hinner _ hclose hclean).mark fun c _ => rfl
  simpa [Glyph.inParens] using hopen

theorem wrapIf {inner : List Glyph} (needsParens : Bool)
    (hinner : ∀ hs, Spaced hs → Clean (textOf hs) → Spaced (inner ++ hs)) (h : Spaced gs)
    (hclean : Clean (textOf gs)) : Spaced (Glyph.wrapIf needsParens inner ++ gs) := by
  cases needsParens with
  | false => exact hinner gs h hclean
  | true => exact h.inParens hinner

end Spaced

/-! ## §3 Trees -/

/-- What is proved of every plain tree: its script has a first character that is no blank, and it
can be put in front of what its lexemes do not go on with. -/
structure Expr.Fits (e : Expr) : Prop where
  starts : Starts (textOf e.script)
  spaced : ∀ gs, Spaced gs → Clean (textOf gs) → Spaced (e.script ++ gs)

namespace Expr

variable {gs : List Glyph}

theorem Fits.wrapIf {e : Expr} (h : e.Fits) (needsParens : Bool) (hgs : Spaced gs)
    (hclean : Clean (textOf gs)) : Spaced (Glyph.wrapIf needsParens e.script ++ gs) :=
  hgs.wrapIf needsParens h.spaced hclean

theorem Fits.starts_wrapIf {e : Expr} (h : e.Fits) (needsParens : Bool) (gs : List Glyph) :
    Starts (textOf (Glyph.wrapIf needsParens e.script ++ gs)) := by
  have hfirst : Starts (textOf (Glyph.wrapIf needsParens e.script)) := by
    cases needsParens with
    | false => exact h.starts
    | true => exact ⟨'(', _, rfl, by decide, by decide⟩
  rw [textOf_append]
  exact hfirst.append _

theorem exists_commas_cons (glyphs : List Glyph) (rest : List (List Glyph)) :
    ∃ tail, commas (glyphs :: rest) = glyphs ++ tail := by
  cases rest with
  | nil => exact ⟨[], by simp [commas]⟩
  | cons next rest =>
    exact ⟨_, by simp only [commas, List.intersperse_cons_cons, List.flatten_cons]; rfl⟩

theorem spaced_commas {es : List Expr} (h : ∀ e ∈ es, e.Fits) (hgs : Spaced gs)
    (hclean : Clean (textOf gs)) :
    Spaced (commas (scripts (fun _ => false) es) ++ gs) := by
  induction es with
  | nil => exact hgs
  | cons e es ih =>
    rw [List.forall_mem_cons] at h
    -- only the last tree stands in front of `gs` itself
    cases es with
    | nil => simpa [scripts, commas, Glyph.wrapIf] using h.1.spaced gs hgs hclean
    | cons e' es =>
      have hstarts : Starts (textOf (commas (scripts (fun _ => false) (e' :: es)) ++ gs)) := by
        obtain ⟨tail, htail⟩ := exists_commas_cons e'.script (scripts (fun _ => false) es)
        have hfirst := (h.2 e' List.mem_cons_self).starts.append (textOf (tail ++ gs))
        simpa [scripts, Glyph.wrapIf, htail] using hfirst
      have hcomma : Spaced (ofMark .comma :: space ::
          (commas (scripts (fun _ => false) (e' :: es)) ++ gs)) :=
        ((ih h.2).space hstarts.visible).mark fun c _ => rfl
      have hall := h.1.spaced _ hcomma (by simp [Clean, ofMark, Mark.spelling])
      simpa [scripts, commas, Glyph.wrapIf, List.intersperse_cons_cons] using hall

theorem spaced_args {es : List Expr} (h : ∀ e ∈ es, e.Fits) (hgs : Spaced gs) :
    Spaced (inParens (commas (scripts (fun _ => false) es)) ++ gs) :=
  hgs.inParens fun _ hhs hclean => spaced_commas h hhs hclean

theorem clean_links (glyphs : List (List Glyph)) (ops : List ComparisonOp)
    (hclean : Clean (textOf gs)) : Clean (textOf (links glyphs ops ++ gs)) := by
  cases glyphs with
  | nil => simpa [links] using hclean
  | cons first rest =>
    cases ops with
    | nil => simpa [links] using hclean
    | cons op ops => simp [links, Clean, space]

theorem spaced_links {es : List Expr} (h : ∀ e ∈ es, e.Fits) (ops : List ComparisonOp)
    (hgs : Spaced gs) (hclean : Clean (textOf gs)) :
    Spaced (links (scripts wrapsComparand es) ops ++ gs) := by
  induction es generalizing ops with
  | nil => exact hgs
  | cons e es ih =>
    rw [List.forall_mem_cons] at h
    cases ops with
    | nil => exact hgs
    | cons op ops =>
      have hrest := ih h.2 ops
      have hfirst := h.1.wrapIf e.wrapsComparand hrest (clean_links _ ops hclean)
      have hstarts :=
        h.1.starts_wrapIf e.wrapsComparand (links (scripts wrapsComparand es) ops ++ gs)
      have hop := hfirst.operator hstarts op.isLexeme_glyph op.visible_glyph
      simpa [links, scripts] using hop

theorem growsWith_minus {c : Char} (h : c ≠ '>') : Mark.minus.growsWith c = false := by
  simp [Mark.growsWith, Mark.all, Mark.spelling, List.isPrefixOf, h]

theorem starts_name {name : String} (h : IsName name) (rest : List Glyph) :
    Starts (textOf (ofName name :: rest)) := by
  obtain ⟨c, w, hchars, hc⟩ := h.exists_head
  rw [textOf_cons, ofName, hchars]
  exact starts_of_isNameStart hc

/-- A reserved word, a space and a name. -/
theorem spaced_word_name {word : Word} {name : String} (hname : IsName name) (hgs : Spaced gs)
    (hends : EndsName (textOf gs)) : Spaced (ofWord word :: space :: ofName name :: gs) := by
  have hspace := (hgs.name hname hends).space (starts_name hname gs).visible
  exact hspace.word (by simp [EndsName, space]; decide)

/-- What is printed of a reduction, in front of what is clean. -/
theorem spaced_reduction (reduction : Reduction) (hgs : Spaced gs) (hclean : Clean (textOf gs)) :
    let written := if reduction = .sum then
      [space, ofWord .reduceWord, space, ofMark .plus] ++ gs else gs
    Spaced written ∧ EndsName (textOf written) := by
  cases reduction with
  | absent => exact ⟨hgs, hclean.endsName⟩
  | sum =>
    have hplus : Spaced (ofMark .plus :: gs) := hgs.mark fun c _ => rfl
    have hword : Spaced (ofWord .reduceWord :: space :: ofMark .plus :: gs) :=
      (hplus.space ⟨'+', _, rfl, by decide⟩).word (by simp [EndsName, space]; decide)
    exact ⟨hword.space ⟨'r', _, rfl, by decide⟩, by simp [EndsName, space]; decide⟩

theorem fits_var {name : String} (hname : IsName name) : (var name).Fits where
  starts := starts_name hname []
  spaced _ hgs hclean := hgs.name hname hclean.endsName

theorem fits_int (n : Nat) : (int n).Fits := by
  obtain ⟨c, w, hchars, hc⟩ := exists_head_ofInt n
  refine ⟨?_, fun gs hgs hclean => hgs.int hclean⟩
  simp only [script, textOf_cons, textOf_nil, List.append_nil, hchars]
  exact starts_of_isDigit hc

theorem Fits.binary {lhs rhs : Expr} (hlhs : lhs.Fits) (hrhs : rhs.Fits) (op : BinaryOp) :
    (binary op lhs rhs).Fits := by
  refine ⟨?_, fun gs hgs hclean => ?_⟩
  · rw [script, List.append_assoc]
    exact hlhs.starts_wrapIf _ _
  · have hright := hrhs.wrapIf (rhs.wrapsOperand op true) hgs hclean
    have hstarts := hrhs.starts_wrapIf (rhs.wrapsOperand op true) gs
    have hop := hright.operator hstarts op.isLexeme_glyph op.visible_glyph
    have hall := hlhs.wrapIf (lhs.wrapsOperand op false) hop (by simp [Clean, space])
    simpa [script] using hall

theorem Fits.chain {e : Expr} {es : List Expr} (he : e.Fits) (hes : ∀ x ∈ es, x.Fits)
    (ops : List ComparisonOp) : (chain (e :: es) ops).Fits := by
  refine ⟨?_, fun gs hgs hclean => ?_⟩
  · rw [script, scripts, chained]
    exact he.starts_wrapIf _ _
  · have hlinks := spaced_links hes ops hgs hclean
    have hall := he.wrapIf e.wrapsComparand hlinks (clean_links _ ops hclean)
    simpa [script, scripts, chained] using hall

theorem Fits.not {e : Expr} (h : e.Fits) : (not e).Fits := by
  refine ⟨⟨'n', _, rfl, by decide, by decide⟩, fun gs hgs hclean => ?_⟩
  have hatom := h.wrapIf e.wrapsAtom hgs hclean
  have hspace := hatom.space (h.starts_wrapIf e.wrapsAtom gs).visible
  exact hspace.word (by simp [EndsName, space]; decide)

theorem Fits.sign {e : Expr} (h : e.Fits) (negate : Bool) : (sign negate e).Fits := by
  refine ⟨?_, fun gs hgs hclean => ?_⟩
  · cases negate <;> exact ⟨_, _, rfl, by decide, by decide⟩
  · refine (h.wrapIf e.wrapsAtom hgs hclean).mark fun c hc => ?_
    -- a minus would reach into an operand that begins with a closing angle bracket
    obtain ⟨d, rest, heq, -, hd⟩ := h.starts_wrapIf e.wrapsAtom gs
    rw [heq] at hc
    obtain rfl : d = c := by simpa using hc
    cases negate with
    | false => rfl
    | true => exact growsWith_minus hd

theorem Fits.call {func : String} {args : List Expr} (hfunc : IsName func)
    (hargs : ∀ e ∈ args, e.Fits) : (call func args).Fits := by
  refine ⟨starts_name hfunc _, fun gs hgs _ => ?_⟩
  have hends :
      EndsName (textOf (Glyph.inParens (commas (scripts (fun _ => false) args)) ++ gs)) := by
    simp [EndsName, Glyph.inParens, ofMark, Mark.spelling]
    decide
  exact (spaced_args hargs hgs).name hfunc hends

/-- The arguments of a map, which may be absent, in front of the word that follows. -/
theorem spaced_mapArgs {args : List Expr} (hargs : ∀ e ∈ args, e.Fits)
    (hgs : Spaced (space :: gs)) :
    let written := (if args.isEmpty then [] else
      Glyph.inParens (commas (scripts (fun _ => false) args))) ++ space :: gs
    Spaced written ∧ EndsName (textOf written) := by
  cases args with
  | nil => exact ⟨hgs, by simp [EndsName, space]; decide⟩
  | cons e es =>
    have hspaced := spaced_args hargs hgs
    exact ⟨hspaced, by simp [EndsName, Glyph.inParens, ofMark, Mark.spelling]; decide⟩

theorem Fits.map {func target : String} {args : List Expr} (hfunc : IsName func)
    (hargs : ∀ e ∈ args, e.Fits) (htarget : IsName target) (reduction : Reduction) :
    (map func args target reduction).Fits := by
  refine ⟨⟨'m', _, rfl, by decide, by decide⟩, fun gs hgs hclean => ?_⟩
  -- from the end to the beginning: the reduction, the target, the arguments, the function
  have hreduction := spaced_reduction reduction hgs hclean
  generalize hwritten : (if reduction = .sum then
    [space, ofWord .reduceWord, space, ofMark .plus] ++ gs else gs) = written at hreduction
  have htail : Spaced (space :: ofWord .toWord :: space :: ofName target :: written) :=
    (spaced_word_name htarget hreduction.1 hreduction.2).space ⟨'t', _, rfl, by decide⟩
  have hmiddle := spaced_mapArgs hargs htail
  have hall : Spaced (ofWord .mapWord :: space :: ofName func :: _) :=
    spaced_word_name hfunc hmiddle.1 hmiddle.2
  have hshape : (if reduction = .sum then [space, ofWord .reduceWord, space, ofMark .plus]
      else []) ++ gs = written := by
    rw [← hwritten]
    split <;> rfl
  simpa [script, hshape] using hall

theorem Plain.fits {e : Expr} (h : e.Plain) : e.Fits := by
  induction h with
  | var hname => exact fits_var hname
  | int n => exact fits_int n
  | bool value =>
    refine ⟨?_, fun gs hgs hclean => hgs.word hclean.endsName⟩
    cases value <;> exact ⟨_, _, rfl, by decide, by decide⟩
  | paren _ ih =>
    exact ⟨⟨'(', _, rfl, by decide, by decide⟩, fun gs hgs _ => hgs.inParens ih.spaced⟩
  | binary op _ _ ihlhs ihrhs => exact ihlhs.binary ihrhs op
  | @chain operands ops hlength _ _ ih =>
    cases operands with
    | nil => cases hlength
    | cons e es =>
      rw [List.forall_mem_cons] at ih
      exact ih.1.chain ih.2 ops
  | not _ ih => exact ih.not
  | sign negate _ ih => exact ih.sign negate
  | call hfunc _ ih => exact .call hfunc ih
  | map reduction hfunc _ htarget ih => exact .map hfunc ih htarget reduction

/-- The lexemes of the printed text of a plain tree are those of its script. -/
theorem Plain.lexes {e : Expr} (h : e.Plain) : Lexes (textOf e.script) (lexemesOf e.script) := by
  have hspaced := h.fits.spaced [] .nil (by simp [Clean])
  rw [List.append_nil] at hspaced
  exact hspaced.lexes

end Expr

end TensorTree
