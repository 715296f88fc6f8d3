import TensorTree.Proofs.Expr.Affixes
import TensorTree.Proofs.Expr.Spacing
import TensorTree.Proofs.Number.Whole
import TensorTree.Proofs.Print.Vocabulary

/-!
# Floating-point numbers scanned again

The shortest decimal of a number is displayed without a power of ten, and with a point only in front
of a fraction.  So a whole number would be scanned as an integer; a program writes a point and a
zero behind it.  That these are missing exactly if the number itself is whole, whatever its
magnitude is, is what makes every finite number a single float when it is scanned again
(`Forest.scans_print_float`).
-/

namespace TensorTree

open Glyph (ofMark textOf lexemesOf)

/-! ## §1 Displays -/

namespace Decimal

/-- The text without a power of ten, with a point only in front of a fraction. -/
def display (d : Decimal) : List Char :=
  match d.exponent with
  | .ofNat n => d.digits ++ List.replicate n '0'
  | .negSucc _ => d.plain

theorem plain_eq_display (d : Decimal) :
    d.plain = d.display ++ if 0 ≤ d.exponent then ['.', '0'] else [] := by
  cases hexponent : d.exponent with
  | ofNat n => simp [plain, display, hexponent]
  | negSucc n => simp [display, hexponent]

theorem point_mem_display_iff (d : Decimal) : '.' ∈ d.display ↔ ¬ 0 ≤ d.exponent := by
  cases hexponent : d.exponent with
  | ofNat n =>
    have hpoint : '.' ∉ d.digits := by
      intro hmem
      cases isDigit_of_mem_toDigits hmem
    simp [display, hexponent, hpoint]
  | negSucc n =>
    obtain ⟨u, v, hplain, -⟩ := d.exists_plain_eq
    simp [display, hexponent, hplain]

end Decimal

namespace Binary64

variable {x : Binary64}

/-- What is displayed of the magnitude of a finite number: the shortest decimal that rounds to it,
of two equally near ones the greater one. -/
def display (x : Binary64) : List Char := ((Rounding.ofBinary x).shortest .up).display

/-- What a program has of the magnitude of a finite number: a whole number gets a point and a zero
behind what is displayed. -/
def numeral (x : Binary64) : List Char :=
  x.display ++ if Int.fract x.magnitude = 0 then ['.', '0'] else []

theorem magnitude_eq_numeral (x : Binary64) : programNumberFormat.magnitude x = x.numeral := by
  have hplain := ((Rounding.ofBinary x).shortest .up).plain_eq_display
  simp only [exponent_shortest_nonneg_iff] at hplain
  exact hplain

theorem point_mem_display_iff (x : Binary64) : '.' ∈ x.display ↔ Int.fract x.magnitude ≠ 0 := by
  rw [display, Decimal.point_mem_display_iff, exponent_shortest_nonneg_iff]

theorem toList_programText (h : x.isFinite = true) :
    x.programText.toList = (if x.negative then ['-'] else []) ++ x.numeral := by
  rw [programText, if_pos h, NumberFormat.render, String.toList_ofList, magnitude_eq_numeral]
  cases x.negative <;> rfl

/-! ## §2 Glyphs -/

/-- The glyphs of a finite number: a minus if the sign bit is set, and a float. -/
def glyphs (x : Binary64) : List Glyph :=
  (if x.negative then [ofMark .minus] else []) ++ [⟨.token .float, x.numeral⟩]

theorem textOf_glyphs (x : Binary64) :
    textOf x.glyphs = (if x.negative then ['-'] else []) ++ x.numeral := by
  unfold glyphs
  cases x.negative <;> simp [ofMark, Mark.spelling]

theorem lexemesOf_glyphs (x : Binary64) :
    lexemesOf x.glyphs =
      (if x.negative then [⟨.mark .minus, ['-']⟩] else []) ++ [⟨.float, x.numeral⟩] := by
  unfold glyphs
  cases x.negative <;> rfl

/-- The numeral is a float of its own, and the minus in front of it makes no longer mark with it. -/
theorem spaced_glyphs (x : Binary64) : Spaced x.glyphs := by
  obtain ⟨u, v, hplain, hu, hv⟩ := ((Rounding.ofBinary x).shortest .up).exists_plain_eq
  have hnumeral : x.numeral = u ++ '.' :: v := by
    rw [← magnitude_eq_numeral]
    exact hplain
  have hfloat : Spaced [⟨.token .float, x.numeral⟩] := by
    rw [hnumeral]
    exact .cons (isLexeme_float hu hv) (stops_nil _) .nil
  unfold glyphs
  cases x.negative with
  | false => exact hfloat
  | true =>
    apply hfloat.mark
    intro c hc
    -- the first character behind the minus is a digit
    obtain ⟨hne, hdigits⟩ := (Rule.matches_digits_iff u).1 hu
    obtain ⟨d, u, rfl⟩ := List.exists_cons_of_ne_nil hne
    obtain rfl : d = c := by simpa [hnumeral] using hc
    apply Expr.growsWith_minus
    rintro rfl
    cases hdigits '>' List.mem_cons_self

end Binary64

/-! ## §3 Literals -/

/-- Every literal of a finite number is printed as it is displayed, a whole number with a point and
a zero behind it; and the text is scanned without errors as a single float, behind a minus exactly
if the sign bit is set. -/
theorem Forest.scans_print_float {f : Forest} (o : LayoutOptions) {id : NodeId} {x : Binary64}
    (hid : f.node? id = some (.floatLiteral x)) (hfinite : x.isFinite = true) :
    ∃ text, f.print o id = .ok text ∧
      text.toList = (if x.negative then ['-'] else []) ++ x.numeral ∧
      ('.' ∈ x.display ↔ Int.fract x.magnitude ≠ 0) ∧
      (Scanner.tokenize text).1.map Token.bare =
        (if x.negative then [⟨.mark .minus, ['-']⟩] else []) ++
          [⟨.float, x.numeral⟩, ⟨.eof, []⟩] ∧
      (Scanner.tokenize text).2 = [] := by
  have hprint : f.print o id = .ok x.programText := by
    rw [print, depthBound, writeWithin_succ hid]
    exact congrArg Except.ok (Page.text_write_new o x.programText)
  have hlexes : Lexes x.programText.toList
      ((if x.negative then [⟨.mark .minus, ['-']⟩] else []) ++ [⟨.float, x.numeral⟩]) := by
    rw [Binary64.toList_programText hfinite, ← x.textOf_glyphs, ← x.lexemesOf_glyphs]
    exact x.spaced_glyphs.lexes
  have htokens := Scanner.tokenize_of_lexes hlexes
  rw [List.append_assoc] at htokens
  refine ⟨_, hprint, Binary64.toList_programText hfinite, x.point_mem_display_iff, htokens, ?_⟩
  apply Scanner.errors_eq_nil_of_lexes hlexes
  cases x.negative <;> simp

namespace Session

/-- The negative of the sixtieth power of two. -/
def negativePower : List Change :=
  [.insert ⟨⟨1, 1⟩, ⟨1, 23⟩⟩ (.floatLiteral (.ofBits 0xC3B0000000000000))]

/-- It is whole, so a point and a zero stand behind its digits, the last four of which are not those
of the number. -/
theorem scans_print_negativePower :
    ((start.run negativePower).forest.node? ⟨0⟩ =
        some (.floatLiteral (.ofBits 0xC3B0000000000000)) ∧
      (Binary64.ofBits 0xC3B0000000000000).isFinite = true) ∧
      (start.run negativePower).forest.print {} ⟨0⟩ = .ok "-1152921504606847000.0" ∧
      (Scanner.tokenize "-1152921504606847000.0").1.map Token.bare =
        [⟨.mark .minus, ['-']⟩, ⟨.float, "1152921504606847000.0".toList⟩, ⟨.eof, []⟩] := by
  have hid : (start.run negativePower).forest.node? ⟨0⟩ =
      some (.floatLiteral (.ofBits 0xC3B0000000000000)) := rfl
  have hfinite : (Binary64.ofBits 0xC3B0000000000000).isFinite = true := by decide +kernel
  have hnegative : (Binary64.ofBits 0xC3B0000000000000).negative = true := by decide +kernel
  have hprint : (start.run negativePower).forest.print {} ⟨0⟩ =
      .ok "-1152921504606847000.0" := by decide +kernel
  obtain ⟨text, htext, hchars, -, htokens, -⟩ := Forest.scans_print_float {} hid hfinite
  obtain rfl := Except.ok.inj (hprint.symm.trans htext)
  rw [hnegative] at hchars htokens
  have hnumeral : "1152921504606847000.0".toList =
      (Binary64.ofBits 0xC3B0000000000000).numeral := (List.cons.inj hchars).2
  rw [hnumeral]
  exact ⟨⟨hid, hfinite⟩, hprint, htokens⟩

end Session

end TensorTree
