import TensorTree.Proofs.Token.Cut

/-!
# What the tokens of a text are

A description of the tokens of a text that does not mention how they are found: the text is put
together from glyphs, each of which is the longest beginning of the rest of the text that any rule
matches, or a single character where there is none (`Munched`).  A glyph that is not skipped has the
kind of the fixed text that it is, or else that of its class (`HasKind`).  The scanner gives these
tokens (`Scanner.tokenize_munches`).
-/

namespace TensorTree

open Pattern (SomeMatches)
open Glyph (textOf lexemesOf)

/-! ## §1 Longest matches -/

/-- The first text is the longest beginning of both together that any rule matches. -/
structure LongestMatch (w rest : List Char) : Prop where
  ne_nil : w ≠ []
  matched : SomeMatches Rule.all w
  longest : ∀ v, v <+: w ++ rest → SomeMatches Rule.all v → v.length ≤ w.length

/-- What the scanner takes is the longest match. -/
theorem longestMatch_of_matchRule? {cs : List Char} {rule : Rule} {n : Nat}
    (h : matchRule? cs = some (rule, n)) :
    LongestMatch (cs.take (n + 1)) (cs.drop (n + 1)) := by
  obtain ⟨hle, hmatch, hmax⟩ :=
    Pattern.isLongest_of_longest?_eq_some ((matchRule?_eq_some_iff ..).1 h)
  have hlength : (cs.take (n + 1)).length = n + 1 := by
    rw [List.length_take]
    omega
  refine ⟨?_, hmatch, fun v hv hvmatch => ?_⟩
  · intro hnil
    rw [hnil] at hlength
    cases hlength
  · rw [List.take_append_drop] at hv
    have hmatch' : SomeMatches Rule.all (cs.take v.length) := by
      rwa [← List.prefix_iff_eq_take.1 hv]
    rw [hlength]
    exact Nat.le_of_not_lt fun hlonger => hmax v.length hlonger hv.length_le hmatch'

/-! ## §2 Kinds -/

/-- Kinds that are written in exactly one way. -/
def TokenKind.isFixed : TokenKind → Bool
  | .word _ | .mark _ => true
  | _ => false

/-- A text that is the fixed text of a kind has that kind and no other; any other text is an
integer, a float or an identifier, as its pattern says. -/
structure HasKind (kind : TokenKind) (w : List Char) : Prop where
  fixed : ∀ other : TokenKind, other.isFixed = true → (kind = other ↔ other.text.toList = w)
  class_of_free : (∀ other : TokenKind, other.isFixed = true → other.text.toList ≠ w) →
    (kind = .int ∧ Rule.digits.Matches w) ∨ (kind = .float ∧ Rule.float.Matches w) ∨
      (kind = .ident ∧ Rule.ident.Matches w)

theorem hasKind_of_matchRule? {cs : List Char} {kind : TokenKind} {n : Nat}
    (h : matchRule? cs = some (.token kind, n)) : HasKind kind (cs.take (n + 1)) := by
  obtain ⟨p, hmem, hp⟩ := exists_matches_of_matchRule? h
  have hdenotes := denotes_of_mem_all hmem hp
  have hwhole := Pattern.longest?_take ((matchRule?_eq_some_iff ..).1 h)
  generalize cs.take (n + 1) = w at hdenotes hwhole
  -- a fixed text on its own is matched by its own rule, and there is only one longest match
  have hunique : ∀ rule, IsLexeme rule w → Rule.token kind = rule := fun rule hlexeme =>
    (Prod.mk.inj (Option.some.inj (hwhole.symm.trans hlexeme.2))).1
  constructor
  · intro other hother
    constructor
    · rintro rfl
      cases kind with
      | word word => exact hdenotes
      | mark mark => exact hdenotes
      | _ => cases hother
    · rintro rfl
      cases other with
      | word word => exact Rule.token.inj (hunique _ (isLexeme_word word))
      | mark mark => exact Rule.token.inj (hunique _ (isLexeme_mark mark))
      | _ => cases hother
  · intro hfree
    cases kind with
    | word word => exact absurd hdenotes (hfree (.word word) rfl)
    | mark mark => exact absurd hdenotes (hfree (.mark mark) rfl)
    | int => exact .inl ⟨rfl, hdenotes⟩
    | float => exact .inr (.inl ⟨rfl, hdenotes⟩)
    | ident => exact .inr (.inr ⟨rfl, hdenotes⟩)
    | eof => exact hdenotes.elim
    | error => exact hdenotes.elim

/-! ## §3 Texts that are put together from longest matches -/

/-- A glyph is what the rules make of the beginning of a text that goes on with the given rest. -/
inductive Munch (rest : List Char) : Glyph → Prop where
  /-- The longest match is blank space or a comment. -/
  | skip {w : List Char} (hlongest : LongestMatch w rest)
      (hskip : Rule.blanks.Matches w ∨ Rule.comment.Matches w) : Munch rest ⟨.skip, w⟩
  /-- The longest match is a token. -/
  | token {kind : TokenKind} {w : List Char} (hlongest : LongestMatch w rest)
      (hkind : HasKind kind w) : Munch rest ⟨.token kind, w⟩
  /-- No rule matches anything at this character. -/
  | error {c : Char}
      (hnone : ∀ v, v ≠ [] → v <+: c :: rest → ¬ SomeMatches Rule.all v) :
      Munch rest ⟨.token .error, [c]⟩

/-- Each glyph is what the rules make of the text from its place on. -/
inductive Munched : List Glyph → Prop where
  | nil : Munched []
  | cons {g : Glyph} {gs : List Glyph} (hmunch : Munch (textOf gs) g) (hrest : Munched gs) :
      Munched (g :: gs)

theorem Cuts.munched {cs : List Char} {gs : List Glyph} (h : Cuts cs gs) : Munched gs := by
  induction h with
  | nil => exact .nil
  | @found c cs rule n gs hmatch hrest ih =>
    refine .cons ?_ ih
    have hlongest := longestMatch_of_matchRule? hmatch
    rw [List.take_succ_cons, List.drop_succ_cons, hrest.text_eq] at hlongest
    cases rule with
    | skip =>
      refine .skip hlongest ?_
      obtain ⟨p, hmem, hp⟩ := exists_matches_of_matchRule? hmatch
      have hpattern : p = Rule.blanks ∨ p = Rule.comment := by simpa [Rule.all] using hmem
      rcases hpattern with rfl | rfl
      · exact .inl hp
      · exact .inr hp
    | token kind => exact .token hlongest (hasKind_of_matchRule? hmatch)
  | stray hmatch hrest ih =>
    refine .cons (.error fun v hne hv => ?_) ih
    rw [← hrest.text_eq] at hv
    exact not_someMatches_of_matchRule?_eq_none hmatch hne hv

namespace Scanner

/-- The scanner loses nothing and takes the longest match everywhere: every text is put together
from the lexemes of its tokens and from what is skipped between them, each of them the longest match
at its place and of the kind that the rules give it.  The last token, and no other, is the end. -/
theorem tokenize_munches (text : String) :
    ∃ gs, text.toList = textOf gs ∧ Munched gs ∧
      (tokenize text).1.map Token.bare = lexemesOf gs ++ [⟨.eof, []⟩] ∧
      ∀ lexeme ∈ lexemesOf gs, lexeme.kind ≠ .eof := by
  obtain ⟨gs, hcuts⟩ := Cuts.exists_cuts text.toList
  refine ⟨gs, hcuts.text_eq, hcuts.munched, ?_, ?_⟩
  · rw [tokenize_eq_placed hcuts, map_bare_placed]
  · intro lexeme hlexeme
    obtain ⟨⟨rule, w⟩, hmem, hsome⟩ := List.mem_filterMap.1 hlexeme
    have hrule := hcuts.rule_ne_eof _ hmem
    cases rule with
    | skip => cases hsome
    | token kind =>
      obtain rfl := Option.some.inj hsome
      rintro rfl
      exact hrule rfl

/-- Neither a point in front of another one nor a letter makes a float of digits. -/
example : (tokenize "1..2e% 3").1.map Token.bare =
    [⟨.int, ['1']⟩, ⟨.mark .dotDot, ['.', '.']⟩, ⟨.int, ['2']⟩, ⟨.ident, ['e']⟩, ⟨.eof, []⟩] := by
  decide

end Scanner

end TensorTree
