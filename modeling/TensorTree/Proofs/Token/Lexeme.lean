import TensorTree.Proofs.Token.Cut

/-!
# Lexemes

The tokens of a text without their places (`Lexes`): they are what the scanner gives, whatever the
place at which the text begins (`Scanner.tokenize_of_lexes`), and a text has them in only one way
(`Lexes.unique`).  A text that is put together from lexemes, each of which ends in front of the
rest, has these lexemes (`Spaced.lexes`).
-/

namespace TensorTree

open Glyph (lexemesOf)

/-! ## §1 Lexemes of a text -/

/-- The lexemes of a text, blank space and comments left out. -/
inductive Lexes : List Char → List Lexeme → Prop where
  | nil : Lexes [] []
  | skip {c : Char} {cs : List Char} {n : Nat} {lexemes : List Lexeme}
      (hmatch : matchRule? (c :: cs) = some (.skip, n)) (hrest : Lexes (cs.drop n) lexemes) :
      Lexes (c :: cs) lexemes
  | token {c : Char} {cs : List Char} {n : Nat} {kind : TokenKind} {lexemes : List Lexeme}
      (hmatch : matchRule? (c :: cs) = some (.token kind, n))
      (hrest : Lexes (cs.drop n) lexemes) :
      Lexes (c :: cs) (⟨kind, c :: cs.take n⟩ :: lexemes)
  | error {c : Char} {cs : List Char} {lexemes : List Lexeme}
      (hmatch : matchRule? (c :: cs) = none) (hrest : Lexes cs lexemes) :
      Lexes (c :: cs) (⟨.error, [c]⟩ :: lexemes)

namespace Lexes

/-- A text has its lexemes in only one way. -/
theorem unique {cs : List Char} {left right : List Lexeme} (hleft : Lexes cs left)
    (hright : Lexes cs right) : left = right := by
  induction hleft generalizing right with
  | nil =>
    cases hright
    rfl
  | skip hmatch _ ih =>
    cases hright with
    | skip hmatch' hrest' =>
      obtain ⟨-, rfl⟩ := Prod.mk.inj (Option.some.inj (hmatch.symm.trans hmatch'))
      exact ih hrest'
    | token hmatch' => simp [hmatch] at hmatch'
    | error hmatch' => simp [hmatch] at hmatch'
  | token hmatch _ ih =>
    cases hright with
    | skip hmatch' => simp [hmatch] at hmatch'
    | token hmatch' hrest' =>
      obtain ⟨hrule, rfl⟩ := Prod.mk.inj (Option.some.inj (hmatch.symm.trans hmatch'))
      obtain rfl := Rule.token.inj hrule
      rw [ih hrest']
    | error hmatch' => simp [hmatch] at hmatch'
  | error hmatch _ ih =>
    cases hright with
    | skip hmatch' => simp [hmatch] at hmatch'
    | token hmatch' => simp [hmatch] at hmatch'
    | error _ hrest' => rw [ih hrest']

end Lexes

/-- The glyphs into which a text is cut have its lexemes. -/
theorem Cuts.lexes {cs : List Char} {gs : List Glyph} (h : Cuts cs gs) :
    Lexes cs (lexemesOf gs) := by
  induction h with
  | nil => exact .nil
  | @found c cs rule n gs hmatch _ ih =>
    cases rule with
    | skip => exact .skip hmatch ih
    | token kind => exact .token hmatch ih
  | stray hmatch _ ih => exact .error hmatch ih

namespace Lexes

/-- Every text has lexemes. -/
theorem exists_lexes (cs : List Char) : ∃ lexemes, Lexes cs lexemes := by
  obtain ⟨gs, hcuts⟩ := Cuts.exists_cuts cs
  exact ⟨_, hcuts.lexes⟩

theorem length_le {cs : List Char} {lexemes : List Lexeme} (h : Lexes cs lexemes) :
    (lexemes.flatMap Lexeme.chars).length ≤ cs.length := by
  induction h with
  | nil => simp
  | skip _ _ ih =>
    rw [List.length_drop] at ih
    simp only [List.length_cons]
    omega
  | token _ _ ih =>
    rw [List.length_drop] at ih
    simp only [List.flatMap_cons, List.length_append, List.length_cons, List.length_take]
    omega
  | error _ _ ih =>
    simp only [List.flatMap_cons, List.length_append, List.length_cons, List.length_nil]
    omega

end Lexes

/-! ## §2 Lexemes and the scanner -/

namespace Scanner

/-- The tokens of a text are its lexemes and the end. -/
theorem tokenize_of_lexes {text : String} {lexemes : List Lexeme}
    (h : Lexes text.toList lexemes) :
    (tokenize text).1.map Token.bare = lexemes ++ [⟨.eof, []⟩] := by
  obtain ⟨gs, hcuts⟩ := Cuts.exists_cuts text.toList
  rw [tokenize_eq_placed hcuts, map_bare_placed, h.unique hcuts.lexes]

/-- A text without lexemes that are errors has no errors. -/
theorem errors_eq_nil_of_lexes {text : String} {lexemes : List Lexeme}
    (h : Lexes text.toList lexemes) (hkinds : ∀ lexeme ∈ lexemes, lexeme.kind ≠ .error) :
    (tokenize text).2 = [] := by
  rw [errors_tokenize, List.filterMap_eq_nil_iff]
  intro t ht
  have hmem : t.bare ∈ lexemes ++ [⟨.eof, []⟩] := by
    rw [← tokenize_of_lexes h]
    exact List.mem_map_of_mem ht
  refine Token.error?_eq_none fun hkind => ?_
  rcases List.mem_append.1 hmem with hmem | hmem
  · exact hkinds _ hmem hkind
  · have heof := congrArg Lexeme.kind (List.mem_singleton.1 hmem)
    rw [show t.bare.kind = .error from hkind] at heof
    cases heof

end Scanner

/-! ## §3 Names -/

/-- A text is scanned as a single identifier. -/
def IsName (name : String) : Prop :=
  (Scanner.tokenize name).1.map Token.bare = [⟨.ident, name.toList⟩, ⟨.eof, []⟩]

instance (name : String) : Decidable (IsName name) := inferInstanceAs (Decidable (_ = _))

namespace IsName

variable {name : String}

theorem lexes (h : IsName name) : Lexes name.toList [⟨.ident, name.toList⟩] := by
  obtain ⟨lexemes, hlexes⟩ := Lexes.exists_lexes name.toList
  have hall : lexemes ++ [⟨.eof, []⟩] = [⟨.ident, name.toList⟩] ++ [⟨.eof, []⟩] :=
    (Scanner.tokenize_of_lexes hlexes).symm.trans h
  rwa [List.append_cancel_right hall] at hlexes

theorem isLexeme (h : IsName name) : IsLexeme (.token .ident) name.toList := by
  have hlexes := h.lexes
  generalize hcs : name.toList = cs at hlexes
  generalize hlexemes : [(⟨.ident, cs⟩ : Lexeme)] = lexemes at hlexes
  cases hlexes with
  | nil => cases hlexemes
  | @skip c cs n _ _ hrest =>
    -- the rest of the text would be too short for the name
    subst hlexemes
    have hlength := hrest.length_le
    simp only [List.flatMap_cons, List.flatMap_nil, List.append_nil, List.length_cons,
      List.length_drop] at hlength
    omega
  | @token c cs n kind _ hmatch _ =>
    obtain ⟨hhead, -⟩ := List.cons.inj hlexemes
    obtain ⟨rfl, htake⟩ := Lexeme.mk.inj hhead
    have hlongest := (matchRule?_eq_some_iff ..).1 hmatch
    have hle := (Pattern.isLongest_of_longest?_eq_some hlongest).1
    have hlength := congrArg List.length htake
    simp only [List.length_cons, List.length_take] at hle hlength
    obtain rfl : n = cs.length := by omega
    exact ⟨List.cons_ne_nil _ _, hlongest⟩
  | error => simp at hlexemes

/-- A name is an identifier. -/
theorem matches_ident (h : IsName name) : Rule.ident.Matches name.toList := by
  obtain ⟨p, hmem, hp⟩ := Pattern.exists_matches_of_longest? h.isLexeme.2
  obtain rfl : p = Rule.ident := by simpa [Rule.all] using hmem
  rwa [List.take_length] at hp

theorem exists_head (h : IsName name) : ∃ c cs, name.toList = c :: cs ∧ isNameStart c = true := by
  obtain ⟨c, cs, heq, hc, -⟩ := (Rule.matches_ident_iff _).1 h.matches_ident
  exact ⟨c, cs, heq, hc⟩

theorem isNamePart_of_mem (h : IsName name) : ∀ c ∈ name.toList, isNamePart c = true := by
  obtain ⟨c, cs, heq, hc, hcs⟩ := (Rule.matches_ident_iff _).1 h.matches_ident
  rw [heq]
  exact List.forall_mem_cons.2 ⟨by simp [isNamePart, hc], hcs⟩

end IsName

/-! ## §4 Texts that are put together -/

open Glyph in
/-- Each glyph is a lexeme that ends in front of the text of the glyphs behind it. -/
inductive Spaced : List Glyph → Prop where
  | nil : Spaced []
  | cons {g : Glyph} {gs : List Glyph} (hlexeme : IsLexeme g.rule g.chars)
      (hstop : Stops g.chars (textOf gs)) (hrest : Spaced gs) : Spaced (g :: gs)

/-- The lexemes of a text that is put together from glyphs are those of the glyphs. -/
theorem Spaced.lexes {gs : List Glyph} (h : Spaced gs) :
    Lexes (Glyph.textOf gs) (Glyph.lexemesOf gs) := by
  induction h with
  | nil => exact .nil
  | @cons g gs hlexeme hstop _ ih =>
    obtain ⟨rule, chars⟩ := g
    obtain ⟨c, w, rfl⟩ := List.exists_cons_of_ne_nil hlexeme.1
    have hmatch := IsLexeme.matchRule? hlexeme hstop
    have hdrop : (w ++ Glyph.textOf gs).drop w.length = Glyph.textOf gs := List.drop_left
    rw [← hdrop] at ih
    cases rule with
    | skip => exact Lexes.skip hmatch ih
    | token kind =>
      have htoken := Lexes.token hmatch ih
      rw [List.take_left] at htoken
      exact htoken

end TensorTree
