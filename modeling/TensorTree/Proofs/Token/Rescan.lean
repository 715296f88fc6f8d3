import TensorTree.Proofs.Token.Blank

/-!
# Lexemes scanned again

A lexeme was cut off by what stands behind it, but it is found in the same way when it stands alone
(`Lexes.alone`), and when a blank stands behind it (`Lexeme.Alone.lexes_append`).  So the lexemes of
a text with single spaces between them, errors included, are a text with the same lexemes and the
same errors (`Scanner.tokenize_respaced`).
-/

namespace TensorTree

/-! ## §1 Lexemes that stand alone -/

/-- What the scanner makes of a text that is a single lexeme. -/
inductive Lexeme.Alone : Lexeme → Prop where
  | token {c : Char} {w : List Char} {kind : TokenKind}
      (hmatch : matchRule? (c :: w) = some (.token kind, w.length)) : Alone ⟨kind, c :: w⟩
  | error {c : Char} (hmatch : matchRule? [c] = none) : Alone ⟨.error, [c]⟩

/-- A match is found without the text behind it. -/
theorem matchRule?_take {c : Char} {cs : List Char} {rule : Rule} {n : Nat}
    (h : matchRule? (c :: cs) = some (rule, n)) :
    matchRule? (c :: cs.take n) = some (rule, (cs.take n).length) := by
  have hlength : (cs.take n).length = n := List.length_take_of_le (le_length_of_matchRule? h)
  rw [matchRule?_eq_some_iff] at h ⊢
  rw [hlength, ← List.take_succ_cons]
  exact Pattern.longest?_take h

/-- Where nothing is matched, nothing is matched without the text behind it. -/
theorem matchRule?_singleton_eq_none {c : Char} {cs : List Char}
    (h : matchRule? (c :: cs) = none) : matchRule? [c] = none := by
  cases hmatch : matchRule? [c] with
  | none => rfl
  | some found =>
    obtain ⟨p, hmem, hp⟩ := exists_matches_of_matchRule? hmatch
    rw [List.take_succ_cons, List.take_nil] at hp
    exact absurd ⟨_, hmem, hp⟩
      (not_someMatches_of_matchRule?_eq_none h (List.cons_ne_nil c []) ⟨cs, rfl⟩)

namespace Lexes

variable {cs : List Char} {lexemes : List Lexeme}

/-- Each lexeme of a text is one when it stands alone. -/
theorem alone (h : Lexes cs lexemes) : ∀ lexeme ∈ lexemes, lexeme.Alone := by
  induction h with
  | nil => simp
  | skip _ _ ih => exact ih
  | token hmatch _ ih => exact List.forall_mem_cons.2 ⟨.token (matchRule?_take hmatch), ih⟩
  | error hmatch _ ih =>
    exact List.forall_mem_cons.2 ⟨.error (matchRule?_singleton_eq_none hmatch), ih⟩

theorem kind_ne_eof (h : Lexes cs lexemes) : ∀ lexeme ∈ lexemes, lexeme.kind ≠ .eof := by
  induction h with
  | nil => simp
  | skip _ _ ih => exact ih
  | token hmatch _ ih =>
    refine List.forall_mem_cons.2 ⟨fun heof => rule_ne_eof_of_matchRule? hmatch ?_, ih⟩
    exact congrArg Rule.token heof
  | error _ _ ih => exact List.forall_mem_cons.2 ⟨by simp, ih⟩

end Lexes

/-! ## §2 Lexemes with spaces between them -/

/-- What is not skipped at the beginning of a text begins with no blank and with no comment. -/
theorem begins_of_matchRule?_ne_skip {c : Char} {cs : List Char}
    (h : ∀ n, matchRule? (c :: cs) ≠ some (.skip, n)) :
    isBlank c = false ∧ (c = '%' → cs.head? = some '!') := by
  constructor
  · rw [← Bool.not_eq_true]
    exact fun hblank => h _ (matchRule?_blank hblank cs)
  · rintro rfl
    exact Decidable.byContradiction fun hhead => h _ (matchRule?_comment hhead)

/-- A lexeme that is one when it stands alone is one in front of a blank. -/
theorem Lexeme.Alone.lexes_append {lexeme : Lexeme} (h : lexeme.Alone) {more : List Char}
    {right : List Lexeme} (hhead : ∀ c ∈ more.head?, isBlank c = true) (hmore : Lexes more right) :
    Lexes (lexeme.chars ++ more) (lexeme :: right) := by
  cases h with
  | @token c w kind hmatch =>
    -- a blank can only add to blank space and to comments
    obtain ⟨hblank, hcomment⟩ : isBlank c = false ∧ (c = '%' → w.head? = some '!') :=
      begins_of_matchRule?_ne_skip (by simp [hmatch])
    have hsame := matchRule?_append hblank hcomment hhead
    have htoken := Lexes.token (hsame.trans hmatch) (by rwa [List.drop_left])
    rwa [List.take_left] at htoken
  | @error c hmatch =>
    obtain ⟨hblank, hcomment⟩ : isBlank c = false ∧ (c = '%' → [].head? = some '!') :=
      begins_of_matchRule?_ne_skip (by simp [hmatch])
    exact .error ((matchRule?_append hblank hcomment hhead).trans hmatch) hmore

/-- Lexemes that stand alone are the lexemes of their texts with single spaces between them. -/
theorem lexes_intercalate {lexemes : List Lexeme} (h : ∀ lexeme ∈ lexemes, lexeme.Alone) :
    Lexes ([' '].intercalate (lexemes.map Lexeme.chars)) lexemes := by
  induction lexemes with
  | nil => exact .nil
  | cons lexeme lexemes ih =>
    rw [List.forall_mem_cons] at h
    cases lexemes with
    | nil =>
      have hlast := h.1.lexes_append (by simp) Lexes.nil
      simpa using hlast
    | cons other lexemes =>
      -- the space is skipped in front of the other lexemes
      have hmore := (lexes_blank_iff (c := ' ') rfl _ _).2 (ih h.2)
      have happend := h.1.lexes_append (by simp [isBlank]) hmore
      simpa [List.intercalate_cons_cons] using happend

/-! ## §3 Texts scanned again -/

/-- The character that a lexeme reports as unexpected, if it is an error. -/
def Lexeme.unexpected? : Lexeme → Option Char
  | ⟨.error, c :: _⟩ => some c
  | _ => none

theorem Token.map_found_error? (t : Token) :
    t.error?.map ScanError.found = t.bare.unexpected? := by
  unfold error? bare Lexeme.unexpected?
  split <;> simp_all

namespace Scanner

/-- The lexemes of a text in front of its end, errors included, with single spaces between them. -/
def respaced (text : String) : String :=
  " ".intercalate (((tokenize text).1.takeWhile (·.kind != .eof)).map Token.lexeme)

/-- The unexpected characters of a text are those of its lexemes. -/
theorem map_found_tokenize (text : String) :
    (tokenize text).2.map ScanError.found =
      ((tokenize text).1.map Token.bare).filterMap Lexeme.unexpected? := by
  rw [errors_tokenize, List.map_filterMap, List.filterMap_map]
  exact congrArg (List.filterMap · _) (funext Token.map_found_error?)

theorem toList_respaced {text : String} {lexemes : List Lexeme}
    (h : Lexes text.toList lexemes) :
    (respaced text).toList = [' '].intercalate (lexemes.map Lexeme.chars) := by
  have hkinds : ∀ lexeme ∈ lexemes, (lexeme.kind != .eof) = true := fun lexeme hmem => by
    simpa using h.kind_ne_eof lexeme hmem
  have hmap : ((tokenize text).1.map Token.bare).takeWhile (·.kind != .eof) =
      ((tokenize text).1.takeWhile (·.kind != .eof)).map Token.bare := List.takeWhile_map ..
  have hfront : ((tokenize text).1.takeWhile (·.kind != .eof)).map Token.bare = lexemes := by
    rw [← hmap, tokenize_of_lexes h, List.takeWhile_append_of_pos hkinds]
    simp
  rw [respaced, String.toList_intercalate, ← hfront, List.map_map, List.map_map]
  rfl

/-- Scanning the lexemes of a text again, with single spaces between them, gives the same lexemes of
the same kinds and then the end, and the same unexpected characters. -/
theorem tokenize_respaced (text : String) :
    ∃ lexemes, (∀ lexeme ∈ lexemes, lexeme.kind ≠ .eof) ∧
      (tokenize text).1.map Token.bare = lexemes ++ [⟨.eof, []⟩] ∧
      (tokenize (respaced text)).1.map Token.bare = lexemes ++ [⟨.eof, []⟩] ∧
      (tokenize (respaced text)).2.map ScanError.found =
        (tokenize text).2.map ScanError.found := by
  obtain ⟨lexemes, hlexes⟩ := Lexes.exists_lexes text.toList
  have hagain : Lexes (respaced text).toList lexemes := by
    rw [toList_respaced hlexes]
    exact lexes_intercalate hlexes.alone
  have hleft := tokenize_of_lexes hlexes
  have hright := tokenize_of_lexes hagain
  refine ⟨lexemes, hlexes.kind_ne_eof, hleft, hright, ?_⟩
  rw [map_found_tokenize, map_found_tokenize, hleft, hright]

/-- Numbers that were cut short, a lone exclamation mark and the marker of a test are cut in the
same way in front of a space. -/
example : respaced "1..2e+!%!x% y" = "1 .. 2 e + ! %! x" := by
  decide

end Scanner

end TensorTree
