import TensorTree.Proofs.Token.Munch

/-!
# How a text is cut

The scanner cuts a text into glyphs without leaving anything out (`Cuts.text_eq`): matches of rules,
and single characters at which no rule matches.  Its tokens are those of the glyphs that are not
skipped, each at the place where its glyph stands, and the end (`Scanner.tokenize_eq_placed`).  Its
errors can be read off its tokens (`Scanner.errors_tokenize`).
-/

namespace TensorTree

/-! ## §1 Lexemes and glyphs -/

/-- A token without its place. -/
structure Lexeme where
  kind : TokenKind
  chars : List Char
deriving DecidableEq

/-- What a token is without its place. -/
def Token.bare (t : Token) : Lexeme := ⟨t.kind, t.lexeme.toList⟩

/-- A piece of text that one rule matches. -/
structure Glyph where
  rule : Rule
  chars : List Char
deriving DecidableEq

namespace Glyph

/-- The lexeme that a glyph stands for; blank space stands for none. -/
def lexeme? : Glyph → Option Lexeme
  | ⟨.skip, _⟩ => none
  | ⟨.token kind, chars⟩ => some ⟨kind, chars⟩

/-- The text of glyphs. -/
def textOf (glyphs : List Glyph) : List Char := glyphs.flatMap chars

/-- The lexemes of glyphs. -/
def lexemesOf (glyphs : List Glyph) : List Lexeme := glyphs.filterMap lexeme?

@[simp] theorem textOf_nil : textOf [] = [] := rfl

@[simp] theorem textOf_cons (g : Glyph) (gs : List Glyph) :
    textOf (g :: gs) = g.chars ++ textOf gs := rfl

@[simp] theorem textOf_append (gs hs : List Glyph) :
    textOf (gs ++ hs) = textOf gs ++ textOf hs :=
  List.flatMap_append

@[simp] theorem lexemesOf_nil : lexemesOf [] = [] := rfl

@[simp] theorem lexemesOf_append (gs hs : List Glyph) :
    lexemesOf (gs ++ hs) = lexemesOf gs ++ lexemesOf hs :=
  List.filterMap_append

end Glyph

open Glyph (textOf lexemesOf)

/-! ## §2 Cuts -/

/-- The glyphs into which the rules cut a text.  A character at which no rule matches is an error of
its own. -/
inductive Cuts : List Char → List Glyph → Prop where
  | nil : Cuts [] []
  | found {c : Char} {cs : List Char} {rule : Rule} {n : Nat} {gs : List Glyph}
      (hmatch : matchRule? (c :: cs) = some (rule, n)) (hrest : Cuts (cs.drop n) gs) :
      Cuts (c :: cs) (⟨rule, c :: cs.take n⟩ :: gs)
  | stray {c : Char} {cs : List Char} {gs : List Glyph}
      (hmatch : matchRule? (c :: cs) = none) (hrest : Cuts cs gs) :
      Cuts (c :: cs) (⟨.token .error, [c]⟩ :: gs)

/-- No rule makes the end of a text out of a match. -/
theorem rule_ne_eof_of_matchRule? {cs : List Char} {rule : Rule} {n : Nat}
    (h : matchRule? cs = some (rule, n)) : rule ≠ .token .eof := by
  rintro rfl
  obtain ⟨p, hmem, -⟩ := exists_matches_of_matchRule? h
  simp [Rule.all] at hmem

namespace Cuts

variable {cs : List Char} {gs : List Glyph}

/-- Every text is cut. -/
theorem exists_cuts (cs : List Char) : ∃ gs, Cuts cs gs := by
  induction h : cs.length using Nat.strongRecOn generalizing cs with
  | ind length ih =>
    cases cs with
    | nil => exact ⟨[], .nil⟩
    | cons c cs =>
      -- whatever is matched, at least the first character is used up
      have hdrop (n : Nat) : ∃ gs, Cuts (cs.drop n) gs := by
        refine ih (cs.drop n).length ?_ (cs.drop n) rfl
        rw [← h, List.length_drop, List.length_cons]
        omega
      cases hmatch : matchRule? (c :: cs) with
      | none =>
        obtain ⟨gs, hrest⟩ := hdrop 0
        exact ⟨_, .stray hmatch hrest⟩
      | some found =>
        obtain ⟨gs, hrest⟩ := hdrop found.2
        exact ⟨_, .found hmatch hrest⟩

/-- Nothing is left out. -/
theorem text_eq (h : Cuts cs gs) : cs = textOf gs := by
  induction h with
  | nil => rfl
  | @found c cs rule n gs _ _ ih =>
    rw [Glyph.textOf_cons, ← ih, List.cons_append, List.take_append_drop]
  | stray _ _ ih => rw [Glyph.textOf_cons, ← ih, List.singleton_append]

theorem ne_nil_of_mem (h : Cuts cs gs) : ∀ g ∈ gs, g.chars ≠ [] := by
  induction h with
  | nil => simp
  | found _ _ ih => simpa using ih
  | stray _ _ ih => simpa using ih

/-- There are no more glyphs than characters. -/
theorem length_le (h : Cuts cs gs) : gs.length ≤ cs.length := by
  induction h with
  | nil => simp
  | found _ _ ih =>
    rw [List.length_drop] at ih
    simp only [List.length_cons]
    omega
  | stray _ _ ih => simpa using ih

/-- No glyph marks the end of a text. -/
theorem rule_ne_eof (h : Cuts cs gs) : ∀ g ∈ gs, g.rule ≠ .token .eof := by
  induction h with
  | nil => simp
  | found hmatch _ ih => exact List.forall_mem_cons.2 ⟨rule_ne_eof_of_matchRule? hmatch, ih⟩
  | stray _ _ ih => exact List.forall_mem_cons.2 ⟨by simp, ih⟩

end Cuts

/-! ## §3 Tokens and the places of glyphs -/

/-- The tokens of glyphs that stand one behind the other from a location on, and the end. -/
def placed : Location → List Glyph → List Token
  | here, [] => [⟨.eof, ⟨here, here⟩, ""⟩]
  | here, ⟨.skip, w⟩ :: gs => placed (here.after w) gs
  | here, ⟨.token kind, w⟩ :: gs =>
    ⟨kind, .ofText here w, .ofList w⟩ :: placed (here.after w) gs

/-- Without their places, the tokens of glyphs are their lexemes and the end. -/
theorem map_bare_placed (here : Location) (gs : List Glyph) :
    (placed here gs).map Token.bare = lexemesOf gs ++ [⟨.eof, []⟩] := by
  induction gs generalizing here with
  | nil => rfl
  | cons g gs ih =>
    obtain ⟨rule, w⟩ := g
    cases rule with
    | skip => exact ih (here.after w)
    | token kind =>
      rw [placed, List.map_cons, ih]
      simp [Token.bare, lexemesOf, Glyph.lexeme?]

theorem findNext_eq_zero (n : Nat) (here : Location) (cs : List Char) :
    findNext n here cs = findNext 0 (here.after (cs.take n)) (cs.drop n) := by
  induction n generalizing here cs with
  | zero => simp
  | succ n ih =>
    cases cs with
    | nil => simp [findNext]
    | cons c cs => simp [findNext, ih (here.next c) cs]

namespace Scanner

/-- A scanner looks at nothing but the next match. -/
theorem take_congr {cs cs' : List Char} {here here' : Location} (errors : List ScanError)
    (h : findNext 0 here cs = findNext 0 here' cs') {n : Nat} (hn : 0 < n) :
    take n ⟨cs, here, errors, false⟩ = take n ⟨cs', here', errors, false⟩ := by
  obtain ⟨n, rfl⟩ := Nat.exists_eq_succ_of_ne_zero (Nat.pos_iff_ne_zero.1 hn)
  simp [take, next, h]

/-- Behind the end there is nothing more. -/
theorem take_of_finished {s : Scanner} (h : s.finished = true) (n : Nat) : take n s = ([], s) := by
  cases n with
  | zero => rfl
  | succ n => simp [take, next, h]

/-- When a match that is not the end was found, the scanner goes on behind it. -/
theorem take_succ_of_found {cs : List Char} {here : Location} {errors : List ScanError}
    {found : Found} (h : findNext 0 here cs = found) (hkind : found.kind ≠ .eof) (n : Nat) :
    (take (n + 1) ⟨cs, here, errors, false⟩).1 =
      found.token :: (take n ⟨found.rest, found.start.after found.lexeme,
        errors ++ found.error?.toList, false⟩).1 := by
  have hfinished : (found.kind == .eof) = false := by simpa using hkind
  simp [take, next, h, hfinished]

/-- The scanner gives the tokens of the glyphs into which a text is cut. -/
theorem take_of_cuts {cs : List Char} {gs : List Glyph} (h : Cuts cs gs) (here : Location)
    (errors : List ScanError) {n : Nat} (hn : gs.length < n) :
    (take n ⟨cs, here, errors, false⟩).1 = placed here gs := by
  induction h generalizing here errors n with
  | nil =>
    obtain ⟨n, rfl⟩ := Nat.exists_eq_succ_of_ne_zero (Nat.pos_iff_ne_zero.1 hn)
    have hrest := take_of_finished (s := ⟨[], here, errors, true⟩) rfl n
    simp [take, next, findNext, Found.error?, Found.token, Found.span, Span.ofText, placed, hrest]
  | @found c cs rule k gs hmatch hrest ih =>
    have hn' : gs.length < n := Nat.lt_of_succ_lt hn
    cases rule with
    | skip =>
      -- blank space is no token: the scanner goes on behind it within the same call
      have hsame : findNext 0 here (c :: cs) =
          findNext 0 ((here.next c).after (cs.take k)) (cs.drop k) := by
        rw [← findNext_eq_zero]
        simp [findNext, hmatch]
      rw [take_congr errors hsame (Nat.zero_lt_of_lt hn)]
      exact ih _ errors hn'
    | token kind =>
      have hkind : kind ≠ .eof := fun heof => rule_ne_eof_of_matchRule? hmatch (by rw [heof])
      have hfound : findNext 0 here (c :: cs) = ⟨kind, here, c :: cs.take k, cs.drop k⟩ := by
        simp [findNext, hmatch]
      obtain ⟨n, rfl⟩ := Nat.exists_eq_succ_of_ne_zero (Nat.ne_zero_of_lt hn)
      rw [take_succ_of_found hfound hkind, ih _ _ (Nat.lt_of_succ_lt_succ hn)]
      rfl
  | @stray c cs gs hmatch _ ih =>
    have hfound : findNext 0 here (c :: cs) = ⟨.error, here, [c], cs⟩ := by
      simp [findNext, hmatch]
    obtain ⟨n, rfl⟩ := Nat.exists_eq_succ_of_ne_zero (Nat.ne_zero_of_lt hn)
    rw [take_succ_of_found hfound (by simp), ih _ _ (Nat.lt_of_succ_lt_succ hn)]
    rfl

/-- The tokens of a text are those of the glyphs into which it is cut. -/
theorem tokenize_eq_placed {text : String} {gs : List Glyph} (h : Cuts text.toList gs) :
    (tokenize text).1 = placed .start gs :=
  take_of_cuts h .start [] (Nat.lt_succ_of_le h.length_le)

end Scanner

/-! ## §4 Errors -/

/-- The error that a token reports, if any: the first character of its lexeme is unexpected. -/
def Token.error? (t : Token) : Option ScanError :=
  match t.kind, t.lexeme.toList with
  | .error, c :: _ => some ⟨c, t.span⟩
  | _, _ => none

theorem Found.error?_token (m : Found) : m.token.error? = m.error? := by
  rw [Token.error?, show m.token.lexeme.toList = m.lexeme from String.toList_ofList]
  rfl

theorem Token.error?_eq_none {t : Token} (h : t.kind ≠ .error) : t.error? = none := by
  unfold Token.error?
  split
  next heq _ => exact absurd heq h
  next => rfl

theorem Token.error?_eq_some {t : Token} {e : ScanError} (h : t.error? = some e) :
    t.kind = .error ∧ e.span = t.span := by
  unfold error? at h
  split at h
  next hkind _ => exact ⟨hkind, by rw [← Option.some.inj h]⟩
  next => cases h

namespace Scanner

/-- A scanner reports the errors of the tokens that it gives. -/
theorem errors_take (n : Nat) (s : Scanner) :
    (take n s).2.errors = s.errors ++ (take n s).1.filterMap Token.error? := by
  induction n generalizing s with
  | zero => simp [take]
  | succ n ih =>
    cases hfinished : s.finished with
    | true => simp [take, next, hfinished]
    | false =>
      simp only [take, next, hfinished, Bool.false_eq_true, if_false]
      rw [ih]
      cases herror : (findNext 0 s.here s.rest).error? <;>
        simp [Found.error?_token, herror]

/-- The errors of a text are those of its tokens. -/
theorem errors_tokenize (text : String) :
    (tokenize text).2 = (tokenize text).1.filterMap Token.error? := by
  have htake := errors_take (text.toList.length + 1) (ofText text)
  rwa [show (ofText text).errors = [] from rfl, List.nil_append] at htake

end Scanner

end TensorTree
