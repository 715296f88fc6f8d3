import TensorTree.Proofs.Token.Place

/-!
# A text is scanned line by line

Only blank space is matched across the end of a line, so a text below another one is scanned as if
it stood alone: its tokens and errors come behind those of the text above it, and their spans are
moved down by the lines of that text (`Scanner.tokenize_append_line`).  Line numbers are added as
words; in a text shorter than 4 GiB the words have room for them (`Span.MovesDown`).
-/

namespace TensorTree

open Pattern (longest?)

/-! ## §1 Moving down -/

/-- The same column, the given number of lines further down. -/
def Location.down (lines : Nat) (here : Location) : Location :=
  ⟨here.line + .ofNat lines, here.column⟩

def Span.down (lines : Nat) (s : Span) : Span := ⟨s.first.down lines, s.last.down lines⟩

/-- The same token, the given number of lines further down. -/
def Token.down (lines : Nat) (t : Token) : Token := { t with span := t.span.down lines }

/-- The same error, the given number of lines further down. -/
def ScanError.down (lines : Nat) (e : ScanError) : ScanError := { e with span := e.span.down lines }

theorem Location.next_down (lines : Nat) (here : Location) (c : Char) :
    (here.down lines).next c = (here.next c).down lines := by
  unfold next
  split
  · simp only [down, UInt32.add_assoc, UInt32.add_comm (.ofNat lines)]
  · rfl

theorem Location.after_down (lines : Nat) (here : Location) (cs : List Char) :
    (here.down lines).after cs = (here.after cs).down lines := by
  induction cs generalizing here with
  | nil => rfl
  | cons c cs ih => rw [after_cons, next_down, ih, after_cons]

theorem Span.ofText_down (lines : Nat) (here : Location) (cs : List Char) :
    Span.ofText (here.down lines) cs = (Span.ofText here cs).down lines := by
  simp only [ofText, down, Location.after_down]

theorem Token.error?_down (lines : Nat) (t : Token) :
    (t.down lines).error? = t.error?.map (ScanError.down lines) := by
  unfold error?
  simp only [down]
  split <;> rfl

theorem filterMap_error?_down (lines : Nat) (ts : List Token) :
    (ts.map (Token.down lines)).filterMap Token.error? =
      (ts.filterMap Token.error?).map (ScanError.down lines) := by
  rw [List.filterMap_map, List.map_filterMap]
  exact congrArg (List.filterMap · ts) (funext (Token.error?_down lines))

/-- The line numbers of the span have room for the lines by which it is moved down. -/
structure Span.MovesDown (lines : Nat) (s : Span) : Prop where
  first : (s.down lines).first.line.toNat = s.first.line.toNat + lines
  last : (s.down lines).last.line.toNat = s.last.line.toNat + lines

/-- Above each line stands a line feed, so characters leave room for their line numbers. -/
theorem Location.toNat_line_down {lines : Nat} {cs : List Char}
    (h : cs.length + lines + 1 < UInt32.size) :
    ((start.after cs).down lines).line.toNat = (start.after cs).line.toNat + lines := by
  have hcount : cs.count '\n' ≤ cs.length := List.count_le_length
  have hone : start.line.toNat = 1 := rfl
  have hline : (start.after cs).line.toNat = start.line.toNat + cs.count '\n' := by
    rw [line_after, toNat_add_ofNat (by omega)]
  exact toNat_add_ofNat (by omega)

/-- A new line below a text begins as many lines further down as the text has lines. -/
theorem Location.next_after_start (text : String) :
    (start.after text.toList).next '\n' = start.down (LineTable.ofText text).lineCount := by
  rw [next, if_pos rfl, line_after, LineTable.lineCount_ofText, UInt32.add_assoc, down,
    UInt32.ofNat_add]
  rfl

/-- The tokens of glyphs move down together with the location from which they start. -/
theorem placed_down (lines : Nat) (here : Location) (gs : List Glyph) :
    placed (here.down lines) gs = (placed here gs).map (Token.down lines) := by
  induction gs generalizing here with
  | nil => rfl
  | cons g gs ih =>
    obtain ⟨rule, w⟩ := g
    cases rule with
    | skip => rw [placed, placed, Location.after_down, ih]
    | token kind =>
      rw [placed, placed, Location.after_down, ih, Span.ofText_down, List.map_cons]
      rfl

/-! ## §2 Tokens from a location on -/

namespace Scanner

/-- The tokens of a text that begins at a location. -/
def tokensFrom (here : Location) (cs : List Char) : List Token :=
  (collect ⟨cs, here, [], false⟩).1

theorem tokensFrom_eq_placed {cs : List Char} {gs : List Glyph} (h : Cuts cs gs)
    (here : Location) : tokensFrom here cs = placed here gs :=
  take_of_cuts h here [] (Nat.lt_succ_of_le h.length_le)

theorem tokensFrom_down (lines : Nat) (here : Location) (cs : List Char) :
    tokensFrom (here.down lines) cs = (tokensFrom here cs).map (Token.down lines) := by
  obtain ⟨gs, hcuts⟩ := Cuts.exists_cuts cs
  rw [tokensFrom_eq_placed hcuts, tokensFrom_eq_placed hcuts, placed_down]

theorem tokensFrom_nil (here : Location) : tokensFrom here [] = [⟨.eof, ⟨here, here⟩, ""⟩] :=
  tokensFrom_eq_placed .nil here

section Match

variable {c : Char} {cs : List Char} {n : Nat} (here : Location)

theorem tokensFrom_skip (h : matchRule? (c :: cs) = some (.skip, n)) :
    tokensFrom here (c :: cs) = tokensFrom (here.after (c :: cs.take n)) (cs.drop n) := by
  obtain ⟨gs, hcuts⟩ := Cuts.exists_cuts (cs.drop n)
  rw [tokensFrom_eq_placed (.found h hcuts), tokensFrom_eq_placed hcuts, placed]

theorem tokensFrom_token {kind : TokenKind} (h : matchRule? (c :: cs) = some (.token kind, n)) :
    tokensFrom here (c :: cs) =
      ⟨kind, .ofText here (c :: cs.take n), .ofList (c :: cs.take n)⟩ ::
        tokensFrom (here.after (c :: cs.take n)) (cs.drop n) := by
  obtain ⟨gs, hcuts⟩ := Cuts.exists_cuts (cs.drop n)
  rw [tokensFrom_eq_placed (.found h hcuts), tokensFrom_eq_placed hcuts, placed]

theorem tokensFrom_stray (h : matchRule? (c :: cs) = none) :
    tokensFrom here (c :: cs) =
      ⟨.error, .ofText here [c], .ofList [c]⟩ :: tokensFrom (here.next c) cs := by
  obtain ⟨gs, hcuts⟩ := Cuts.exists_cuts cs
  rw [tokensFrom_eq_placed (.stray h hcuts), tokensFrom_eq_placed hcuts, placed]
  rfl

end Match

/-- A run of blank characters is skipped as a whole. -/
theorem tokensFrom_blanks {c : Char} (hc : isBlank c = true) (here : Location) (cs : List Char) :
    tokensFrom here (c :: cs) =
      tokensFrom (here.after (c :: cs.takeWhile isBlank)) (cs.dropWhile isBlank) := by
  have htake : cs.take (cs.takeWhile isBlank).length = cs.takeWhile isBlank :=
    (List.prefix_iff_eq_take.1 (List.takeWhile_prefix isBlank)).symm
  rw [tokensFrom_skip here (matchRule?_blank hc cs), drop_length_takeWhile, htake]

/-- A blank character in front of a text only moves its tokens. -/
theorem tokensFrom_blank {c : Char} (hc : isBlank c = true) (here : Location) (cs : List Char) :
    tokensFrom here (c :: cs) = tokensFrom (here.next c) cs := by
  -- the run that begins at the blank is the one that begins behind it, if there is any
  rw [tokensFrom_blanks hc]
  cases cs with
  | nil => rfl
  | cons d cs =>
    cases hd : isBlank d with
    | false =>
      rw [List.takeWhile_cons_of_neg (by simp [hd]), List.dropWhile_cons_of_neg (by simp [hd])]
      rfl
    | true =>
      rw [List.takeWhile_cons_of_pos hd, List.dropWhile_cons_of_pos hd, tokensFrom_blanks hd]
      rfl

/-! ## §3 A text below another one -/

/-- Nothing but blank space is matched across the end of a line. -/
theorem matchRule?_append_line {c : Char} (hc : isBlank c = false) (cs below : List Char) :
    matchRule? (c :: (cs ++ '\n' :: below)) = matchRule? (c :: cs) := by
  have hlongest : longest? Rule.all ((c :: cs) ++ '\n' :: below) = longest? Rule.all (c :: cs) := by
    refine Pattern.longest?_append_eq fun v hne hv hmatch => ?_
    obtain ⟨d, v, rfl⟩ := List.exists_cons_of_ne_nil hne
    obtain ⟨rfl, -⟩ := List.cons_prefix_cons.1 hv
    have hblank := hmatch.of_newline (by simp) c (by simp)
    rw [hc] at hblank
    cases hblank
  unfold matchRule?
  rw [← hlongest, List.cons_append]

/-- The tokens in front of the end of one list and then those of another one make up the whole. -/
def GoesOn (above below whole : List Token) : Prop :=
  ∃ front stop, above = front ++ [⟨.eof, ⟨stop, stop⟩, ""⟩] ∧ (∀ t ∈ front, t.kind ≠ .eof) ∧
    whole = front ++ below

theorem GoesOn.cons {above below whole : List Token} (h : GoesOn above below whole) {t : Token}
    (hkind : t.kind ≠ .eof) : GoesOn (t :: above) below (t :: whole) := by
  obtain ⟨front, stop, habove, hfront, hwhole⟩ := h
  refine ⟨t :: front, stop, ?_, List.forall_mem_cons.2 ⟨hkind, hfront⟩, ?_⟩
  · rw [habove, List.cons_append]
  · rw [hwhole, List.cons_append]

/-- If no match reaches into what is added to a text, the tokens of what is added come behind those
of the text. -/
theorem tokensFrom_append (here : Location) (above more : List Char)
    (hsame : ∀ c cs, c :: cs <:+ above → isBlank c = false →
      matchRule? (c :: (cs ++ more)) = matchRule? (c :: cs)) :
    GoesOn (tokensFrom here above) (tokensFrom (here.after above) more)
      (tokensFrom here (above ++ more)) := by
  -- what is left behind a match of the text is shorter
  induction hlength : above.length using Nat.strongRecOn generalizing above here with
  | ind length ih =>
    cases above with
    | nil => exact ⟨[], here, tokensFrom_nil here, by simp, rfl⟩
    | cons c cs =>
      subst hlength
      have hrest (n : Nat) : GoesOn (tokensFrom (here.after (c :: cs.take n)) (cs.drop n))
          (tokensFrom (here.after (c :: cs)) more)
          (tokensFrom (here.after (c :: cs.take n)) (cs.drop n ++ more)) := by
        have hafter : here.after (c :: cs) =
            (here.after (c :: cs.take n)).after (cs.drop n) := by
          rw [← Location.after_append, List.cons_append, List.take_append_drop]
        have hsuffix : cs.drop n <:+ c :: cs :=
          (List.drop_suffix n cs).trans (List.suffix_cons c cs)
        rw [hafter]
        refine ih _ ?_ _ _ (fun d ds hds => hsame d ds (hds.trans hsuffix)) rfl
        simp only [List.length_drop, List.length_cons]
        omega
      rw [List.cons_append]
      -- a blank run could reach into what is added, so only its first character is taken off
      by_cases hc : isBlank c = true
      · rw [tokensFrom_blank hc, tokensFrom_blank hc]
        exact hrest 0
      have hsame := hsame c cs (List.suffix_refl _) (Bool.not_eq_true _ ▸ hc)
      cases hmatch : matchRule? (c :: cs) with
      | none =>
        rw [tokensFrom_stray here hmatch, tokensFrom_stray here (hsame.trans hmatch)]
        exact (hrest 0).cons (by simp)
      | some found =>
        obtain ⟨rule, n⟩ := found
        have hle := le_length_of_matchRule? hmatch
        have htake : (cs ++ more).take n = cs.take n := List.take_append_of_le_length hle
        have hdrop : (cs ++ more).drop n = cs.drop n ++ more := List.drop_append_of_le_length hle
        cases rule with
        | skip =>
          rw [tokensFrom_skip here hmatch, tokensFrom_skip here (hsame.trans hmatch), htake, hdrop]
          exact hrest n
        | token kind =>
          rw [tokensFrom_token here hmatch, tokensFrom_token here (hsame.trans hmatch), htake,
            hdrop]
          refine (hrest n).cons fun heof => rule_ne_eof_of_matchRule? hmatch ?_
          rw [show kind = .eof from heof]

/-- The tokens of a text below another one come behind those of the other one, from the next line
on. -/
theorem tokensFrom_append_line (here : Location) (above below : List Char) :
    GoesOn (tokensFrom here above) (tokensFrom ((here.after above).next '\n') below)
      (tokensFrom here (above ++ '\n' :: below)) := by
  have happend := tokensFrom_append here above ('\n' :: below) fun c cs _ hc =>
    matchRule?_append_line hc cs below
  rwa [tokensFrom_blank rfl] at happend

/-- Where a text of so many characters and lines above it fits into words, its tokens move down; for
the end, one more has to fit. -/
theorem movesDown_of_mem_tokenize {text : String} {lines : Nat} {t : Token}
    (ht : t ∈ (tokenize text).1) (hlength : text.toList.length + lines < UInt32.size)
    (hroom : t.kind ≠ .eof ∨ text.toList.length + lines + 1 < UInt32.size) :
    t.span.MovesDown lines := by
  obtain ⟨ss, htokens, hmem, -⟩ := exists_stretches text
  rw [htokens] at ht
  rcases List.mem_append.1 ht with ht | ht
  · obtain ⟨s, hs, rfl⟩ := List.mem_map.1 ht
    -- the token has a character, which stands behind all that its locations count
    have hpos := List.length_pos_iff.2 (hmem s hs).chars_ne_nil
    have hle := (hmem s hs).isPrefix.length_le
    rw [List.length_append] at hle
    constructor
    case first => exact Location.toNat_line_down (by omega)
    case last =>
      rw [Span.down, s.last_token]
      apply Location.toNat_line_down
      rw [List.length_append, List.length_dropLast]
      omega
  · obtain rfl := List.mem_singleton.1 ht
    have hend := Location.toNat_line_down (hroom.resolve_left (by simp))
    exact ⟨hend, hend⟩

theorem movesDown_of_mem_errors {text : String} {lines : Nat} {e : ScanError}
    (he : e ∈ (tokenize text).2) (hlength : text.toList.length + lines < UInt32.size) :
    e.span.MovesDown lines := by
  rw [errors_tokenize] at he
  obtain ⟨t, ht, hte⟩ := List.mem_filterMap.1 he
  obtain ⟨hkind, hspan⟩ := Token.error?_eq_some hte
  rw [hspan]
  exact movesDown_of_mem_tokenize ht hlength (.inl (by rw [hkind]; simp))

/-- The characters of a text and the lines of another one above it take up no more than the bytes of
both texts. -/
theorem length_add_lineCount_le (above below : String) :
    below.toList.length + (LineTable.ofText above).lineCount ≤
      byteLength (above ++ "\n" ++ below).toList := by
  have hcount : above.toList.count '\n' ≤ above.toList.length := List.count_le_length
  have hlength := length_le_byteLength (above ++ "\n" ++ below).toList
  have hwhole : (above ++ "\n" ++ below).toList.length =
      above.toList.length + (below.toList.length + 1) := by simp
  rw [LineTable.lineCount_ofText]
  omega

/-- A comment and blank space at the end of a line leave the next line as it is. -/
example : (tokenize "x % y \n\n # 1").1.map Token.span =
    [⟨⟨1, 1⟩, ⟨1, 1⟩⟩, ⟨⟨3, 2⟩, ⟨3, 2⟩⟩, ⟨⟨3, 4⟩, ⟨3, 4⟩⟩, ⟨⟨3, 5⟩, ⟨3, 5⟩⟩] := by
  decide

end Scanner

end TensorTree
