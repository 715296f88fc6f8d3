import Mathlib.Data.List.TakeWhile
import TensorTree.Proofs.Token.Legible
import TensorTree.Proofs.Token.Lines

/-!
# Comments leave no trace

A comment begins at the first percent sign of a line that no exclamation mark follows at once, and
it goes up to the end of the line (`codeOf`).  A text without its comments has the same tokens at
the same places and the same errors; only its end may stand elsewhere.  In front of the comment of
its line every `%!` is a test marker, and there are no other test markers
(`Scanner.tokenize_uncommented`).
-/

namespace TensorTree

open Pattern (SomeMatches longest?)

/-! ## §1 Texts without comments -/

/-- What stands in front of the comment of a line.  The comment begins at the first percent sign
that no exclamation mark follows at once. -/
def codeOf : List Char → List Char
  | [] => []
  | c :: cs => if c = '%' ∧ cs.head? ≠ some '!' then [] else c :: codeOf cs

/-- The lines of a text without their comments. -/
def codeOfLines (cs : List Char) : List Char := ['\n'].intercalate ((cs.splitOn '\n').map codeOf)

/-- A text without its comments. -/
def uncommented (text : String) : String := .ofList (codeOfLines text.toList)

/-- A line is its code and its comment, if it has one. -/
theorem exists_comment (line : List Char) :
    ∃ note, line = codeOf line ++ note ∧
      (note = [] ∨ ∃ cs, note = '%' :: cs ∧ cs.head? ≠ some '!') := by
  induction line with
  | nil => exact ⟨[], rfl, .inl rfl⟩
  | cons c cs ih =>
    rw [codeOf]
    split
    next h => exact ⟨c :: cs, rfl, .inr ⟨cs, by rw [h.1], h.2⟩⟩
    next =>
      obtain ⟨note, hcs, hnote⟩ := ih
      exact ⟨note, by rw [List.cons_append, ← hcs], hnote⟩

/-- An exclamation mark stands behind each percent sign. -/
def OnlyMarkers (cs : List Char) : Prop :=
  ∀ before after, cs = before ++ '%' :: after → after.head? = some '!'

theorem OnlyMarkers.of_suffix {cs ds : List Char} (h : OnlyMarkers cs) (hds : ds <:+ cs) :
    OnlyMarkers ds := by
  rintro before after rfl
  obtain ⟨front, rfl⟩ := hds
  exact h (front ++ before) after (by rw [List.append_assoc])

/-- There is no comment in the code of a line. -/
theorem onlyMarkers_codeOf (line : List Char) : OnlyMarkers (codeOf line) := by
  induction line with
  | nil =>
    intro before after h
    cases before <;> cases h
  | cons c cs ih =>
    intro before after h
    rw [codeOf] at h
    split at h
    next => cases before <;> cases h
    next hcode =>
      cases before with
      | nil =>
        obtain ⟨rfl, rfl⟩ := List.cons.inj h
        -- the exclamation mark is no percent sign, so it belongs to the code as well
        have hhead : cs.head? = some '!' := by simpa using hcode
        obtain ⟨ds, rfl⟩ := List.head?_eq_some_iff.1 hhead
        rw [codeOf, if_neg (by simp)]
        rfl
      | cons d before =>
        obtain ⟨rfl, hrest⟩ := List.cons.inj h
        exact ih before after hrest

/-! ## §2 A line without its comment -/

/-- Nothing but a test marker and a comment matches a percent sign. -/
theorem Pattern.SomeMatches.of_percent {w : List Char} (h : SomeMatches Rule.all w)
    (hmem : '%' ∈ w) : w = ['%', '!'] ∨ Rule.comment.Matches w := by
  obtain ⟨⟨rule, p⟩, hentry, hp⟩ := h
  obtain havoids | rfl | rfl | rfl := Rule.avoids_percent _ hentry
  · exact absurd hmem (Pattern.not_mem_of_avoids havoids.1 hp)
  · exact .inl (denotes_of_mem_all hentry hp : _ = w).symm
  · obtain rfl : ['!', '='] = w := denotes_of_mem_all hentry hp
    simp at hmem
  · have hpattern : p = Rule.blanks ∨ p = Rule.comment := by simpa [Rule.all] using hentry
    rcases hpattern with rfl | rfl
    · exact absurd hmem (Pattern.not_mem_of_avoids (by decide) hp)
    · exact .inr hp

/-- A comment adds nothing to the match in front of it. -/
theorem matchRule?_append_comment {c : Char} {cs : List Char}
    (hcode : c = '%' → cs.head? = some '!') (note : List Char) :
    matchRule? (c :: (cs ++ '%' :: note)) = matchRule? (c :: cs) := by
  have hlongest : longest? Rule.all ((c :: cs) ++ '%' :: note) = longest? Rule.all (c :: cs) := by
    refine Pattern.longest?_append_eq fun v hne hv hmatch => ?_
    obtain ⟨d, v, rfl⟩ := List.exists_cons_of_ne_nil hne
    obtain ⟨rfl, -⟩ := List.cons_prefix_cons.1 hv
    rcases hmatch.of_percent (by simp) with hmarker | hcomment
    · -- behind the percent sign of a marker there is no other one
      have hmem : '%' ∈ ['!'] := by
        rw [← (List.cons.inj hmarker).2]
        simp
      simp at hmem
    · obtain ⟨w, heq, hw⟩ := Rule.exists_of_matches_comment hcomment
      obtain ⟨rfl, rfl⟩ := List.cons.inj heq
      obtain ⟨ds, rfl⟩ := List.head?_eq_some_iff.1 (hcode rfl)
      exact hw rfl
  unfold matchRule?
  rw [← hlongest, List.cons_append]

namespace Scanner

/-- The same tokens, but for the place of the end. -/
def SameToEnd (left right : List Token) : Prop :=
  ∃ stop, GoesOn left [⟨.eof, ⟨stop, stop⟩, ""⟩] right

theorem tokensFrom_comment {cs : List Char} (hcs : cs.head? ≠ some '!') (hline : '\n' ∉ cs)
    (here : Location) : ∃ stop, tokensFrom here ('%' :: cs) = [⟨.eof, ⟨stop, stop⟩, ""⟩] := by
  have hnil : cs.dropWhile (· != '\n') = [] := by
    rw [List.dropWhile_eq_nil_iff]
    intro c hc
    simpa using fun heq : c = '\n' => hline (heq ▸ hc)
  rw [tokensFrom_skip here (matchRule?_comment hcs), drop_length_takeWhile, hnil]
  exact ⟨_, tokensFrom_nil _⟩

/-- A line and its code have the same tokens. -/
theorem sameToEnd_codeOf {line : List Char} (hline : '\n' ∉ line) (here : Location) :
    SameToEnd (tokensFrom here (codeOf line)) (tokensFrom here line) := by
  obtain ⟨note, hsplit, hnote⟩ := exists_comment line
  have hcode := onlyMarkers_codeOf line
  generalize codeOf line = code at hsplit hcode
  subst hsplit
  have happend := tokensFrom_append here code note fun c cs hcs _ => by
    rcases hnote with rfl | ⟨ds, rfl, -⟩
    · rw [List.append_nil]
    · exact matchRule?_append_comment
        (fun hc => hcode.of_suffix hcs [] cs (by rw [hc, List.nil_append])) ds
  -- behind the code there is nothing, or a comment up to the end of the line
  have hend : ∃ stop, tokensFrom (here.after code) note = [⟨.eof, ⟨stop, stop⟩, ""⟩] := by
    rcases hnote with rfl | ⟨ds, rfl, hds⟩
    · exact ⟨_, tokensFrom_nil _⟩
    · exact tokensFrom_comment hds (fun hmem => hline (by simp [hmem])) _
  obtain ⟨stop, hstop⟩ := hend
  exact ⟨stop, hstop ▸ happend⟩

/-- What agrees in front of the end goes on in the same way with what agrees in front of the end. -/
theorem SameToEnd.goesOn {left right below below' whole whole' : List Token}
    (h : SameToEnd left right) (hleft : GoesOn left below whole)
    (hright : GoesOn right below' whole') (hbelow : SameToEnd below below') :
    SameToEnd whole whole' := by
  obtain ⟨stop, front, start, rfl, hfront, rfl⟩ := h
  -- both go on behind the same tokens, since each has only its end left out
  obtain ⟨front', start', heq, -, rfl⟩ := hleft
  obtain ⟨front'', stop', heq', -, rfl⟩ := hright
  obtain ⟨rfl, -⟩ := List.append_inj' heq rfl
  obtain ⟨rfl, -⟩ := List.append_inj' heq' rfl
  obtain ⟨stop, rest, start, rfl, hrest, rfl⟩ := hbelow
  refine ⟨stop, front ++ rest, start, by rw [List.append_assoc], ?_, by rw [List.append_assoc]⟩
  exact List.forall_mem_append.2 ⟨hfront, hrest⟩

/-! ## §3 All lines without their comments -/

theorem newline_not_mem_codeOf {line : List Char} (hline : '\n' ∉ line) : '\n' ∉ codeOf line := by
  obtain ⟨note, hsplit, -⟩ := exists_comment line
  intro hmem
  rw [hsplit] at hline
  exact hline (List.mem_append_left note hmem)

theorem codeOfLines_line {line : List Char} (hline : '\n' ∉ line) :
    codeOfLines line = codeOf line := by
  rw [codeOfLines, List.splitOn_eq_singleton hline, List.map_singleton,
    List.intercalate_singleton]

theorem codeOfLines_append {line : List Char} (hline : '\n' ∉ line) (rest : List Char) :
    codeOfLines (line ++ '\n' :: rest) = codeOf line ++ '\n' :: codeOfLines rest := by
  have hne : (rest.splitOn '\n').map codeOf ≠ [] := by simp
  rw [codeOfLines, List.splitOn_append_cons_self_of_not_mem hline, List.map_cons,
    List.intercalate_cons_of_ne_nil hne, List.append_assoc]
  rfl

/-- From the beginning of a line on, a text has the same tokens without its comments. -/
theorem sameToEnd_codeOfLines (n : UInt32) (cs : List Char) :
    SameToEnd (tokensFrom ⟨n, 1⟩ (codeOfLines cs)) (tokensFrom ⟨n, 1⟩ cs) := by
  -- line by line: the next line begins at the same location, however long the comment was
  induction cs using lines_induction generalizing n with
  | last line hline =>
    rw [codeOfLines_line hline]
    exact sameToEnd_codeOf hline ⟨n, 1⟩
  | above line rest hline ih =>
    rw [codeOfLines_append hline]
    have hcode := tokensFrom_append_line ⟨n, 1⟩ (codeOf line) (codeOfLines rest)
    have hwhole := tokensFrom_append_line ⟨n, 1⟩ line rest
    rw [Location.next_after_line _ (newline_not_mem_codeOf hline)] at hcode
    rw [Location.next_after_line _ hline] at hwhole
    exact (sameToEnd_codeOf hline ⟨n, 1⟩).goesOn hcode hwhole (ih (n + 1))

/-! ## §4 Test markers -/

/-- A token of the list is a test marker that begins at the location. -/
def HasMarker (ts : List Token) (there : Location) : Prop :=
  ∃ t ∈ ts, t.kind = .mark .testMarker ∧ t.span.first = there

variable {there : Location}

theorem hasMarker_cons_iff (t : Token) (ts : List Token) :
    HasMarker (t :: ts) there ↔
      (t.kind = .mark .testMarker ∧ t.span.first = there) ∨ HasMarker ts there := by
  simp [HasMarker]

theorem not_hasMarker_end (stop : Location) :
    ¬ HasMarker [⟨.eof, ⟨stop, stop⟩, ""⟩] there := by
  simp [HasMarker]

theorem GoesOn.hasMarker_iff {above below whole : List Token} (h : GoesOn above below whole) :
    HasMarker whole there ↔ HasMarker above there ∨ HasMarker below there := by
  obtain ⟨front, stop, rfl, -, rfl⟩ := h
  simp [HasMarker, or_and_right, exists_or]

theorem SameToEnd.hasMarker_iff {left right : List Token} (h : SameToEnd left right) :
    HasMarker right there ↔ HasMarker left there := by
  obtain ⟨stop, hstop⟩ := h
  simp [hstop.hasMarker_iff, not_hasMarker_end]

/-- The text `%!` stands at a location in a text that begins at another one. -/
def SpellsMarker (here : Location) (cs : List Char) (there : Location) : Prop :=
  ∃ before after, cs = before ++ '%' :: '!' :: after ∧ there = here.after before

theorem spellsMarker_cons_iff (here : Location) (c : Char) (cs : List Char) :
    SpellsMarker here (c :: cs) there ↔
      (c = '%' ∧ cs.head? = some '!' ∧ there = here) ∨ SpellsMarker (here.next c) cs there := by
  constructor
  · rintro ⟨before, after, heq, rfl⟩
    cases before with
    | nil =>
      obtain ⟨rfl, rfl⟩ := List.cons.inj heq
      exact .inl ⟨rfl, rfl, rfl⟩
    | cons d before =>
      obtain ⟨rfl, rfl⟩ := List.cons.inj heq
      exact .inr ⟨before, after, rfl, rfl⟩
  · rintro (⟨rfl, hhead, rfl⟩ | ⟨before, after, rfl, rfl⟩)
    · obtain ⟨after, rfl⟩ := List.head?_eq_some_iff.1 hhead
      exact ⟨[], after, rfl, rfl⟩
    · exact ⟨c :: before, after, rfl, rfl⟩

theorem spellsMarker_append_iff (here : Location) {w : List Char} (hw : '%' ∉ w)
    (cs : List Char) :
    SpellsMarker here (w ++ cs) there ↔ SpellsMarker (here.after w) cs there := by
  induction w generalizing here with
  | nil => rfl
  | cons c w ih =>
    rw [List.mem_cons, not_or] at hw
    have hc : c ≠ '%' := Ne.symm hw.1
    rw [List.cons_append, spellsMarker_cons_iff, ih _ hw.2, Location.after_cons]
    simp [hc]

/-- A match that begins with another character holds no percent sign, and it is no test marker. -/
theorem percent_not_mem_of_matchRule? {c : Char} {cs : List Char} {rule : Rule} {n : Nat}
    (hc : c ≠ '%') (h : matchRule? (c :: cs) = some (rule, n)) :
    '%' ∉ c :: cs.take n ∧ rule ≠ .token (.mark .testMarker) := by
  obtain ⟨p, hmem, hp⟩ := exists_matches_of_matchRule? h
  rw [List.take_succ_cons] at hp
  constructor
  · intro hpercent
    rcases SomeMatches.of_percent ⟨_, hmem, hp⟩ hpercent with hmarker | hcomment
    · exact hc (List.cons.inj hmarker).1
    · obtain ⟨v, heq, -⟩ := Rule.exists_of_matches_comment hcomment
      exact hc (List.cons.inj heq).1
  · rintro rfl
    have hspelling : ['%', '!'] = c :: cs.take n := denotes_of_mem_all hmem hp
    exact hc (List.cons.inj hspelling).1.symm

/-- Where there is no comment, test markers stand where their text stands. -/
theorem hasMarker_placed_iff {cs : List Char} {gs : List Glyph} (h : Cuts cs gs)
    (hcs : OnlyMarkers cs) (here : Location) :
    HasMarker (placed here gs) there ↔ SpellsMarker here cs there := by
  -- along the cuts: a percent sign begins a marker, and no other cut has one inside
  induction h generalizing here with
  | nil => simp [placed, HasMarker, SpellsMarker]
  | @found c cs rule n gs hmatch hrest ih =>
    have hlater := ih (hcs.of_suffix ((List.drop_suffix n cs).trans (List.suffix_cons c cs)))
    by_cases hc : c = '%'
    · subst hc
      obtain ⟨ds, rfl⟩ := List.head?_eq_some_iff.1 (hcs [] cs rfl)
      rw [matchRule?_testMarker] at hmatch
      obtain ⟨rfl, rfl⟩ := Prod.mk.inj (Option.some.inj hmatch)
      rw [placed, hasMarker_cons_iff, hlater, spellsMarker_cons_iff, spellsMarker_cons_iff]
      simp [Span.ofText, eq_comm]
    · obtain ⟨hpercent, hrule⟩ := percent_not_mem_of_matchRule? hc hmatch
      have hspells : SpellsMarker here (c :: cs.take n ++ cs.drop n) there ↔ _ :=
        spellsMarker_append_iff here hpercent (cs.drop n)
      rw [List.cons_append, List.take_append_drop] at hspells
      rw [hspells, ← hlater]
      cases rule with
      | skip => rw [placed]
      | token kind =>
        have hkind : kind ≠ .mark .testMarker := fun heq => hrule (heq ▸ rfl)
        simp [placed, hasMarker_cons_iff, hkind]
  | @stray c cs gs hmatch hrest ih =>
    have hc : c ≠ '%' := by
      rintro rfl
      obtain ⟨ds, rfl⟩ := List.head?_eq_some_iff.1 (hcs [] cs rfl)
      rw [matchRule?_testMarker] at hmatch
      cases hmatch
    rw [placed, hasMarker_cons_iff, ih (hcs.of_suffix (List.suffix_cons c cs)),
      spellsMarker_cons_iff]
    simp [hc]

/-- The text `%!` stands at a location of lines that are counted from the given number on, in front
of the comment of its line. -/
def MarkerAt (n : UInt32) (lines : List (List Char)) (there : Location) : Prop :=
  ∃ k line before after, lines[k]? = some line ∧
    codeOf line = before ++ '%' :: '!' :: after ∧
    there = ⟨n + .ofNat k, .ofNat (before.length + 1)⟩

theorem not_markerAt_nil (n : UInt32) : ¬ MarkerAt n [] there := by
  simp [MarkerAt]

theorem markerAt_cons_iff (n : UInt32) {line : List Char} (hline : '\n' ∉ line)
    (lines : List (List Char)) :
    MarkerAt n (line :: lines) there ↔
      SpellsMarker ⟨n, 1⟩ (codeOf line) there ∨ MarkerAt (n + 1) lines there := by
  -- a location in the code of the first line has the number of that line
  have hplace {before after : List Char} (h : codeOf line = before ++ after) :
      (⟨n, 1⟩ : Location).after before = ⟨n + .ofNat 0, .ofNat (before.length + 1)⟩ := by
    have hcode := newline_not_mem_codeOf hline
    rw [h, List.mem_append, not_or] at hcode
    rw [Location.after_eq_of_not_mem _ hcode.1, Nat.add_comm before.length, UInt32.ofNat_add 1]
    simp
  -- a line below has the number that is counted from the second line on
  have hnumber (k : Nat) : n + .ofNat (k + 1) = n + 1 + .ofNat k := by
    rw [Nat.add_comm, UInt32.ofNat_add, UInt32.add_assoc]
    rfl
  constructor
  · rintro ⟨k, found, before, after, hget, hcode, rfl⟩
    cases k with
    | zero =>
      obtain rfl := Option.some.inj hget
      exact .inl ⟨before, after, hcode, (hplace hcode).symm⟩
    | succ k =>
      rw [List.getElem?_cons_succ] at hget
      exact .inr ⟨k, found, before, after, hget, hcode, by rw [hnumber]⟩
  · rintro (⟨before, after, hcode, rfl⟩ | ⟨k, found, before, after, hget, hcode, rfl⟩)
    · exact ⟨0, line, before, after, rfl, hcode, hplace hcode⟩
    · exact ⟨k + 1, found, before, after, hget, hcode, by rw [hnumber]⟩

/-- The test markers of a line are those of its code. -/
theorem hasMarker_line_iff (n : UInt32) {line : List Char} (hline : '\n' ∉ line) :
    HasMarker (tokensFrom ⟨n, 1⟩ line) there ↔ SpellsMarker ⟨n, 1⟩ (codeOf line) there := by
  obtain ⟨gs, hcuts⟩ := Cuts.exists_cuts (codeOf line)
  rw [(sameToEnd_codeOf hline _).hasMarker_iff, tokensFrom_eq_placed hcuts,
    hasMarker_placed_iff hcuts (onlyMarkers_codeOf line)]

theorem hasMarker_iff_markerAt (n : UInt32) (cs : List Char) :
    HasMarker (tokensFrom ⟨n, 1⟩ cs) there ↔ MarkerAt n (cs.splitOn '\n') there := by
  induction cs using lines_induction generalizing n with
  | last line hline =>
    rw [List.splitOn_eq_singleton hline, markerAt_cons_iff n hline, hasMarker_line_iff n hline]
    simp [not_markerAt_nil]
  | above line rest hline ih =>
    have hwhole := tokensFrom_append_line ⟨n, 1⟩ line rest
    rw [Location.next_after_line _ hline] at hwhole
    rw [hwhole.hasMarker_iff, hasMarker_line_iff n hline, ih (n + 1),
      List.splitOn_append_cons_self_of_not_mem hline, markerAt_cons_iff n hline]

/-- A second percent sign begins the comment, also in front of an exclamation mark. -/
example : uncommented "x %! y %%! z\n%!%\n% a" = "x %! y \n%!\n" := by
  decide

end Scanner

end TensorTree
