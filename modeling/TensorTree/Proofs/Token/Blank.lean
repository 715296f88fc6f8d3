import TensorTree.Proofs.Token.Lexeme

/-!
# Blank space and comments

No token holds a blank character (`isBlank_eq_false_of_matchRule?`), so a token ends in front of
every blank; blank characters and comments leave no lexeme.  A text that begins with a blank can
therefore be added to any other text, and its lexemes come behind those of the other text
(`Lexes.append`).  The only thing to be careful about is a comment at the end of the other text: it
takes the first line of what is added.
-/

namespace TensorTree

open Pattern (SomeMatches longest?)

/-! ## §1 Characters that a pattern avoids -/

namespace Pattern

/-- The character is in no text of the pattern, as none of the classes of the pattern accepts it. -/
def avoids (d : Char) : Pattern → Bool
  | .nothing | .empty => true
  | .one accepts => !accepts d
  | .seq p q | .alt p q => p.avoids d && q.avoids d
  | .many p => p.avoids d

theorem not_mem_of_avoids {d : Char} {p : Pattern} {w : List Char} (hp : p.avoids d = true)
    (h : p.Matches w) : d ∉ w := by
  induction h with
  | empty | manyNil => simp
  | one haccepts =>
    simp only [avoids, Bool.not_eq_true'] at hp
    rintro hmem
    obtain rfl := List.mem_singleton.1 hmem
    rw [haccepts] at hp
    cases hp
  | seq _ _ ihp ihq =>
    simp only [avoids, Bool.and_eq_true] at hp
    simp [ihp hp.1, ihq hp.2]
  | altLeft _ ih =>
    simp only [avoids, Bool.and_eq_true] at hp
    exact ih hp.1
  | altRight _ ih =>
    simp only [avoids, Bool.and_eq_true] at hp
    exact ih hp.2
  | manyCons _ _ ihp ihq => simp [ihp hp, ihq hp]

end Pattern

/-- The rules of tokens avoid blank characters. -/
theorem Rule.avoids_of_isBlank {d : Char} (hd : isBlank d = true) :
    ∀ entry ∈ Rule.all, entry.1 = .skip ∨ entry.2.avoids d = true := by
  simp only [isBlank, Bool.or_eq_true, beq_iff_eq] at hd
  obtain ((rfl | rfl) | rfl) | rfl := hd <;> decide

theorem isBlank_eq_false_of_matches {kind : TokenKind} {p : Pattern} {w : List Char}
    (h : (Rule.token kind, p) ∈ Rule.all) (hp : p.Matches w) : ∀ d ∈ w, isBlank d = false := by
  intro d hmem
  rw [← Bool.not_eq_true]
  intro hd
  rcases Rule.avoids_of_isBlank hd _ h with hskip | havoids
  · cases hskip
  · exact Pattern.not_mem_of_avoids havoids hp hmem

/-- No token holds a blank character. -/
theorem isBlank_eq_false_of_matchRule? {cs : List Char} {kind : TokenKind} {n : Nat}
    (h : matchRule? cs = some (.token kind, n)) : ∀ d ∈ cs.take (n + 1), isBlank d = false := by
  obtain ⟨p, hmem, hp⟩ := exists_matches_of_matchRule? h
  exact isBlank_eq_false_of_matches hmem hp

/-- A text with a blank character that some rule matches is blank space or a comment. -/
theorem Pattern.SomeMatches.of_isBlank {w : List Char} {d : Char} (h : SomeMatches Rule.all w)
    (hmem : d ∈ w) (hd : isBlank d = true) : Rule.blanks.Matches w ∨ Rule.comment.Matches w := by
  obtain ⟨⟨rule, p⟩, hentry, hp⟩ := h
  cases rule with
  | token kind =>
    have hnot := isBlank_eq_false_of_matches hentry hp d hmem
    rw [hd] at hnot
    cases hnot
  | skip =>
    have hpattern : p = Rule.blanks ∨ p = Rule.comment := by simpa [Rule.all] using hentry
    rcases hpattern with rfl | rfl
    · exact .inl hp
    · exact .inr hp

/-- Whatever matches a line feed is blank space. -/
theorem Pattern.SomeMatches.of_newline {w : List Char} (h : SomeMatches Rule.all w)
    (hmem : '\n' ∈ w) : ∀ c ∈ w, isBlank c = true := by
  rcases h.of_isBlank hmem rfl with hblanks | hcomment
  · exact ((Rule.matches_blanks_iff _).1 hblanks).2
  · exact absurd hmem (Pattern.not_mem_of_avoids (by decide) hcomment)

/-! ## §2 The longest matches of blank space and of comments -/

/-- What is matched as a whole, but not by the rule of a token, is skipped in front of every text in
front of which it ends. -/
theorem matchRule?_skip {c : Char} {w rest : List Char} (hmatch : SomeMatches Rule.all (c :: w))
    (htoken : ∀ kind p, (Rule.token kind, p) ∈ Rule.all → ¬ p.Matches (c :: w))
    (hstop : Stops (c :: w) rest) : matchRule? (c :: (w ++ rest)) = some (.skip, w.length) := by
  have hlongest : longest? Rule.all ((c :: w) ++ rest) = longest? Rule.all (c :: w) :=
    Pattern.longest?_append_eq hstop
  have hwhole : SomeMatches Rule.all ((c :: w).take (c :: w).length) := by
    rwa [List.take_length]
  rw [matchRule?_eq_some_iff, ← List.cons_append, hlongest]
  cases hfound : longest? Rule.all (c :: w) with
  | none => exact absurd hwhole (Pattern.not_someMatches_of_longest?_eq_none hfound _)
  | some found =>
    obtain ⟨rule, n⟩ := found
    obtain ⟨hle, -, hmax⟩ := Pattern.isLongest_of_longest?_eq_some hfound
    -- a shorter match would not be the longest
    have hn : n = (c :: w).length :=
      Nat.le_antisymm hle (Nat.le_of_not_lt fun hlt => hmax _ hlt (Nat.le_refl _) hwhole)
    subst hn
    obtain ⟨p, hmem, hp⟩ := Pattern.exists_matches_of_longest? hfound
    rw [List.take_length] at hp
    cases rule with
    | skip => rfl
    | token kind => exact absurd hp (htoken kind p hmem)

/-- A match that takes all characters of a class ends where the class ends. -/
theorem stops_takeWhile {w : List Char} {p : Char → Bool}
    (h : ∀ d rest, p d = false → Stops w (d :: rest)) (cs : List Char) :
    Stops w (cs.dropWhile p) := by
  cases hrest : cs.dropWhile p with
  | nil => exact stops_nil w
  | cons d rest =>
    have hd := List.head?_dropWhile_not p cs
    rw [hrest] at hd
    exact h d rest (by simpa using hd)

theorem matchRule?_blank {c : Char} (hc : isBlank c = true) (cs : List Char) :
    matchRule? (c :: cs) = some (.skip, (cs.takeWhile isBlank).length) := by
  have hblanks : Rule.blanks.Matches (c :: cs.takeWhile isBlank) :=
    (Rule.matches_blanks_iff _).2
      ⟨List.cons_ne_nil _ _, List.forall_mem_cons.2 ⟨hc, List.all_eq_true.1 List.all_takeWhile⟩⟩
  have hstop : Stops (c :: cs.takeWhile isBlank) (cs.dropWhile isBlank) :=
    stops_takeWhile (fun _ rest hd => stops_of_blank hc hd rest) cs
  have hskip := matchRule?_skip ((Rule.someMatches_all_iff _).2 (by simp [hblanks])) ?_ hstop
  · rwa [List.takeWhile_append_dropWhile] at hskip
  · intro kind p hmem hp
    have hnot := isBlank_eq_false_of_matches hmem hp c List.mem_cons_self
    rw [hc] at hnot
    cases hnot

/-- Behind a percent sign, only an exclamation mark makes a token. -/
theorem TokenKind.not_denotes_percent {kind : TokenKind} {w : List Char}
    (h : w.head? ≠ some '!') : ¬ kind.Denotes ('%' :: w) := by
  intro hdenotes
  cases kind with
  | word fixed =>
    obtain ⟨c, cs, hspelling, hc, -⟩ := fixed.exists_head
    obtain ⟨rfl, -⟩ := List.cons.inj (hspelling.symm.trans hdenotes)
    cases hc
  | mark fixed =>
    obtain ⟨c, cs, hspelling, -, -, hpercent⟩ := fixed.exists_head
    obtain ⟨rfl, rfl⟩ := List.cons.inj (hspelling.symm.trans hdenotes)
    exact h (hpercent rfl)
  | int => cases ((Rule.matches_digits_iff _).1 hdenotes).2 '%' List.mem_cons_self
  | float =>
    obtain ⟨u, c, v, heq, hne, hu, -⟩ := Rule.exists_of_matches_float hdenotes
    obtain ⟨d, u, rfl⟩ := List.exists_cons_of_ne_nil hne
    obtain ⟨rfl, -⟩ := List.cons.inj heq
    cases hu '%' List.mem_cons_self
  | ident =>
    obtain ⟨c, v, heq, hc, -⟩ := (Rule.matches_ident_iff _).1 hdenotes
    obtain ⟨rfl, -⟩ := List.cons.inj heq
    cases hc
  | eof => exact hdenotes
  | error => exact hdenotes

/-- A comment goes up to the end of its line. -/
theorem matchRule?_comment {cs : List Char} (h : cs.head? ≠ some '!') :
    matchRule? ('%' :: cs) = some (.skip, (cs.takeWhile (· != '\n')).length) := by
  have hhead : (cs.takeWhile (· != '\n')).head? ≠ some '!' := by
    cases cs with
    | nil => simp
    | cons d cs =>
      have hd : d ≠ '!' := by simpa using h
      by_cases hline : d = '\n' <;> simp [hline, hd]
  have hcomment : Rule.comment.Matches ('%' :: cs.takeWhile (· != '\n')) := by
    simp only [Rule.comment, Pattern.matches_one_seq_iff, Pattern.matches_optional_iff,
      Pattern.matches_many_one_iff]
    refine ⟨'%', _, rfl, rfl, ?_⟩
    have hline := List.all_eq_true.1 (List.all_takeWhile (p := (· != '\n')) (l := cs))
    cases hw : cs.takeWhile (· != '\n') with
    | nil => exact .inr rfl
    | cons d v =>
      rw [hw, List.forall_mem_cons] at hline
      rw [hw] at hhead
      exact .inl ⟨d, v, rfl, by simpa [hline.1] using hhead, hline.2⟩
  have hstop : Stops ('%' :: cs.takeWhile (· != '\n')) (cs.dropWhile (· != '\n')) := by
    refine stops_takeWhile (fun d rest hd => stops_cons fun v hmatch => ?_) cs
    -- whatever goes on over the end of the line is blank space, and a percent sign is none
    obtain rfl : d = '\n' := by simpa using hd
    cases hmatch.of_newline (by simp) '%' List.mem_cons_self
  have hskip := matchRule?_skip ((Rule.someMatches_all_iff _).2 (by simp [hcomment])) ?_ hstop
  · rwa [List.takeWhile_append_dropWhile] at hskip
  · intro kind p hmem hp
    exact TokenKind.not_denotes_percent hhead (denotes_of_mem_all hmem hp)

/-- A text that begins with a blank character adds nothing to the match in front of it, unless that
is blank space or a comment. -/
theorem matchRule?_append {c : Char} {cs more : List Char} (hc : isBlank c = false)
    (hcomment : c = '%' → cs.head? = some '!') (hmore : ∀ d ∈ more.head?, isBlank d = true) :
    matchRule? (c :: (cs ++ more)) = matchRule? (c :: cs) := by
  have hlongest : longest? Rule.all ((c :: cs) ++ more) = longest? Rule.all (c :: cs) := by
    refine Pattern.longest?_append_eq fun v hne hv hmatch => ?_
    obtain ⟨d, v, rfl⟩ := List.exists_cons_of_ne_nil hne
    obtain ⟨rest, rfl⟩ := hv
    -- a match that reaches the blank is blank space or a comment as a whole
    rcases hmatch.of_isBlank (by simp) (hmore d rfl) with hblanks | hmatch
    · rw [((Rule.matches_blanks_iff _).1 hblanks).2 c List.mem_cons_self] at hc
      cases hc
    · obtain ⟨w, heq, hw⟩ := Rule.exists_of_matches_comment hmatch
      obtain ⟨rfl, rfl⟩ := List.cons.inj heq
      obtain ⟨e, cs, rfl⟩ : ∃ e es, cs = e :: es := by
        cases cs with
        | nil => cases hcomment rfl
        | cons e es => exact ⟨e, es, rfl⟩
      exact hw (hcomment rfl)
  unfold matchRule?
  rw [← hlongest, List.cons_append]

/-! ## §3 Lexemes of texts with blank space and comments -/

theorem lexes_skip_iff {c : Char} {cs : List Char} {n : Nat}
    (h : matchRule? (c :: cs) = some (.skip, n)) (lexemes : List Lexeme) :
    Lexes (c :: cs) lexemes ↔ Lexes (cs.drop n) lexemes := by
  constructor
  · intro hlexes
    cases hlexes with
    | skip hmatch hrest =>
      obtain ⟨-, rfl⟩ := Prod.mk.inj (Option.some.inj (h.symm.trans hmatch))
      exact hrest
    | token hmatch => simp [h] at hmatch
    | error hmatch => simp [h] at hmatch
  · exact .skip h

theorem drop_length_takeWhile (p : Char → Bool) (cs : List Char) :
    cs.drop (cs.takeWhile p).length = cs.dropWhile p := by
  have happend := List.takeWhile_append_dropWhile (p := p) (l := cs)
  calc cs.drop (cs.takeWhile p).length
      = (cs.takeWhile p ++ cs.dropWhile p).drop (cs.takeWhile p).length := by rw [happend]
    _ = cs.dropWhile p := List.drop_left

/-- A blank character in front of a text leaves no lexeme. -/
theorem lexes_blank_iff {c : Char} (hc : isBlank c = true) (cs : List Char)
    (lexemes : List Lexeme) : Lexes (c :: cs) lexemes ↔ Lexes cs lexemes := by
  -- the whole run is skipped at once; what follows the first blank would skip the rest of the run
  rw [lexes_skip_iff (matchRule?_blank hc cs), drop_length_takeWhile]
  cases cs with
  | nil => rfl
  | cons d cs =>
    cases hd : isBlank d with
    | false => rw [List.dropWhile_cons_of_neg (by simp [hd])]
    | true =>
      rw [List.dropWhile_cons_of_pos hd, lexes_skip_iff (matchRule?_blank hd cs),
        drop_length_takeWhile]

theorem lexes_blanks_iff {w : List Char} (hw : ∀ c ∈ w, isBlank c = true) (cs : List Char)
    (lexemes : List Lexeme) : Lexes (w ++ cs) lexemes ↔ Lexes cs lexemes := by
  induction w with
  | nil => rfl
  | cons c w ih =>
    rw [List.forall_mem_cons] at hw
    rw [List.cons_append, lexes_blank_iff hw.1, ih hw.2]

/-- A comment leaves no lexeme. -/
theorem lexes_comment_iff {cs : List Char} (h : cs.head? ≠ some '!') (lexemes : List Lexeme) :
    Lexes ('%' :: cs) lexemes ↔ Lexes (cs.dropWhile (· != '\n')) lexemes := by
  rw [lexes_skip_iff (matchRule?_comment h), drop_length_takeWhile]

/-! ## §4 Texts behind each other -/

theorem le_length_of_matchRule? {c : Char} {cs : List Char} {rule : Rule} {n : Nat}
    (h : matchRule? (c :: cs) = some (rule, n)) : n ≤ cs.length :=
  Nat.le_of_succ_le_succ
    (Pattern.isLongest_of_longest?_eq_some ((matchRule?_eq_some_iff ..).1 h)).1

namespace Lexes

variable {cs more : List Char} {left right : List Lexeme}

/-- A text is added behind the first match of another one if it is added behind the rest. -/
theorem append_of_match {c : Char} (h : Lexes (c :: cs) left)
    (hsame : matchRule? (c :: (cs ++ more)) = matchRule? (c :: cs))
    (hrest : ∀ n lexemes, Lexes (cs.drop n) lexemes →
      Lexes (cs.drop n ++ more) (lexemes ++ right)) :
    Lexes (c :: (cs ++ more)) (left ++ right) := by
  cases h with
  | skip hmatch htail =>
    refine .skip (hsame.trans hmatch) ?_
    rw [List.drop_append_of_le_length (le_length_of_matchRule? hmatch)]
    exact hrest _ _ htail
  | @token _ _ n _ lexemes hmatch htail =>
    have hle := le_length_of_matchRule? hmatch
    have htail' : Lexes ((cs ++ more).drop n) (lexemes ++ right) := by
      rw [List.drop_append_of_le_length hle]
      exact hrest n lexemes htail
    have htoken := Lexes.token (hsame.trans hmatch) htail'
    rwa [List.take_append_of_le_length hle] at htoken
  | error hmatch htail => exact .error (hsame.trans hmatch) (hrest 0 _ htail)

/-- A text is added behind a comment if what the comment does not take is added behind its line. -/
theorem append_of_comment (h : Lexes ('%' :: cs) left) (hcs : cs.head? ≠ some '!')
    (hhead : ∀ c ∈ more.head?, isBlank c = true)
    (hline : Lexes (more.dropWhile (· != '\n')) right)
    (hrest : ∀ lexemes, Lexes (cs.dropWhile (· != '\n')) lexemes →
      Lexes (cs.dropWhile (· != '\n') ++ more) (lexemes ++ right)) :
    Lexes ('%' :: (cs ++ more)) (left ++ right) := by
  have hhead' : (cs ++ more).head? ≠ some '!' := by
    cases cs with
    | nil =>
      intro h
      cases hhead '!' h
    | cons d cs => exact hcs
  rw [lexes_comment_iff hcs] at h
  rw [lexes_comment_iff hhead', List.dropWhile_append]
  split
  -- the comment is the end of the text, or it ends at a line feed of the text
  next hnil =>
    rw [List.isEmpty_iff.1 hnil] at h
    cases h
    exact hline
  next => exact hrest left h

/-- A text that begins with a blank character is added to another one.  Its first line must leave no
lexemes, as a comment at the end of the other text would take it. -/
theorem append {w : List Char} (hw : Lexes w left) (hhead : ∀ c ∈ more.head?, isBlank c = true)
    (hmore : Lexes more right) (hline : Lexes (more.dropWhile (· != '\n')) right) :
    Lexes (w ++ more) (left ++ right) := by
  -- what is left behind blank space, a comment or a token is shorter
  induction hlength : w.length using Nat.strongRecOn generalizing w left with
  | ind length ih =>
    cases w with
    | nil =>
      cases hw
      exact hmore
    | cons c cs =>
      subst hlength
      have hrest {rest : List Char} (hle : rest.length ≤ cs.length) {lexemes : List Lexeme}
          (h : Lexes rest lexemes) : Lexes (rest ++ more) (lexemes ++ right) :=
        ih rest.length (Nat.lt_succ_of_le hle) h rfl
      rw [List.cons_append]
      -- a blank run could reach into what is added, so only its first character is taken off
      by_cases hc : isBlank c = true
      · rw [lexes_blank_iff hc] at hw ⊢
        exact hrest (Nat.le_refl _) hw
      by_cases hcomment : c = '%' → cs.head? = some '!'
      · have hsame := matchRule?_append (by simpa using hc) hcomment hhead
        exact hw.append_of_match hsame fun n _ => hrest (by simp)
      · obtain ⟨rfl, hcs⟩ : c = '%' ∧ cs.head? ≠ some '!' := by simpa using hcomment
        exact hw.append_of_comment hcs hhead hline fun _ =>
          hrest (List.dropWhile_suffix _).length_le

/-- Lines are scanned one after the other. -/
theorem append_line {w : List Char} (hw : Lexes w left) (hmore : Lexes more right) :
    Lexes (w ++ '\n' :: more) (left ++ right) := by
  have hmore' : Lexes ('\n' :: more) right := (lexes_blank_iff rfl more right).2 hmore
  exact hw.append (by simp [isBlank]) hmore' hmore'

end Lexes

/-- Blank space behind a text leaves no lexemes. -/
theorem lexes_append_blanks_iff {w : List Char} (hw : ∀ c ∈ w, isBlank c = true) (cs : List Char)
    (lexemes : List Lexeme) : Lexes (cs ++ w) lexemes ↔ Lexes cs lexemes := by
  have hblank {v : List Char} (hv : ∀ c ∈ v, isBlank c = true) : Lexes v [] := by
    simpa [Lexes.nil] using lexes_blanks_iff hv [] []
  have happend {lexemes : List Lexeme} (h : Lexes cs lexemes) : Lexes (cs ++ w) lexemes := by
    have hline : ∀ c ∈ w.dropWhile (· != '\n'), isBlank c = true := fun c hc =>
      hw c ((List.dropWhile_suffix _).subset hc)
    simpa using h.append (fun c hc => hw c (List.mem_of_mem_head? hc)) (hblank hw) (hblank hline)
  constructor
  · intro h
    obtain ⟨others, hothers⟩ := Lexes.exists_lexes cs
    rwa [h.unique (happend hothers)]
  · exact happend

end TensorTree
