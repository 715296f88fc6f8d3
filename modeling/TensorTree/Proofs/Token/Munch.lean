import Mathlib.Logic.Basic
import TensorTree.Proofs.Text.Longest
import TensorTree.Token.Scanner

/-!
# Where a lexeme ends

What the lexical rules denote tells a lexeme by its first character: names and reserved words
begin with a letter, numbers with a digit, and all other lexemes are marks, blank space or
comments.  So a lexeme ends in front of every character that does not go on with it
(`Stops`), and it is found there as it would be found alone (`IsLexeme.matchRule?`).
-/

namespace TensorTree

open Pattern (SomeMatches longest?)

/-! ## §1 What the rules denote -/

namespace Pattern

@[simp] theorem matches_exactly_iff (cs w : List Char) : (exactly cs).Matches w ↔ w = cs := by
  induction cs generalizing w with
  | nil => simp [exactly]
  | cons c cs ih =>
    simp only [exactly, matches_seq_iff, matches_one_iff, ih]
    constructor
    · rintro ⟨u, v, rfl, ⟨d, hd, rfl⟩, rfl⟩
      simpa using hd
    · rintro rfl
      exact ⟨[c], cs, rfl, ⟨c, by simp, rfl⟩, rfl⟩

@[simp] theorem matches_many_one_iff (accepts : Char → Bool) (w : List Char) :
    Matches (.many (.one accepts)) w ↔ ∀ c ∈ w, accepts c = true := by
  induction w with
  | nil => simpa using Matches.manyNil
  | cons c w ih =>
    simp only [matches_many_cons_iff, matches_one_iff, List.mem_cons, forall_eq_or_imp]
    constructor
    · rintro ⟨u, v, rfl, ⟨d, hd, hu⟩, hv⟩
      obtain ⟨rfl, rfl⟩ := List.cons.inj hu
      exact ⟨hd, ih.1 hv⟩
    · rintro ⟨hc, hw⟩
      exact ⟨[], w, rfl, ⟨c, hc, rfl⟩, ih.2 hw⟩

theorem matches_one_seq_iff (accepts : Char → Bool) (p : Pattern) (w : List Char) :
    Matches (.seq (.one accepts) p) w ↔ ∃ c v, w = c :: v ∧ accepts c = true ∧ p.Matches v := by
  simp only [matches_seq_iff, matches_one_iff]
  constructor
  · rintro ⟨u, v, rfl, ⟨c, hc, rfl⟩, hv⟩
    exact ⟨c, v, rfl, hc, hv⟩
  · rintro ⟨c, v, rfl, hc, hv⟩
    exact ⟨[c], v, rfl, ⟨c, hc, rfl⟩, hv⟩

theorem matches_oneOrMore_one_iff (accepts : Char → Bool) (w : List Char) :
    (oneOrMore (.one accepts)).Matches w ↔ w ≠ [] ∧ ∀ c ∈ w, accepts c = true := by
  rw [oneOrMore, matches_one_seq_iff]
  constructor
  · rintro ⟨c, v, rfl, hc, hv⟩
    exact ⟨by simp, by simpa [hc] using hv⟩
  · rintro ⟨hne, hw⟩
    obtain ⟨c, v, rfl⟩ := List.exists_cons_of_ne_nil hne
    rw [List.forall_mem_cons] at hw
    exact ⟨c, v, rfl, hw.1, (matches_many_one_iff ..).2 hw.2⟩

@[simp] theorem matches_optional_iff (p : Pattern) (w : List Char) :
    (optional p).Matches w ↔ p.Matches w ∨ w = [] := by
  simp [optional]

end Pattern

namespace Rule

open Pattern

theorem matches_digits_iff (w : List Char) :
    digits.Matches w ↔ w ≠ [] ∧ ∀ c ∈ w, isDigit c = true :=
  matches_oneOrMore_one_iff isDigit w

theorem matches_blanks_iff (w : List Char) :
    blanks.Matches w ↔ w ≠ [] ∧ ∀ c ∈ w, isBlank c = true :=
  matches_oneOrMore_one_iff isBlank w

theorem matches_ident_iff (w : List Char) :
    ident.Matches w ↔ ∃ c v, w = c :: v ∧ isNameStart c = true ∧ ∀ d ∈ v, isNamePart d = true := by
  simp only [ident, matches_one_seq_iff, matches_many_one_iff]

/-- A float begins with digits, then a point or the letter of an exponent. -/
theorem exists_of_matches_float {w : List Char} (h : float.Matches w) :
    ∃ u c v, w = u ++ c :: v ∧ u ≠ [] ∧ (∀ d ∈ u, isDigit d = true) ∧
      (c = '.' ∨ c = 'e' ∨ c = 'E') := by
  simp only [float, matches_alt_iff, matches_seq_iff, exponent, matches_digits_iff,
    matches_one_iff] at h
  rcases h with ⟨u, -, rfl, hu, v, -, rfl, ⟨c, hc, rfl⟩, -⟩ |
    ⟨u, -, rfl, hu, v, -, rfl, ⟨c, hc, rfl⟩, -⟩
  · exact ⟨u, c, _, rfl, hu.1, hu.2, .inl (by simpa using hc)⟩
  · exact ⟨u, c, _, rfl, hu.1, hu.2, .inr (by simpa using hc)⟩

/-- A comment begins with a percent sign that no exclamation mark follows. -/
theorem exists_of_matches_comment {w : List Char} (h : comment.Matches w) :
    ∃ v, w = '%' :: v ∧ v.head? ≠ some '!' := by
  simp only [comment, matches_one_seq_iff, matches_optional_iff] at h
  obtain ⟨c, v, rfl, hc, hv⟩ := h
  obtain rfl : c = '%' := by simpa using hc
  refine ⟨v, rfl, ?_⟩
  rcases hv with ⟨d, v, rfl, hd, -⟩ | rfl
  · rintro ⟨rfl⟩
    simp at hd
  · simp

theorem someMatches_all_iff (w : List Char) :
    SomeMatches all w ↔
      (∃ word : Word, w = word.spelling.toList) ∨ (∃ mark : Mark, w = mark.spelling.toList) ∨
        digits.Matches w ∨ float.Matches w ∨ ident.Matches w ∨ blanks.Matches w ∨
          comment.Matches w := by
  have hwords : (∃ word ∈ Word.all, w = word.spelling.toList) ↔
      ∃ word : Word, w = word.spelling.toList := by
    constructor
    · rintro ⟨word, -, h⟩
      exact ⟨word, h⟩
    · rintro ⟨word, h⟩
      exact ⟨word, by cases word <;> decide, h⟩
  have hmarks : (∃ mark ∈ Mark.all, w = mark.spelling.toList) ↔
      ∃ mark : Mark, w = mark.spelling.toList := by
    constructor
    · rintro ⟨mark, -, h⟩
      exact ⟨mark, h⟩
    · rintro ⟨mark, h⟩
      exact ⟨mark, by cases mark <;> decide, h⟩
  rw [← hwords, ← hmarks]
  simp only [SomeMatches, all, List.mem_append, List.mem_map, List.mem_cons, List.not_mem_nil,
    or_false, or_and_right, exists_or, exists_exists_and_eq_and, exists_eq_left,
    matches_exactly_iff, or_assoc]

end Rule

/-- What the rule of a kind says about a text. -/
def TokenKind.Denotes (w : List Char) : TokenKind → Prop
  | .word fixed => fixed.spelling.toList = w
  | .mark fixed => fixed.spelling.toList = w
  | .int => Rule.digits.Matches w
  | .float => Rule.float.Matches w
  | .ident => Rule.ident.Matches w
  | .eof | .error => False

theorem denotes_of_mem_all {kind : TokenKind} {p : Pattern} {w : List Char}
    (h : (Rule.token kind, p) ∈ Rule.all) (hp : p.Matches w) : kind.Denotes w := by
  cases kind with
  | word word =>
    have hmem : ∃ w ∈ Word.all, w = word ∧ Pattern.exactly w.spelling.toList = p := by
      simpa [Rule.all] using h
    obtain ⟨_, -, rfl, rfl⟩ := hmem
    exact ((Pattern.matches_exactly_iff ..).1 hp).symm
  | mark mark =>
    have hmem : ∃ m ∈ Mark.all, m = mark ∧ Pattern.exactly m.spelling.toList = p := by
      simpa [Rule.all] using h
    obtain ⟨_, -, rfl, rfl⟩ := hmem
    exact ((Pattern.matches_exactly_iff ..).1 hp).symm
  | int =>
    obtain rfl : p = Rule.digits := by simpa [Rule.all] using h
    exact hp
  | float =>
    obtain rfl : p = Rule.float := by simpa [Rule.all] using h
    exact hp
  | ident =>
    obtain rfl : p = Rule.ident := by simpa [Rule.all] using h
    exact hp
  | eof => simp [Rule.all] at h
  | error => simp [Rule.all] at h

/-! ## §2 Classes of first characters -/

theorem isNameStart_iff (c : Char) :
    isNameStart c = true ↔
      (97 ≤ c.toNat ∧ c.toNat ≤ 122) ∨ (65 ≤ c.toNat ∧ c.toNat ≤ 90) ∨ c.toNat = 95 := by
  have hunderscore : c = '_' ↔ c.toNat = 95 := by
    rw [← Char.toNat_inj]
    rfl
  simp [isNameStart, Char.le_def, UInt32.le_iff_toNat_le, hunderscore, or_assoc]

theorem isDigit_iff (c : Char) : isDigit c = true ↔ 48 ≤ c.toNat ∧ c.toNat ≤ 57 := by
  simp [isDigit, Char.le_def, UInt32.le_iff_toNat_le]

theorem isBlank_iff (c : Char) :
    isBlank c = true ↔ c.toNat = 32 ∨ c.toNat = 9 ∨ c.toNat = 13 ∨ c.toNat = 10 := by
  have hchar : ∀ d : Char, c = d ↔ c.toNat = d.toNat := fun d => by rw [← Char.toNat_inj]
  simp [isBlank, hchar, or_assoc]

theorem isDigit_eq_false {c : Char} (h : isNameStart c = true) : isDigit c = false := by
  rw [isNameStart_iff] at h
  rw [← Bool.not_eq_true, isDigit_iff]
  omega

/-- The decimal text of a natural number is a row of digits. -/
theorem isDigit_of_mem_toDigits {n : Nat} {c : Char} (h : c ∈ Nat.toDigits 10 n) :
    isDigit c = true := by
  have hdigit : c.isDigit = true := Nat.isDigit_of_mem_toDigits (by decide) (by decide) h
  rw [isDigit_iff]
  simpa [Char.isDigit, UInt32.le_iff_toNat_le] using hdigit

theorem isBlank_eq_false {c : Char} (h : isNamePart c = true) : isBlank c = false := by
  rw [isNamePart, Bool.or_eq_true, isNameStart_iff, isDigit_iff] at h
  rw [← Bool.not_eq_true, isBlank_iff]
  omega

theorem Word.exists_head (word : Word) :
    ∃ c cs, word.spelling.toList = c :: cs ∧ isNameStart c = true ∧
      ∀ d ∈ cs, isNamePart d = true := by
  cases word <;> exact ⟨_, _, rfl, by decide, List.all_eq_true.1 (by decide)⟩

/-- A mark begins with a character of no other class. -/
theorem Mark.exists_head (mark : Mark) :
    ∃ c cs, mark.spelling.toList = c :: cs ∧ isNamePart c = false ∧ isBlank c = false ∧
      (c = '%' → cs.head? = some '!') := by
  cases mark <;> exact ⟨_, _, rfl, by decide, by decide, by decide⟩

/-- What a lexeme is, by its first character. -/
inductive LexemeShape (c : Char) (w : List Char) : Prop where
  /-- A name or a reserved word. -/
  | name : isNameStart c = true → (∀ d ∈ w, isNamePart d = true) → LexemeShape c w
  /-- A number: the first character that is no digit is a point or belongs to an exponent. -/
  | number : isDigit c = true →
      (∀ u d v, c :: w = u ++ d :: v → (∀ e ∈ u, isDigit e = true) → isDigit d = false →
        d = '.' ∨ d = 'e' ∨ d = 'E') → LexemeShape c w
  /-- Blank space. -/
  | blank : isBlank c = true → (∀ d ∈ w, isBlank d = true) → LexemeShape c w
  | comment : c = '%' → w.head? ≠ some '!' → LexemeShape c w
  | mark (mark : Mark) : c :: w = mark.spelling.toList → LexemeShape c w

/-- The first character that is no digit is found in only one way. -/
theorem eq_of_digits_append {u w : List Char} {c d : Char} {v x : List Char}
    (h : u ++ c :: v = w ++ d :: x) (hu : ∀ e ∈ u, isDigit e = true)
    (hw : ∀ e ∈ w, isDigit e = true) (hc : isDigit c = false) (hd : isDigit d = false) :
    c = d := by
  have hleft : (u ++ c :: v).dropWhile isDigit = (c :: v).dropWhile isDigit :=
    List.dropWhile_append_of_pos hu
  have hright : (w ++ d :: x).dropWhile isDigit = (d :: x).dropWhile isDigit :=
    List.dropWhile_append_of_pos hw
  rw [h, hright] at hleft
  simp only [List.dropWhile_cons, hc, hd, Bool.false_eq_true, if_false] at hleft
  exact (List.cons.inj hleft).1.symm

theorem lexemeShape_of_someMatches {c : Char} {w : List Char}
    (h : SomeMatches Rule.all (c :: w)) : LexemeShape c w := by
  rcases (Rule.someMatches_all_iff _).1 h with
    ⟨word, hw⟩ | ⟨mark, hw⟩ | hw | hw | hw | hw | hw
  · obtain ⟨d, ds, hspelling, hd, hds⟩ := word.exists_head
    obtain ⟨rfl, rfl⟩ := List.cons.inj (hw.trans hspelling)
    exact .name hd hds
  · exact .mark mark hw
  · -- digits only
    have hdigits := ((Rule.matches_digits_iff _).1 hw).2
    refine .number (hdigits c List.mem_cons_self) ?_
    intro u d v heq _ hd
    have hmem : d ∈ c :: w := by simp [heq]
    rw [hdigits d hmem] at hd
    cases hd
  · -- a float is the only number with something behind its first digits
    obtain ⟨u, d, v, heq, hne, hu, hd⟩ := Rule.exists_of_matches_float hw
    have hfirst : isDigit c = true := by
      obtain ⟨d', u, rfl⟩ := List.exists_cons_of_ne_nil hne
      obtain ⟨rfl, -⟩ := List.cons.inj heq
      exact hu c List.mem_cons_self
    have hnot : isDigit d = false := by
      rcases hd with rfl | rfl | rfl <;> rfl
    refine .number hfirst fun u' d' v' heq' hu' hd' => ?_
    obtain rfl := eq_of_digits_append (heq.symm.trans heq') hu hu' hnot hd'
    exact hd
  · obtain ⟨d, v, heq, hd, hv⟩ := (Rule.matches_ident_iff _).1 hw
    obtain ⟨rfl, rfl⟩ := List.cons.inj heq
    exact .name hd hv
  · have hblanks := ((Rule.matches_blanks_iff _).1 hw).2
    exact .blank (hblanks c List.mem_cons_self) fun d hd => hblanks d (List.mem_cons_of_mem c hd)
  · obtain ⟨v, heq, hv⟩ := Rule.exists_of_matches_comment hw
    obtain ⟨rfl, rfl⟩ := List.cons.inj heq
    exact .comment rfl hv

/-! ## §3 Where lexemes end -/

/-- No lexeme that begins with the first text reaches into the second one. -/
def Stops (w rest : List Char) : Prop :=
  ∀ v, v ≠ [] → v <+: rest → ¬ SomeMatches Rule.all (w ++ v)

@[simp] theorem stops_nil (w : List Char) : Stops w [] := by
  intro v hne hv
  exact absurd (List.prefix_nil.1 hv) hne

theorem stops_cons {w : List Char} {c : Char} {rest : List Char}
    (h : ∀ v, ¬ SomeMatches Rule.all (w ++ c :: v)) : Stops w (c :: rest) := by
  intro v hne hv
  obtain ⟨d, v, rfl⟩ := List.exists_cons_of_ne_nil hne
  obtain ⟨rfl, -⟩ := List.cons_prefix_cons.1 hv
  exact h v

/-- A lexeme that begins with a character of names is a name, a reserved word or a number. -/
theorem LexemeShape.of_isNamePart {c : Char} {w : List Char} (h : LexemeShape c w)
    (hc : isNamePart c = true) :
    (isNameStart c = true ∧ ∀ d ∈ w, isNamePart d = true) ∨
      (isDigit c = true ∧ ∀ u d v, c :: w = u ++ d :: v → (∀ e ∈ u, isDigit e = true) →
        isDigit d = false → d = '.' ∨ d = 'e' ∨ d = 'E') := by
  cases h with
  | name hstart hall => exact .inl ⟨hstart, hall⟩
  | number hdigit hall => exact .inr ⟨hdigit, hall⟩
  | blank hblank => simp [isBlank_eq_false hc] at hblank
  | comment hpercent =>
    subst hpercent
    cases hc
  | mark mark heq =>
    obtain ⟨d, ds, hspelling, hd, -⟩ := mark.exists_head
    obtain ⟨rfl, -⟩ := List.cons.inj (heq.trans hspelling)
    rw [hc] at hd
    cases hd

/-- A name or a reserved word ends in front of what is no part of names. -/
theorem stops_of_isNameStart {c d : Char} {w : List Char} (hc : isNameStart c = true)
    (hd : isNamePart d = false) (rest : List Char) : Stops (c :: w) (d :: rest) := by
  refine stops_cons fun v h => ?_
  have hpart : isNamePart c = true := by simp [isNamePart, hc]
  rcases (lexemeShape_of_someMatches h).of_isNamePart hpart with ⟨-, hall⟩ | ⟨hdigit, -⟩
  · rw [hall d (by simp)] at hd
    cases hd
  · simp [isDigit_eq_false hc] at hdigit

/-- A row of digits ends in front of what does not go on with a number. -/
theorem stops_of_digits {c d : Char} {w : List Char} (hw : ∀ e ∈ c :: w, isDigit e = true)
    (hdigit : isDigit d = false) (hd : ¬ (d = '.' ∨ d = 'e' ∨ d = 'E')) (rest : List Char) :
    Stops (c :: w) (d :: rest) := by
  refine stops_cons fun v h => ?_
  have hc : isDigit c = true := hw c List.mem_cons_self
  have hpart : isNamePart c = true := by simp [isNamePart, hc]
  rcases (lexemeShape_of_someMatches h).of_isNamePart hpart with ⟨hname, -⟩ | ⟨-, hall⟩
  · simp [isDigit_eq_false hname] at hc
  · -- the digits are as many as there are, so `d` is the first character that is none
    exact hd (hall (c :: w) d v rfl hw hdigit)

/-- A character makes a longer mark of a mark. -/
def Mark.growsWith (mark : Mark) (c : Char) : Bool :=
  Mark.all.any fun longer => (mark.spelling.toList ++ [c]).isPrefixOf longer.spelling.toList

/-- A mark ends in front of what makes no longer mark of it. -/
theorem stops_of_mark {mark : Mark} {c : Char} (h : mark.growsWith c = false)
    (rest : List Char) : Stops mark.spelling.toList (c :: rest) := by
  refine stops_cons fun v hmatch => ?_
  obtain ⟨d, ds, hspelling, hpart, hblank, hpercent⟩ := mark.exists_head
  rw [hspelling, List.cons_append] at hmatch
  cases lexemeShape_of_someMatches hmatch with
  | name hname => simp [isNamePart, hname] at hpart
  | number hdigit => simp [isNamePart, hdigit] at hpart
  | blank hblank' => simp [hblank'] at hblank
  | comment heq hne =>
    -- the only mark that begins with a percent sign goes on with an exclamation mark
    refine hne ?_
    have hhead := hpercent heq
    cases ds with
    | nil => cases hhead
    | cons e es => exact hhead
  | mark longer heq =>
    have hmem : longer ∈ Mark.all := by cases longer <;> decide
    have hprefix : (mark.spelling.toList ++ [c]) <+: longer.spelling.toList := by
      rw [← heq, hspelling]
      exact ⟨v, by simp⟩
    have hgrows : mark.growsWith c = true :=
      List.any_eq_true.2 ⟨longer, hmem, List.isPrefixOf_iff_prefix.2 hprefix⟩
    rw [h] at hgrows
    cases hgrows

/-- A blank ends in front of what is no blank. -/
theorem stops_of_blank {c d : Char} {w : List Char} (hc : isBlank c = true)
    (hd : isBlank d = false) (rest : List Char) : Stops (c :: w) (d :: rest) := by
  refine stops_cons fun v h => ?_
  cases lexemeShape_of_someMatches h with
  | name hname =>
    have hpart : isNamePart c = true := by simp [isNamePart, hname]
    simp [isBlank_eq_false hpart] at hc
  | number hdigit =>
    have hpart : isNamePart c = true := by simp [isNamePart, hdigit]
    simp [isBlank_eq_false hpart] at hc
  | blank _ hall =>
    rw [hall d (by simp)] at hd
    cases hd
  | comment hpercent =>
    subst hpercent
    cases hc
  | mark mark heq =>
    obtain ⟨e, es, hspelling, -, hblank, -⟩ := mark.exists_head
    obtain ⟨rfl, -⟩ := List.cons.inj (heq.trans hspelling)
    rw [hc] at hblank
    cases hblank

/-! ## §4 The next match -/

theorem matchRule?_eq_some_iff (cs : List Char) (rule : Rule) (n : Nat) :
    matchRule? cs = some (rule, n) ↔ longest? Rule.all cs = some (rule, n + 1) := by
  unfold matchRule?
  cases h : longest? Rule.all cs with
  | none => simp
  | some found =>
    obtain ⟨rule', k⟩ := found
    cases k <;> simp

theorem exists_matches_of_matchRule? {cs : List Char} {rule : Rule} {n : Nat}
    (h : matchRule? cs = some (rule, n)) :
    ∃ p, (rule, p) ∈ Rule.all ∧ p.Matches (cs.take (n + 1)) :=
  Pattern.exists_matches_of_longest? ((matchRule?_eq_some_iff ..).1 h)

/-- Where the scanner takes nothing, no rule matches anything. -/
theorem not_someMatches_of_matchRule?_eq_none {cs v : List Char} (h : matchRule? cs = none)
    (hne : v ≠ []) (hv : v <+: cs) : ¬ SomeMatches Rule.all v := by
  have hlength : 0 < v.length := List.length_pos_iff.2 hne
  rw [List.prefix_iff_eq_take.1 hv]
  unfold matchRule? at h
  cases hlongest : longest? Rule.all cs with
  | none => exact Pattern.not_someMatches_of_longest?_eq_none hlongest v.length
  | some found =>
    obtain ⟨rule, n⟩ := found
    cases n with
    | zero => exact (Pattern.isLongest_of_longest?_eq_some hlongest).2.2 _ hlength hv.length_le
    | succ n => simp [hlongest] at h

/-- A text is a lexeme of a rule if the rule matches all of it. -/
def IsLexeme (rule : Rule) (w : List Char) : Prop :=
  w ≠ [] ∧ longest? Rule.all w = some (rule, w.length)

/-- A lexeme is found in front of every text in front of which it ends. -/
theorem IsLexeme.matchRule? {rule : Rule} {c : Char} {w rest : List Char}
    (h : IsLexeme rule (c :: w)) (hstop : Stops (c :: w) rest) :
    matchRule? (c :: (w ++ rest)) = some (rule, w.length) := by
  rw [matchRule?_eq_some_iff]
  exact Pattern.longest?_append h.2 hstop

theorem isLexeme_word (word : Word) : IsLexeme (.token (.word word)) word.spelling.toList := by
  cases word <;> exact ⟨by decide, by decide⟩

theorem isLexeme_mark (mark : Mark) : IsLexeme (.token (.mark mark)) mark.spelling.toList := by
  cases mark <;> exact ⟨by decide, by decide⟩

theorem isLexeme_blank : IsLexeme .skip [' '] := ⟨by decide, by decide⟩

/-- The rules for reserved words and marks, which stand in front of all others. -/
def Rule.fixed : List (Rule × Pattern) :=
  Word.all.map (fun w => (.token (.word w), .exactly w.spelling.toList)) ++
    Mark.all.map (fun m => (.token (.mark m), .exactly m.spelling.toList))

/-- No reserved word and no mark begins with a digit. -/
theorem not_someMatches_fixed {c : Char} (hc : isDigit c = true) (w : List Char) :
    ¬ SomeMatches Rule.fixed (c :: w) := by
  rintro ⟨entry, hentry, hmatch⟩
  rcases List.mem_append.1 hentry with hentry | hentry
  · obtain ⟨word, -, rfl⟩ := List.mem_map.1 hentry
    have heq : c :: w = word.spelling.toList := (Pattern.matches_exactly_iff ..).1 hmatch
    obtain ⟨d, ds, hspelling, hd, -⟩ := word.exists_head
    obtain ⟨rfl, -⟩ := List.cons.inj (heq.trans hspelling)
    rw [isDigit_eq_false hd] at hc
    cases hc
  · obtain ⟨mark, -, rfl⟩ := List.mem_map.1 hentry
    have heq : c :: w = mark.spelling.toList := (Pattern.matches_exactly_iff ..).1 hmatch
    obtain ⟨d, ds, hspelling, hpart, -⟩ := mark.exists_head
    obtain ⟨rfl, -⟩ := List.cons.inj (heq.trans hspelling)
    simp [isNamePart, hc] at hpart

theorem isLexeme_digits {w : List Char} (hne : w ≠ []) (hw : ∀ c ∈ w, isDigit c = true) :
    IsLexeme (.token .int) w := by
  obtain ⟨c, w, rfl⟩ := List.exists_cons_of_ne_nil hne
  refine ⟨hne, ?_⟩
  have hbefore : ¬ SomeMatches Rule.fixed (c :: w) :=
    not_someMatches_fixed (hw c List.mem_cons_self) w
  exact Pattern.longest?_of_first hbefore ((Rule.matches_digits_iff _).2 ⟨hne, hw⟩)

/-- Digits with a point and digits behind it are a float. -/
theorem isLexeme_float {u v : List Char} (hu : Rule.digits.Matches u)
    (hv : Rule.digits.Matches v) : IsLexeme (.token .float) (u ++ '.' :: v) := by
  obtain ⟨hne, hdigits⟩ := (Rule.matches_digits_iff u).1 hu
  obtain ⟨c, u, rfl⟩ := List.exists_cons_of_ne_nil hne
  refine ⟨List.cons_ne_nil _ _, ?_⟩
  have hfloat : Rule.float.Matches (c :: u ++ '.' :: v) := by
    apply Pattern.Matches.altLeft
    apply Pattern.Matches.seq hu
    apply Pattern.Matches.seq (u := ['.']) (.one rfl)
    rw [← List.append_nil v]
    exact .seq hv ((Pattern.matches_optional_iff ..).2 (.inr rfl))
  -- besides the fixed texts only the integers stand in front of the floats, and they have no point
  have hbefore : ¬ SomeMatches (Rule.fixed ++ [(.token .int, Rule.digits)])
      (c :: u ++ '.' :: v) := by
    rintro ⟨entry, hentry, hmatch⟩
    rcases List.mem_append.1 hentry with hentry | hentry
    · exact not_someMatches_fixed (hdigits c List.mem_cons_self) _ ⟨entry, hentry, hmatch⟩
    · obtain rfl := List.mem_singleton.1 hentry
      have hpoint := ((Rule.matches_digits_iff _).1 hmatch).2 '.' (by simp)
      cases hpoint
  rw [Rule.all, List.append_cons]
  exact Pattern.longest?_of_first hbefore hfloat

end TensorTree
