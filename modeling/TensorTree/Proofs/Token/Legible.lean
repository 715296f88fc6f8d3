import TensorTree.Proofs.Token.Blank

/-!
# Legible texts

A legible text is made of characters that are lexemes on their own or belong to longer ones, and of
the marks `%!` and `!=`; no other percent sign and no other exclamation mark is in it.  It has
neither comments nor errors, so its lexemes hold all of it but blank characters
(`Lexes.of_legible`).  That a text is legible can be told from its pieces (`Legible.append`).
-/

namespace TensorTree

open Pattern (SomeMatches longest?)

/-! ## §1 Legible texts -/

/-- The character is part of names, blank, or a mark. -/
def isPlain (c : Char) : Bool :=
  isNamePart c || isBlank c || Mark.all.any fun mark => mark.spelling.toList == [c]

/-- Percent signs and exclamation marks are in the text as parts of marks only. -/
inductive Legible : List Char → Prop where
  | nil : Legible []
  | plain {c : Char} {cs : List Char} (hc : isPlain c = true) (hrest : Legible cs) :
      Legible (c :: cs)
  | testMarker {cs : List Char} (hrest : Legible cs) : Legible ('%' :: '!' :: cs)
  | notEqual {cs : List Char} (hrest : Legible cs) : Legible ('!' :: '=' :: cs)

/-- Look through a text for what is not legible. -/
def isLegible : List Char → Bool
  | [] => true
  | '%' :: '!' :: cs => isLegible cs
  | '!' :: '=' :: cs => isLegible cs
  | c :: cs => isPlain c && isLegible cs

theorem isLegible_iff (cs : List Char) : isLegible cs = true ↔ Legible cs := by
  constructor
  · intro h
    fun_induction isLegible cs with
    | case1 => exact .nil
    | case2 cs ih => exact .testMarker (ih h)
    | case3 cs ih => exact .notEqual (ih h)
    | case4 c cs _ _ ih =>
      rw [Bool.and_eq_true] at h
      exact .plain h.1 (ih h.2)
  · intro h
    induction h with
    | nil => rfl
    | @plain c cs hc _ ih =>
      -- the two branches for marks begin with characters that are not plain
      have hne : isPlain '%' = false ∧ isPlain '!' = false := by decide
      rw [isLegible, hc, ih]
      · rfl
      · rintro cs rfl
        simp [hne.1] at hc
      · rintro cs rfl
        simp [hne.2] at hc
    | testMarker _ ih => exact ih
    | notEqual _ ih => exact ih

instance (cs : List Char) : Decidable (Legible cs) := decidable_of_iff _ (isLegible_iff cs)

namespace Legible

theorem append {cs ds : List Char} (hcs : Legible cs) (hds : Legible ds) : Legible (cs ++ ds) := by
  induction hcs with
  | nil => exact hds
  | plain hc _ ih => exact .plain hc ih
  | testMarker _ ih => exact .testMarker ih
  | notEqual _ ih => exact .notEqual ih

theorem of_forall {cs : List Char} (h : ∀ c ∈ cs, isPlain c = true) : Legible cs := by
  induction cs with
  | nil => exact .nil
  | cons c cs ih =>
    rw [List.forall_mem_cons] at h
    exact .plain h.1 (ih h.2)

/-- What follows a stretch without percent signs and exclamation marks is legible. -/
theorem of_append {cs ds : List Char} (h : Legible (cs ++ ds))
    (hcs : ∀ c ∈ cs, c ≠ '%' ∧ c ≠ '!') : Legible ds := by
  induction cs with
  | nil => exact h
  | cons c cs ih =>
    rw [List.forall_mem_cons] at hcs
    rw [List.cons_append] at h
    generalize heq : cs ++ ds = rest at h
    cases h with
    | plain _ hrest => exact ih (heq ▸ hrest) hcs.2
    | testMarker => exact absurd rfl hcs.1.1
    | notEqual => exact absurd rfl hcs.1.2

end Legible

/-! ## §2 Plain characters -/

theorem ne_of_isPlain {c : Char} (h : isPlain c = true) : c ≠ '%' ∧ c ≠ '!' := by
  constructor <;> rintro rfl <;> revert h <;> decide

/-- A plain character is matched on its own. -/
theorem someMatches_of_isPlain {c : Char} (h : isPlain c = true) : SomeMatches Rule.all [c] := by
  rw [Rule.someMatches_all_iff]
  simp only [isPlain, isNamePart, Bool.or_eq_true, List.any_eq_true, beq_iff_eq] at h
  obtain ((hc | hc) | hc) | ⟨mark, -, hc⟩ := h
  · have hident : Rule.ident.Matches [c] :=
      (Rule.matches_ident_iff _).2 ⟨c, [], rfl, hc, by simp⟩
    simp [hident]
  · simp [Rule.matches_digits_iff, hc]
  · simp [Rule.matches_blanks_iff, hc]
  · exact .inr (.inl ⟨mark, hc.symm⟩)

/-- The rules of all but comments and the marks `%!` and `!=` avoid percent signs and exclamation
marks. -/
theorem Rule.avoids_percent : ∀ entry ∈ Rule.all,
    (entry.2.avoids '%' = true ∧ entry.2.avoids '!' = true) ∨
      entry.1 = .token (.mark .testMarker) ∨ entry.1 = .token (.mark .notEqual) ∨
      entry.1 = .skip := by
  decide

/-- A match that begins with a plain character holds neither percent signs nor exclamation marks. -/
theorem ne_of_someMatches {c : Char} {w : List Char} (hc : isPlain c = true)
    (h : SomeMatches Rule.all (c :: w)) : ∀ d ∈ c :: w, d ≠ '%' ∧ d ≠ '!' := by
  have hne := ne_of_isPlain hc
  have havoids {p : Pattern} (hp : p.Matches (c :: w))
      (h : p.avoids '%' = true ∧ p.avoids '!' = true) : ∀ d ∈ c :: w, d ≠ '%' ∧ d ≠ '!' :=
    fun d hd => ⟨fun heq => Pattern.not_mem_of_avoids h.1 hp (heq ▸ hd),
      fun heq => Pattern.not_mem_of_avoids h.2 hp (heq ▸ hd)⟩
  have hmark {mark : Mark} {p : Pattern} (hp : p.Matches (c :: w))
      (hentry : (Rule.token (.mark mark), p) ∈ Rule.all) : mark.spelling.toList = c :: w :=
    denotes_of_mem_all hentry hp
  obtain ⟨⟨rule, p⟩, hentry, hp⟩ := h
  obtain h | rfl | rfl | rfl := Rule.avoids_percent _ hentry
  · exact havoids hp h
  · exact absurd (List.cons.inj (hmark hp hentry)).1.symm hne.1
  · exact absurd (List.cons.inj (hmark hp hentry)).1.symm hne.2
  · have hpattern : p = Rule.blanks ∨ p = Rule.comment := by simpa [Rule.all] using hentry
    rcases hpattern with rfl | rfl
    · exact havoids hp (by decide)
    -- a comment begins with a percent sign
    · obtain ⟨v, heq, -⟩ := Rule.exists_of_matches_comment hp
      exact absurd (List.cons.inj heq).1 hne.1

/-! ## §3 The lexemes of legible texts -/

/-- A mark of two characters is taken wherever it stands. -/
theorem matchRule?_mark {mark : Mark} {c d : Char} (h : mark.spelling.toList = [c, d])
    (cs : List Char) : matchRule? (c :: d :: cs) = some (.token (.mark mark), 1) := by
  have hstop : Stops [c, d] cs := by
    cases cs with
    | nil => exact stops_nil _
    | cons e cs =>
      -- no mark is longer than two characters
      have hgrows : mark.growsWith e = false := by
        rw [Mark.growsWith, List.any_eq_false]
        intro longer _ hprefix
        have hlength := (List.isPrefixOf_iff_prefix.1 hprefix).length_le
        rw [h] at hlength
        cases longer <;> simp [Mark.spelling] at hlength
      exact h ▸ stops_of_mark hgrows cs
  have hlexeme := isLexeme_mark mark
  rw [h] at hlexeme
  exact hlexeme.matchRule? hstop

theorem matchRule?_testMarker (cs : List Char) :
    matchRule? ('%' :: '!' :: cs) = some (.token (.mark .testMarker), 1) :=
  matchRule?_mark rfl cs

theorem matchRule?_notEqual (cs : List Char) :
    matchRule? ('!' :: '=' :: cs) = some (.token (.mark .notEqual), 1) :=
  matchRule?_mark rfl cs

namespace Legible

variable {c : Char} {cs : List Char}

/-- At the beginning of a legible text some rule matches. -/
theorem matchRule?_ne_none (h : Legible (c :: cs)) : matchRule? (c :: cs) ≠ none := by
  intro hnone
  cases h with
  | plain hc =>
    exact not_someMatches_of_matchRule?_eq_none hnone (List.cons_ne_nil c [])
      (List.prefix_append [c] cs) (someMatches_of_isPlain hc)
  | testMarker => simp [matchRule?_testMarker] at hnone
  | notEqual => simp [matchRule?_notEqual] at hnone

/-- What follows the first match of a legible text is legible. -/
theorem drop_of_matchRule? {rule : Rule} {n : Nat} (h : Legible (c :: cs))
    (hmatch : matchRule? (c :: cs) = some (rule, n)) : Legible (cs.drop n) := by
  cases h with
  | plain hc hrest =>
    -- such a match ends in front of the next percent sign or exclamation mark, not behind it
    have hlongest := (matchRule?_eq_some_iff ..).1 hmatch
    have htake := ne_of_someMatches hc (Pattern.isLongest_of_longest?_eq_some hlongest).2.1
    have hwhole : Legible ((c :: cs.take n) ++ cs.drop n) := by
      rw [List.cons_append, List.take_append_drop]
      exact .plain hc hrest
    exact hwhole.of_append htake
  | testMarker hrest =>
    rw [matchRule?_testMarker] at hmatch
    obtain ⟨-, rfl⟩ := Prod.mk.inj (Option.some.inj hmatch)
    exact hrest
  | notEqual hrest =>
    rw [matchRule?_notEqual] at hmatch
    obtain ⟨-, rfl⟩ := Prod.mk.inj (Option.some.inj hmatch)
    exact hrest

/-- What is skipped at the beginning of a legible text is blank. -/
theorem isBlank_of_skip {n : Nat} (h : Legible (c :: cs))
    (hmatch : matchRule? (c :: cs) = some (.skip, n)) : ∀ d ∈ c :: cs.take n, isBlank d = true := by
  cases h with
  | plain hc =>
    obtain ⟨p, hmem, hp⟩ := exists_matches_of_matchRule? hmatch
    have hpattern : p = Rule.blanks ∨ p = Rule.comment := by simpa [Rule.all] using hmem
    rcases hpattern with rfl | rfl
    · exact ((Rule.matches_blanks_iff _).1 hp).2
    · obtain ⟨v, heq, -⟩ := Rule.exists_of_matches_comment hp
      exact absurd (List.cons.inj heq).1 (ne_of_isPlain hc).1
  | testMarker => simp [matchRule?_testMarker] at hmatch
  | notEqual => simp [matchRule?_notEqual] at hmatch

end Legible

/-- Nothing of a legible text is skipped but blank characters, and nothing of it is an error. -/
theorem Lexes.of_legible {cs : List Char} {lexemes : List Lexeme} (h : Lexes cs lexemes)
    (hcs : Legible cs) :
    (∀ lexeme ∈ lexemes, lexeme.kind ≠ .error) ∧
      lexemes.flatMap Lexeme.chars = cs.filter (!isBlank ·) := by
  -- a match and the rest are parts of the text, whatever is done with the match
  have hparts (c : Char) (cs : List Char) (n : Nat) : (c :: cs).filter (!isBlank ·) =
      (c :: cs.take n).filter (!isBlank ·) ++ (cs.drop n).filter (!isBlank ·) := by
    rw [← List.filter_append, List.cons_append, List.take_append_drop]
  induction h with
  | nil => simp
  | @skip c cs n lexemes hmatch _ ih =>
    obtain ⟨hkinds, hchars⟩ := ih (hcs.drop_of_matchRule? hmatch)
    have hnone : (c :: cs.take n).filter (!isBlank ·) = [] := by
      simpa [List.filter_eq_nil_iff] using hcs.isBlank_of_skip hmatch
    exact ⟨hkinds, by rw [hchars, hparts c cs n, hnone, List.nil_append]⟩
  | @token c cs n kind lexemes hmatch _ ih =>
    obtain ⟨hkinds, hchars⟩ := ih (hcs.drop_of_matchRule? hmatch)
    have hall : (c :: cs.take n).filter (!isBlank ·) = c :: cs.take n := by
      simpa [List.filter_eq_self] using isBlank_eq_false_of_matchRule? hmatch
    have hkind : kind ≠ .error := by
      rintro rfl
      obtain ⟨p, hmem, hp⟩ := exists_matches_of_matchRule? hmatch
      exact denotes_of_mem_all hmem hp
    exact ⟨List.forall_mem_cons.2 ⟨hkind, hkinds⟩, by
      rw [List.flatMap_cons, hchars, hparts c cs n, hall]⟩
  | error hmatch => exact absurd hmatch hcs.matchRule?_ne_none

end TensorTree
