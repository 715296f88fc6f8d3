import Mathlib.Data.List.Forall2
import TensorTree.Proofs.Token.Cut

/-!
# A scanner that is asked in any order

A scanner can be asked for one token, directly or as for the next element of a sequence, and for
all the tokens that remain.  Whatever is done in whatever order, the scanner is asked for one token
a number of times, and nothing else (`Scanner.Gives`).  So the tokens that were given are the first
ones of the text, the errors are those of the tokens that were given, and once an answer shows the
end there is nothing more to be given (`Scanner.given_of_calls`).
-/

namespace TensorTree

/-! ## §1 Asking for one token -/

/-- A match that is not the end has a lexeme, and it uses up at least one character. -/
theorem findNext_of_ne_eof {n : Nat} {here : Location} {cs : List Char}
    (h : (findNext n here cs).kind ≠ .eof) :
    (findNext n here cs).lexeme ≠ [] ∧ (findNext n here cs).rest.length < cs.length := by
  fun_induction findNext n here cs with
  | case1 => exact absurd rfl h
  | case2 n here c cs ih => exact ⟨(ih h).1, Nat.lt_succ_of_lt (ih h).2⟩
  | case3 here c cs n _ ih => exact ⟨(ih h).1, Nat.lt_succ_of_lt (ih h).2⟩
  | case4 here c cs kind n =>
    refine ⟨List.cons_ne_nil _ _, ?_⟩
    simp only [List.length_drop, List.length_cons]
    omega
  | case5 => exact ⟨List.cons_ne_nil _ _, Nat.lt_succ_self _⟩

namespace Scanner

/-- All that can happen when a scanner is asked for one token. -/
inductive Turn (s : Scanner) : Option Token → Scanner → Prop where
  /-- The end was given before. -/
  | silent (hfinished : s.finished = true) : Turn s none s
  /-- The end is given. -/
  | last {t : Token} {s' : Scanner} (hgoing : s.finished = false) (hkind : t.kind = .eof)
      (hfinished : s'.finished = true) (herrors : s'.errors = s.errors ++ t.error?.toList) :
      Turn s (some t) s'
  /-- A token is given that was written in the text. -/
  | more {t : Token} {s' : Scanner} (hgoing : s.finished = false) (hkind : t.kind ≠ .eof)
      (hlexeme : t.lexeme.toList ≠ []) (hrest : s'.rest.length < s.rest.length)
      (herrors : s'.errors = s.errors ++ t.error?.toList) : Turn s (some t) s'

theorem turn_next (s : Scanner) : s.Turn s.next.1 s.next.2 := by
  cases hgoing : s.finished with
  | true =>
    simp only [next, hgoing, if_true]
    exact .silent hgoing
  | false =>
    simp only [next, hgoing, Bool.false_eq_true, if_false]
    have herrors := (findNext 0 s.here s.rest).error?_token
    by_cases hkind : (findNext 0 s.here s.rest).kind = .eof
    · exact .last hgoing hkind (by simp [hkind]) (by rw [herrors])
    · obtain ⟨hlexeme, hrest⟩ := findNext_of_ne_eof hkind
      have htext : (findNext 0 s.here s.rest).token.lexeme.toList =
          (findNext 0 s.here s.rest).lexeme := String.toList_ofList
      exact .more hgoing hkind (by rwa [htext]) hrest (by rw [herrors])

/-! ## §2 Asking for one token again and again -/

/-- The first scanner gives the tokens when it is asked for one token as often as there are tokens,
and then it is the second scanner. -/
inductive Gives : Scanner → List Token → Scanner → Prop where
  | nil (s : Scanner) : Gives s [] s
  | cons {s s' u : Scanner} {t : Token} {ts : List Token} (hnext : s.next = (some t, s'))
      (hrest : Gives s' ts u) : Gives s (t :: ts) u

theorem gives_next (s : Scanner) : Gives s s.next.1.toList s.next.2 := by
  have hturn := s.turn_next
  generalize hnext : s.next = answer at hturn
  obtain ⟨token, s'⟩ := answer
  cases hturn with
  | silent => exact .nil _
  | last => exact .cons hnext (.nil _)
  | more => exact .cons hnext (.nil _)

namespace Gives

variable {s u v : Scanner} {ts us : List Token}

theorem append (h : Gives s ts u) (hu : Gives u us v) : Gives s (ts ++ us) v := by
  induction h with
  | nil => exact hu
  | cons hnext _ ih => exact .cons hnext (ih hu)

/-- What is given on the way to the end begins with all that can be given. -/
theorem isPrefix (h : Gives s ts u) (hall : Gives s us v) (hfinished : v.finished = true) :
    ts <+: us := by
  induction h generalizing us with
  | nil => exact List.nil_prefix
  | @cons s s' _ t _ hnext _ ih =>
    cases hall with
    | nil =>
      -- a scanner that has given the end gives no other token
      simp [next, hfinished] at hnext
    | cons hnext' hrest' =>
      obtain ⟨ht, rfl⟩ := Prod.mk.inj (hnext.symm.trans hnext')
      obtain rfl := Option.some.inj ht
      exact List.prefix_cons_inj _ |>.2 (ih hrest')

/-- All that is given up to the end is determined. -/
theorem unique (h : Gives s ts u) (hall : Gives s us v) (hu : u.finished = true)
    (hv : v.finished = true) : ts = us :=
  (h.isPrefix hall hv).eq_of_length_le (hall.isPrefix h hu).length_le

/-- The errors are reported together with their tokens. -/
theorem errors_eq (h : Gives s ts u) : u.errors = s.errors ++ ts.filterMap Token.error? := by
  induction h with
  | nil => simp
  | @cons s s' _ t _ hnext _ ih =>
    have hturn := s.turn_next
    rw [hnext] at hturn
    have herrors : s'.errors = s.errors ++ t.error?.toList := by
      cases hturn with
      | last _ _ _ herrors => exact herrors
      | more _ _ _ _ herrors => exact herrors
    rw [ih, herrors]
    cases herror : t.error? <;> simp [herror]

/-- Only the end is no part of the text. -/
theorem lexeme_ne_nil (h : Gives s ts u) : ∀ t ∈ ts, t.kind ≠ .eof → t.lexeme.toList ≠ [] := by
  induction h with
  | nil => simp
  | @cons s _ _ t _ hnext _ ih =>
    refine List.forall_mem_cons.2 ⟨fun hkind => ?_, ih⟩
    have hturn := s.turn_next
    rw [hnext] at hturn
    cases hturn with
    | last _ heof => exact absurd heof hkind
    | more _ _ hlexeme => exact hlexeme

end Gives

theorem gives_take (n : Nat) (s : Scanner) : Gives s (take n s).1 (take n s).2 := by
  induction n generalizing s with
  | zero => exact .nil s
  | succ n ih =>
    simp only [take]
    have hgives := s.gives_next
    generalize s.next = answer at hgives
    obtain ⟨_ | t, s'⟩ := answer
    · exact hgives
    · exact hgives.append (ih s')

/-- More steps than there are characters lead to the end. -/
theorem finished_take {n : Nat} {s : Scanner} (h : s.rest.length < n) :
    (take n s).2.finished = true := by
  induction n generalizing s with
  | zero => exact absurd h (Nat.not_lt_zero _)
  | succ n ih =>
    simp only [take]
    have hturn := s.turn_next
    generalize s.next = answer at hturn
    obtain ⟨token, s'⟩ := answer
    dsimp only at hturn ⊢
    -- a step gives the end, or it uses up a character
    cases hturn with
    | silent hfinished => exact hfinished
    | last _ _ hfinished =>
      simp only [take_of_finished hfinished]
      exact hfinished
    | more _ _ _ hrest => exact ih (Nat.lt_of_lt_of_le hrest (Nat.le_of_lt_succ h))

/-- Asking for all that remains is asking for one token until the end is given. -/
theorem gives_collect (s : Scanner) : Gives s s.collect.1 s.collect.2 := gives_take _ s

theorem finished_collect (s : Scanner) : s.collect.2.finished = true :=
  finished_take (Nat.lt_succ_self _)

/-! ## §3 Calls and answers -/

/-- A way to ask a scanner for tokens. -/
inductive Call where
  /-- Ask for one token. -/
  | next
  /-- Ask for the next element of the sequence of tokens. -/
  | element
  /-- Ask for all the tokens that remain. -/
  | collect
deriving DecidableEq

/-- What a call gives back. -/
inductive Answer where
  | one (token : Option Token)
  | all (tokens : List Token)
deriving DecidableEq

/-- The tokens of an answer. -/
def Answer.tokens : Answer → List Token
  | .one token => token.toList
  | .all tokens => tokens

/-- An answer shows the end if it is the end, if it is no token, or if it is all that remained. -/
def Answer.ShowsEnd : Answer → Prop
  | .one none => True
  | .one (some t) => t.kind = .eof
  | .all _ => True

/-- The answer to a call when there is nothing more to be given. -/
def Call.nothing : Call → Answer
  | .next | .element => .one none
  | .collect => .all []

/-- The answer to a call, and the scanner behind it. -/
def answer (s : Scanner) : Call → Answer × Scanner
  | .next | .element => (.one s.next.1, s.next.2)
  | .collect => (.all s.collect.1, s.collect.2)

/-- The answers to calls one after the other, and the scanner behind them. -/
def answers : Scanner → List Call → List Answer × Scanner
  | s, [] => ([], s)
  | s, call :: calls =>
    ((s.answer call).1 :: (answers (s.answer call).2 calls).1, (answers (s.answer call).2 calls).2)

theorem answers_append (s : Scanner) (calls more : List Call) :
    s.answers (calls ++ more) =
      ((s.answers calls).1 ++ ((s.answers calls).2.answers more).1,
        ((s.answers calls).2.answers more).2) := by
  induction calls generalizing s with
  | nil => rfl
  | cons call calls ih => simp [answers, ih]

theorem gives_answer (s : Scanner) (call : Call) :
    Gives s (s.answer call).1.tokens (s.answer call).2 := by
  cases call with
  | next => exact s.gives_next
  | element => exact s.gives_next
  | collect => exact s.gives_collect

theorem gives_answers (s : Scanner) (calls : List Call) :
    Gives s ((s.answers calls).1.flatMap Answer.tokens) (s.answers calls).2 := by
  induction calls generalizing s with
  | nil => exact .nil s
  | cons call calls ih => exact (s.gives_answer call).append (ih (s.answer call).2)

/-- Behind an answer that shows the end the scanner has given the end. -/
theorem finished_of_showsEnd {s : Scanner} {call : Call} (h : (s.answer call).1.ShowsEnd) :
    (s.answer call).2.finished = true := by
  have hnext (h : (Answer.one s.next.1).ShowsEnd) : s.next.2.finished = true := by
    have hturn := s.turn_next
    generalize s.next = found at hturn h
    obtain ⟨token, s'⟩ := found
    cases hturn with
    | silent hfinished => exact hfinished
    | last _ _ hfinished => exact hfinished
    | more _ hkind => exact absurd h hkind
  cases call with
  | next => exact hnext h
  | element => exact hnext h
  | collect => exact s.finished_collect

theorem answers_of_finished {s : Scanner} (h : s.finished = true) (calls : List Call) :
    s.answers calls = (calls.map Call.nothing, s) := by
  have hnext : s.next = (none, s) := by simp [next, h]
  have hcollect : s.collect = ([], s) := take_of_finished h _
  induction calls with
  | nil => rfl
  | cons call calls ih => cases call <;> simp [answers, answer, hnext, hcollect, ih, Call.nothing]

end Scanner

/-! ## §4 What was given and reported so far -/

/-- The token is an error. -/
def Token.isError (t : Token) : Bool := t.kind == .error

/-- An error tells where a token stands and with which character it begins. -/
structure Token.Reports (t : Token) (e : ScanError) : Prop where
  span : e.span = t.span
  found : t.lexeme.toList.head? = some e.found

/-- Tokens that are errors report one error each. -/
theorem forall₂_reports {ts : List Token} (h : ∀ t ∈ ts, t.kind ≠ .eof → t.lexeme.toList ≠ []) :
    List.Forall₂ Token.Reports (ts.filter Token.isError) (ts.filterMap Token.error?) := by
  induction ts with
  | nil => exact .nil
  | cons t ts ih =>
    rw [List.forall_mem_cons] at h
    by_cases hkind : t.kind = .error
    · obtain ⟨c, w, hlexeme⟩ := List.exists_cons_of_ne_nil (h.1 (by simp [hkind]))
      have herror : t.error? = some ⟨c, t.span⟩ := by simp [Token.error?, hkind, hlexeme]
      rw [List.filter_cons_of_pos (by simp [Token.isError, hkind]),
        List.filterMap_cons_some herror]
      exact .cons ⟨rfl, by rw [hlexeme]; rfl⟩ (ih h.2)
    · rw [List.filter_cons_of_neg (by simp [Token.isError, hkind]),
        List.filterMap_cons_none (Token.error?_eq_none hkind)]
      exact ih h.2

namespace Scanner

/-- The answers to calls at a new scanner of a text. -/
def given (text : String) (calls : List Call) : List Answer := ((ofText text).answers calls).1

/-- The scanner of a text behind calls. -/
def reached (text : String) (calls : List Call) : Scanner := ((ofText text).answers calls).2

/-- However a scanner is asked, it gives the tokens of the text from the first one on, and its
errors are those of the tokens that it gave.  As soon as an answer shows the end, all tokens were
given, and whatever is asked then gives nothing. -/
theorem given_of_calls (text : String) (calls : List Call) :
    (given text calls).flatMap Answer.tokens <+: (tokenize text).1 ∧
      List.Forall₂ Token.Reports
        (((given text calls).flatMap Answer.tokens).filter Token.isError)
        (reached text calls).errors ∧
      ∀ call later, ((reached text calls).answer call).1.ShowsEnd →
        (given text (calls ++ call :: later)).flatMap Answer.tokens = (tokenize text).1 ∧
          given text (calls ++ call :: later) =
            given text calls ++ ((reached text calls).answer call).1 :: later.map Call.nothing := by
  have hgives := (ofText text).gives_answers
  have hall : Gives (ofText text) (tokenize text).1 (ofText text).collect.2 :=
    (ofText text).gives_collect
  have hfinished : (ofText text).collect.2.finished = true := finished_collect _
  refine ⟨(hgives calls).isPrefix hall hfinished, ?_, fun call later hshows => ?_⟩
  · rw [show (reached text calls).errors = _ from (hgives calls).errors_eq]
    exact forall₂_reports (hgives calls).lexeme_ne_nil
  · have hend := finished_of_showsEnd hshows
    have hanswers : (ofText text).answers (calls ++ call :: later) =
        (given text calls ++ ((reached text calls).answer call).1 :: later.map Call.nothing,
          ((reached text calls).answer call).2) := by
      simp only [reached] at hend
      simp only [answers_append, answers, answers_of_finished hend, given, reached]
    refine ⟨(hgives _).unique hall ?_ hfinished, congrArg Prod.fst hanswers⟩
    rw [hanswers]
    exact hend

/-- All that remains is given once, and an error is reported with its token. -/
example :
    given "a #" [.next, .collect, .element] =
        [.one (some ⟨.ident, ⟨⟨1, 1⟩, ⟨1, 1⟩⟩, "a"⟩),
          .all [⟨.error, ⟨⟨1, 3⟩, ⟨1, 3⟩⟩, "#"⟩, ⟨.eof, ⟨⟨1, 4⟩, ⟨1, 4⟩⟩, ""⟩], .one none] ∧
      (reached "a #" [.next]).errors = [] ∧
      (reached "a #" [.next, .collect]).errors = [⟨'#', ⟨⟨1, 3⟩, ⟨1, 3⟩⟩⟩] := by
  decide

end Scanner

end TensorTree
