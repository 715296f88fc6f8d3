import TensorTree.Proofs.Expr.Spacing
import TensorTree.Proofs.Stmt.Fields
import TensorTree.Proofs.Text.Separators

/-!
# Lines of statements

Each statement is printed on lines of a few forms (`Line`).  A line can be read back: the word in
front tells its form, and its fields hold the texts of names, types and expressions
(`Line.read_text`).  An expression at the beginning of a line is not mistaken for such a word
(`Leads`).
-/

namespace TensorTree

/-! ## §1 Words in front of lines -/

/-- The words that lines of statements begin with, unless they begin with an expression. -/
inductive Lead where
  | binding (kind : BindingKind)
  | whileWord | doWord | endWord
  | branch (branch : Branch)
  | elseWord | forWord | printWord
deriving DecidableEq

namespace Lead

def word : Lead → String
  | binding kind => kind.word
  | whileWord => "while"
  | doWord => "do"
  | endWord => "end"
  | branch b => b.word
  | elseWord => "else"
  | forWord => "for"
  | printWord => "print"

def all : List Lead :=
  [.binding .variable, .binding .constant, .whileWord, .doWord, .endWord, .branch .opening,
   .branch .continuing, .elseWord, .forWord, .printWord]

end Lead

/-- The word in front of a line. -/
def lead? (cs : List Char) : Option Lead :=
  Lead.all.find? fun lead => lead.word.toList == cs.takeWhile isNamePart

theorem takeWhile_append_of_endsName (cs : List Char) {ds : List Char} (h : EndsName ds) :
    (cs ++ ds).takeWhile isNamePart = cs.takeWhile isNamePart := by
  induction cs with
  | nil =>
    cases ds with
    | nil => rfl
    | cons d ds => simp [h d rfl]
  | cons c cs ih =>
    rw [List.cons_append, List.takeWhile_cons, List.takeWhile_cons, ih]

theorem takeWhile_of_isNamePart {cs : List Char} (h : ∀ c ∈ cs, isNamePart c = true) :
    cs.takeWhile isNamePart = cs := by
  induction cs with
  | nil => rfl
  | cons c cs ih =>
    rw [List.forall_mem_cons] at h
    rw [List.takeWhile_cons, if_pos h.1, ih h.2]

theorem lead?_append (cs : List Char) {ds : List Char} (h : EndsName ds) :
    lead? (cs ++ ds) = lead? cs := by
  unfold lead?
  rw [takeWhile_append_of_endsName cs h]

@[simp] theorem lead?_word (lead : Lead) {ds : List Char} (h : EndsName ds) :
    lead? (lead.word.toList ++ ds) = some lead := by
  rw [lead?_append _ h]
  cases lead with
  | binding kind => cases kind <;> decide
  | branch b => cases b <;> decide
  | whileWord | doWord | endWord | elseWord | forWord | printWord => decide

/-- The text can stand at the beginning of a line and is not taken for a word that lines begin
with. -/
structure Leads (cs : List Char) : Prop where
  visible : Visible cs
  lead : lead? cs = none

theorem Leads.append {cs : List Char} (h : Leads cs) {ds : List Char} (hds : EndsName ds) :
    Leads (cs ++ ds) :=
  ⟨h.visible.append ds, (lead?_append cs hds).trans h.lead⟩

/-! ## §2 Lines -/

/-- What a loop runs over. -/
inductive Domain where
  | set (name : String)
  | range (lower upper : String)
deriving DecidableEq

/-- A line of a statement, with the texts of names, types and expressions. -/
inductive Line where
  | binding (kind : BindingKind) (name type : String) (value : Option String)
  /-- The head of a loop that tests its condition in front of the body. -/
  | whileHead (cond : String)
  | doHead
  /-- The end of a loop that tests its condition behind the body. -/
  | doEnd (cond : String)
  /-- The end of any other statement with a body. -/
  | blockEnd
  | branch (branch : Branch) (cond : String)
  | otherwise
  | forHead (var : String) (domain : Domain)
  | print (value : String)
  | expr (value : String)
  | assign (target : String) (targets : List String) (value : String)
deriving DecidableEq

/-- The text of what a loop runs over. -/
def Domain.text : Domain → List Char
  | set name => name.toList
  | range lower upper => lower.toList ++ ':' :: upper.toList

/-- The texts in it stay in their fields. -/
def Domain.Fits : Domain → Prop
  | set name => Phrase false name.toList
  | range lower upper => Phrase false lower.toList ∧ Phrase false upper.toList

namespace Line

/-- The text behind the type of a binding. -/
def valueText : Option String → List Char
  | none => [';']
  | some value => ' ' :: '=' :: ' ' :: (value.toList ++ [';'])

/-- All targets of an assignment but the first one. -/
def targetsText (targets : List String) : List Char :=
  targets.flatMap fun target => ',' :: ' ' :: target.toList

/-- A word, a space and what follows. -/
def ahead (word : String) (cs : List Char) : List Char := word.toList ++ ' ' :: cs

/-- The text of a line, without the spaces in front of it. -/
def text : Line → List Char
  | binding kind name type value =>
    ahead kind.word (name.toList ++ ' ' :: ':' :: ' ' :: (type.toList ++ valueText value))
  | whileHead cond => ahead "while" cond.toList
  | doHead => "do".toList
  | doEnd cond => ahead "end" (ahead "while" cond.toList)
  | blockEnd => "end".toList
  | branch b cond => ahead b.word cond.toList
  | otherwise => "else".toList
  | forHead var domain => ahead "for" (var.toList ++ ' ' :: ahead "in" domain.text)
  | print value => ahead "print" (value.toList ++ [';'])
  | expr value => value.toList ++ [';']
  | assign target targets value => target.toList ++ (targetsText targets ++ valueText (some value))

/-- The texts on a line stay in their fields, and an expression that the line begins with is not
taken for a word. -/
def Fits : Line → Prop
  | binding _ name type value =>
    Phrase false name.toList ∧ Phrase false type.toList ∧
      ∀ text ∈ value, Phrase false text.toList
  | whileHead cond | doEnd cond | branch _ cond => Phrase false cond.toList
  | doHead | blockEnd | otherwise => True
  | forHead var domain => (∀ c ∈ var.toList, isNamePart c = true) ∧ domain.Fits
  | print value => Phrase false value.toList
  | expr value => Phrase false value.toList ∧ Leads value.toList
  | assign target targets value =>
    (Phrase false target.toList ∧ Leads target.toList) ∧
      (∀ other ∈ targets, Phrase false other.toList) ∧ Phrase false value.toList

/-! ## §3 Reading lines -/

/-- What follows a word and a space. -/
def behind (word : String) (cs : List Char) : List Char := cs.drop (word.length + 1)

def readBinding (kind : BindingKind) (cs : List Char) : Option Line :=
  match fields 0 cs with
  | ⟨name, [(':', type), (';', [])]⟩ =>
    some (binding kind (.ofList name.dropLast) (.ofList (type.drop 1)) none)
  | ⟨name, [(':', type), ('=', value), (';', [])]⟩ =>
    some (binding kind (.ofList name.dropLast) (.ofList (type.drop 1)) (some (.ofList value)))
  | _ => none

def readDomain (cs : List Char) : Option Domain :=
  match fields 0 cs with
  | ⟨name, []⟩ => some (.set (.ofList name))
  | ⟨lower, [(':', upper)]⟩ => some (.range (.ofList lower) (.ofList upper))
  | _ => none

def readFor (cs : List Char) : Option Line :=
  (readDomain (behind "in" ((cs.dropWhile isNamePart).drop 1))).map
    (forHead (.ofList (cs.takeWhile isNamePart)))

/-- Read the fields behind the first target of an assignment. -/
def readTargets : List (Char × List Char) → Option (List String × String)
  | [('=', value), (';', [])] => some ([], .ofList value)
  | (',', target) :: more =>
    (readTargets more).map fun (targets, value) => (.ofList (target.drop 1) :: targets, value)
  | _ => none

/-- Read a line that begins with an expression. -/
def readOther (cs : List Char) : Option Line :=
  match fields 0 cs with
  | ⟨value, [(';', [])]⟩ => some (expr (.ofList value))
  | ⟨target, more⟩ =>
    (readTargets more).map fun (targets, value) => assign (.ofList target) targets value

/-- Read a line: the word in front tells what follows. -/
def read (cs : List Char) : Option Line :=
  match lead? cs with
  | some (.binding kind) => readBinding kind (behind kind.word cs)
  | some .whileWord => some (whileHead (.ofList (behind "while" cs)))
  | some .doWord => some doHead
  | some .endWord =>
    -- only a condition behind a body is announced by two words
    some (if cs = "end".toList then blockEnd
      else doEnd (.ofList (behind "while" (behind "end" cs))))
  | some (.branch b) => some (branch b (.ofList (behind b.word cs)))
  | some .elseWord => some otherwise
  | some .forWord => readFor (behind "for" cs)
  | some .printWord => some (print (.ofList (behind "print" cs).dropLast))
  | none => readOther cs

@[simp] theorem behind_ahead (word : String) (cs : List Char) :
    behind word (ahead word cs) = cs := by
  rw [behind, ahead, ← String.length_toList, ← List.drop_drop, List.drop_left]
  rfl

/-! ### Fields -/

theorem head?_valueText (value : Option String) : (valueText value).head? ≠ some '=' := by
  cases value <;> simp [valueText]

theorem fields_valueText {value : Option String} (h : ∀ text ∈ value, Phrase false text.toList) :
    fields 0 (valueText value) =
      ⟨[], (value.map fun text => ('=', text.toList)).toList ++ [(';', [])]⟩ := by
  have hend : fields 0 [';'] = ⟨[], [(';', [])]⟩ := by rfl
  cases value with
  | none => exact hend
  | some text =>
    rw [valueText, fields_equals, (h text rfl).fields_eq (by simp), hend]
    simp [Fields.push, Fields.divide]

theorem head?_targetsText_append (targets : List String) {rest : List Char}
    (h : rest.head? ≠ some '=') : (targetsText targets ++ rest).head? ≠ some '=' := by
  cases targets with
  | nil => exact h
  | cons target targets => simp [targetsText]

theorem fields_targetsText {targets : List String} (h : ∀ t ∈ targets, Phrase false t.toList)
    {rest : List Char} (hrest : rest.head? ≠ some '=') {more : List (Char × List Char)}
    (hmore : fields 0 rest = ⟨[], more⟩) :
    fields 0 (targetsText targets ++ rest) =
      ⟨[], targets.map (fun target => (',', ' ' :: target.toList)) ++ more⟩ := by
  induction targets with
  | nil => exact hmore
  | cons target targets ih =>
    rw [List.forall_mem_cons] at h
    have hspaced : Phrase false (' ' :: target.toList) := .cons (by decide) h.1
    have hnext := hspaced.fields_eq (head?_targetsText_append targets hrest)
    rw [ih h.2] at hnext
    rw [targetsText, List.flatMap_cons, List.append_assoc, List.cons_append,
      fields_divider (by decide)]
    show (fields 0 (' ' :: target.toList ++ (targetsText targets ++ rest))).divide ',' = _
    rw [hnext]
    simp [Fields.push, Fields.divide]

theorem readTargets_append (targets : List String) (value : String) :
    readTargets (targets.map (fun target => (',', ' ' :: target.toList)) ++
      [('=', value.toList), (';', [])]) = some (targets, value) := by
  induction targets with
  | nil => simp [readTargets]
  | cons target targets ih => simp [readTargets, ih]

/-! ### Reading what was written -/

theorem readBinding_text (kind : BindingKind) {name type : String} {value : Option String}
    (hname : Phrase false name.toList) (htype : Phrase false type.toList)
    (hvalue : ∀ text ∈ value, Phrase false text.toList) :
    readBinding kind (name.toList ++ ' ' :: ':' :: ' ' :: (type.toList ++ valueText value)) =
      some (binding kind name type value) := by
  -- the spaces around the colon belong to the fields on both sides of it
  have hspaced : Phrase false (name.toList ++ [' ']) := hname.append (.of_all (by decide))
  have hbehind : Phrase false (' ' :: type.toList) := .cons (by decide) htype
  have hshape : name.toList ++ ' ' :: ':' :: ' ' :: (type.toList ++ valueText value) =
      (name.toList ++ [' ']) ++ ':' :: ((' ' :: type.toList) ++ valueText value) := by simp
  have hfields : fields 0 (name.toList ++ ' ' :: ':' :: ' ' :: (type.toList ++ valueText value)) =
      ⟨name.toList ++ [' '], (':', ' ' :: type.toList) ::
        ((value.map fun text => ('=', text.toList)).toList ++ [(';', [])])⟩ := by
    rw [hshape, hspaced.fields_eq (by simp), fields_divider (by decide),
      hbehind.fields_eq (head?_valueText value), fields_valueText hvalue]
    simp [Fields.push, Fields.divide]
  unfold readBinding
  rw [hfields]
  cases value <;> simp

theorem readDomain_text {domain : Domain} (h : domain.Fits) :
    readDomain domain.text = some domain := by
  cases domain with
  | set name =>
    have hfields : fields 0 name.toList = ⟨name.toList, []⟩ := Phrase.fields_self h
    rw [readDomain, Domain.text, hfields]
    simp
  | range lower upper =>
    have hfields : fields 0 (lower.toList ++ ':' :: upper.toList) =
        ⟨lower.toList, [(':', upper.toList)]⟩ := by
      rw [h.1.fields_eq (by simp), fields_divider (by decide), h.2.fields_self]
      simp [Fields.push, Fields.divide]
    rw [readDomain, Domain.text, hfields]
    simp

theorem readFor_text {var : String} {domain : Domain} (hvar : ∀ c ∈ var.toList, isNamePart c = true)
    (hdomain : domain.Fits) :
    readFor (var.toList ++ ' ' :: ahead "in" domain.text) = some (forHead var domain) := by
  have htake : (var.toList ++ ' ' :: ahead "in" domain.text).takeWhile isNamePart = var.toList := by
    rw [takeWhile_append_of_endsName _ (endsName_cons (by decide) _),
      takeWhile_of_isNamePart hvar]
  have hdrop : (var.toList ++ ' ' :: ahead "in" domain.text).dropWhile isNamePart =
      ' ' :: ahead "in" domain.text := by
    rw [List.dropWhile_append_of_pos hvar]
    rfl
  rw [readFor, htake, hdrop, List.drop_one, List.tail_cons, behind_ahead, readDomain_text hdomain]
  simp

theorem readOther_expr {value : String} (h : Phrase false value.toList) :
    readOther (value.toList ++ [';']) = some (expr value) := by
  have hfields : fields 0 (value.toList ++ [';']) = ⟨value.toList, [(';', [])]⟩ := by
    rw [h.fields_eq (by simp), fields_divider (by decide)]
    simp [fields, Fields.push, Fields.divide]
  rw [readOther, hfields]
  simp

theorem readOther_assign {target value : String} {targets : List String}
    (htarget : Phrase false target.toList) (htargets : ∀ t ∈ targets, Phrase false t.toList)
    (hvalue : Phrase false value.toList) :
    readOther (target.toList ++ (targetsText targets ++ valueText (some value))) =
      some (assign target targets value) := by
  have hhead := head?_valueText (some value)
  have hmore : fields 0 (valueText (some value)) = ⟨[], [('=', value.toList), (';', [])]⟩ := by
    rw [fields_valueText (by simpa using hvalue)]
    rfl
  have hfields : fields 0 (target.toList ++ (targetsText targets ++ valueText (some value))) =
      ⟨target.toList, targets.map (fun target => (',', ' ' :: target.toList)) ++
        [('=', value.toList), (';', [])]⟩ := by
    rw [htarget.fields_eq (head?_targetsText_append targets hhead),
      fields_targetsText htargets hhead hmore]
    simp [Fields.push]
  have hread := readTargets_append targets value
  unfold readOther
  rw [hfields]
  -- there are at least two fields behind the first one, so this is no mere expression
  cases targets with
  | nil => simpa using hread
  | cons other targets => simpa using hread

/-- A line whose texts fit can be read back. -/
theorem read_text {l : Line} (h : l.Fits) : read l.text = some l := by
  have hword (lead : Lead) (rest : List Char) : lead? (ahead lead.word rest) = some lead :=
    lead?_word lead (endsName_cons (by decide) rest)
  cases l with
  | binding kind name type value =>
    have hlead : lead? (text (binding kind name type value)) = some (.binding kind) :=
      hword (.binding kind) _
    rw [read, hlead]
    show readBinding kind (behind kind.word _) = _
    rw [text, behind_ahead, readBinding_text kind h.1 h.2.1 h.2.2]
  | whileHead cond =>
    have hlead : lead? (text (whileHead cond)) = some .whileWord := hword .whileWord _
    have hcond : behind "while" (text (whileHead cond)) = cond.toList := behind_ahead "while" _
    simp [read, hlead, hcond]
  | doHead => rfl
  | doEnd cond =>
    have hlead : lead? (text (doEnd cond)) = some .endWord := hword .endWord _
    have hcond : behind "while" (behind "end" (text (doEnd cond))) = cond.toList := by
      rw [text, behind_ahead, behind_ahead]
    -- something follows the word
    have hne : text (doEnd cond) ≠ "end".toList := by simp [text, ahead]
    rw [read, hlead]
    simp only [if_neg hne, hcond, String.ofList_toList]
  | blockEnd => rfl
  | branch b cond =>
    have hlead : lead? (text (branch b cond)) = some (.branch b) := hword (.branch b) _
    have hcond : behind b.word (text (branch b cond)) = cond.toList := behind_ahead b.word _
    simp [read, hlead, hcond]
  | otherwise => rfl
  | forHead var domain =>
    have hlead : lead? (text (forHead var domain)) = some .forWord := hword .forWord _
    rw [read, hlead]
    show readFor (behind "for" _) = _
    rw [text, behind_ahead, readFor_text h.1 h.2]
  | print value =>
    have hlead : lead? (text (print value)) = some .printWord := hword .printWord _
    have hvalue : behind "print" (text (print value)) = value.toList ++ [';'] :=
      behind_ahead "print" _
    simp [read, hlead, hvalue]
  | expr value =>
    have hlead : lead? (text (expr value)) = none :=
      (h.2.append (endsName_cons (by decide) _)).lead
    rw [read, hlead]
    exact readOther_expr h.1
  | assign target targets value =>
    have hends : EndsName (targetsText targets ++ valueText (some value)) := by
      cases targets <;> simp [EndsName, targetsText, valueText] <;> decide
    have hlead : lead? (text (assign target targets value)) = none := (h.1.2.append hends).lead
    rw [read, hlead]
    exact readOther_assign h.1.1 h.2.1 h.2.2

/-! ## §4 Lines one below the other -/

theorem visible_text {l : Line} (h : l.Fits) : Visible l.text := by
  cases l with
  | binding kind => cases kind <;> exact ⟨_, _, rfl, by decide⟩
  | branch b => cases b <;> exact ⟨_, _, rfl, by decide⟩
  | expr value => exact h.2.visible.append [';']
  | assign target targets value => exact h.1.2.visible.append _
  | whileHead | doHead | doEnd | blockEnd | otherwise | forHead | print =>
    exact ⟨_, _, rfl, by decide⟩

theorem newline_not_mem_text {l : Line} (h : l.Fits) : '\n' ∉ l.text := by
  have hvalue (value : Option String) (h : ∀ text ∈ value, Phrase false text.toList) :
      '\n' ∉ valueText value := by
    cases value with
    | none => simp [valueText]
    | some text => simpa [valueText] using (h text rfl).newline
  cases l with
  | binding kind name type value =>
    have hkind : '\n' ∉ kind.word.toList := by cases kind <;> decide
    simp [text, ahead, hkind, h.1.newline, h.2.1.newline, hvalue value h.2.2]
  | branch b cond =>
    have hword : '\n' ∉ b.word.toList := by cases b <;> decide
    have hcond : '\n' ∉ cond.toList := Phrase.newline h
    simp [text, ahead, hword, hcond]
  | whileHead cond | doEnd cond | print cond =>
    have hcond : '\n' ∉ cond.toList := Phrase.newline h
    simp [text, ahead, hcond]
  | doHead | blockEnd | otherwise => decide
  | forHead var domain =>
    have hvar : '\n' ∉ var.toList := fun hmem => Bool.noConfusion (h.1 '\n' hmem)
    cases domain with
    | set name =>
      have hname : '\n' ∉ name.toList := Phrase.newline h.2
      simp [text, ahead, Domain.text, hvar, hname]
    | range lower upper => simp [text, ahead, Domain.text, hvar, h.2.1.newline, h.2.2.newline]
  | expr value => simp [text, h.1.newline]
  | assign target targets value =>
    have htargets : '\n' ∉ targetsText targets := by
      simpa [targetsText] using fun target hmem => (h.2.1 target hmem).newline
    simp [text, h.1.1.newline, htargets, hvalue (some value) (by simpa using h.2.2)]

end Line

/-- The text consists of the lines, each behind some spaces. -/
inductive Indented : List Line → List Char → Prop where
  | nil : Indented [] []
  | cons {l : Line} {lines : List Line} {rest : List Char} (n : Nat) (below : Indented lines rest) :
      Indented (l :: lines) (List.replicate n ' ' ++ (l.text ++ '\n' :: rest))

theorem Visible.dropWhile_spaces {cs : List Char} (h : Visible cs) (n : Nat) :
    (List.replicate n ' ' ++ cs).dropWhile (· == ' ') = cs := by
  obtain ⟨c, rest, rfl, hc⟩ := h
  rw [List.dropWhile_append_of_pos (by simp), List.dropWhile_cons_of_neg]
  simpa using fun heq : c = ' ' => by simp [heq, isBlank] at hc

namespace Indented

variable {lines others : List Line} {cs ds : List Char}

theorem append (h : Indented lines cs) (h' : Indented others ds) :
    Indented (lines ++ others) (cs ++ ds) := by
  induction h with
  | nil => exact h'
  | @cons l lines rest n _ ih => simpa using Indented.cons (l := l) n ih

/-- A text consists of fitting lines in only one way, however far these are indented. -/
theorem unique (h : Indented lines cs) (h' : Indented others cs) (hfits : ∀ l ∈ lines, l.Fits)
    (hfits' : ∀ l ∈ others, l.Fits) : lines = others := by
  induction h generalizing others with
  | nil =>
    generalize hcs : [] = cs at h'
    cases h' with
    | nil => rfl
    | cons => simp at hcs
  | @cons l lines rest n _ ih =>
    generalize hcs : List.replicate n ' ' ++ (l.text ++ '\n' :: rest) = cs at h'
    cases h' with
    | nil => simp at hcs
    | @cons m others rest' n' below =>
      rw [List.forall_mem_cons] at hfits hfits'
      have hnewline {l : Line} (hl : l.Fits) (n : Nat) : '\n' ∉ List.replicate n ' ' ++ l.text := by
        simp [Line.newline_not_mem_text hl, List.mem_replicate]
      rw [← List.append_assoc, ← List.append_assoc] at hcs
      obtain ⟨hfirst, rfl⟩ :=
        eq_of_append_cons_eq (hnewline hfits.1 n) (hnewline hfits'.1 n') hcs
      -- both are what is left of the line without the spaces, and that can be read
      have htext : l.text = m.text := by
        rw [← (Line.visible_text hfits.1).dropWhile_spaces n, hfirst,
          (Line.visible_text hfits'.1).dropWhile_spaces n']
      have hread := Line.read_text hfits.1
      rw [htext, Line.read_text hfits'.1] at hread
      rw [Option.some.inj hread, ih below hfits.2 hfits'.2]

end Indented

end TensorTree
