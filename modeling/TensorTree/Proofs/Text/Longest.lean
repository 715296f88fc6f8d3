import TensorTree.Text.Pattern.Lemmas

/-!
# Longest matches inside of longer texts

When a text that is matched as a whole stands in front of another text, the match stays the same
with the same label, unless some pattern of the list reaches into the other text
(`Pattern.longest?_append`).  The label is that of the first pattern that denotes the text
(`Pattern.longest?_of_first`).
-/

namespace TensorTree

namespace Pattern

variable {α : Type} {live : List (α × Pattern)} {label : α}

/-! ## §1 One character after another -/

@[simp] theorem longest?_no_patterns (cs : List Char) :
    longest? ([] : List (α × Pattern)) cs = none := by
  cases cs <;> simp [longest?, accepted?, step]

/-- The longest match of a text is what follows its first character and is matched by what is
still alive, and nothing but the empty match if there is none. -/
theorem longest?_cons (live : List (α × Pattern)) (c : Char) (cs : List Char) :
    longest? live (c :: cs) =
      match longest? (step live c) cs with
      | some (label, n) => some (label, n + 1)
      | none => (accepted? live).map fun label => (label, 0) := by
  rw [longest?]
  cases step live c with
  | nil => simp
  | cons entry entries => rfl

/-- If no pattern denotes a beginning of the text, the empty one apart, the match is empty. -/
theorem longest?_eq_accepted? {cs : List Char}
    (h : ∀ v, v ≠ [] → v <+: cs → ¬ SomeMatches live v) :
    longest? live cs = (accepted? live).map fun label => (label, 0) := by
  cases cs with
  | nil => rfl
  | cons c cs =>
    have hdead : longest? (step live c) cs = none := by
      cases hlongest : longest? (step live c) cs with
      | none => rfl
      | some found =>
        obtain ⟨hle, hmatch, -⟩ := isLongest_of_longest?_eq_some hlongest
        rw [someMatches_step_iff] at hmatch
        refine absurd hmatch (h _ (List.cons_ne_nil c _) ?_)
        exact List.cons_prefix_cons.2 ⟨rfl, List.take_prefix _ _⟩
    rw [longest?_cons, hdead]

/-! ## §2 A match in front of another text -/

/-- The match of a text stays the same in front of a text into which no pattern reaches. -/
theorem longest?_append_eq {w rest : List Char}
    (hstop : ∀ v, v ≠ [] → v <+: rest → ¬ SomeMatches live (w ++ v)) :
    longest? live (w ++ rest) = longest? live w := by
  -- induction on the text that stands in front; the patterns that are alive change with it
  induction w generalizing live with
  | nil =>
    rw [List.nil_append, longest?_eq_accepted? hstop]
    rfl
  | cons c w ih =>
    have hrest : ∀ v, v ≠ [] → v <+: rest → ¬ SomeMatches (step live c) (w ++ v) := by
      intro v hne hv hmatch
      exact hstop v hne hv ((someMatches_step_iff ..).1 hmatch)
    rw [List.cons_append, longest?_cons, longest?_cons, ih hrest]

/-- A text that is matched as a whole is matched in front of any text into which no pattern
reaches. -/
theorem longest?_append {w rest : List Char}
    (h : longest? live w = some (label, w.length))
    (hstop : ∀ v, v ≠ [] → v <+: rest → ¬ SomeMatches live (w ++ v)) :
    longest? live (w ++ rest) = some (label, w.length) :=
  (longest?_append_eq hstop).trans h

/-- The match of a text is the match of its own beginning alone. -/
theorem longest?_take {cs : List Char} {n : Nat} (h : longest? live cs = some (label, n)) :
    longest? live (cs.take n) = some (label, n) := by
  induction cs generalizing live n with
  | nil => simpa using h
  | cons c cs ih =>
    rw [longest?_cons] at h
    cases hstep : longest? (step live c) cs with
    | none =>
      -- only the empty beginning is matched
      obtain ⟨_, haccepted, hpair⟩ := Option.map_eq_some_iff.1 (hstep ▸ h)
      obtain ⟨rfl, rfl⟩ := Prod.mk.inj hpair
      simp [longest?, haccepted]
    | some found =>
      simp only [hstep, Option.some.injEq, Prod.mk.injEq] at h
      obtain ⟨hlabel, rfl⟩ := h
      have hrest := ih (n := found.2) (by rw [hstep, ← hlabel])
      rw [List.take_succ_cons, longest?_cons, hrest]

/-! ## §3 Labels -/

theorem exists_matches_of_accepted? {n : Nat} {cs : List Char}
    (h : (accepted? live).map (fun label => (label, 0)) = some (label, n)) :
    ∃ p, (label, p) ∈ live ∧ p.Matches (cs.take n) := by
  simp only [accepted?, Option.map_eq_some_iff, Prod.mk.injEq] at h
  obtain ⟨_, ⟨⟨found, p⟩, hfind, rfl⟩, rfl, rfl⟩ := h
  have hnullable : p.nullable = true := by simpa using List.find?_some hfind
  exact ⟨p, List.mem_of_find?_eq_some hfind, (nullable_iff p).1 hnullable⟩

theorem exists_of_mem_step {c : Char} {p : Pattern} (h : (label, p) ∈ step live c) :
    ∃ q, (label, q) ∈ live ∧ p = q.residual c := by
  simp only [step, List.mem_filter, List.mem_map, Prod.mk.injEq] at h
  obtain ⟨⟨⟨_, q⟩, hmem, rfl, rfl⟩, -⟩ := h
  exact ⟨q, hmem, rfl⟩

/-- A pattern with the label of the match denotes the text of the match. -/
theorem exists_matches_of_longest? {cs : List Char} {n : Nat}
    (h : longest? live cs = some (label, n)) :
    ∃ p, (label, p) ∈ live ∧ p.Matches (cs.take n) := by
  induction cs generalizing live n with
  | nil => exact exists_matches_of_accepted? h
  | cons c cs ih =>
    rw [longest?_cons] at h
    cases hstep : longest? (step live c) cs with
    | none =>
      rw [hstep] at h
      exact exists_matches_of_accepted? h
    | some found =>
      simp only [hstep, Option.some.injEq, Prod.mk.injEq] at h
      obtain ⟨hlabel, rfl⟩ := h
      obtain ⟨p, hmem, hp⟩ := ih (by rw [hstep, ← hlabel])
      obtain ⟨q, hq, rfl⟩ := exists_of_mem_step hmem
      exact ⟨q, hq, (matches_residual_iff q c _).1 hp⟩

/-- A text that some pattern denotes and no pattern in front of it is matched as a whole, with the
label of that pattern. -/
theorem longest?_of_first {before after : List (α × Pattern)} {p : Pattern} {w : List Char}
    (hbefore : ¬ SomeMatches before w) (hp : p.Matches w) :
    longest? (before ++ (label, p) :: after) w = some (label, w.length) := by
  induction w generalizing before after p with
  | nil =>
    -- no pattern in front accepts the empty text, so the first one that does is `p`
    have hnone : ∀ entry ∈ before, ¬ entry.2.nullable = true := by
      intro entry hentry hnullable
      exact hbefore ⟨entry, hentry, (nullable_iff _).1 hnullable⟩
    have hfind : before.find? (fun entry => entry.2.nullable) = none := by
      simpa [List.find?_eq_none] using hnone
    simp [longest?, accepted?, List.find?_append, hfind, (nullable_iff p).2 hp]
  | cons c w ih =>
    -- what is left of `p` denotes the rest, so it is not dropped
    have hresidual : (p.residual c).Matches w := (matches_residual_iff p c w).2 hp
    have halive : (p.residual c).isNothing = false := by
      cases hcase : p.residual c with
      | nothing =>
        rw [hcase] at hresidual
        cases hresidual
      | _ => rfl
    have hstep : step (before ++ (label, p) :: after) c =
        step before c ++ (label, p.residual c) :: step after c := by
      simp [step, halive]
    have hnone : ¬ SomeMatches (step before c) w := by
      rw [someMatches_step_iff]
      exact hbefore
    rw [longest?_cons, hstep, ih hnone hresidual]
    rfl

end Pattern

end TensorTree
