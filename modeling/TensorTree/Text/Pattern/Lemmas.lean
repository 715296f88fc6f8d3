import TensorTree.Text.Pattern

/-!
# Residuals and longest matches

A residual denotes what may follow the character that was read (`matches_residual_iff`), so the
match that `longest?` finds is denoted by a pattern of the list, and no pattern of the list denotes
a longer beginning of the text (`isLongest_of_longest?_eq_some`).
-/

namespace TensorTree

namespace Pattern

/-! ## §1 What composite patterns denote -/

@[simp] theorem not_matches_nothing (w : List Char) : ¬ Matches .nothing w := nofun

@[simp] theorem matches_empty_iff (w : List Char) : Matches .empty w ↔ w = [] := by
  constructor
  · intro h
    cases h
    rfl
  · rintro rfl
    exact .empty

theorem matches_one_iff (accepts : Char → Bool) (w : List Char) :
    Matches (.one accepts) w ↔ ∃ c, accepts c = true ∧ w = [c] := by
  constructor
  · intro h
    cases h with
    | one hc => exact ⟨_, hc, rfl⟩
  · rintro ⟨c, hc, rfl⟩
    exact .one hc

theorem matches_seq_iff (p q : Pattern) (w : List Char) :
    Matches (.seq p q) w ↔ ∃ u v, w = u ++ v ∧ p.Matches u ∧ q.Matches v := by
  constructor
  · intro h
    cases h with
    | seq hp hq => exact ⟨_, _, rfl, hp, hq⟩
  · rintro ⟨u, v, rfl, hp, hq⟩
    exact .seq hp hq

@[simp] theorem matches_alt_iff (p q : Pattern) (w : List Char) :
    Matches (.alt p q) w ↔ p.Matches w ∨ q.Matches w := by
  constructor
  · intro h
    cases h with
    | altLeft hp => exact .inl hp
    | altRight hq => exact .inr hq
  · rintro (hp | hq)
    · exact .altLeft hp
    · exact .altRight hq

/-- A repetition that is not empty begins with a text of the body that is not empty. -/
theorem matches_many_cons_iff (p : Pattern) (c : Char) (w : List Char) :
    Matches (.many p) (c :: w) ↔
      ∃ u v, w = u ++ v ∧ p.Matches (c :: u) ∧ Matches (.many p) v := by
  constructor
  · intro h
    generalize hr : Pattern.many p = r at h
    generalize hx : c :: w = x at h
    induction h with
    | manyNil => cases hx
    | @manyCons p' u v hu hv _ ih =>
      cases hr
      cases u with
      | nil => exact ih rfl hx
      | cons d u =>
        cases hx
        exact ⟨u, v, rfl, hu, hv⟩
    | _ => cases hr
  · rintro ⟨u, v, rfl, hu, hv⟩
    exact .manyCons hu hv

/-! ## §2 Residuals -/

theorem nullable_iff (p : Pattern) : p.nullable = true ↔ p.Matches [] := by
  induction p with
  | nothing => simp [nullable]
  | empty => simp [nullable]
  | one accepts => simp [nullable, matches_one_iff]
  | seq p q hp hq =>
    simp only [nullable, Bool.and_eq_true, hp, hq, matches_seq_iff]
    constructor
    · rintro ⟨hu, hv⟩
      exact ⟨[], [], rfl, hu, hv⟩
    · rintro ⟨u, v, h, hu, hv⟩
      obtain ⟨rfl, rfl⟩ := List.append_eq_nil_iff.1 h.symm
      exact ⟨hu, hv⟩
  | alt p q hp hq => simp [nullable, hp, hq]
  | many p => simpa [nullable] using Matches.manyNil

theorem matches_andThen_iff (p q : Pattern) (w : List Char) :
    (p.andThen q).Matches w ↔ ∃ u v, w = u ++ v ∧ p.Matches u ∧ q.Matches v := by
  cases p with
  | nothing => simp [andThen]
  | empty =>
    simp only [andThen, matches_empty_iff]
    constructor
    · intro h
      exact ⟨[], w, rfl, rfl, h⟩
    · rintro ⟨u, v, rfl, rfl, h⟩
      exact h
  | _ => exact matches_seq_iff _ q w

theorem matches_orElse_iff (p q : Pattern) (w : List Char) :
    (p.orElse q).Matches w ↔ p.Matches w ∨ q.Matches w := by
  cases p <;> cases q <;> simp [orElse]

/-- A residual denotes what may follow the character that was read. -/
theorem matches_residual_iff (p : Pattern) (c : Char) (w : List Char) :
    (p.residual c).Matches w ↔ p.Matches (c :: w) := by
  induction p generalizing w with
  | nothing => simp [residual]
  | empty => simp [residual]
  | one accepts =>
    by_cases hc : accepts c = true
    · simp only [residual, hc, if_true, matches_empty_iff, matches_one_iff]
      constructor
      · rintro rfl
        exact ⟨c, hc, rfl⟩
      · rintro ⟨d, _, h⟩
        exact (List.cons.inj h).2
    · simp only [residual, hc, Bool.false_eq_true, if_false, matches_one_iff]
      constructor
      · nofun
      · rintro ⟨d, hd, h⟩
        rw [(List.cons.inj h).1] at hc
        exact absurd hd hc
  | seq p q hp hq =>
    have first : ((p.residual c).andThen q).Matches w ↔
        ∃ u v, w = u ++ v ∧ p.Matches (c :: u) ∧ q.Matches v := by
      simp only [matches_andThen_iff, hp]
    have split : Matches (.seq p q) (c :: w) ↔
        (∃ u v, w = u ++ v ∧ p.Matches (c :: u) ∧ q.Matches v) ∨
          (p.Matches [] ∧ q.Matches (c :: w)) := by
      rw [matches_seq_iff]
      constructor
      · rintro ⟨u, v, h, hu, hv⟩
        cases u with
        | nil => exact .inr ⟨hu, h ▸ hv⟩
        | cons d u =>
          cases h
          exact .inl ⟨u, v, rfl, hu, hv⟩
      · rintro (⟨u, v, rfl, hu, hv⟩ | ⟨hu, hv⟩)
        · exact ⟨c :: u, v, rfl, hu, hv⟩
        · exact ⟨[], c :: w, rfl, hu, hv⟩
    by_cases hn : p.nullable = true
    · simp only [residual, hn, if_true, matches_orElse_iff, first, split, hq,
        (nullable_iff p).1 hn, true_and]
    · have hnil : ¬ p.Matches [] := fun h => hn ((nullable_iff p).2 h)
      simp only [residual, hn, Bool.false_eq_true, if_false, first, split, hnil, false_and,
        or_false]
  | alt p q hp hq => simp [residual, matches_orElse_iff, hp, hq]
  | many p hp => simp only [residual, matches_andThen_iff, hp, matches_many_cons_iff]

/-! ## §3 Longest matches -/

variable {α : Type}

/-- Some pattern of the list denotes the text. -/
def SomeMatches (live : List (α × Pattern)) (w : List Char) : Prop :=
  ∃ entry ∈ live, entry.2.Matches w

theorem someMatches_step_iff (live : List (α × Pattern)) (c : Char) (w : List Char) :
    SomeMatches (step live c) w ↔ SomeMatches live (c :: w) := by
  simp only [SomeMatches, step, List.mem_filter, List.mem_map]
  constructor
  · rintro ⟨_, ⟨⟨entry, hmem, rfl⟩, _⟩, h⟩
    exact ⟨entry, hmem, (matches_residual_iff _ _ _).1 h⟩
  · rintro ⟨entry, hmem, h⟩
    have hr := (matches_residual_iff entry.2 c w).2 h
    refine ⟨_, ⟨⟨entry, hmem, rfl⟩, ?_⟩, hr⟩
    cases hp : entry.2.residual c <;> simp_all [isNothing]

theorem accepted?_isSome_iff (live : List (α × Pattern)) :
    (accepted? live).isSome = true ↔ SomeMatches live [] := by
  simp [accepted?, SomeMatches, ← nullable_iff, List.find?_isSome]

theorem accepted?_eq_none_iff (live : List (α × Pattern)) :
    accepted? live = none ↔ ¬ SomeMatches live [] := by
  rw [← accepted?_isSome_iff, Bool.not_eq_true, Option.isSome_eq_false_iff,
    Option.isNone_iff_eq_none]

theorem not_someMatches_nil (w : List Char) : ¬ SomeMatches ([] : List (α × Pattern)) w := by
  simp [SomeMatches]

/-- A longer beginning of a text is matched exactly if what follows its first character is matched
by what is still alive. -/
theorem someMatches_take_succ_iff (live : List (α × Pattern)) (c : Char) (cs : List Char)
    (m : Nat) :
    SomeMatches live ((c :: cs).take (m + 1)) ↔ SomeMatches (step live c) (cs.take m) := by
  rw [List.take_succ_cons, someMatches_step_iff]

/-- Nothing is found only if no pattern denotes a beginning of the text. -/
theorem not_someMatches_of_longest?_eq_none {live : List (α × Pattern)} {cs : List Char}
    (h : longest? live cs = none) (m : Nat) : ¬ SomeMatches live (cs.take m) := by
  induction cs generalizing live m with
  | nil =>
    have hnone : accepted? live = none := by simpa [longest?] using h
    simpa using (accepted?_eq_none_iff live).1 hnone
  | cons c cs ih =>
    simp only [longest?] at h
    have hnil : accepted? live = none ∧ ∀ k, ¬ SomeMatches (step live c) (cs.take k) := by
      split at h
      next hstep =>
        refine ⟨by simpa using h, fun k => ?_⟩
        rw [hstep]
        exact not_someMatches_nil _
      next entry entries hstep =>
        split at h
        next => cases h
        next hrest =>
          refine ⟨by simpa using h, fun k => ?_⟩
          rw [hstep]
          exact ih hrest k
    cases m with
    | zero =>
      simpa using (accepted?_eq_none_iff live).1 hnil.1
    | succ m =>
      rw [someMatches_take_succ_iff]
      exact hnil.2 m

/-- The match that is found ends where some pattern denotes the text so far, and no pattern
denotes a longer beginning. -/
theorem isLongest_of_longest?_eq_some {live : List (α × Pattern)} {cs : List Char} {label : α}
    {n : Nat} (h : longest? live cs = some (label, n)) :
    n ≤ cs.length ∧ SomeMatches live (cs.take n) ∧
      ∀ m, n < m → m ≤ cs.length → ¬ SomeMatches live (cs.take m) := by
  induction cs generalizing live n with
  | nil =>
    simp only [longest?, Option.map_eq_some_iff, Prod.mk.injEq] at h
    obtain ⟨found, hfound, rfl, rfl⟩ := h
    refine ⟨Nat.le_refl _, (accepted?_isSome_iff live).1 (by simp [hfound]), ?_⟩
    intro m hm hle
    exact absurd hle (by simpa using Nat.pos_iff_ne_zero.1 hm)
  | cons c cs ih =>
    have atStart (hfound : (accepted? live).map (fun label => (label, 0)) = some (label, n))
        (hnone : ∀ k, ¬ SomeMatches (step live c) (cs.take k)) :
        n ≤ (c :: cs).length ∧ SomeMatches live ((c :: cs).take n) ∧
          ∀ m, n < m → m ≤ (c :: cs).length → ¬ SomeMatches live ((c :: cs).take m) := by
      simp only [Option.map_eq_some_iff, Prod.mk.injEq] at hfound
      obtain ⟨found, hfound, rfl, rfl⟩ := hfound
      refine ⟨Nat.zero_le _, (accepted?_isSome_iff live).1 (by simp [hfound]), ?_⟩
      intro m hm _
      obtain ⟨k, rfl⟩ := Nat.exists_eq_succ_of_ne_zero (Nat.pos_iff_ne_zero.1 hm)
      rw [Nat.succ_eq_add_one, someMatches_take_succ_iff]
      exact hnone k
    simp only [longest?] at h
    split at h
    next hstep => exact atStart h fun k => hstep ▸ not_someMatches_nil _
    next entry entries hstep =>
      split at h
      next found k hrest =>
        simp only [Option.some.injEq, Prod.mk.injEq] at h
        obtain ⟨rfl, rfl⟩ := h
        obtain ⟨hle, hmatch, hmax⟩ := ih hrest
        rw [← hstep] at hmatch hmax
        refine ⟨Nat.succ_le_succ hle, (someMatches_take_succ_iff ..).2 hmatch, ?_⟩
        intro m hm hlen
        obtain ⟨j, rfl⟩ := Nat.exists_eq_succ_of_ne_zero (Nat.ne_zero_of_lt hm)
        rw [Nat.succ_eq_add_one, someMatches_take_succ_iff]
        exact hmax j (Nat.lt_of_succ_lt_succ hm) (Nat.le_of_succ_le_succ hlen)
      next hrest =>
        exact atStart h fun k =>
          hstep ▸ not_someMatches_of_longest?_eq_none hrest k

end Pattern

end TensorTree
