import Mathlib.Data.Set.Card
import TensorTree.Ledger

/-!
# The ledger as a log

A ledger is filled by calls, one after the other.  They work in place, so a call that fails could
leave behind what it did before it failed; none does (`TypeLedger.putAll_eq`).  Whatever is called,
the ledger then holds what was passed before it was sealed, and everything that can be asked of it
agrees with that (`TypeLedger.logOf_serveAll`).
-/

namespace TensorTree

namespace TypeLedger

variable {τ : Type}

/-! ## §1 Entries -/

/-- The types of the first entry with a number. -/
def typesAt (id : NodeId) (entries : List (NodeId × List τ)) : List τ :=
  match entries.find? fun entry => entry.1 == id with
  | some (_, types) => types
  | none => []

theorem types_eq_typesAt (l : TypeLedger τ) (expr : Ref .expr) :
    l.types expr = typesAt expr.node l.entries := rfl

theorem typesAt_cons (id other : NodeId) (types : List τ) (entries : List (NodeId × List τ)) :
    typesAt id ((other, types) :: entries) = if other = id then types else typesAt id entries := by
  by_cases h : other = id <;> simp [typesAt, h]

theorem typesAt_append (id expr : NodeId) (type : τ) (entries : List (NodeId × List τ)) :
    typesAt id (append expr type entries) =
      typesAt id entries ++ if expr = id then [type] else [] := by
  induction entries with
  | nil => rw [append, typesAt_cons]; rfl
  | cons entry entries ih =>
    obtain ⟨other, types⟩ := entry
    simp only [append]
    -- the entry of the expression takes the type, and any other entry is passed by
    by_cases hexpr : other = expr
    · subst hexpr
      simp only [if_true, typesAt_cons]
      split <;> simp
    · simp only [hexpr, if_false, typesAt_cons, ih]
      by_cases hid : other = id
      · have : expr ≠ id := fun h => hexpr (hid.trans h.symm)
        simp [hid, this]
      · simp [hid]

/-- An expression has at most one entry, and every entry has a type. -/
structure Proper (entries : List (NodeId × List τ)) : Prop where
  nodup : (entries.map Prod.fst).Nodup
  nonempty : ∀ entry ∈ entries, entry.2 ≠ []

theorem proper_nil : Proper ([] : List (NodeId × List τ)) := ⟨List.nodup_nil, by simp⟩

theorem Proper.tail {entry : NodeId × List τ} {entries : List (NodeId × List τ)}
    (h : Proper (entry :: entries)) : Proper entries :=
  ⟨(List.nodup_cons.1 h.nodup).2, fun other hmem => h.nonempty other (List.mem_cons_of_mem _ hmem)⟩

/-- The entries are the expressions with types, and these types. -/
theorem Proper.mem_iff {entries : List (NodeId × List τ)} (h : Proper entries) (id : NodeId)
    (types : List τ) : (id, types) ∈ entries ↔ types = typesAt id entries ∧ types ≠ [] := by
  induction entries with
  | nil => simp [typesAt]
  | cons entry entries ih =>
    obtain ⟨other, first⟩ := entry
    have hfirst : first ≠ [] := h.nonempty (other, first) List.mem_cons_self
    have hother : other ∉ entries.map Prod.fst := (List.nodup_cons.1 h.nodup).1
    rw [List.mem_cons, Prod.mk.injEq, typesAt_cons]
    by_cases hid : other = id
    · subst hid
      -- the number has no second entry behind the first one
      have hrest : (other, types) ∉ entries := fun hmem => hother (List.mem_map_of_mem hmem)
      simp only [true_and, hrest, or_false, if_true]
      exact ⟨fun htypes => ⟨htypes, htypes ▸ hfirst⟩, And.left⟩
    · simp only [Ne.symm hid, false_and, false_or, hid, if_false]
      exact ih h.tail

theorem mem_map_fst_append (id expr : NodeId) (type : τ) (entries : List (NodeId × List τ)) :
    id ∈ (append expr type entries).map Prod.fst ↔ id = expr ∨ id ∈ entries.map Prod.fst := by
  induction entries with
  | nil => simp [append]
  | cons entry entries ih =>
    obtain ⟨other, types⟩ := entry
    simp only [append]
    by_cases hexpr : other = expr
    · simp [hexpr]
    · rw [if_neg hexpr, List.map_cons, List.mem_cons, ih, List.map_cons, List.mem_cons]
      exact or_left_comm

theorem Proper.append {entries : List (NodeId × List τ)} (h : Proper entries) (expr : NodeId)
    (type : τ) : Proper (append expr type entries) := by
  induction entries with
  | nil => exact ⟨List.nodup_singleton _, by simp [TypeLedger.append]⟩
  | cons entry entries ih =>
    obtain ⟨other, types⟩ := entry
    have htail := ih h.tail
    simp only [TypeLedger.append]
    by_cases hexpr : other = expr
    · rw [if_pos hexpr]
      exact ⟨h.nodup, List.forall_mem_cons.2 ⟨by simp, h.tail.nonempty⟩⟩
    · rw [if_neg hexpr]
      have hother : other ∉ (TypeLedger.append expr type entries).map Prod.fst := by
        rw [mem_map_fst_append]
        exact not_or.2 ⟨hexpr, (List.nodup_cons.1 h.nodup).1⟩
      exact ⟨List.nodup_cons.2 ⟨hother, htail.nodup⟩,
        List.forall_mem_cons.2 ⟨h.nonempty _ List.mem_cons_self, htail.nonempty⟩⟩

/-! ## §2 Calls in place -/

/-- A call of a ledger that can change it. -/
inductive Call (τ : Type) where
  /-- Record one type for an expression. -/
  | record (expr : Ref .expr) (type : τ)
  /-- Record several types for an expression, in order. -/
  | recordAll (expr : Ref .expr) (types : List τ)
  /-- Take no further types. -/
  | close

/-- The types that a call passes for an expression. -/
def Call.passed (expr : Ref .expr) : Call τ → List τ
  | .record other type => if other = expr then [type] else []
  | .recordAll other types => if other = expr then types else []
  | .close => []

def Call.isClose : Call τ → Bool
  | .close => true
  | .record .. | .recordAll .. => false

theorem any_isClose_iff (calls : List (Call τ)) :
    calls.any Call.isClose = true ↔ .close ∈ calls := by
  rw [List.any_eq_true]
  constructor
  · rintro ⟨call, hmem, hclose⟩
    cases call with
    | close => exact hmem
    | record => cases hclose
    | recordAll => cases hclose
  · exact fun hmem => ⟨.close, hmem, rfl⟩

/-- The calls made before the ledger is sealed for the first time. -/
def beforeClose (calls : List (Call τ)) : List (Call τ) := calls.takeWhile fun call => !call.isClose

/-- Take over a changed ledger, if there is one. -/
def takeOver (l : TypeLedger τ) :
    Except SealedError (TypeLedger τ) → Except SealedError Unit × TypeLedger τ
  | .ok l' => (.ok (), l')
  | .error e => (.error e, l)

/-- Record one type in place. -/
def put (l : TypeLedger τ) (expr : Ref .expr) (type : τ) :
    Except SealedError Unit × TypeLedger τ :=
  l.takeOver (l.record expr type)

/-- Record several types in place, one after the other, up to the first one that is refused. -/
def putAll (l : TypeLedger τ) (expr : Ref .expr) :
    List τ → Except SealedError Unit × TypeLedger τ
  | [] => (.ok (), l)
  | type :: types =>
    match l.put expr type with
    | (.ok _, l') => l'.putAll expr types
    | (.error e, l') => (.error e, l')

/-- The answer to a call, and the ledger behind it. -/
def serve (l : TypeLedger τ) : Call τ → Except SealedError Unit × TypeLedger τ
  | .record expr type => l.put expr type
  | .recordAll expr types => l.putAll expr types
  | .close => (.ok (), l.close)

/-- The ledger behind calls made one after the other. -/
def serveAll (l : TypeLedger τ) (calls : List (Call τ)) : TypeLedger τ :=
  calls.foldl (fun l call => (l.serve call).2) l

/-! ### A sealed ledger -/

section Sealed

variable {l : TypeLedger τ} (hsealed : l.isSealed = true)
include hsealed

theorem record_of_sealed (expr : Ref .expr) (type : τ) :
    l.record expr type = .error ⟨expr.node⟩ := by
  simp [record, hsealed]

theorem put_of_sealed (expr : Ref .expr) (type : τ) :
    l.put expr type = (.error ⟨expr.node⟩, l) := by
  rw [put, record_of_sealed hsealed, takeOver]

theorem putAll_cons_of_sealed (expr : Ref .expr) (type : τ) (types : List τ) :
    l.putAll expr (type :: types) = (.error ⟨expr.node⟩, l) := by
  rw [putAll, put_of_sealed hsealed]

theorem serve_of_sealed (call : Call τ) : (l.serve call).2 = l := by
  cases call with
  | record expr type => exact congrArg Prod.snd (put_of_sealed hsealed expr type)
  | recordAll expr types =>
    cases types with
    | nil => rfl
    | cons type types => exact congrArg Prod.snd (putAll_cons_of_sealed hsealed expr type types)
  | close =>
    obtain ⟨entries, _⟩ := l
    obtain rfl : _ = true := hsealed
    rfl

theorem serveAll_of_sealed (calls : List (Call τ)) : l.serveAll calls = l := by
  induction calls with
  | nil => rfl
  | cons call calls ih => rwa [serveAll, List.foldl_cons, serve_of_sealed hsealed]

end Sealed

/-! ### An open ledger -/

/-- The ledger with types added behind those of an expression. -/
def addTypes (l : TypeLedger τ) (expr : Ref .expr) (types : List τ) : TypeLedger τ :=
  { l with entries := types.foldl (fun entries type => append expr.node type entries) l.entries }

section Open

variable {l : TypeLedger τ} (hopen : l.isSealed = false)
include hopen

theorem record_of_open (expr : Ref .expr) (type : τ) :
    l.record expr type = .ok (l.addTypes expr [type]) := by
  simp [record, hopen, addTypes]

theorem recordAll_of_open (expr : Ref .expr) (types : List τ) :
    l.recordAll expr types = .ok (l.addTypes expr types) := by
  induction types generalizing l with
  | nil => rfl
  | cons type types ih =>
    rw [recordAll, record_of_open hopen]
    exact ih (l := l.addTypes expr [type]) hopen

theorem put_of_open (expr : Ref .expr) (type : τ) :
    l.put expr type = (.ok (), l.addTypes expr [type]) := by
  rw [put, record_of_open hopen, takeOver]

theorem putAll_of_open (expr : Ref .expr) (types : List τ) :
    l.putAll expr types = (.ok (), l.addTypes expr types) := by
  induction types generalizing l with
  | nil => rfl
  | cons type types ih =>
    rw [putAll, put_of_open hopen]
    exact ih (l := l.addTypes expr [type]) hopen

end Open

/-- A call that records several types in place records all of them or none. -/
theorem putAll_eq (l : TypeLedger τ) (expr : Ref .expr) (types : List τ) :
    l.putAll expr types = l.takeOver (l.recordAll expr types) := by
  -- only the first type can be refused: recording leaves an open ledger open
  cases hsealed : l.isSealed with
  | false => rw [putAll_of_open hsealed, recordAll_of_open hsealed, takeOver]
  | true =>
    cases types with
    | nil => rfl
    | cons type types =>
      rw [putAll_cons_of_sealed hsealed, recordAll, record_of_sealed hsealed, takeOver]

/-! ## §3 What calls leave behind -/

theorem types_addTypes (l : TypeLedger τ) (expr other : Ref .expr) (types : List τ) :
    (l.addTypes expr types).types other =
      l.types other ++ (Call.recordAll expr types).passed other := by
  rw [types_eq_typesAt, types_eq_typesAt, addTypes, Call.passed]
  generalize l.entries = entries
  induction types generalizing entries with
  | nil => simp
  | cons type types ih =>
    rw [List.foldl_cons, ih, typesAt_append, List.append_assoc]
    by_cases h : expr = other
    · simp [h]
    · have hnode : expr.node ≠ other.node := fun hnode => h (congrArg Ref.mk hnode)
      simp [h, hnode]

theorem proper_addTypes {l : TypeLedger τ} (h : Proper l.entries) (expr : Ref .expr)
    (types : List τ) : Proper (l.addTypes expr types).entries := by
  rw [addTypes]
  generalize l.entries = entries at h
  induction types generalizing entries with
  | nil => exact h
  | cons type types ih => exact ih _ (h.append expr.node type)

/-- All that a call does to an open ledger: its types are added, or it is sealed. -/
inductive Effect (l : TypeLedger τ) : Call τ → TypeLedger τ → Prop where
  | record (expr : Ref .expr) (type : τ) : Effect l (.record expr type) (l.addTypes expr [type])
  | recordAll (expr : Ref .expr) (types : List τ) :
      Effect l (.recordAll expr types) (l.addTypes expr types)
  | close : Effect l .close l.close

theorem serve_of_open {l : TypeLedger τ} (hopen : l.isSealed = false) (call : Call τ) :
    ∃ l', l.serve call = (.ok (), l') ∧ Effect l call l' := by
  cases call with
  | record expr type => exact ⟨_, put_of_open hopen expr type, .record expr type⟩
  | recordAll expr types => exact ⟨_, putAll_of_open hopen expr types, .recordAll expr types⟩
  | close => exact ⟨_, rfl, .close⟩

namespace Effect

variable {l l' : TypeLedger τ} {call : Call τ}

theorem types_eq (h : Effect l call l') (expr : Ref .expr) :
    l'.types expr = l.types expr ++ call.passed expr := by
  cases h with
  | record other type => exact l.types_addTypes other expr [type]
  | recordAll other types => exact l.types_addTypes other expr types
  | close => exact (List.append_nil _).symm

theorem isSealed_eq (h : Effect l call l') (hopen : l.isSealed = false) :
    l'.isSealed = call.isClose := by
  cases h with
  | record => exact hopen
  | recordAll => exact hopen
  | close => rfl

theorem proper (h : Effect l call l') (hproper : Proper l.entries) : Proper l'.entries := by
  cases h with
  | record expr type => exact proper_addTypes hproper expr [type]
  | recordAll expr types => exact proper_addTypes hproper expr types
  | close => exact hproper

end Effect

theorem proper_serveAll {l : TypeLedger τ} (h : Proper l.entries) (calls : List (Call τ)) :
    Proper (l.serveAll calls).entries := by
  induction calls generalizing l with
  | nil => exact h
  | cons call calls ih =>
    refine ih (l := (l.serve call).2) ?_
    cases hsealed : l.isSealed with
    | true => rwa [serve_of_sealed hsealed]
    | false =>
      obtain ⟨l', hserve, heffect⟩ := serve_of_open hsealed call
      rw [hserve]
      exact heffect.proper h

/-- An open ledger takes what is passed up to the call that seals it. -/
theorem serveAll_of_open {l : TypeLedger τ} (hopen : l.isSealed = false) (calls : List (Call τ)) :
    (l.serveAll calls).isSealed = calls.any Call.isClose ∧
      ∀ expr, (l.serveAll calls).types expr =
        l.types expr ++ (beforeClose calls).flatMap (Call.passed expr) := by
  induction calls generalizing l with
  | nil => exact ⟨hopen, fun expr => (List.append_nil _).symm⟩
  | cons call calls ih =>
    obtain ⟨l', hserve, heffect⟩ := serve_of_open hopen call
    have hstep : l.serveAll (call :: calls) = l'.serveAll calls := by
      rw [serveAll, List.foldl_cons, hserve, serveAll]
    have hsealed' := heffect.isSealed_eq hopen
    rw [hstep]
    cases hclose : call.isClose with
    | true =>
      -- behind the call that seals the ledger nothing is taken
      have hnothing : beforeClose (call :: calls) = [] := by simp [beforeClose, hclose]
      rw [serveAll_of_sealed (hsealed'.trans hclose), hnothing]
      refine ⟨by simp [hsealed', hclose], fun expr => ?_⟩
      cases heffect with
      | close => exact (List.append_nil _).symm
      | record => cases hclose
      | recordAll => cases hclose
    | false =>
      have hcons : beforeClose (call :: calls) = call :: beforeClose calls := by
        simp [beforeClose, hclose]
      obtain ⟨hany, htypes⟩ := ih (hsealed'.trans hclose)
      refine ⟨by simp [hany, hclose], fun expr => ?_⟩
      rw [htypes expr, heffect.types_eq expr, hcons, List.flatMap_cons, List.append_assoc]

/-! ## §4 The ledger as a log -/

theorem perm_sorted (l : TypeLedger τ) : l.sorted.Perm l.entries := List.mergeSort_perm _ _

theorem isRecorded_iff (l : TypeLedger τ) (expr : Ref .expr) :
    l.isRecorded expr = true ↔ l.types expr ≠ [] := by
  unfold isRecorded types
  cases l.entries.find? fun entry => entry.1 == expr.node with
  | none => simp
  | some entry => simp

/-- As many expressions have types as there are entries. -/
theorem encard_types_ne_nil {l : TypeLedger τ} (h : Proper l.entries) :
    {expr : Ref .expr | l.types expr ≠ []}.encard = l.size := by
  classical
  have hnodup : (l.entries.map fun entry => (⟨entry.1⟩ : Ref .expr)).Nodup := by
    have := h.nodup.map (f := fun id => (⟨id⟩ : Ref .expr)) fun a b hab => (Ref.mk.inj hab)
    rwa [List.map_map] at this
  have hset : {expr : Ref .expr | l.types expr ≠ []} =
      (l.entries.map fun entry => (⟨entry.1⟩ : Ref .expr)).toFinset := by
    ext expr
    simp only [Set.mem_ofPred_eq, List.coe_toFinset, List.mem_map]
    constructor
    · intro hne
      exact ⟨(expr.node, l.types expr), (h.mem_iff ..).2 ⟨rfl, hne⟩, rfl⟩
    · rintro ⟨⟨id, types⟩, hmem, rfl⟩
      obtain ⟨rfl, hne⟩ := (h.mem_iff ..).1 hmem
      exact hne
  rw [hset, Set.encard_coe_eq_coe_finsetCard, List.toFinset_card_of_nodup hnodup, List.length_map,
    size]

/-- The sorted entries are the expressions with types, each with these types. -/
theorem mem_sorted_iff {l : TypeLedger τ} (h : Proper l.entries) (expr : Ref .expr)
    (types : List τ) : (expr.node, types) ∈ l.sorted ↔ types = l.types expr ∧ types ≠ [] := by
  rw [l.perm_sorted.mem_iff, h.mem_iff, types_eq_typesAt]

theorem mem_map_fst_sorted_iff {l : TypeLedger τ} (h : Proper l.entries) (expr : Ref .expr) :
    expr.node ∈ l.sorted.map Prod.fst ↔ l.types expr ≠ [] := by
  rw [List.mem_map]
  constructor
  · rintro ⟨⟨id, types⟩, hmem, rfl⟩
    obtain ⟨rfl, hne⟩ := (mem_sorted_iff h expr types).1 hmem
    exact hne
  · intro hne
    exact ⟨(expr.node, l.types expr), (mem_sorted_iff h ..).2 ⟨rfl, hne⟩, rfl⟩

/-- A call fails in a sealed ledger only, and only if it passes a type; the error names the
expression of the call. -/
theorem putAll_error_iff (l : TypeLedger τ) (expr : Ref .expr) (types : List τ) (e : SealedError) :
    (l.putAll expr types).1 = .error e ↔ l.isSealed = true ∧ types ≠ [] ∧ e = ⟨expr.node⟩ := by
  cases hsealed : l.isSealed with
  | false => simp [putAll_of_open hsealed]
  | true =>
    cases types with
    | nil => simp [putAll]
    | cons type types => simp [putAll_cons_of_sealed hsealed, eq_comm]

theorem put_error_iff (l : TypeLedger τ) (expr : Ref .expr) (type : τ) (e : SealedError) :
    (l.put expr type).1 = .error e ↔ l.isSealed = true ∧ e = ⟨expr.node⟩ := by
  cases hsealed : l.isSealed with
  | false => simp [put_of_open hsealed]
  | true => simp [put_of_sealed hsealed, eq_comm]

/-- A call that fails leaves the ledger as it is. -/
theorem serve_of_error {l : TypeLedger τ} {call : Call τ} {e : SealedError}
    (h : (l.serve call).1 = .error e) : (l.serve call).2 = l := by
  cases hsealed : l.isSealed with
  | true => exact serve_of_sealed hsealed call
  | false =>
    obtain ⟨l', hserve, -⟩ := serve_of_open hsealed call
    rw [hserve] at h
    cases h

/-- The ledger is the log of those of the calls that did not fail. -/
structure LogOf (calls : List (Call τ)) (l : TypeLedger τ) : Prop where
  /-- The types of an expression are those passed for it before the ledger was sealed. -/
  types_eq : ∀ expr, l.types expr = (beforeClose calls).flatMap (Call.passed expr)
  isSealed_iff : l.isSealed = true ↔ .close ∈ calls
  /-- A sealed ledger stays as it is. -/
  settled : l.isSealed = true → ∀ later, l.serveAll later = l
  record_error_iff : ∀ expr type e,
    (l.serve (.record expr type)).1 = .error e ↔ l.isSealed = true ∧ e = ⟨expr.node⟩
  recordAll_error_iff : ∀ expr types e,
    (l.serve (.recordAll expr types)).1 = .error e ↔
      l.isSealed = true ∧ types ≠ [] ∧ e = ⟨expr.node⟩
  /-- A call that fails changes nothing. -/
  unchanged : ∀ call e, (l.serve call).1 = .error e → (l.serve call).2 = l
  /-- Several types are recorded together. -/
  recordAll_eq : ∀ expr types,
    l.serve (.recordAll expr types) = l.takeOver (l.recordAll expr types)
  /-- The size is the number of expressions that have types. -/
  size_eq : {expr : Ref .expr | l.types expr ≠ []}.encard = l.size
  isRecorded_iff : ∀ expr, l.isRecorded expr = true ↔ l.types expr ≠ []
  isRecorded_iff_mem : ∀ expr, l.isRecorded expr = true ↔ expr.node ∈ l.sorted.map Prod.fst
  /-- The sorted entries are the expressions with types, each once and with these types. -/
  mem_sorted_iff : ∀ expr types,
    (expr.node, types) ∈ l.sorted ↔ types = l.types expr ∧ types ≠ []
  nodup_sorted : (l.sorted.map Prod.fst).Nodup

/-- A ledger that was empty at first is the log of all the calls that were made. -/
theorem logOf_serveAll (calls : List (Call τ)) : LogOf calls (empty.serveAll calls) := by
  obtain ⟨hsealed, htypes⟩ := serveAll_of_open (l := empty) rfl calls
  have hproper := proper_serveAll (l := empty) proper_nil calls
  generalize empty.serveAll calls = l at hsealed htypes hproper
  exact {
    types_eq := htypes
    isSealed_iff := by rw [hsealed, any_isClose_iff]
    settled := fun h later => serveAll_of_sealed h later
    record_error_iff := l.put_error_iff
    recordAll_error_iff := l.putAll_error_iff
    unchanged := fun _ _ h => serve_of_error h
    recordAll_eq := l.putAll_eq
    size_eq := encard_types_ne_nil hproper
    isRecorded_iff := l.isRecorded_iff
    isRecorded_iff_mem := fun expr => by rw [l.isRecorded_iff, mem_map_fst_sorted_iff hproper]
    mem_sorted_iff := mem_sorted_iff hproper
    nodup_sorted := (l.perm_sorted.map Prod.fst).nodup_iff.2 hproper.nodup }

/-- Types that are passed behind the end are refused, and passing none adds no entry. -/
example :
    (empty.serveAll [.record ⟨⟨2⟩⟩ 'a', .recordAll ⟨⟨1⟩⟩ [], .recordAll ⟨⟨2⟩⟩ ['b', 'c'], .close,
        .record ⟨⟨1⟩⟩ 'd']).entries = [(⟨2⟩, ['a', 'b', 'c'])] := by
  decide

end TypeLedger

end TensorTree
