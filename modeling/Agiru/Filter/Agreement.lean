import Agiru.Filter.Where

/-! Where the clause of a filter and the filter itself select the same values.

The two read an operand each in its own way: the clause binds it as the column's type or normalises
it, the filter compares it with the text that the field shows. `Alike` says of an atom and a value
what the two ways agree on. -/
namespace Agiru.Filter
open Bytes
open Storage (normaliseCode memberOrdinal_intText)

/-! ### The clause's conditions -/

section
variable {column : Column} {field : FieldDef} {before after : List Bytes}

/-- What an atom's condition says of a column. -/
def atomHolds (column : Column) (field : FieldDef) (atom : Atom) : Option Bool :=
  let compares (operator : Operator) (operand : Bytes) :=
    (column.compare (boundText field operand)).map operator.accepts
  match atom.compare with
  | .equal => compares .equal atom.value
  | .notEqual => compares .notEqual atom.value
  | .less => compares .less atom.value
  | .lessOrEqual => compares .lessOrEqual atom.value
  | .greater => compares .greater atom.value
  | .greaterEqual => compares .greaterEqual atom.value
  | .like => Filter.ilike column.fold (boundText field (likePattern atom.value)) column.text
  | .notLike => (Filter.ilike column.fold (boundText field (likePattern atom.value)) column.text).map (!·)
  | .between =>
    if atom.openLower && atom.openUpper then some true
    else if atom.openLower then compares .lessOrEqual atom.upper
    else if atom.openUpper then compares .greaterEqual atom.value
    else do
      let lower ← column.compare (boundText field atom.value)
      let upper ← column.compare (boundText field atom.upper)
      return lower ≠ .lt && upper ≠ .gt

theorem bound_first (bind : Bytes) (rest : List Bytes) :
    (before ++ (bind :: rest ++ after))[before.length + 1 - 1]? = some bind := by
  simp

theorem bound_second (bind other : Bytes) :
    (before ++ ([bind, other] ++ after))[before.length + 1 + 1 - 1]? = some other := by
  simp

/-- The placeholders of an atom's condition are its own bound texts. -/
theorem one_holds (column : Column) (field : FieldDef) (before after : List Bytes) (atom : Atom) :
    (one field atom (before.length + 1)).1.holds column
      (before ++ ((one field atom (before.length + 1)).2 ++ after)) = atomHolds column field atom := by
  have hcompares : ∀ operator operand, (Condition.compares operator (before.length + 1)).holds column
      (before ++ ([boundText field operand] ++ after)) =
        (column.compare (boundText field operand)).map operator.accepts := by
    intro operator operand
    rw [Condition.holds, bound_first]
    cases h : column.compare (boundText field operand) <;> simp [h]
  have hilike : ∀ negated operand, (Condition.ilike negated (before.length + 1)).holds column
      (before ++ ([boundText field operand] ++ after)) =
        (Filter.ilike column.fold (boundText field operand) column.text).map (negated != ·) := by
    intro negated operand
    rw [Condition.holds, bound_first]
    cases h : Filter.ilike column.fold (boundText field operand) column.text <;> simp [h]
  unfold one atomHolds
  cases atom.compare with
  | equal | notEqual | less | lessOrEqual | greater | greaterEqual => exact hcompares _ _
  | like | notLike =>
    refine (hilike _ _).trans ?_
    cases Filter.ilike column.fold (boundText field (likePattern atom.value)) column.text <;> simp
  | between =>
    dsimp only
    split
    · rfl
    · split
      · exact hcompares _ _
      · split
        · exact hcompares _ _
        · rw [Condition.holds, bound_first, bound_second]
          rfl

theorem conjunction_truth (atoms : All) (before after : List Bytes) :
    (conjunction field atoms (before.length + 1)).1.mapM (Condition.holds column
      (before ++ ((conjunction field atoms (before.length + 1)).2 ++ after))) =
        atoms.mapM (atomHolds column field) := by
  induction atoms generalizing before with
  | nil => rfl
  | cons atom atoms ih =>
    obtain ⟨condition, binds, hone⟩ : ∃ condition binds, one field atom (before.length + 1) = (condition, binds) :=
      ⟨_, _, rfl⟩
    obtain ⟨conditions, others, hrest⟩ : ∃ conditions others,
        conjunction field atoms (before.length + 1 + binds.length) = (conditions, others) := ⟨_, _, rfl⟩
    have hhead := one_holds column field before (others ++ after) atom
    have htail := ih (before ++ binds)
    rw [List.length_append, show before.length + binds.length + 1 =
        before.length + 1 + binds.length by omega, hrest] at htail
    rw [hone] at hhead
    rw [conjunction, hone]
    dsimp only
    rw [hrest]
    dsimp only at hhead htail ⊢
    rw [List.append_assoc] at htail ⊢
    rw [List.mapM_cons, List.mapM_cons, hhead, htail]

/-- What a conjunction says of a column; an empty one is no condition. -/
def allSays (column : Column) (field : FieldDef) (all : All) : Option Bool :=
  if all = [] then none else (all.mapM (atomHolds column field)).map (·.all id)

/-- What an expression says of a column. -/
def clauseSays (column : Column) (field : FieldDef) (expression : Expression) : Option Bool :=
  if expression = [] then some true else (expression.mapM (allSays column field)).map (·.any id)

theorem conjunction_eq_nil {all : All} {next : Nat} : (conjunction field all next).1 = [] ↔ all = [] := by
  cases all with
  | nil => exact iff_of_true rfl rfl
  | cons atom atoms => exact iff_of_false (List.cons_ne_nil _ _) (List.cons_ne_nil _ _)

theorem alternatives_truth (expression : Expression) (before after : List Bytes) :
    (alternatives field expression (before.length + 1)).1.mapM (allHold column
      (before ++ ((alternatives field expression (before.length + 1)).2 ++ after))) =
        expression.mapM (allSays column field) := by
  induction expression generalizing before with
  | nil => rfl
  | cons all rest ih =>
    obtain ⟨conditions, binds, hone⟩ : ∃ conditions binds,
        conjunction field all (before.length + 1) = (conditions, binds) := ⟨_, _, rfl⟩
    obtain ⟨others, behind, hmore⟩ : ∃ others behind,
        alternatives field rest (before.length + 1 + binds.length) = (others, behind) := ⟨_, _, rfl⟩
    have hhead := @conjunction_truth column field all before (behind ++ after)
    have htail := ih (before ++ binds)
    have hempty := @conjunction_eq_nil field all (before.length + 1)
    rw [List.length_append, show before.length + binds.length + 1 = before.length + 1 + binds.length by omega,
      hmore] at htail
    rw [hone] at hhead hempty
    rw [alternatives, hone]
    dsimp only
    rw [hmore]
    dsimp only at hhead htail hempty ⊢
    rw [List.append_assoc] at htail ⊢
    rw [List.mapM_cons, List.mapM_cons, allHold, allSays, hhead, htail]
    simp only [hempty]

/-- Wherever its bound texts stand, the clause of an expression says of a column what its atoms say. -/
theorem whereClause_truth (column : Column) (field : FieldDef) (expression : Expression)
    (before after : List Bytes) :
    holds column (before ++ ((whereClause field expression (before.length + 1)).binds ++ after))
      (whereClause field expression (before.length + 1)).sql = clauseSays column field expression := by
  unfold holds whereClause clauseSays
  dsimp only
  rw [alternatives_truth]
  cases expression with
  | nil => rfl
  | cons all rest =>
    have hsql : (alternatives field (all :: rest) (before.length + 1)).1 ≠ [] := List.cons_ne_nil _ _
    rw [if_neg hsql, if_neg (List.cons_ne_nil _ _)]

/-- An expression of which each atom says something says what they say together. -/
theorem clauseSays_total {taken : Atom → Bool} {expression : Expression} (hne : ∀ all ∈ expression, all ≠ [])
    (h : ∀ all ∈ expression, ∀ atom ∈ all, atomHolds column field atom = some (taken atom)) :
    clauseSays column field expression = some (expression = [] || expression.any (·.all taken)) := by
  have hall : ∀ all ∈ expression, allSays column field all = some (all.all taken) := by
    intro all hall
    rw [allSays, if_neg (hne all hall), Fallible.mapM_total (h all hall), Option.map_some, List.all_map]
    rfl
  rw [clauseSays, Fallible.mapM_total hall, Option.map_some, List.any_map]
  cases expression with
  | nil | cons all rest => rfl

end

/-! ### Operands -/

/-- What an atom asks of the value other than by wildcards, it asks of the two spellings that are
compared. -/
theorem satisfies_eq {atom : Atom} (h : atom.compare ≠ .like ∧ atom.compare ≠ .notLike) (value : Bytes)
    (field : FieldDef) : satisfies atom value field =
      satisfiesCanonical {atom with value := canonical atom.value field, upper := canonical atom.upper field}
        (canonical value field) field := by
  unfold satisfies
  by_cases hname : field.type = .option ∨ field.type = .enum ∨ field.type = .boolean
  · rw [if_neg]
    simp only [h.1, h.2, decide_false, Bool.or_false, Bool.not_eq_true', Bool.or_eq_false_iff, decide_eq_false_iff_not]
    tauto
  · have hcanonical : ∀ text, canonical text field = text := by
      intro text
      unfold canonical
      split <;> simp_all
    rw [if_pos]
    · simp only [hcanonical]
    · simp_all

/-- The texts that an atom compares values with in their order. -/
def Atom.operands (atom : Atom) : List Bytes :=
  match atom.compare with
  | .like | .notLike => []
  | .between => (if atom.openLower then [] else [atom.value]) ++ (if atom.openUpper then [] else [atom.upper])
  | _ => [atom.value]

/-- The clause's comparison with an operand is the filter's. -/
def Orders (column : Column) (field : FieldDef) (value operand : Bytes) : Prop :=
  column.compare (boundText field operand) = some (order (canonical value field) (canonical operand field) field)

def Equates (column : Column) (field : FieldDef) (value operand : Bytes) : Prop :=
  ∃ o, column.compare (boundText field operand) = some o ∧
    decide (o = .eq) = sameValue (canonical value field) (canonical operand field) field

theorem atomHolds_of_orders {column : Column} {field : FieldDef} {atom : Atom} {value : Bytes}
    (hlike : atom.compare ≠ .like ∧ atom.compare ≠ .notLike)
        (hequal : atom.compare ≠ .equal ∧ atom.compare ≠ .notEqual)
    (h : ∀ operand ∈ atom.operands, Orders column field value operand) :
    atomHolds column field atom = some (satisfies atom value field) := by
  rw [satisfies_eq hlike]
  unfold Orders at h
  unfold atomHolds satisfiesCanonical
  unfold Atom.operands at h
  cases hcompare : atom.compare with
  | equal => exact absurd hcompare hequal.1
  | notEqual => exact absurd hcompare hequal.2
  | like => exact absurd hcompare hlike.1
  | notLike => exact absurd hcompare hlike.2
  | less | lessOrEqual | greater | greaterEqual =>
    rw [hcompare] at h
    simp [Operator.accepts, h atom.value List.mem_cons_self]
  | between =>
    rw [hcompare] at h
    dsimp only at h ⊢
    cases hlower : atom.openLower <;> cases hupper : atom.openUpper
    all_goals simp only [hlower, hupper, Bool.false_eq_true, if_false, if_true, List.mem_append, List.mem_singleton,
      List.not_mem_nil, or_false, false_or] at h
    · simp [h atom.value (.inl rfl), h atom.upper (.inr rfl)]
    · simp [h atom.value rfl, Operator.accepts]
    · simp [h atom.upper rfl, Operator.accepts]
    · rfl

theorem atomHolds_of_equates {column : Column} {field : FieldDef} {atom : Atom} {value : Bytes}
    (hequal : atom.compare = .equal ∨ atom.compare = .notEqual) (h : Equates column field value atom.value) :
    atomHolds column field atom = some (satisfies atom value field) := by
  obtain ⟨o, hcompare, ho⟩ := h
  rw [satisfies_eq (by rcases hequal with h | h <;> rw [h] <;> decide)]
  unfold atomHolds satisfiesCanonical
  dsimp only
  rw [hcompare, ← ho]
  rcases hequal with h | h
  · rw [h]
    rfl
  · rw [h]
    simp [Operator.accepts]

end Agiru.Filter
