import Mathlib.Data.Finset.Card
import Abacus.Scope

/-!
# Scopes and their histories

A scope is known by the assignments that made it, and of these only the last one to each
name counts (`Scope.get?_assigned`). The list of its bindings, its size and its equality
with other scopes all follow from what it binds names to, so that none of them can show in
which order different names were assigned.
-/

namespace Abacus

variable {name : String} {value : Value} {scope : Scope}

def lastAssigned? (history : List (String × Value)) (name : String) : Option Value :=
  history.reverse.lookup name

theorem lastAssigned?_append (history more : List (String × Value)) (name : String) :
    lastAssigned? (history ++ more) name =
      (lastAssigned? more name).or (lastAssigned? history name) := by
  simp [lastAssigned?, List.lookup_append]

theorem lastAssigned?_singleton (name other : String) (value : Value) :
    lastAssigned? [(name, value)] other = if name = other then some value else none := by
  by_cases h : name = other
  · simp [lastAssigned?, h]
  · simp [lastAssigned?, h, Ne.symm h]

theorem isSome_lastAssigned?_iff {history : List (String × Value)} :
    (lastAssigned? history name).isSome ↔ name ∈ history.map Prod.fst := by
  simp [lastAssigned?, List.lookup_isSome_iff]

namespace Scope

-- ---------------------------------------------------------------------------
-- The list of bindings
-- ---------------------------------------------------------------------------

theorem mem_toList_iff : (name, value) ∈ scope.toList ↔ scope.get? name = some value :=
  Std.ExtTreeMap.mem_toList_iff_getElem?_eq_some

theorem nodup_names (scope : Scope) : (scope.toList.map Prod.fst).Nodup := by
  rw [toList, Std.ExtTreeMap.map_fst_toList_eq_keys]
  exact Std.ExtTreeMap.nodup_keys

theorem mem_names_iff : name ∈ scope.toList.map Prod.fst ↔ (scope.get? name).isSome := by
  rw [List.mem_map, Option.isSome_iff_exists]
  constructor
  · rintro ⟨⟨name, value⟩, hm, rfl⟩
    exact ⟨value, mem_toList_iff.mp hm⟩
  · rintro ⟨value, hv⟩
    exact ⟨(name, value), mem_toList_iff.mpr hv, rfl⟩

theorem length_toList (scope : Scope) : scope.toList.length = scope.size :=
  Std.ExtTreeMap.length_toList

theorem isEmpty_iff_size_eq_zero : scope.isEmpty = true ↔ scope.size = 0 := by
  rw [isEmpty, ← Std.ExtTreeMap.isEmpty_toList, List.isEmpty_iff_length_eq_zero]
  exact Iff.of_eq (congrArg (· = 0) scope.length_toList)

-- ---------------------------------------------------------------------------
-- Histories
-- ---------------------------------------------------------------------------

/-- Makes assignments one after the other. Gives what each of them answered, and the
scope after all of them. -/
def assignEach (scope : Scope) : List (String × Value) → List (Option Value) × Scope
  | [] => ([], scope)
  | (name, value) :: more =>
    let (previous, scope) := scope.assign name value
    (scope.assignEach more).map (previous :: ·) id

def assigned (history : List (String × Value)) : Scope := (empty.assignEach history).2

theorem assignEach_append (scope : Scope) (history more : List (String × Value)) :
    scope.assignEach (history ++ more) =
      ((scope.assignEach history).2.assignEach more).map
        ((scope.assignEach history).1 ++ ·) id := by
  induction history generalizing scope with
  | nil => rfl
  | cons entry history ih =>
    obtain ⟨name, value⟩ := entry
    simp only [List.cons_append, assignEach, ih]
    rfl

theorem length_assignEach (scope : Scope) (history : List (String × Value)) :
    (scope.assignEach history).1.length = history.length := by
  induction history generalizing scope with
  | nil => rfl
  | cons entry history ih => simp [assignEach, ih]

theorem get?_assignEach (scope : Scope) (history : List (String × Value)) (name : String) :
    (scope.assignEach history).2.get? name =
      (lastAssigned? history name).or (scope.get? name) := by
  induction history generalizing scope with
  | nil => rfl
  | cons entry history ih =>
    obtain ⟨target, value⟩ := entry
    have hcons : lastAssigned? ((target, value) :: history) name =
        (lastAssigned? history name).or (lastAssigned? [(target, value)] name) :=
      lastAssigned?_append [(target, value)] history name
    simp only [assignEach, assign, Prod.map_snd, id, ih, get?_bind, hcons,
      lastAssigned?_singleton, Option.or_assoc]
    split <;> rfl

theorem get?_assigned (history : List (String × Value)) (name : String) :
    (assigned history).get? name = lastAssigned? history name := by
  rw [assigned, get?_assignEach, get?_empty, Option.or_none]

theorem assigned_eq_iff {history other : List (String × Value)} :
    assigned history = assigned other ↔
      ∀ name, lastAssigned? history name = lastAssigned? other name := by
  constructor
  · intro h name
    rw [← get?_assigned, h, get?_assigned]
  · intro h
    apply ext_get?
    intro name
    rw [get?_assigned, get?_assigned, h name]

theorem contains_assigned_iff {history : List (String × Value)} :
    (assigned history).contains name = true ↔ name ∈ history.map Prod.fst := by
  rw [contains_eq_isSome_get?, get?_assigned, isSome_lastAssigned?_iff]

theorem size_assigned (history : List (String × Value)) :
    (assigned history).size = (history.map Prod.fst).toFinset.card := by
  have hnames : ((assigned history).toList.map Prod.fst).toFinset =
      (history.map Prod.fst).toFinset := by
    ext name
    rw [List.mem_toFinset, List.mem_toFinset, mem_names_iff, get?_assigned,
      isSome_lastAssigned?_iff]
  rw [← hnames, List.toFinset_card_of_nodup (nodup_names _), List.length_map, length_toList]

theorem answer_assignEach (before more : List (String × Value)) (name : String) (value : Value) :
    (empty.assignEach (before ++ (name, value) :: more)).1[before.length]? =
      some ((assigned before).get? name) := by
  rw [assignEach_append, Prod.map_fst, List.getElem?_append_right (by simp [length_assignEach])]
  simp [length_assignEach, assignEach, assign, assigned]

theorem bind_comm {first second : String} (h : first ≠ second) (scope : Scope) (v w : Value) :
    (scope.bind first v).bind second w = (scope.bind second w).bind first v := by
  apply ext_get?
  intro name
  simp only [get?_bind]
  by_cases hfirst : first = name
  · simp [← hfirst, Ne.symm h]
  · simp [hfirst]

theorem assigned_swap {first second : String} (h : first ≠ second) (v w : Value)
    (before more : List (String × Value)) :
    assigned (before ++ (first, v) :: (second, w) :: more) =
      assigned (before ++ (second, w) :: (first, v) :: more) := by
  simp only [assigned, assignEach_append, assignEach, assign, Prod.map_snd, id, bind_comm h]

/-- After any history from the empty scope, a name is bound to what was assigned to it last,
and is not bound if nothing was. Each assignment answered with the binding before it. Every
name that was assigned is listed once, with its last value, and the size counts these names.
Scopes are equal exactly if they have the same last values, so that assignments to different
names can be swapped anywhere in a history. -/
theorem assigned_is_map_of_last_values (history : List (String × Value)) :
    let scope := assigned history
    (∀ name, scope.get? name = lastAssigned? history name) ∧
    (∀ before name value more, history = before ++ (name, value) :: more →
      (empty.assignEach history).1[before.length]? = some ((assigned before).get? name)) ∧
    (∀ name, scope.contains name = true ↔ name ∈ history.map Prod.fst) ∧
    ((scope.toList.map Prod.fst).Nodup ∧
      ∀ name value, (name, value) ∈ scope.toList ↔ lastAssigned? history name = some value) ∧
    scope.size = (history.map Prod.fst).toFinset.card ∧
    (scope.isEmpty = true ↔ scope.size = 0) ∧
    (∀ other, scope = assigned other ↔
      ∀ name, lastAssigned? history name = lastAssigned? other name) ∧
    ∀ before first v second w more, first ≠ second →
      history = before ++ (first, v) :: (second, w) :: more →
      scope = assigned (before ++ (second, w) :: (first, v) :: more) := by
  intro scope
  refine ⟨get?_assigned history, ?_, fun name => contains_assigned_iff,
    ⟨nodup_names scope, fun name value => ?_⟩, size_assigned history, isEmpty_iff_size_eq_zero,
    fun other => assigned_eq_iff, ?_⟩
  · rintro before name value more rfl
    exact answer_assignEach before more name value
  · rw [mem_toList_iff, get?_assigned]
  · rintro before first v second w more hne rfl
    exact assigned_swap hne v w before more

end Scope

end Abacus
