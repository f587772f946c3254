import Abacus.Value
import Std.Data.ExtTreeMap

/-!
# Scopes

A scope binds names to values. Two scopes are equal exactly when every name has
the same binding in both (`Scope.ext_get?`), whatever the order of assignments.
-/

namespace Abacus

structure Scope where
  bindings : Std.ExtTreeMap String Value
  deriving DecidableEq

namespace Scope

def empty : Scope := ⟨∅⟩

def get? (scope : Scope) (name : String) : Option Value := scope.bindings[name]?

def bind (scope : Scope) (name : String) (value : Value) : Scope :=
  ⟨scope.bindings.insert name value⟩

/-- Binds a name and tells what it was bound to before. -/
def assign (scope : Scope) (name : String) (value : Value) : Option Value × Scope :=
  (scope.get? name, scope.bind name value)

def contains (scope : Scope) (name : String) : Bool := scope.bindings.contains name

def size (scope : Scope) : Nat := scope.bindings.size

def isEmpty (scope : Scope) : Bool := scope.bindings.isEmpty

/-- The bindings in the order of their names, by code points. -/
def toList (scope : Scope) : List (String × Value) := scope.bindings.toList

theorem ext_get? {s t : Scope} (h : ∀ name, s.get? name = t.get? name) : s = t := by
  cases s
  cases t
  exact congrArg Scope.mk (Std.ExtTreeMap.ext_getElem? h)

@[simp] theorem get?_empty (name : String) : empty.get? name = none := by
  simp [get?, empty]

theorem get?_bind (scope : Scope) (name other : String) (value : Value) :
    (scope.bind name value).get? other = if name = other then some value else scope.get? other := by
  simp [get?, bind, Std.ExtTreeMap.getElem?_insert]

@[simp] theorem get?_bind_self (scope : Scope) (name : String) (value : Value) :
    (scope.bind name value).get? name = some value := by
  simp [get?_bind]

theorem contains_eq_isSome_get? (scope : Scope) (name : String) :
    scope.contains name = (scope.get? name).isSome :=
  Std.ExtTreeMap.contains_eq_isSome_getElem?

end Scope

end Abacus
