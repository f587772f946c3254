import Abacus.Decimal

/-!
# Values

The language computes with the integers that fit 64 signed bits. Arithmetic is
exact: an operation whose result does not fit has no result.
-/

namespace Abacus

def InRange (n : Int) : Prop := -9223372036854775808 ≤ n ∧ n ≤ 9223372036854775807

instance (n : Int) : Decidable (InRange n) := by
  unfold InRange
  infer_instance

@[ext] structure Value where
  toInt : Int
  inRange : InRange toInt
  deriving DecidableEq

namespace Value

def ofInt? (n : Int) : Option Value :=
  if h : InRange n then some ⟨n, h⟩ else none

def add? (a b : Value) : Option Value := ofInt? (a.toInt + b.toInt)

def sub? (a b : Value) : Option Value := ofInt? (a.toInt - b.toInt)

/-- A literal: at most one sign, then one or more digits, in range. -/
def ofLiteral? (text : String) : Option Value :=
  match text.toList with
  | '-' :: ds => (Decimal.read? ds).bind fun n => ofInt? (-(n : Int))
  | '+' :: ds => (Decimal.read? ds).bind fun n => ofInt? n
  | ds => (Decimal.read? ds).bind fun n => ofInt? n

/-- The canonical literal: a sign only below zero, no leading zeros. -/
def decimal (v : Value) : List Char :=
  if v.toInt < 0 then '-' :: Decimal.digits v.toInt.natAbs else Decimal.digits v.toInt.natAbs

def render (v : Value) : String := String.ofList v.decimal

theorem ofInt?_eq_some_iff {n : Int} {v : Value} : ofInt? n = some v ↔ v.toInt = n := by
  unfold ofInt?
  split
  next h => rw [Option.some.injEq, Value.ext_iff, eq_comm]
  next h =>
    simp only [reduceCtorEq, false_iff]
    exact fun e => h (e ▸ v.inRange)

theorem ofInt?_eq_none_iff {n : Int} : ofInt? n = none ↔ ¬ InRange n := by
  unfold ofInt?
  split <;> simp_all

@[simp] theorem ofInt?_toInt (v : Value) : ofInt? v.toInt = some v :=
  ofInt?_eq_some_iff.mpr rfl

end Value

end Abacus
