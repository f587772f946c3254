import Abacus.Node.Eval
import Abacus.Proofs.Node.Shape

/-!
# Formulas as exact sums

A sum stands for an integer of any size as soon as its names do. It stands for
none if a literal in it cannot be read or a name stands for nothing
(`Node.integer?`).

A formula in place of a name counts as the integer that it stands for
(`Node.integer?_subst`).
-/

namespace Abacus

variable {node : Node} {session next : Session}

def Decimal.signed (n : Int) : List Char :=
  if n < 0 then '-' :: digits n.natAbs else digits n.natAbs

/-- The integer that a literal spells, of any size. -/
def Decimal.literal? (text : String) : Option Int :=
  match text.toList with
  | '-' :: ds => (read? ds).map fun n : Nat => -(n : Int)
  | '+' :: ds => (read? ds).map Int.ofNat
  | ds => (read? ds).map Int.ofNat

def Op.apply : Op → Int → Int → Int
  | .add, a, b => a + b
  | .sub, a, b => a - b

def Scope.integer? (scope : Scope) (name : String) : Option Int := (scope.get? name).map Value.toInt

namespace Node

/-- Nestings of sums and differences over numbers and names, whatever their tokens. -/
inductive IsSum : Node → Prop
  | number (token : Token) : IsSum (.number token)
  | name (token : Token) : IsSum (.name token)
  | arith {op : Op} {token : Token} {left right : Node} :
      IsSum left → IsSum right → IsSum (.arith op token left right)

/-- The integer that a sum stands for when its names stand for these. -/
def integer? (names : String → Option Int) : Node → Option Int
  | .number token => Decimal.literal? token.text
  | .name token => names token.text
  | .arith op _ left right =>
    (integer? names left).bind fun a => (integer? names right).map (op.apply a)
  | .print .. | .assign .. | .block _ => none

def subst (formulas : String → Option Node) : Node → Node
  | .name token => (formulas token.text).getD (.name token)
  | .arith op token left right => .arith op token (subst formulas left) (subst formulas right)
  | node => node

end Node

-- ---------------------------------------------------------------------------
-- Values are exact
-- ---------------------------------------------------------------------------

namespace Value

theorem decimal_eq_signed (v : Value) : v.decimal = Decimal.signed v.toInt := rfl

theorem ofLiteral?_eq_bind (text : String) :
    ofLiteral? text = (Decimal.literal? text).bind ofInt? := by
  unfold ofLiteral? Decimal.literal?
  split
  all_goals
    simp only [*, Option.bind_map]
    rfl

theorem literal?_of_ofLiteral? {text : String} {v : Value} (h : ofLiteral? text = some v) :
    Decimal.literal? text = some v.toInt := by
  rw [ofLiteral?_eq_bind] at h
  obtain ⟨n, hn, hv⟩ := Option.bind_eq_some_iff.mp h
  rw [hn, ofInt?_eq_some_iff.mp hv]

end Value

theorem Op.compute?_eq_some_iff {op : Op} {a b v : Value} :
    op.compute? a b = some v ↔ v.toInt = op.apply a.toInt b.toInt := by
  cases op <;> exact Value.ofInt?_eq_some_iff

-- ---------------------------------------------------------------------------
-- Evaluation of sums
-- ---------------------------------------------------------------------------

namespace Eval

section Bind

variable {α β : Type} {eval : Eval α}

theorem on_bind_of_ok {a : α} (h : eval.on session = (.ok a, next)) (rest : α → Eval β) :
    (eval >>= rest).on session = (rest a).on next := by
  rw [on_bind, h]

theorem on_bind_of_error {e : EvalError} (h : eval.on session = (.error e, next))
    (rest : α → Eval β) : (eval >>= rest).on session = (.error e, next) := by
  rw [on_bind, h]

end Bind

variable {eval : Eval (Option Value)}

theorem on_demand_of_some {v : Value} (h : eval.on session = (.ok (some v), next)) (line : Nat) :
    (demand line eval).on session = (.ok v, next) :=
  on_bind_of_ok h _

theorem on_demand_of_error {e : EvalError} (h : eval.on session = (.error e, next)) (line : Nat) :
    (demand line eval).on session = (.error e, next) :=
  on_bind_of_error h _

end Eval

namespace Node

theorem IsFormula.isSum (h : node.IsFormula) : node.IsSum := by
  induction h with
  | leaf hl =>
    cases hl with
    | number _ => exact .number _
    | name _ => exact .name _
  | arith _ _ _ ihl ihr => exact .arith ihl ihr

theorem integer?_subst (formulas : String → Option Node) (names : String → Option Int)
    (node : Node) :
    (node.subst formulas).integer? names =
      node.integer? fun name => ((formulas name).map (integer? names)).getD (names name) := by
  induction node with
  | number token => rfl
  | name token => cases h : formulas token.text <;> simp [subst, integer?, h]
  | arith op token left right ihl ihr => simp only [subst, integer?, ihl, ihr]
  | print _ _ _ => rfl
  | assign _ _ _ _ _ => rfl
  | block _ _ => rfl

end Node

end Abacus
