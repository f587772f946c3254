import Abacus.Node.Printer
import Abacus.Session

/-!
# Evaluation of trees

Operands are evaluated from left to right, each to a value before the next one
starts. Prints and blocks have no value. An assignment evaluates its value
before it looks at its target, and its value is the value assigned.
-/

namespace Abacus

def Op.compute? : Op → Value → Value → Option Value
  | .add, a, b => a.add? b
  | .sub, a, b => a.sub? b

namespace Eval

variable {α : Type}

def orThrow (e : EvalError) : Option α → Eval α
  | some a => pure a
  | none => throw e

/-- The value of an evaluation that has to have one, for an operator on this line. -/
def demand (line : Nat) (eval : Eval (Option Value)) : Eval Value :=
  eval >>= orThrow (.missingValue line)

end Eval

namespace Node

mutual

def eval : Node → Eval (Option Value)
  | .number token => do
    some <$> Eval.orThrow (.invalidLiteral token.text token.line) (Value.ofLiteral? token.text)
  | .name token => do
    some <$> Eval.orThrow (.undefinedName token.text token.line) (← Eval.lookup token.text)
  | .print token operand => do
    let value ← Eval.demand token.line (eval operand)
    Eval.printValue value
    return none
  | .arith op token left right => do
    let a ← Eval.demand token.line (eval left)
    let b ← Eval.demand token.line (eval right)
    some <$> Eval.orThrow (.overflow token.line) (op.compute? a b)
  | .assign token target value => do
    let v ← Eval.demand token.line (eval value)
    match target with
    | .name leaf =>
      Eval.bindName leaf.text v
      return some v
    | _ => throw (.invalidTarget target.render token.line)
  | .block items => do
    evalAll items
    return none

def evalAll : List Node → Eval Unit
  | [] => return
  | item :: items => do
    let _ ← eval item
    evalAll items

end

/-- The statements of a block; any other node is its own only statement. -/
def statements : Node → List Node
  | .block items => items
  | node => [node]

end Node

/-- Evaluates nodes one after the other and keeps their values, up to the first
error. -/
def Session.evalEach (session : Session) :
    List Node → (List (Option Value) × Option EvalError) × Session
  | [] => (([], none), session)
  | node :: nodes =>
    match node.eval.on session with
    | (.ok value, session) => (session.evalEach nodes).map (Prod.map (value :: ·) id) id
    | (.error e, session) => (([], some e), session)

end Abacus
