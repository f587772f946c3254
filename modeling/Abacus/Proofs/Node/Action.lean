import Abacus.Proofs.Node.Arithmetic
import Abacus.Proofs.Sink.Delivery

/-!
# What a statement does

A statement prints a sum, or assigns one to a name or a number; the parser reads no
others, whatever the texts of the tokens (`Derives.yields`). `Node.Acts` says all that
one can do: bind its target, print a line, be refused part of a line by the sink, have a
target that is a number, or fail as its sum does. What else is known of statements comes
from it (`Node.IsAction.acts`).
-/

namespace Abacus

variable {item node : Node} {session next : Session} {e : EvalError} {answer : Option Value}

-- ---------------------------------------------------------------------------
-- Shapes
-- ---------------------------------------------------------------------------

/-- Statements, whatever their tokens. -/
inductive Node.IsAction : Node → Prop
  | print {token : Token} {operand : Node} : operand.IsSum → IsAction (.print token operand)
  | assignName {token target : Token} {value : Node} :
      value.IsSum → IsAction (.assign token (.name target) value)
  | assignNumber {token target : Token} {value : Node} :
      value.IsSum → IsAction (.assign token (.number target) value)

theorem Node.IsStatement.isAction (h : item.IsStatement) : item.IsAction := by
  cases h with
  | print _ hf => exact .print hf.isSum
  | assign _ hl hf =>
    cases hl with
    | number _ => exact .assignNumber hf.isSum
    | name _ => exact .assignName hf.isSum

def Rule.Yields : Rule → Node → Prop
  | .code, node => ∀ item ∈ node.statements, item.IsAction
  | .statement, node | .print, node | .assignment, node => node.IsAction
  | .formula, node | .operand, node => node.IsSum

theorem Derives.yields {rule : Rule} {tokens : List Token} (h : Derives rule tokens node) :
    rule.Yields node := by
  induction h with
  | number _ => exact .number _
  | name _ => exact .name _
  | parens _ _ _ ih => exact ih
  | single _ ih => exact ih
  | add _ _ _ ihl ihr => exact .arith ihl ihr
  | sub _ _ _ ihl ihr => exact .arith ihl ihr
  | print _ _ ih => exact .print ih
  | assignName _ _ _ ih => exact .assignName ih
  | assignNumber _ _ _ ih => exact .assignNumber ih
  | printStatement _ ih => exact ih
  | assignmentStatement _ ih => exact ih
  | noStatements => exact List.forall_mem_nil _
  | moreStatements _ _ _ ihi ihr => exact List.forall_mem_cons.mpr ⟨ihi, ihr⟩

-- ---------------------------------------------------------------------------
-- Effects
-- ---------------------------------------------------------------------------

namespace Node

def formula : Node → Node
  | .print _ operand => operand
  | .assign _ _ value => value
  | node => node

theorem IsAction.isSum_formula (h : item.IsAction) : item.formula.IsSum := by
  cases h with
  | print hsum => exact hsum
  | assignName hsum => exact hsum
  | assignNumber hsum => exact hsum

/-- What evaluating a statement can do: its answer, and the session after it. -/
inductive Acts (session : Session) : Node → Except EvalError (Option Value) → Session → Prop
  | binds {token target : Token} {value : Node} {v : Value} :
      value.eval.on session = (.ok (some v), session) →
      Acts session (.assign token (.name target) value) (.ok (some v)) { session with
        scope := session.scope.bind target.text v
        journal := session.journal.push (.bound target.text v) }
  | prints {token : Token} {operand : Node} {v : Value} :
      operand.eval.on session = (.ok (some v), session) →
      session.sink.Fits [v.decimal ++ ['\n']] →
      Acts session (.print token operand) (.ok none) { session with
        sink := session.sink.took [v.decimal ++ ['\n']]
        journal := session.journal.push (.printed v) }
  | refused {token : Token} {operand : Node} {v : Value} :
      operand.eval.on session = (.ok (some v), session) →
      ¬ session.sink.Fits [v.decimal ++ ['\n']] →
      Acts session (.print token operand)
        (.error (.output (if session.sink.HasRoom (v.decimal ++ ['\n']).length
          then session.sink.flushFault else session.sink.writeFault)))
        { session with
          sink := session.sink.wrote (v.decimal ++ ['\n'])
          journal := session.journal.push (.printed v) }
  | misses {token target : Token} {value : Node} {v : Value} :
      value.eval.on session = (.ok (some v), session) →
      Acts session (.assign token (.number target) value)
        (.error (.invalidTarget target.text token.line)) session
  | fails {item : Node} {e : EvalError} : item.formula.eval.on session = (.error e, session) →
      (∀ fault, e ≠ .output fault) → Acts session item (.error e) session

theorem FirstFault.ne_output {scope : Scope} {nodes : List Node} (h : FirstFault scope nodes e)
    (fault : Fault) : e ≠ .output fault := by
  obtain ⟨_, node, _, -, -, -, he⟩ := h
  rintro rfl
  cases node <;> cases he

theorem IsSum.value_or_fails (h : node.IsSum) (session : Session) :
    (∃ v, node.eval.on session = (.ok (some v), session)) ∨
    ∃ e, node.eval.on session = (.error e, session) ∧ ∀ fault, e ≠ .output fault := by
  obtain ⟨e, he, hfault⟩ | ⟨v, hv, -⟩ := h.firstFault_or_exact session
  · exact .inr ⟨e, he, hfault.ne_output⟩
  · exact .inl ⟨v, hv⟩

theorem IsAction.acts (h : item.IsAction) (session : Session) :
    Acts session item (item.eval.on session).1 (item.eval.on session).2 := by
  cases h with
  | @print token operand hsum =>
    rw [eval]
    obtain ⟨v, hv⟩ | ⟨e, he, hne⟩ := hsum.value_or_fails session
    · rw [Eval.on_bind_of_ok (Eval.on_demand_of_some hv token.line), Eval.on_bind,
        Eval.on_printValue]
      by_cases hfits : session.sink.Fits [v.decimal ++ ['\n']]
      · rw [Sink.putLine_of_fits hfits]
        exact .prints hv hfits
      · rw [Sink.putLine_of_not_fits hfits]
        exact .refused hv hfits
    · rw [Eval.on_bind_of_error (Eval.on_demand_of_error he token.line)]
      exact .fails he hne
  | @assignName token target value hsum =>
    rw [eval]
    obtain ⟨v, hv⟩ | ⟨e, he, hne⟩ := hsum.value_or_fails session
    · rw [Eval.on_bind_of_ok (Eval.on_demand_of_some hv token.line)]
      exact .binds hv
    · rw [Eval.on_bind_of_error (Eval.on_demand_of_error he token.line)]
      exact .fails he hne
  | @assignNumber token target value hsum =>
    rw [eval]
    obtain ⟨v, hv⟩ | ⟨e, he, hne⟩ := hsum.value_or_fails session
    · rw [Eval.on_bind_of_ok (Eval.on_demand_of_some hv token.line)]
      exact .misses hv
    · rw [Eval.on_bind_of_error (Eval.on_demand_of_error he token.line)]
      exact .fails he hne

theorem Acts.eq_of_error (h : Acts session item (.error e) next) (hs : session.sink.NeverFails) :
    next = session := by
  cases h with
  | refused _ hfits => exact absurd (hs.fits _) hfits
  | misses _ => rfl
  | fails _ _ => rfl

theorem Acts.neverFails (h : Acts session item (.ok answer) next) (hs : session.sink.NeverFails) :
    next.sink.NeverFails := by
  cases h with
  | binds _ => exact hs
  | prints _ _ => exact hs.took _

end Node

end Abacus
