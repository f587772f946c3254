import Abacus.Node

/-!
# The grammar

    code       := (statement ';')*
    statement  := print | assignment
    print      := 'LOG' formula
    assignment := (name | number) ':=' formula
    formula    := operand (('+' | '-') operand)*
    operand    := '(' formula ')' | number | name

`Derives` says which tokens spell which tree by which rule. A formula is read
from the left: `a + b - c` is `(a + b) - c`. Parentheses leave no trace in the
tree.
-/

namespace Abacus

inductive Rule where
  | code
  | statement
  | print
  | assignment
  | formula
  | operand
  deriving DecidableEq, Repr

inductive Derives : Rule → List Token → Node → Prop
  | number {token : Token} : token.kind = .number → Derives .operand [token] (.number token)
  | name {token : Token} : token.kind = .name → Derives .operand [token] (.name token)
  | parens {opening closing : Token} {tokens : List Token} {node : Node} :
      opening.kind = .openParen → Derives .formula tokens node → closing.kind = .closeParen →
      Derives .operand (opening :: (tokens ++ [closing])) node
  | single {tokens : List Token} {node : Node} :
      Derives .operand tokens node → Derives .formula tokens node
  | add {lefts rights : List Token} {token : Token} {left right : Node} :
      Derives .formula lefts left → token.kind = .plus → Derives .operand rights right →
      Derives .formula (lefts ++ token :: rights) (.arith .add token left right)
  | sub {lefts rights : List Token} {token : Token} {left right : Node} :
      Derives .formula lefts left → token.kind = .minus → Derives .operand rights right →
      Derives .formula (lefts ++ token :: rights) (.arith .sub token left right)
  | print {token : Token} {tokens : List Token} {node : Node} :
      token.kind = .print → Derives .formula tokens node →
      Derives .print (token :: tokens) (.print token node)
  | assignName {target token : Token} {tokens : List Token} {value : Node} :
      target.kind = .name → token.kind = .assign → Derives .formula tokens value →
      Derives .assignment (target :: token :: tokens) (.assign token (.name target) value)
  | assignNumber {target token : Token} {tokens : List Token} {value : Node} :
      target.kind = .number → token.kind = .assign → Derives .formula tokens value →
      Derives .assignment (target :: token :: tokens) (.assign token (.number target) value)
  | printStatement {tokens : List Token} {node : Node} :
      Derives .print tokens node → Derives .statement tokens node
  | assignmentStatement {tokens : List Token} {node : Node} :
      Derives .assignment tokens node → Derives .statement tokens node
  | noStatements : Derives .code [] (.block [])
  | moreStatements {tokens rest : List Token} {semicolon : Token} {item : Node}
      {items : List Node} :
      Derives .statement tokens item → semicolon.kind = .semicolon →
      Derives .code rest (.block items) →
      Derives .code (tokens ++ semicolon :: rest) (.block (item :: items))

end Abacus
