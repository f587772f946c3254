import Abacus.Node

/-!
# Trees as text

A tree is written with the texts of its own tokens, one blank between them.
Sums associate to the left, so only arithmetic on the right of arithmetic is put
in parentheses. Each item of a block ends with a semicolon and a line feed.
-/

namespace Abacus.Node

/-- The right operand of arithmetic, in parentheses if it is arithmetic itself. -/
def parenthesize (node : Node) (text : String) : String :=
  if node.isArith then "( " ++ text ++ " )" else text

mutual

def render : Node → String
  | .number token | .name token => token.text
  | .print token operand => token.text ++ " " ++ render operand
  | .arith _ token left right =>
    render left ++ " " ++ token.text ++ " " ++ right.parenthesize (render right)
  | .assign token target value => render target ++ " " ++ token.text ++ " " ++ render value
  | .block items => renderItems items

def renderItems : List Node → String
  | [] => ""
  | item :: items => render item ++ ";\n" ++ renderItems items

end

end Abacus.Node
