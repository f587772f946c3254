/-!
# Token kinds

The lexical categories of the language. The last three are trivia: they
separate tokens and are never tokens of a program.
-/

namespace Abacus

inductive Kind where
  | number
  | name
  | assign
  | plus
  | minus
  | openParen
  | closeParen
  | print
  | semicolon
  | comment
  | lineBreak
  | blank
  deriving DecidableEq, Repr

namespace Kind

def isTrivia : Kind → Bool
  | .comment | .lineBreak | .blank => true
  | _ => false

def describe : Kind → String
  | .number => "number"
  | .name => "variable"
  | .assign => "':='"
  | .plus => "'+'"
  | .minus => "'-'"
  | .openParen => "'('"
  | .closeParen => "')'"
  | .print => "'LOG'"
  | .semicolon => "';'"
  | .comment => "comment"
  | .lineBreak => "line break"
  | .blank => "whitespace"

/-- The wording of a kind in the journal. -/
def label : Kind → String
  | .number => "Number"
  | .name => "Variable"
  | .assign => "Assign"
  | .plus => "Plus"
  | .minus => "Minus"
  | .openParen => "LPar"
  | .closeParen => "RPar"
  | .print => "Log"
  | .semicolon => "Semicolon"
  | .comment => "Comment"
  | .lineBreak => "NewLine"
  | .blank => "Ignored"

/-- Alternatives in error messages: `nothing`, `a`, `a or b`, `a, b or c`. -/
def describeAll : List Kind → String
  | [] => "nothing"
  | [k] => k.describe
  | [k, l] => k.describe ++ " or " ++ l.describe
  | k :: l :: m :: ks => k.describe ++ ", " ++ describeAll (l :: m :: ks)

end Kind

end Abacus
