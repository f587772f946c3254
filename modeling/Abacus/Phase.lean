import Abacus.Error
import Abacus.Node

/-!
# The parser as a pushdown automaton

A phase is what has been read of one construct and what may come next. Its stack
holds, for each open parenthesis, the sum that the parenthesised formula is the
right operand of, if it is one. `advance?` takes one token or refuses it;
`result?` is the tree read so far, if the construct may end here.

`Progress` does the same for a whole program.
-/

namespace Abacus

/-- A sum that still lacks its right operand. -/
structure Pending where
  op : Op
  token : Token
  left : Node
  deriving DecidableEq, Repr

/-- An operand, as the right side of the sum that waits for it, if one does. -/
def Pending.complete : Option Pending → Node → Node
  | none, operand => operand
  | some sum, operand => .arith sum.op sum.token sum.left operand

/-- The construct that a formula is read for. A lone operand ends before the
first operator outside of its parentheses. -/
inductive Goal where
  | operand
  | formula
  | print (token : Token)
  | assign (target : Node) (token : Token)
  deriving DecidableEq, Repr

def Goal.build : Goal → Node → Node
  | .operand, node | .formula, node => node
  | .print token, node => .print token node
  | .assign target token, node => .assign token target node

inductive Phase where
  | statement
  | print
  | assignment
  | assign (target : Node)
  /-- Before an operand. -/
  | operand (goal : Goal) (outer : List (Option Pending)) (pending : Option Pending)
  /-- Behind a complete operand. -/
  | operator (goal : Goal) (outer : List (Option Pending)) (left : Node)
  deriving DecidableEq, Repr

def Kind.op? : Kind → Option Op
  | .plus => some .add
  | .minus => some .sub
  | _ => none

def Token.leaf? (token : Token) : Option Node :=
  match token.kind with
  | .number => some (.number token)
  | .name => some (.name token)
  | _ => none

namespace Phase

def formula (goal : Goal) : Phase := .operand goal [] none

def continues : Goal → List (Option Pending) → Bool
  | .operand, [] => false
  | _, _ => true

def advance? : Phase → Token → Option Phase
  | .statement, token =>
    if token.kind = .print then some (.formula (.print token)) else token.leaf?.map .assign
  | .print, token => if token.kind = .print then some (.formula (.print token)) else none
  | .assignment, token => token.leaf?.map .assign
  | .assign target, token =>
    if token.kind = .assign then some (.formula (.assign target token)) else none
  | .operand goal outer pending, token =>
    if token.kind = .openParen then some (.operand goal (pending :: outer) none)
    else token.leaf?.map fun leaf => .operator goal outer (Pending.complete pending leaf)
  | .operator goal outer left, token =>
    match token.kind.op? with
    | some op =>
      if continues goal outer then some (.operand goal outer (some ⟨op, token, left⟩)) else none
    | none =>
      match token.kind, outer with
      | .closeParen, pending :: outer => some (.operator goal outer (Pending.complete pending left))
      | _, _ => none

def result? : Phase → Option Node
  | .operator goal [] left => some (goal.build left)
  | _ => none

/-- The kinds named when a token is refused. Not all that are taken: the start of
a statement names only the print keyword, and no operators are named behind an
operand. -/
def expected : Phase → List Kind
  | .statement | .print => [.print]
  | .assignment => [.name, .number]
  | .assign _ => [.assign]
  | .operand _ _ _ => [.openParen, .number, .name]
  | .operator _ [] _ => [.semicolon]
  | .operator _ (_ :: _) _ => [.closeParen]

end Phase

/-- What was read of a program: the complete statements, last first, and the
phase of the next one. -/
structure Progress where
  items : List Node
  phase : Phase
  deriving DecidableEq, Repr

namespace Progress

def start : Progress := ⟨[], .statement⟩

def advance? (progress : Progress) (token : Token) : Option Progress :=
  match progress.phase.advance? token with
  | some phase => some { progress with phase }
  | none =>
    match token.kind, progress.phase.result? with
    | .semicolon, some item => some ⟨item :: progress.items, .statement⟩
    | _, _ => none

def result? : Progress → Option Node
  | ⟨items, .statement⟩ => some (.block items.reverse)
  | _ => none

end Progress

end Abacus
