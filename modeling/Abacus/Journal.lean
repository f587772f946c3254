import Abacus.Decimal
import Abacus.Token
import Abacus.Value

/-!
# The journal of a run

Events say what a run did, in order: the tokens it read, the number of
statements it parsed, each binding just before it is made and each value just
before it is written. A journal is read at a level, which hides the entries
that are finer than it.
-/

namespace Abacus

inductive Event where
  | lexed (tokens : List Token)
  | parsed (statements : Nat)
  | bound (name : String) (value : Value)
  | printed (value : Value)
  deriving DecidableEq

/-- From the coarsest to the finest. -/
inductive Level where
  | off
  | error
  | warn
  | info
  | debug
  | trace
  deriving DecidableEq, Repr

def Level.rank : Level → Nat
  | .off => 0
  | .error => 1
  | .warn => 2
  | .info => 3
  | .debug => 4
  | .trace => 5

structure Entry where
  level : Level
  text : String
  deriving DecidableEq, Repr

/-- A token in an entry. The texts of tokens need no escapes. -/
def Token.describe (token : Token) : String :=
  "Token \x7b kind: " ++ token.kind.label ++ ", text: \"" ++ token.text ++ "\", position: " ++
    Decimal.render token.offset ++ ", line: " ++ Decimal.render token.line ++ " \x7d"

def Token.describeAll (tokens : List Token) : String :=
  "[" ++ ", ".intercalate (tokens.map Token.describe) ++ "]"

def Event.entries : Event → List Entry
  | .lexed tokens =>
    [⟨.debug, "lexed " ++ Decimal.render tokens.length ++ " tokens"⟩,
      ⟨.trace, "tokens: " ++ Token.describeAll tokens⟩]
  | .parsed statements => [⟨.debug, "parsed " ++ Decimal.render statements ++ " statements"⟩]
  | .bound name value => [⟨.trace, name ++ " := " ++ value.render⟩]
  | .printed value => [⟨.trace, "print " ++ value.render⟩]

def Level.entries (level : Level) (journal : List Event) : List Entry :=
  (journal.flatMap Event.entries).filter fun entry => entry.level.rank ≤ level.rank

end Abacus
