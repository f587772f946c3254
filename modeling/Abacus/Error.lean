import Abacus.Decimal
import Abacus.Sink
import Abacus.Token

/-!
# Errors

Each phase has its own errors, named for their causes, with the wording in one
`message` function each. An `Error` is one of any phase and adds no wording.
-/

namespace Abacus

def onLine (line : Nat) (text : String) : String :=
  "Error on line " ++ Decimal.render line ++ ": " ++ text

/-- No lexeme starts with this text at this place. -/
structure LexicalError extends Place where
  text : String
  deriving DecidableEq, Repr

def LexicalError.message (e : LexicalError) : String :=
  onLine e.line <| "Unexpected character '" ++ e.text ++ "' at offset " ++
    Decimal.render e.offset ++ "."

/-- Positions count tokens from zero. -/
inductive SyntaxError where
  | unexpected (expected : List Kind) (found : String) (position line : Nat)
  | endOfInput (expected : List Kind) (position : Nat)
  deriving DecidableEq, Repr

def SyntaxError.expected : SyntaxError → List Kind
  | .unexpected expected _ _ _ | .endOfInput expected _ => expected

def SyntaxError.position : SyntaxError → Nat
  | .unexpected _ _ position _ | .endOfInput _ position => position

def SyntaxError.message : SyntaxError → String
  | .unexpected expected found position line =>
    onLine line <| "Expected " ++ Kind.describeAll expected ++ " but found '" ++ found ++
      "' (token " ++ Decimal.render position ++ ")."
  | .endOfInput expected position =>
    "Unexpected end of input: expected " ++ Kind.describeAll expected ++ " (token " ++
      Decimal.render position ++ ")."

inductive EvalError where
  | undefinedName (name : String) (line : Nat)
  | invalidTarget (target : String) (line : Nat)
  | invalidLiteral (text : String) (line : Nat)
  | overflow (line : Nat)
  | missingValue (line : Nat)
  | output (fault : Fault)
  deriving DecidableEq, Repr

def EvalError.line? : EvalError → Option Nat
  | .undefinedName _ line | .invalidTarget _ line | .invalidLiteral _ line | .overflow line
  | .missingValue line => some line
  | .output _ => none

def EvalError.message : EvalError → String
  | .undefinedName name line => onLine line <| "Undefined variable '" ++ name ++ "'."
  | .invalidTarget target line =>
    onLine line <| "Assignment target must be a variable, found '" ++ target ++ "'."
  | .invalidLiteral text line => onLine line <| "Invalid integer literal '" ++ text ++ "'."
  | .overflow line => onLine line "Integer overflow while trying to compute result."
  | .missingValue line => onLine line "Value missing."
  | .output fault => "Failed to write output: " ++ fault.message

inductive Error where
  | lexical (e : LexicalError)
  | grammar (e : SyntaxError)
  | eval (e : EvalError)
  deriving DecidableEq, Repr

def Error.message : Error → String
  | .lexical e => e.message
  | .grammar e => e.message
  | .eval e => e.message

end Abacus
