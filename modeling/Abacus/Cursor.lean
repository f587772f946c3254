import Abacus.Grammar
import Abacus.Phase

/-!
# Parsing from a cursor

A cursor is a position in a list of tokens. Every rule starts at the cursor and
reads as far as it can; its answer comes with the cursor behind the last token
it took, also when the answer is an error.
-/

namespace Abacus

structure Cursor where
  rest : List Token
  position : Nat
  deriving DecidableEq, Repr

namespace Cursor

def start (tokens : List Token) : Cursor := ⟨tokens, 0⟩

def atEnd (cursor : Cursor) : Bool := cursor.rest.isEmpty

def peek? (cursor : Cursor) : Option Token := cursor.rest.head?

def expected (cursor : Cursor) (kinds : List Kind) : SyntaxError :=
  match cursor.rest with
  | [] => .endOfInput kinds cursor.position
  | token :: _ => .unexpected kinds token.text cursor.position token.line

def matchAny (cursor : Cursor) (kinds : List Kind) : Option Token × Cursor :=
  match cursor.rest with
  | [] => (none, cursor)
  | token :: rest =>
    if token.kind ∈ kinds then (some token, ⟨rest, cursor.position + 1⟩) else (none, cursor)

def require (cursor : Cursor) (kinds : List Kind) : Except SyntaxError Token × Cursor :=
  match cursor.matchAny kinds with
  | (some token, cursor) => (.ok token, cursor)
  | (none, cursor) => (.error (cursor.expected kinds), cursor)

/-- Reads tokens into a state for as long as the state takes them. -/
def follow {σ : Type} (step : σ → Token → Option σ) (state : σ) (position : Nat) :
    List Token → σ × Cursor
  | [] => (state, ⟨[], position⟩)
  | token :: rest =>
    match step state token with
    | some state => follow step state (position + 1) rest
    | none => (state, ⟨token :: rest, position⟩)

/-- Reads one construct, from the phase in which it starts, as far as it goes. -/
def readFrom (cursor : Cursor) (phase : Phase) : Except SyntaxError Node × Cursor :=
  let (phase, cursor) := follow Phase.advance? phase cursor.position cursor.rest
  match phase.result? with
  | some node => (.ok node, cursor)
  | none => (.error (cursor.expected phase.expected), cursor)

def readCode (cursor : Cursor) : Except SyntaxError Node × Cursor :=
  let (progress, cursor) := follow Progress.advance? .start cursor.position cursor.rest
  match progress.result?, cursor.rest with
  | some node, [] => (.ok node, cursor)
  | _, _ => (.error (cursor.expected progress.phase.expected), cursor)

/-- Reads by a rule of the grammar. Only a program has to end with the tokens. -/
def read (cursor : Cursor) : Rule → Except SyntaxError Node × Cursor
  | .code => cursor.readCode
  | .statement => cursor.readFrom .statement
  | .print => cursor.readFrom .print
  | .assignment => cursor.readFrom .assignment
  | .formula => cursor.readFrom (.formula .formula)
  | .operand => cursor.readFrom (.formula .operand)

theorem follow_cons_some {σ : Type} {step : σ → Token → Option σ} {state next : σ} {token : Token}
    (h : step state token = some next) (position : Nat) (rest : List Token) :
    follow step state position (token :: rest) = follow step next (position + 1) rest := by
  simp [follow, h]

theorem follow_cons_none {σ : Type} {step : σ → Token → Option σ} {state : σ} {token : Token}
    (h : step state token = none) (position : Nat) (rest : List Token) :
    follow step state position (token :: rest) = (state, ⟨token :: rest, position⟩) := by
  simp [follow, h]

end Cursor

def parse (tokens : List Token) : Except SyntaxError Node := ((Cursor.start tokens).read .code).1

end Abacus
