import Abacus.Error
import Abacus.Lexeme

/-!
# Tokens of a source

A source is cut into lexemes, the lexemes are placed one behind the other, and
trivia is dropped. A text at which no lexeme starts is an error at its first
character.
-/

namespace Abacus

def Place.afterAll (p : Place) (lexemes : List Lexeme) : Place :=
  lexemes.foldl (fun p lexeme => p.after lexeme.text) p

/-- Lexemes that stand one behind the other, the first of them here. -/
def Place.tokens (p : Place) : List Lexeme → List Token
  | [] => []
  | lexeme :: rest => ⟨lexeme, p⟩ :: (p.after lexeme.text).tokens rest

def tokenizeFrom (p : Place) (source : List Char) : Except LexicalError (List Token) :=
  match Lexeme.split source with
  | (lexemes, []) => .ok ((p.tokens lexemes).filter fun token => !token.kind.isTrivia)
  | (lexemes, c :: _) => .error ⟨p.afterAll lexemes, String.singleton c⟩

def tokenize (source : String) : Except LexicalError (List Token) :=
  tokenizeFrom .start source.toList

theorem Place.map_toLexeme_tokens (p : Place) (ls : List Lexeme) :
    (p.tokens ls).map (·.toLexeme) = ls := by
  induction ls generalizing p with
  | nil => rfl
  | cons lexeme ls ih => simp [Place.tokens, ih]

end Abacus
