import Abacus.Kind

/-!
# Lexemes, places and tokens

A lexeme is a piece of text with its kind; a place says where in a source it
starts. A token is a lexeme at a place. Offsets count the bytes of the UTF-8
encoding, from zero; lines count line feeds, from one.
-/

namespace Abacus

structure Lexeme where
  kind : Kind
  text : String
  deriving DecidableEq, Repr

structure Place where
  offset : Nat
  line : Nat
  deriving DecidableEq, Repr

def Place.start : Place := ⟨0, 1⟩

def Place.after (p : Place) (text : String) : Place :=
  ⟨p.offset + text.utf8ByteSize, p.line + text.toList.count '\n'⟩

theorem Place.after_append (p : Place) (s t : String) :
    p.after (s ++ t) = (p.after s).after t := by
  simp [Place.after, Nat.add_assoc]

structure Token extends Lexeme, Place where
  deriving DecidableEq, Repr

end Abacus
