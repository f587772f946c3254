import Abacus.Decimal
import Abacus.Token

/-!
# Cutting a text into lexemes

At each point the longest lexeme is taken. A word that is wholly a keyword
spelling is that keyword, any other word is a name. A comment runs to the next
line feed or carriage return, which it does not contain.

`Lexeme.split` cuts greedily and keeps trivia, up to the text at which no lexeme
starts.
-/

namespace Abacus

/-- Letters of names: ASCII, the 33 letters of the Russian alphabet in both
cases, and the underscore. -/
def isLetter (c : Char) : Bool :=
  ('a' ≤ c && c ≤ 'z') || ('A' ≤ c && c ≤ 'Z') || ('а' ≤ c && c ≤ 'я') || ('А' ≤ c && c ≤ 'Я') ||
    c == 'ё' || c == 'Ё' || c == '_'

def isWordChar (c : Char) : Bool := isLetter c || Decimal.isDigit c

def isBlank (c : Char) : Bool := c == ' ' || c == '\t' || c == '\r' || c == '\x0c'

def isCommentChar (c : Char) : Bool := c != '\n' && c != '\r'

def keywords : List (String × Kind) :=
  [("РАВНО", .assign), ("ПЛЮС", .plus), ("МИНУС", .minus), ("LOG", .print), ("КОНСОЛЬ", .print)]

def wordKind (word : String) : Kind := (keywords.lookup word).getD .name

def symbolKind? : Char → Option Kind
  | '+' => some .plus
  | '-' => some .minus
  | '(' => some .openParen
  | ')' => some .closeParen
  | ';' => some .semicolon
  | '\n' => some .lineBreak
  | _ => none

namespace Lexeme

/-- The lexeme of a given start and the longest run of a class behind it, and
the text after that. -/
def run (kindOf : String → Kind) (p : Char → Bool) (start rest : List Char) :
    Lexeme × List Char :=
  let text := String.ofList (start ++ rest.takeWhile p)
  (⟨kindOf text, text⟩, rest.dropWhile p)

/-- The longest lexeme at the start of a text, and the text after it. -/
def next? : List Char → Option (Lexeme × List Char)
  | ':' :: '=' :: rest => some (⟨.assign, ":="⟩, rest)
  | '/' :: '/' :: rest => some (run (fun _ => .comment) isCommentChar ['/', '/'] rest)
  | c :: rest =>
    if Decimal.isDigit c then some (run (fun _ => .number) Decimal.isDigit [c] rest)
    else if isLetter c then some (run wordKind isWordChar [c] rest)
    else if isBlank c then some (run (fun _ => .blank) isBlank [c] rest)
    else (symbolKind? c).map fun kind => (⟨kind, String.singleton c⟩, rest)
  | [] => none

theorem run_append (kindOf : String → Kind) (p : Char → Bool) (start rest : List Char) :
    (run kindOf p start rest).1.text.toList ++ (run kindOf p start rest).2 = start ++ rest := by
  simp [run]

theorem next?_append {cs rest : List Char} {lexeme : Lexeme}
    (h : next? cs = some (lexeme, rest)) : lexeme.text.toList ++ rest = cs := by
  unfold next? at h
  split at h
  next => cases h; rfl
  next rest => cases h; exact run_append (fun _ => .comment) isCommentChar ['/', '/'] rest
  next c rest _ _ =>
    split at h
    next => cases h; exact run_append (fun _ => .number) Decimal.isDigit [c] rest
    next =>
      split at h
      next => cases h; exact run_append wordKind isWordChar [c] rest
      next =>
        split at h
        next => cases h; exact run_append (fun _ => .blank) isBlank [c] rest
        next =>
          obtain ⟨kind, _, he⟩ := Option.map_eq_some_iff.mp h
          cases he
          simp
  next => cases h

theorem length_pos_of_next? {cs rest : List Char} {lexeme : Lexeme}
    (h : next? cs = some (lexeme, rest)) : 0 < lexeme.text.toList.length := by
  unfold next? at h
  split at h
  next => cases h; decide
  next => cases h; simp
  next =>
    split at h
    next => cases h; simp
    next =>
      split at h
      next => cases h; simp
      next =>
        split at h
        next => cases h; simp
        next =>
          obtain ⟨kind, _, he⟩ := Option.map_eq_some_iff.mp h
          cases he
          simp
  next => cases h

theorem length_lt_of_next? {cs rest : List Char} {lexeme : Lexeme}
    (h : next? cs = some (lexeme, rest)) : rest.length < cs.length := by
  have hl := length_pos_of_next? h
  rw [← next?_append h, List.length_append]
  omega

/-- The greedy cut: the lexemes, and the text at which no lexeme starts. -/
def split (cs : List Char) : List Lexeme × List Char :=
  match _h : next? cs with
  | some (lexeme, rest) => (split rest).map (lexeme :: ·) id
  | none => ([], cs)
termination_by cs.length
decreasing_by exact length_lt_of_next? (by assumption)

theorem split_of_next?_eq_some {cs rest : List Char} {lexeme : Lexeme}
    (h : next? cs = some (lexeme, rest)) :
    split cs = (split rest).map (lexeme :: ·) id := by
  rw [split]
  split
  next he => rw [h] at he; cases he; rfl
  next he => rw [h] at he; cases he

theorem split_of_next?_eq_none {cs : List Char} (h : next? cs = none) : split cs = ([], cs) := by
  rw [split]
  split
  next he => rw [h] at he; cases he
  next => rfl

end Lexeme

end Abacus
