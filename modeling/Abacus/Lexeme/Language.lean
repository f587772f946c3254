import Abacus.Lexeme

/-!
# The texts of each kind

`Spells` says which texts are lexemes of which kind, without saying which of
them is taken where several start. A keyword spelt with letters is also the
text of a name; the cut takes it for the keyword. A lexeme that is taken is
spelt as its kind asks (`spells_of_next?`).
-/

namespace Abacus

inductive Spells : Kind → List Char → Prop
  | number {digits : List Char} : digits ≠ [] → (∀ c ∈ digits, Decimal.isDigit c = true) →
      Spells .number digits
  | name {first : Char} {rest : List Char} : isLetter first = true →
      (∀ c ∈ rest, isWordChar c = true) → Spells .name (first :: rest)
  | keyword {word : String} {kind : Kind} : (word, kind) ∈ keywords → Spells kind word.toList
  | assign : Spells .assign [':', '=']
  | plus : Spells .plus ['+']
  | minus : Spells .minus ['-']
  | openParen : Spells .openParen ['(']
  | closeParen : Spells .closeParen [')']
  | semicolon : Spells .semicolon [';']
  | comment {text : List Char} : (∀ c ∈ text, isCommentChar c = true) →
      Spells .comment ('/' :: '/' :: text)
  | lineBreak : Spells .lineBreak ['\n']
  | blank {text : List Char} : text ≠ [] → (∀ c ∈ text, isBlank c = true) → Spells .blank text

theorem Spells.ne_nil {kind : Kind} {text : List Char} (h : Spells kind text) : text ≠ [] := by
  cases h with
  | number hn _ => exact hn
  | blank hn _ => exact hn
  | keyword hk =>
    simp only [keywords, List.mem_cons, Prod.mk.injEq, List.not_mem_nil, or_false] at hk
    rcases hk with ⟨rfl, _⟩ | ⟨rfl, _⟩ | ⟨rfl, _⟩ | ⟨rfl, _⟩ | ⟨rfl, _⟩ <;> decide
  | _ => simp

theorem mem_of_lookup_eq_some {word : String} {kind : Kind} {table : List (String × Kind)}
    (h : table.lookup word = some kind) : (word, kind) ∈ table := by
  induction table with
  | nil => cases h
  | cons entry table ih =>
    obtain ⟨other, k⟩ := entry
    rw [List.lookup_cons] at h
    split at h
    next he =>
      cases h
      rw [eq_of_beq he]
      exact List.mem_cons_self
    next => exact List.mem_cons_of_mem _ (ih h)

theorem spells_wordKind {first : Char} {rest : List Char} (hf : isLetter first = true)
    (hr : ∀ c ∈ rest, isWordChar c = true) :
    Spells (wordKind (String.ofList (first :: rest))) (first :: rest) := by
  unfold wordKind
  cases h : keywords.lookup (String.ofList (first :: rest)) with
  | none => exact .name hf hr
  | some kind => simpa using Spells.keyword (mem_of_lookup_eq_some h)

theorem spells_symbolKind? {c : Char} {kind : Kind} (h : symbolKind? c = some kind) :
    Spells kind [c] := by
  unfold symbolKind? at h
  split at h
  next => cases h; exact .plus
  next => cases h; exact .minus
  next => cases h; exact .openParen
  next => cases h; exact .closeParen
  next => cases h; exact .semicolon
  next => cases h; exact .lineBreak
  next => cases h

namespace Lexeme

theorem spells_of_next? {cs rest : List Char} {lexeme : Lexeme}
    (h : next? cs = some (lexeme, rest)) : Spells lexeme.kind lexeme.text.toList := by
  have all_takeWhile (p : Char → Bool) (cs : List Char) : ∀ c ∈ cs.takeWhile p, p c = true :=
    fun c hc => List.all_eq_true.mp List.all_takeWhile c hc
  unfold next? at h
  split at h
  next => cases h; exact .assign
  next rest =>
    cases h
    simpa [run] using Spells.comment (all_takeWhile isCommentChar rest)
  next c rest _ _ =>
    split at h
    next hc =>
      cases h
      simpa [run] using Spells.number (List.cons_ne_nil c _)
        (List.forall_mem_cons.mpr ⟨hc, all_takeWhile Decimal.isDigit rest⟩)
    next =>
      split at h
      next hc =>
        cases h
        simpa [run] using spells_wordKind hc (all_takeWhile isWordChar rest)
      next =>
        split at h
        next hc =>
          cases h
          simpa [run] using Spells.blank (List.cons_ne_nil c _)
            (List.forall_mem_cons.mpr ⟨hc, all_takeWhile isBlank rest⟩)
        next =>
          obtain ⟨kind, hk, he⟩ := Option.map_eq_some_iff.mp h
          cases he
          simpa using spells_symbolKind? hk
  next => cases h

end Lexeme

end Abacus
