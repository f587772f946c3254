import Abacus.Lexeme.Language

/-!
# How far a lexeme reaches

A lexeme that starts a text grows over the run of characters behind it that
carry it on, and over no more. Which characters these are shows in its first
character: a digit is carried on by digits, a letter by letters and digits, a
blank by blanks, a comment by all but line ends, a symbol by nothing.

`Spells.next?_append` says what is taken from a text that starts with a given
lexeme; `Spells.next?_of_stops` is the case in which just that lexeme is taken.
-/

namespace Abacus

open Decimal (isDigit)

variable {kind : Kind} {c : Char} {text rest : List Char}

-- ---------------------------------------------------------------------------
-- Classes of characters, by code point
-- ---------------------------------------------------------------------------

theorem isDigit_iff (c : Char) : isDigit c = true ↔ 48 ≤ c.toNat ∧ c.toNat ≤ 57 := by
  simp only [isDigit, Bool.and_eq_true, decide_eq_true_eq, Char.le_def, UInt32.le_iff_toNat_le]
  rfl

theorem isLetter_iff (c : Char) : isLetter c = true ↔
    97 ≤ c.toNat ∧ c.toNat ≤ 122 ∨ 65 ≤ c.toNat ∧ c.toNat ≤ 90 ∨
      1072 ≤ c.toNat ∧ c.toNat ≤ 1103 ∨ 1040 ≤ c.toNat ∧ c.toNat ≤ 1071 ∨
      c.toNat = 1105 ∨ c.toNat = 1025 ∨ c.toNat = 95 := by
  simp only [isLetter, Bool.or_eq_true, Bool.and_eq_true, decide_eq_true_eq, beq_iff_eq,
    Char.le_def, UInt32.le_iff_toNat_le, ← Char.toNat_inj, or_assoc]
  rfl

theorem isBlank_iff (c : Char) : isBlank c = true ↔
    c.toNat = 32 ∨ c.toNat = 9 ∨ c.toNat = 13 ∨ c.toNat = 12 := by
  simp only [isBlank, Bool.or_eq_true, beq_iff_eq, ← Char.toNat_inj, or_assoc]
  rfl

theorem isDigit_of_isLetter (h : isLetter c = true) : isDigit c = false := by
  rw [isLetter_iff] at h
  rw [← Bool.not_eq_true, isDigit_iff]
  omega

theorem isDigit_of_isBlank (h : isBlank c = true) : isDigit c = false := by
  rw [isBlank_iff] at h
  rw [← Bool.not_eq_true, isDigit_iff]
  omega

theorem isLetter_of_isBlank (h : isBlank c = true) : isLetter c = false := by
  rw [isBlank_iff] at h
  rw [← Bool.not_eq_true, isLetter_iff]
  omega

theorem isWordChar_of_isLetter (h : isLetter c = true) : isWordChar c = true := by
  simp [isWordChar, h]

theorem isWordChar_of_isDigit (h : isDigit c = true) : isWordChar c = true := by
  simp [isWordChar, h]

-- ---------------------------------------------------------------------------
-- What is taken, by the first character
-- ---------------------------------------------------------------------------

/-- The characters that carry on a lexeme that starts like this text. -/
def carriesOn : List Char → Char → Bool
  | [] => fun _ => false
  | c :: _ =>
    if isDigit c then isDigit
    else if isLetter c then isWordChar
    else if isBlank c then isBlank
    else if c = '/' then isCommentChar
    else fun _ => false

theorem carriesOn_of_isDigit (h : isDigit c = true) : carriesOn (c :: text) = isDigit := by
  simp [carriesOn, h]

theorem carriesOn_of_isLetter (h : isLetter c = true) : carriesOn (c :: text) = isWordChar := by
  simp [carriesOn, h, isDigit_of_isLetter h]

theorem carriesOn_of_isBlank (h : isBlank c = true) : carriesOn (c :: text) = isBlank := by
  simp [carriesOn, h, isDigit_of_isBlank h, isLetter_of_isBlank h]

namespace Lexeme

theorem next?_cons (hColon : c ≠ ':') (hSlash : c ≠ '/') (rest : List Char) :
    next? (c :: rest) =
      if isDigit c then some (run (fun _ => .number) isDigit [c] rest)
      else if isLetter c then some (run wordKind isWordChar [c] rest)
      else if isBlank c then some (run (fun _ => .blank) isBlank [c] rest)
      else (symbolKind? c).map fun kind => (⟨kind, String.singleton c⟩, rest) := by
  unfold next?
  split
  next he => exact absurd (List.cons.inj he).1 hColon
  next he => exact absurd (List.cons.inj he).1 hSlash
  next he => cases he; rfl
  next he => cases he

theorem next?_of_isDigit (h : isDigit c = true) (rest : List Char) :
    next? (c :: rest) = some (run (fun _ => .number) isDigit [c] rest) := by
  have hColon : c ≠ ':' := by rintro rfl; revert h; decide
  have hSlash : c ≠ '/' := by rintro rfl; revert h; decide
  rw [next?_cons hColon hSlash, if_pos h]

theorem next?_of_isLetter (h : isLetter c = true) (rest : List Char) :
    next? (c :: rest) = some (run wordKind isWordChar [c] rest) := by
  have hColon : c ≠ ':' := by rintro rfl; revert h; decide
  have hSlash : c ≠ '/' := by rintro rfl; revert h; decide
  simp [next?_cons hColon hSlash, h, isDigit_of_isLetter h]

theorem next?_of_isBlank (h : isBlank c = true) (rest : List Char) :
    next? (c :: rest) = some (run (fun _ => .blank) isBlank [c] rest) := by
  have hColon : c ≠ ':' := by rintro rfl; revert h; decide
  have hSlash : c ≠ '/' := by rintro rfl; revert h; decide
  simp [next?_cons hColon hSlash, h, isDigit_of_isBlank h, isLetter_of_isBlank h]

theorem run_append_of_all {p : Char → Bool} (kindOf : String → Kind) (start : List Char)
    (h : ∀ c ∈ text, p c = true) (rest : List Char) :
    run kindOf p start (text ++ rest) =
      (⟨kindOf (String.ofList (start ++ text ++ rest.takeWhile p)),
        String.ofList (start ++ text ++ rest.takeWhile p)⟩, rest.dropWhile p) := by
  simp [run, List.takeWhile_append_of_pos h, List.dropWhile_append_of_pos h]

end Lexeme

-- ---------------------------------------------------------------------------
-- Words
-- ---------------------------------------------------------------------------

theorem keyword_is_word {word : String} (h : (word, kind) ∈ keywords) :
    wordKind word = kind ∧ ∃ first tail, word.toList = first :: tail ∧ isLetter first = true ∧
      ∀ c ∈ tail, isWordChar c = true := by
  simp only [keywords, List.mem_cons, Prod.mk.injEq, List.not_mem_nil, or_false] at h
  rcases h with ⟨rfl, rfl⟩ | ⟨rfl, rfl⟩ | ⟨rfl, rfl⟩ | ⟨rfl, rfl⟩ | ⟨rfl, rfl⟩ <;>
    exact ⟨by decide, _, _, rfl, by decide, List.all_eq_true.mp (by decide)⟩

theorem wordKind_eq_name_iff {word : String} :
    wordKind word = .name ↔ word ∉ keywords.map Prod.fst := by
  constructor
  · intro hk hm
    obtain ⟨⟨other, kind⟩, hmem, rfl⟩ := List.mem_map.mp hm
    obtain ⟨hkind, -⟩ := keyword_is_word hmem
    rw [hk] at hkind
    subst hkind
    revert hmem
    simp [keywords]
  · intro hm
    unfold wordKind
    cases h : keywords.lookup word with
    | none => rfl
    | some kind => exact absurd (List.mem_map_of_mem (mem_of_lookup_eq_some h)) hm

-- ---------------------------------------------------------------------------
-- What is taken, by the lexeme that starts the text
-- ---------------------------------------------------------------------------

namespace Lexeme

theorem next?_word {first : Char} {tail : List Char} (hf : isLetter first = true)
    (ht : ∀ c ∈ tail, isWordChar c = true) (rest : List Char) :
    next? (first :: tail ++ rest) =
      some (⟨wordKind (String.ofList (first :: tail ++ rest.takeWhile isWordChar)),
        String.ofList (first :: tail ++ rest.takeWhile isWordChar)⟩,
        rest.dropWhile isWordChar) := by
  rw [List.cons_append, next?_of_isLetter hf, run_append_of_all _ _ ht]
  rfl

theorem next?_append_of_fixed (hc : carriesOn text = fun _ => false)
    (hn : next? (text ++ rest) = some (⟨kind, String.ofList text⟩, rest)) :
    next? (text ++ rest) =
      some (⟨kind, String.ofList (text ++ rest.takeWhile (carriesOn text))⟩,
        rest.dropWhile (carriesOn text)) := by
  have htake : rest.takeWhile (fun _ => false) = [] := by cases rest <;> rfl
  have hdrop : rest.dropWhile (fun _ => false) = rest := by cases rest <;> rfl
  rw [hc, htake, hdrop, hn, List.append_nil]

end Lexeme

/-- A text that starts with a lexeme has this one, carried on as far as it goes,
taken from it. If nothing carries it on, the kind is its own, or that of a word
of its text. -/
theorem Spells.next?_append (h : Spells kind text) (rest : List Char) :
    ∃ taken, Lexeme.next? (text ++ rest) =
        some (⟨taken, String.ofList (text ++ rest.takeWhile (carriesOn text))⟩,
          rest.dropWhile (carriesOn text)) ∧
      (rest.takeWhile (carriesOn text) = [] →
        taken = kind ∨ kind = .name ∧ taken = wordKind (String.ofList text)) := by
  cases h with
  | number hne hd =>
    obtain ⟨first, tail, rfl⟩ := List.exists_cons_of_ne_nil hne
    rw [List.forall_mem_cons] at hd
    rw [carriesOn_of_isDigit hd.1]
    refine ⟨.number, ?_, fun _ => .inl rfl⟩
    rw [List.cons_append, Lexeme.next?_of_isDigit hd.1, Lexeme.run_append_of_all _ _ hd.2]
    rfl
  | name hf ht =>
    rw [carriesOn_of_isLetter hf]
    refine ⟨_, Lexeme.next?_word hf ht rest, fun hstop => .inr ⟨rfl, ?_⟩⟩
    rw [hstop, List.append_nil]
  | keyword hk =>
    obtain ⟨hkind, first, tail, hw, hf, ht⟩ := keyword_is_word hk
    rw [hw, carriesOn_of_isLetter hf]
    refine ⟨_, Lexeme.next?_word hf ht rest, fun hstop => .inl ?_⟩
    rw [hstop, List.append_nil, ← hw, String.ofList_toList, hkind]
  | comment ht =>
    refine ⟨.comment, ?_, fun _ => .inl rfl⟩
    exact congrArg some (Lexeme.run_append_of_all _ ['/', '/'] ht rest)
  | blank hne hb =>
    obtain ⟨first, tail, rfl⟩ := List.exists_cons_of_ne_nil hne
    rw [List.forall_mem_cons] at hb
    rw [carriesOn_of_isBlank hb.1]
    refine ⟨.blank, ?_, fun _ => .inl rfl⟩
    rw [List.cons_append, Lexeme.next?_of_isBlank hb.1, Lexeme.run_append_of_all _ _ hb.2]
    rfl
  | assign => exact ⟨.assign, Lexeme.next?_append_of_fixed rfl rfl, fun _ => .inl rfl⟩
  | plus => exact ⟨.plus, Lexeme.next?_append_of_fixed rfl rfl, fun _ => .inl rfl⟩
  | minus => exact ⟨.minus, Lexeme.next?_append_of_fixed rfl rfl, fun _ => .inl rfl⟩
  | openParen => exact ⟨.openParen, Lexeme.next?_append_of_fixed rfl rfl, fun _ => .inl rfl⟩
  | closeParen => exact ⟨.closeParen, Lexeme.next?_append_of_fixed rfl rfl, fun _ => .inl rfl⟩
  | semicolon => exact ⟨.semicolon, Lexeme.next?_append_of_fixed rfl rfl, fun _ => .inl rfl⟩
  | lineBreak => exact ⟨.lineBreak, Lexeme.next?_append_of_fixed rfl rfl, fun _ => .inl rfl⟩

def Stops (text rest : List Char) : Prop := ∀ c ∈ rest.head?, carriesOn text c = false

theorem Stops.takeWhile (h : Stops text rest) : rest.takeWhile (carriesOn text) = [] := by
  cases rest with
  | nil => rfl
  | cons c rest => simp [h c rfl]

theorem Stops.dropWhile (h : Stops text rest) : rest.dropWhile (carriesOn text) = rest := by
  cases rest with
  | nil => rfl
  | cons c rest => simp [h c rfl]

theorem Spells.next?_of_stops (h : Spells kind text)
    (hk : kind = .name → String.ofList text ∉ keywords.map Prod.fst) (hs : Stops text rest) :
    Lexeme.next? (text ++ rest) = some (⟨kind, String.ofList text⟩, rest) := by
  obtain ⟨taken, hn, htaken⟩ := h.next?_append rest
  rw [hs.takeWhile, hs.dropWhile, List.append_nil] at hn
  rcases htaken hs.takeWhile with rfl | ⟨rfl, rfl⟩
  · exact hn
  · rw [hn, wordKind_eq_name_iff.mpr (hk rfl)]

end Abacus
