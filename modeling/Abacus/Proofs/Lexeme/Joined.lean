import Abacus.Proofs.Lexeme.MaximalMunch

/-!
# Texts joined by a line feed

No lexeme but a line break holds a line feed, and none is carried on by one. So
the tokens of two texts joined by a line feed are those of the first text, and
those of the second behind it (`tokenizeFrom_append_lineFeed`). Behind a text, tokens and
errors are what they are at the start of a source, with their places shifted
(`tokenizeFrom_shift`).
-/

namespace Abacus

open Lexeme (next? next?_append spells_of_next?)

variable {kind : Kind} {lexeme : Lexeme} {c : Char} {p : Place}
variable {cs text rest more : List Char}

-- ---------------------------------------------------------------------------
-- Lexemes before a line feed
-- ---------------------------------------------------------------------------

theorem Spells.eq_of_lineFeed_mem (h : Spells kind text) (hm : '\n' ∈ text) : text = ['\n'] := by
  have absent {class_ : Char → Bool} {text : List Char} (hfeed : class_ '\n' = false)
      (hall : ∀ c ∈ text, class_ c = true) : '\n' ∉ text := by
    intro hm
    rw [hall _ hm] at hfeed
    cases hfeed
  rcases h.classes with ⟨first, tail, rfl, hf, ht⟩ | ⟨first, tail, rfl, hd⟩ |
    ⟨first, tail, rfl, hb⟩ | ⟨tail, rfl, ht⟩ | hsym
  · have hword : ∀ c ∈ first :: tail, isWordChar c = true :=
      List.forall_mem_cons.mpr ⟨isWordChar_of_isLetter hf, ht⟩
    exact absurd hm (absent (by decide) hword)
  · exact absurd hm (absent (by decide) (List.forall_mem_cons.mpr hd))
  · exact absurd hm (absent (by decide) (List.forall_mem_cons.mpr hb))
  · simp only [List.mem_cons] at hm
    rcases hm with hm | hm | hm
    · cases hm
    · cases hm
    · exact absurd hm (absent (by decide) ht)
  · revert hm
    simp only [List.mem_cons, List.not_mem_nil, or_false] at hsym
    rcases hsym with rfl | rfl | rfl | rfl | rfl | rfl | rfl <;> decide

theorem carriesOn_lineFeed (text : List Char) : carriesOn text '\n' = false := by
  unfold carriesOn
  split
  next => rfl
  next =>
    split
    next => decide
    next =>
      split
      next => decide
      next =>
        split
        next => decide
        next =>
          split
          next => decide
          next => rfl

theorem stops_of_next? (h : next? cs = some (lexeme, rest)) : Stops lexeme.text.toList rest := by
  obtain ⟨taken, hn, -⟩ := (spells_of_next? h).next?_append rest
  rw [next?_append h, h] at hn
  obtain ⟨hlexeme, -⟩ := Prod.mk.inj (Option.some.inj hn)
  have hlength := congrArg (·.text.toList.length) hlexeme
  have hstop : rest.takeWhile (carriesOn lexeme.text.toList) = [] := by simpa using hlength
  intro c hc
  obtain ⟨tail, rfl⟩ := List.head?_eq_some_iff.mp hc
  by_contra hcarries
  simp [hcarries] at hstop

theorem next?_append_lineFeed (h : next? cs = some (lexeme, rest)) (more : List Char) :
    next? (cs ++ '\n' :: more) = some (lexeme, rest ++ '\n' :: more) := by
  have hmunch := munches_of_next? h
  have hstops : Stops lexeme.text.toList (rest ++ '\n' :: more) := by
    intro c hc
    cases rest with
    | nil =>
      cases hc
      exact carriesOn_lineFeed _
    | cons d rest => exact stops_of_next? h c hc
  have hn := (spells_of_next? h).next?_of_stops
    (by rw [String.ofList_toList]; exact hmunch.not_mem_keywords) hstops
  rwa [String.ofList_toList, ← List.append_assoc, next?_append h] at hn

/-- A text at which no lexeme starts starts none with a line feed behind it: the
lexeme would hold the line feed. -/
theorem next?_append_lineFeed_eq_none (h : next? (c :: cs) = none) (more : List Char) :
    next? (c :: cs ++ '\n' :: more) = none := by
  rw [next?_eq_none_iff] at h ⊢
  intro kind text hs hp
  rcases List.prefix_or_prefix_of_prefix hp (List.prefix_append _ _) with hle | ⟨tail, rfl⟩
  · exact h kind text hs hle
  · rw [List.prefix_append_right_inj] at hp
    cases tail with
    | nil => exact h kind _ hs (by simp)
    | cons d tail =>
      obtain ⟨rfl, -⟩ := List.cons_prefix_cons.mp hp
      have heq := hs.eq_of_lineFeed_mem (by simp)
      simp at heq

-- ---------------------------------------------------------------------------
-- Tokens of joined texts
-- ---------------------------------------------------------------------------

theorem Place.after_nil (p : Place) : p.after (String.ofList []) = p := by
  simp [Place.after]

theorem tokenizeFrom_append_lineFeed (p : Place) (cs more : List Char) :
    tokenizeFrom p (cs ++ '\n' :: more) =
      (tokenizeFrom p cs).bind fun tokens =>
        (tokenizeFrom ((p.after (String.ofList cs)).after "\n") more).map (tokens ++ ·) := by
  induction cs using Lexeme.split.induct generalizing p with
  | case1 cs lexeme rest h ih =>
    have hplace : (p.after lexeme.text).after (String.ofList rest) =
        p.after (String.ofList cs) := by
      rw [← next?_append h, String.ofList_append, String.ofList_toList, Place.after_append]
    rw [tokenizeFrom_of_next? (next?_append_lineFeed h more), tokenizeFrom_of_next? h, ih, hplace]
    cases lexeme.kind.isTrivia with
    | true => rfl
    | false =>
      cases tokenizeFrom (p.after lexeme.text) rest with
      | error e => rfl
      | ok tokens =>
        cases tokenizeFrom ((p.after (String.ofList cs)).after "\n") more <;> rfl
  | case2 cs h =>
    cases cs with
    | nil =>
      have hfeed : next? ('\n' :: more) = some (⟨.lineBreak, "\n"⟩, more) := rfl
      rw [List.nil_append, tokenizeFrom_of_next? hfeed, tokenizeFrom_nil, Place.after_nil]
      cases tokenizeFrom (p.after "\n") more <;> rfl
    | cons c cs =>
      have hnone := next?_append_lineFeed_eq_none h more
      rw [List.cons_append] at hnone ⊢
      rw [tokenizeFrom_of_next?_eq_none h, tokenizeFrom_of_next?_eq_none hnone]
      rfl

-- ---------------------------------------------------------------------------
-- Shifted places
-- ---------------------------------------------------------------------------

def Place.shift (bytes lines : Nat) (p : Place) : Place := ⟨p.offset + bytes, p.line + lines⟩

def Token.shift (bytes lines : Nat) (token : Token) : Token :=
  ⟨token.toLexeme, token.toPlace.shift bytes lines⟩

def LexicalError.shift (bytes lines : Nat) (e : LexicalError) : LexicalError :=
  ⟨e.toPlace.shift bytes lines, e.text⟩

theorem Place.after_shift (bytes lines : Nat) (p : Place) (text : String) :
    (p.shift bytes lines).after text = (p.after text).shift bytes lines := by
  simp [Place.shift, Place.after, Nat.add_right_comm]

theorem tokenizeFrom_shift (bytes lines : Nat) (p : Place) (cs : List Char) :
    tokenizeFrom (p.shift bytes lines) cs =
      ((tokenizeFrom p cs).map (·.map (Token.shift bytes lines))).mapError
        (LexicalError.shift bytes lines) := by
  induction cs using Lexeme.split.induct generalizing p with
  | case1 cs lexeme rest h ih =>
    rw [tokenizeFrom_of_next? h, tokenizeFrom_of_next? h, Place.after_shift, ih]
    cases lexeme.kind.isTrivia with
    | true => rfl
    | false => cases tokenizeFrom (p.after lexeme.text) rest <;> rfl
  | case2 cs h =>
    cases cs with
    | nil =>
      rw [tokenizeFrom_nil, tokenizeFrom_nil]
      rfl
    | cons c cs =>
      rw [tokenizeFrom_of_next?_eq_none h, tokenizeFrom_of_next?_eq_none h]
      rfl

end Abacus
