import Mathlib.Data.List.Chain
import Abacus.Proofs.Lexeme.Joined
import Abacus.Proofs.Node.Spelling

/-!
# Tokens and the gaps between them

A layout is a row of tokens with a gap before each and a gap behind the last. Gaps
are made of blanks, line breaks and comments; a comment runs up to a line end, or
to the end of the text. A gap may be empty, but not between two tokens that would
be carried on one by the other (`Glues`): a word and a word or number, or two
numbers.

The text of a layout is cut into its tokens, each at the place where it was put
(`tokenize_text_of_wellSpaced`).
-/

namespace Abacus

open Decimal (isDigit)
open Lexeme (next? next?_of_isBlank)

variable {c : Char} {p : Place} {lexeme first second : Lexeme}
variable {gap last rest : List Char} {items : List (List Char × Lexeme)}

-- ---------------------------------------------------------------------------
-- Gaps
-- ---------------------------------------------------------------------------

/-- Blanks, line breaks, and comments up to a line end. -/
inductive Gap : List Char → Prop
  | nil : Gap []
  | space {c : Char} {rest : List Char} : isBlank c = true ∨ c = '\n' → Gap rest → Gap (c :: rest)
  | comment {text rest : List Char} {c : Char} : (∀ d ∈ text, isCommentChar d = true) →
      c = '\n' ∨ c = '\r' → Gap (c :: rest) → Gap ('/' :: '/' :: text ++ c :: rest)

inductive LastGap : List Char → Prop
  | gap {gap : List Char} : Gap gap → LastGap gap
  | comment {gap text : List Char} : Gap gap → (∀ c ∈ text, isCommentChar c = true) →
      LastGap (gap ++ '/' :: '/' :: text)

theorem isCommentChar_eq_false_iff : isCommentChar c = false ↔ c = '\n' ∨ c = '\r' := by
  simp [isCommentChar, imp_iff_or_not, or_comm]

theorem isWordChar_of_isBlank (h : isBlank c = true) : isWordChar c = false := by
  simp [isWordChar, isLetter_of_isBlank h, isDigit_of_isBlank h]

theorem Gap.breaks (h : Gap gap) (hne : gap ≠ []) (rest : List Char) : Breaks (gap ++ rest) := by
  cases h with
  | nil => exact absurd rfl hne
  | space hc _ =>
    rintro _ ⟨⟩
    rcases hc with hb | rfl
    · exact isWordChar_of_isBlank hb
    · decide
  | comment =>
    rintro _ ⟨⟩
    decide

theorem LastGap.breaks (h : LastGap last) : Breaks last := by
  cases h with
  | gap hg =>
    by_cases hne : last = []
    · subst hne
      nofun
    · simpa using hg.breaks hne []
  | @comment gap text hg _ =>
    by_cases hne : gap = []
    · subst hne
      rintro _ ⟨⟩
      decide
    · exact hg.breaks hne _

theorem tokenizeFrom_blank (h : isBlank c = true) (p : Place) (cs : List Char) :
    tokenizeFrom p (c :: cs) = tokenizeFrom (p.after (String.ofList [c])) cs := by
  have whole {c : Char} (h : isBlank c = true) (p : Place) (cs : List Char) :
      tokenizeFrom p (c :: cs) =
        tokenizeFrom (p.after (String.ofList (c :: cs.takeWhile isBlank))) (cs.dropWhile isBlank) :=
    tokenizeFrom_of_next? (next?_of_isBlank h cs) p
  rw [whole h]
  cases cs with
  | nil => rfl
  | cons d cs =>
    cases hd : isBlank d with
    | false => simp [hd]
    | true =>
      rw [whole hd, ← Place.after_append, ← String.ofList_append]
      simp [hd]

theorem tokenizeFrom_comment {text : List Char} (p : Place) (h : ∀ d ∈ text, isCommentChar d = true)
    (hr : ∀ c ∈ rest.head?, isCommentChar c = false) :
    tokenizeFrom p ('/' :: '/' :: text ++ rest) =
      tokenizeFrom (p.after (String.ofList ('/' :: '/' :: text))) rest :=
  tokenizeFrom_of_next? ((Spells.comment h).next?_of_stops nofun hr) p

theorem Gap.tokenizeFrom (h : Gap gap) (p : Place) (rest : List Char) :
    tokenizeFrom p (gap ++ rest) = tokenizeFrom (p.after (String.ofList gap)) rest := by
  induction h generalizing p with
  | nil => rw [List.nil_append, p.after_nil]
  | @space c tail hc _ ih =>
    have hplace : (p.after (String.ofList [c])).after (String.ofList tail) =
        p.after (String.ofList (c :: tail)) := by
      rw [← Place.after_append, ← String.ofList_append]
      rfl
    have hstep : Abacus.tokenizeFrom p (c :: (tail ++ rest)) =
        Abacus.tokenizeFrom (p.after (String.ofList [c])) (tail ++ rest) := by
      rcases hc with hb | rfl
      · exact tokenizeFrom_blank hb p _
      · have hn : next? ('\n' :: (tail ++ rest)) = some (⟨.lineBreak, "\n"⟩, tail ++ rest) := rfl
        exact tokenizeFrom_of_next? hn p
    rw [List.cons_append, hstep, ih, hplace]
  | @comment text tail c ht hc _ ih =>
    have hstop : ∀ d ∈ ((c :: tail) ++ rest).head?, isCommentChar d = false := by
      rintro _ ⟨⟩
      exact isCommentChar_eq_false_iff.mpr hc
    rw [List.append_assoc, tokenizeFrom_comment p ht hstop, ih, ← Place.after_append,
      ← String.ofList_append]

theorem LastGap.tokenizeFrom (h : LastGap last) (p : Place) : tokenizeFrom p last = .ok [] := by
  cases h with
  | gap hg =>
    have hend := hg.tokenizeFrom p []
    rw [List.append_nil] at hend
    rw [hend, tokenizeFrom_nil]
  | @comment gap text hg ht =>
    have hstop : ∀ c ∈ ([] : List Char).head?, isCommentChar c = false := nofun
    have hend := tokenizeFrom_comment (p.after (String.ofList gap)) ht hstop
    rw [List.append_nil] at hend
    rw [hg.tokenizeFrom, hend, tokenizeFrom_nil]

-- ---------------------------------------------------------------------------
-- Tokens side by side
-- ---------------------------------------------------------------------------

/-- A lexeme of a kind that is no trivia. A name is no keyword. -/
structure Lexeme.IsToken (lexeme : Lexeme) : Prop where
  not_trivia : lexeme.kind.isTrivia = false
  spells : Spells lexeme.kind lexeme.text.toList
  not_keyword : lexeme.kind = .name → lexeme.text ∉ keywords.map Prod.fst

def Lexeme.IsWord (lexeme : Lexeme) : Prop :=
  lexeme.kind = .name ∨ (lexeme.text, lexeme.kind) ∈ keywords

/-- Side by side, the first of these tokens would run on into the second. -/
def Glues (first second : Lexeme) : Prop :=
  first.IsWord ∧ (second.IsWord ∨ second.kind = .number) ∨
    first.kind = .number ∧ second.kind = .number

theorem Lexeme.IsWord.kind_ne_number (h : lexeme.IsWord) : lexeme.kind ≠ .number := by
  intro hk
  rcases h with hname | hmem
  · rw [hk] at hname
    cases hname
  · rw [hk] at hmem
    simp [keywords] at hmem

theorem Lexeme.IsToken.cases (h : lexeme.IsToken) :
    (∃ c tail, lexeme.text.toList = c :: tail ∧ lexeme.IsWord ∧ isLetter c = true) ∨
    (∃ c tail, lexeme.text.toList = c :: tail ∧ lexeme.kind = .number ∧ isDigit c = true) ∨
    (∃ c tail, lexeme.text.toList = c :: tail ∧ ¬ lexeme.IsWord ∧ lexeme.kind ≠ .number ∧
      isWordChar c = false ∧ isCommentChar c = true ∧ carriesOn (c :: tail) = fun _ => false) := by
  obtain ⟨kind, text⟩ := lexeme
  obtain ⟨cs, rfl⟩ : ∃ cs, text = String.ofList cs := ⟨text.toList, String.ofList_toList.symm⟩
  obtain ⟨hk, hs, -⟩ := h
  simp only [String.toList_ofList] at hk hs ⊢
  cases hs with
  | name hf _ => exact .inl ⟨_, _, rfl, .inl rfl, hf⟩
  | @keyword word kind hm =>
    obtain ⟨-, c, tail, hw, hf, -⟩ := keyword_is_word hm
    exact .inl ⟨c, tail, hw, .inr (by rwa [String.ofList_toList]), hf⟩
  | number hne hd =>
    obtain ⟨c, tail, rfl⟩ := List.exists_cons_of_ne_nil hne
    exact .inr (.inl ⟨c, tail, rfl, rfl, hd c List.mem_cons_self⟩)
  | comment => cases hk
  | lineBreak => cases hk
  | blank => cases hk
  | _ => exact .inr (.inr ⟨_, _, rfl, by unfold IsWord; decide, nofun, rfl, rfl, rfl⟩)

theorem Lexeme.IsToken.stops_iff (hf : first.IsToken) (hs : second.IsToken) (rest : List Char) :
    Stops first.text.toList (second.text.toList ++ rest) ↔ ¬ Glues first second := by
  have hhead {c : Char} {tail : List Char} (ht : second.text.toList = c :: tail) :
      Stops first.text.toList (second.text.toList ++ rest) ↔
        carriesOn first.text.toList c = false := by
    simp [Stops, ht]
  obtain ⟨c, tail, hfirst, hword, hc⟩ | ⟨c, tail, hfirst, hnumber, hc⟩ |
    ⟨c, tail, hfirst, hword, hnumber, -, -, hc⟩ := hf.cases
  · obtain ⟨d, more, hsecond, hd⟩ | ⟨d, more, hsecond, hd⟩ | ⟨d, more, hsecond, hd⟩ := hs.cases
    · rw [hhead hsecond, hfirst, carriesOn_of_isLetter hc]
      simp [Glues, hword, hd, isWordChar]
    · rw [hhead hsecond, hfirst, carriesOn_of_isLetter hc]
      simp [Glues, hword, hd, isWordChar]
    · rw [hhead hsecond, hfirst, carriesOn_of_isLetter hc]
      simp [Glues, hd, hword.kind_ne_number]
  · have hword : ¬ first.IsWord := fun hword => hword.kind_ne_number hnumber
    obtain ⟨d, more, hsecond, hd, hletter⟩ | ⟨d, more, hsecond, hd, hdigit⟩ |
      ⟨d, more, hsecond, hd, hne, hbreaks, -⟩ := hs.cases
    · rw [hhead hsecond, hfirst, carriesOn_of_isDigit hc]
      simp [Glues, hword, hd.kind_ne_number, isDigit_of_isLetter hletter]
    · rw [hhead hsecond, hfirst, carriesOn_of_isDigit hc]
      simp [Glues, hnumber, hd, hdigit]
    · rw [hhead hsecond, hfirst, carriesOn_of_isDigit hc]
      simp_all [Glues, isWordChar]
  · simp [Glues, Stops, hfirst, hc, hword, hnumber]

theorem Lexeme.IsToken.tokenizeFrom (h : lexeme.IsToken) (hs : Stops lexeme.text.toList rest)
    (p : Place) :
    tokenizeFrom p (lexeme.text.toList ++ rest) =
      (tokenizeFrom (p.after lexeme.text) rest).map (⟨lexeme, p⟩ :: ·) := by
  have hn := h.spells.next?_of_stops (by rw [String.ofList_toList]; exact h.not_keyword) hs
  rw [String.ofList_toList] at hn
  rw [tokenizeFrom_of_next? hn, h.not_trivia]
  rfl

-- ---------------------------------------------------------------------------
-- Layouts
-- ---------------------------------------------------------------------------

/-- Lexemes with a gap before each, and a gap behind the last. -/
structure Layout where
  items : List (List Char × Lexeme)
  last : List Char

def textOf (items : List (List Char × Lexeme)) : List Char :=
  items.flatMap fun (gap, lexeme) => gap ++ lexeme.text.toList

def Place.laid (p : Place) : List (List Char × Lexeme) → List Token
  | [] => []
  | (gap, lexeme) :: items =>
    let here := p.after (String.ofList gap)
    ⟨lexeme, here⟩ :: (here.after lexeme.text).laid items

def Layout.text (layout : Layout) : List Char := textOf layout.items ++ layout.last

def Layout.tokens (layout : Layout) : List Token := Place.start.laid layout.items

/-- The lexemes are tokens, what stands between them are gaps, and a gap that keeps
two tokens apart is not empty. -/
structure Layout.WellSpaced (layout : Layout) : Prop where
  tokens : ∀ item ∈ layout.items, item.2.IsToken
  gaps : ∀ item ∈ layout.items, Gap item.1
  last : LastGap layout.last
  apart : layout.items.IsChain fun item next => Glues item.2 next.2 → next.1 ≠ []

theorem textOf_cons (gap : List Char) (lexeme : Lexeme) (items : List (List Char × Lexeme)) :
    textOf ((gap, lexeme) :: items) = gap ++ (lexeme.text.toList ++ textOf items) := by
  simp [textOf]

namespace Layout.WellSpaced

theorem tail {item : List Char × Lexeme} (h : WellSpaced ⟨item :: items, last⟩) :
    WellSpaced ⟨items, last⟩ where
  tokens := (List.forall_mem_cons.mp h.tokens).2
  gaps := (List.forall_mem_cons.mp h.gaps).2
  last := h.last
  apart := h.apart.tail

theorem stops (h : WellSpaced ⟨(gap, lexeme) :: items, last⟩) :
    Stops lexeme.text.toList (textOf items ++ last) := by
  have htoken : lexeme.IsToken := h.tokens (gap, lexeme) List.mem_cons_self
  cases items with
  | nil => exact htoken.spells.stops htoken.not_trivia h.last.breaks
  | cons item items =>
    obtain ⟨between, next⟩ := item
    have hnext : next.IsToken := h.tail.tokens (between, next) List.mem_cons_self
    have hgap : Gap between := h.tail.gaps (between, next) List.mem_cons_self
    rw [textOf_cons, List.append_assoc, List.append_assoc]
    by_cases hempty : between = []
    · subst hempty
      rw [List.nil_append, htoken.stops_iff hnext]
      exact fun hglues => (List.isChain_cons_cons.mp h.apart).1 hglues rfl
    · exact htoken.spells.stops htoken.not_trivia (hgap.breaks hempty _)

theorem tokenizeFrom (h : WellSpaced ⟨items, last⟩) (p : Place) :
    tokenizeFrom p (textOf items ++ last) = .ok (p.laid items) := by
  induction items generalizing p with
  | nil => exact h.last.tokenizeFrom p
  | cons item items ih =>
    obtain ⟨gap, lexeme⟩ := item
    have htoken : lexeme.IsToken := h.tokens (gap, lexeme) List.mem_cons_self
    have hgap : Gap gap := h.gaps (gap, lexeme) List.mem_cons_self
    rw [textOf_cons, List.append_assoc, List.append_assoc, hgap.tokenizeFrom,
      htoken.tokenizeFrom h.stops, ih h.tail]
    rfl

end Layout.WellSpaced

/-- The text of a layout that keeps its tokens apart is cut into just these tokens,
each at the byte and on the line where it was put. -/
theorem tokenize_text_of_wellSpaced {layout : Layout} (h : layout.WellSpaced) :
    tokenize (String.ofList layout.text) = .ok layout.tokens := by
  rw [tokenize, String.toList_ofList]
  exact h.tokenizeFrom .start

/-- A number may stand right before a name, and a comment right behind a token. The
letter in the first comment takes two bytes. -/
theorem tokenize_text_of_wellSpaced_comments :
    let layout : Layout :=
      ⟨[([], ⟨.print, "LOG"⟩), ([' '], ⟨.number, "1"⟩), ([], ⟨.name, "x"⟩),
        (['/', '/', 'й', '\n'], ⟨.assign, ":="⟩), (['\t'], ⟨.semicolon, ";"⟩)], ['/', '/', ';']⟩
    layout.WellSpaced ∧ tokenize "LOG 1x//й\n:=\t;//;" = .ok
      [⟨⟨.print, "LOG"⟩, ⟨0, 1⟩⟩, ⟨⟨.number, "1"⟩, ⟨4, 1⟩⟩, ⟨⟨.name, "x"⟩, ⟨5, 1⟩⟩,
        ⟨⟨.assign, ":="⟩, ⟨11, 2⟩⟩, ⟨⟨.semicolon, ";"⟩, ⟨14, 2⟩⟩] := by
  intro layout
  have hspaced : layout.WellSpaced := by
    refine ⟨?_, ?_, .comment .nil (List.all_eq_true.mp rfl), ?_⟩
    · simp only [layout, List.forall_mem_cons, List.not_mem_nil, false_imp_iff, implies_true,
        and_true]
      exact ⟨⟨rfl, .keyword (by decide), nofun⟩,
        ⟨rfl, .number nofun (List.all_eq_true.mp rfl), nofun⟩,
        ⟨rfl, .name rfl nofun, fun _ => by decide⟩, ⟨rfl, .assign, nofun⟩, ⟨rfl, .semicolon, nofun⟩⟩
    · simp only [layout, List.forall_mem_cons, List.not_mem_nil, false_imp_iff, implies_true,
        and_true]
      have hcomment : Gap ('/' :: '/' :: ['й'] ++ '\n' :: []) :=
        .comment (List.all_eq_true.mp rfl) (.inl rfl) (.space (.inr rfl) .nil)
      exact ⟨.nil, .space (.inl rfl) .nil, .nil, hcomment, .space (.inl rfl) .nil⟩
    · simp [layout, Glues, Lexeme.IsWord, keywords]
  have htext : "LOG 1x//й\n:=\t;//;" = String.ofList layout.text := by decide
  refine ⟨hspaced, ?_⟩
  rw [htext, tokenize_text_of_wellSpaced hspaced]
  decide

end Abacus
