import Abacus.Proofs.Lexeme.Extent
import Abacus.Tokenize
import Mathlib.Data.List.TakeWhile

/-!
# Maximal munch

`Munches` says which lexeme a text starts with: the longest that is spelt as any
kind asks, and a keyword rather than a name. `Scans` is the lexer that follows
from it: it munches from a cursor on, drops trivia, and stops at the first
cursor at which no lexeme starts.

`tokenize` is this lexer. Taking the longest lexeme loses no source that can be
cut into lexemes in some other way (`Tileable.of_next?`): what the longest one
takes away from the lexemes behind it leaves lexemes.
-/

namespace Abacus

open Decimal (isDigit)
open Lexeme (next? next?_append spells_of_next?)

variable {kind : Kind} {lexeme : Lexeme} {c : Char} {p : Place}
variable {cs text rest : List Char}

-- ---------------------------------------------------------------------------
-- The longest lexeme
-- ---------------------------------------------------------------------------

/-- The longest lexeme at the start of a text, and the text behind it. Where a
name and a keyword are equally long, it is the keyword. -/
structure Munches (cs : List Char) (lexeme : Lexeme) (rest : List Char) : Prop where
  append : lexeme.text.toList ++ rest = cs
  spells : Spells lexeme.kind lexeme.text.toList
  longest : ∀ kind text, Spells kind text → text <+: cs → text.length ≤ lexeme.text.toList.length
  keyword : lexeme.kind = .name → ∀ kind, Spells kind lexeme.text.toList → kind = .name

def Unspelt (cs : List Char) : Prop := ∀ kind text, Spells kind text → ¬ text <+: cs

theorem munches_of_next? (h : next? cs = some (lexeme, rest)) : Munches cs lexeme rest where
  append := next?_append h
  spells := spells_of_next? h
  longest := by
    rintro kind text hs ⟨tail, rfl⟩
    obtain ⟨taken, hn, -⟩ := hs.next?_append tail
    rw [h] at hn
    cases hn
    simp
  keyword := by
    intro hname kind hs
    -- The lexeme is taken once more from its own text, so nothing carries it on.
    obtain ⟨taken, hn, htaken⟩ := hs.next?_append rest
    rw [next?_append h, h] at hn
    obtain ⟨hlexeme, -⟩ := Prod.mk.inj (Option.some.inj hn)
    have htext := congrArg (·.text.toList.length) hlexeme
    have hstop : rest.takeWhile (carriesOn lexeme.text.toList) = [] := by
      simpa using htext
    have hkind : taken = .name := by rw [← hname, hlexeme]
    rcases htaken hstop with rfl | ⟨hk, -⟩
    · exact hkind
    · exact hk

theorem Munches.next? (h : Munches cs lexeme rest) : next? cs = some (lexeme, rest) := by
  obtain ⟨rfl, hs, hlongest, hkeyword⟩ := h
  obtain ⟨taken, hn, htaken⟩ := hs.next?_append rest
  have hle := hlongest _ _ (spells_of_next? hn) ⟨_, next?_append hn⟩
  have hstop : rest.takeWhile (carriesOn lexeme.text.toList) = [] := by
    rw [String.toList_ofList, List.length_append] at hle
    exact List.eq_nil_of_length_eq_zero (by omega)
  have hdrop : rest.dropWhile (carriesOn lexeme.text.toList) = rest := by
    simpa [hstop] using List.takeWhile_append_dropWhile
      (p := carriesOn lexeme.text.toList) (l := rest)
  rw [hstop, hdrop, List.append_nil, String.ofList_toList] at hn
  have hkind : taken = lexeme.kind := by
    rcases htaken hstop with rfl | ⟨hname, -⟩
    · rfl
    · rw [hname]
      exact hkeyword hname taken (spells_of_next? hn)
  rw [hn, hkind]

theorem next?_eq_none_iff : next? cs = none ↔ Unspelt cs := by
  constructor
  · rintro hn kind text hs ⟨tail, rfl⟩
    obtain ⟨taken, hsome, -⟩ := hs.next?_append tail
    rw [hn] at hsome
    cases hsome
  · intro hu
    cases hn : next? cs with
    | none => rfl
    | some taken =>
      obtain ⟨lexeme, rest⟩ := taken
      exact absurd ⟨rest, next?_append hn⟩ (hu _ _ (spells_of_next? hn))

-- ---------------------------------------------------------------------------
-- The lexer
-- ---------------------------------------------------------------------------

/-- The lexer that munches from a cursor at a given place to the end of the
text, or to the first cursor at which no lexeme starts. -/
inductive Scans : Place → List Char → Except LexicalError (List Token) → Prop
  | done {p : Place} : Scans p [] (.ok [])
  | stuck {p : Place} {c : Char} {cs : List Char} :
      Unspelt (c :: cs) → Scans p (c :: cs) (.error ⟨p, String.singleton c⟩)
  | trivia {p : Place} {cs rest : List Char} {lexeme : Lexeme}
      {result : Except LexicalError (List Token)} :
      Munches cs lexeme rest → lexeme.kind.isTrivia = true →
      Scans (p.after lexeme.text) rest result → Scans p cs result
  | token {p : Place} {cs rest : List Char} {lexeme : Lexeme}
      {result : Except LexicalError (List Token)} :
      Munches cs lexeme rest → lexeme.kind.isTrivia = false →
      Scans (p.after lexeme.text) rest result →
      Scans p cs (result.map (⟨lexeme, p⟩ :: ·))

theorem tokenizeFrom_of_next? (h : next? cs = some (lexeme, rest)) (p : Place) :
    tokenizeFrom p cs =
      if lexeme.kind.isTrivia then tokenizeFrom (p.after lexeme.text) rest
      else (tokenizeFrom (p.after lexeme.text) rest).map (⟨lexeme, p⟩ :: ·) := by
  simp only [tokenizeFrom, Lexeme.split_of_next?_eq_some h]
  rcases Lexeme.split rest with ⟨lexemes, _ | ⟨c, left⟩⟩
  · cases hk : lexeme.kind.isTrivia <;> simp [Place.tokens, hk, Except.map]
  · cases lexeme.kind.isTrivia <;> rfl

theorem tokenizeFrom_nil (p : Place) : tokenizeFrom p [] = .ok [] := by
  rw [tokenizeFrom, Lexeme.split_of_next?_eq_none rfl]
  rfl

theorem tokenizeFrom_of_next?_eq_none (h : next? (c :: cs) = none) (p : Place) :
    tokenizeFrom p (c :: cs) = .error ⟨p, String.singleton c⟩ := by
  rw [tokenizeFrom, Lexeme.split_of_next?_eq_none h]
  rfl

theorem scans_tokenizeFrom (p : Place) (cs : List Char) : Scans p cs (tokenizeFrom p cs) := by
  induction cs using Lexeme.split.induct generalizing p with
  | case1 cs lexeme rest h ih =>
    rw [tokenizeFrom_of_next? h]
    have hm := munches_of_next? h
    split
    next hk => exact .trivia hm hk (ih _)
    next hk => exact .token hm (Bool.not_eq_true _ ▸ hk) (ih _)
  | case2 cs h =>
    cases cs with
    | nil =>
      rw [tokenizeFrom_nil]
      exact .done
    | cons c cs =>
      rw [tokenizeFrom_of_next?_eq_none h]
      exact .stuck (next?_eq_none_iff.mp h)

theorem Scans.tokenizeFrom_eq {result : Except LexicalError (List Token)}
    (h : Scans p cs result) : tokenizeFrom p cs = result := by
  induction h with
  | done => exact tokenizeFrom_nil _
  | stuck hu => exact tokenizeFrom_of_next?_eq_none (next?_eq_none_iff.mpr hu) _
  | trivia hm hk _ ih => rw [tokenizeFrom_of_next? hm.next?, if_pos hk, ih]
  | token hm hk _ ih => rw [tokenizeFrom_of_next? hm.next?, hk, ih]; rfl

-- ---------------------------------------------------------------------------
-- Greedy choice loses nothing
-- ---------------------------------------------------------------------------

def Tileable (cs : List Char) : Prop :=
  ∃ pieces : List (List Char), (∀ piece ∈ pieces, ∃ kind, Spells kind piece) ∧
    pieces.flatten = cs

theorem Tileable.nil : Tileable [] := ⟨[], by simp, rfl⟩

theorem Tileable.append (h : Spells kind text) (hr : Tileable rest) : Tileable (text ++ rest) := by
  obtain ⟨pieces, hp, rfl⟩ := hr
  exact ⟨text :: pieces, List.forall_mem_cons.mpr ⟨⟨kind, h⟩, hp⟩, rfl⟩

theorem Unspelt.not_tileable (h : Unspelt (c :: cs)) : ¬ Tileable (c :: cs) := by
  rintro ⟨pieces, hs, hp⟩
  cases pieces with
  | nil => cases hp
  | cons piece pieces =>
    obtain ⟨⟨kind, hpiece⟩, -⟩ := List.forall_mem_cons.mp hs
    exact h kind piece hpiece ⟨pieces.flatten, hp⟩

/-- Dropping a run of the class from the front of any lexeme leaves nothing or a
lexeme. -/
def Leaves (p : Char → Bool) : Prop :=
  ∀ kind text, Spells kind text → text.dropWhile p = [] ∨ ∃ kind, Spells kind (text.dropWhile p)

/-- What is left of a text that can be cut can be cut: the drop ends between two
lexemes or inside of one. -/
theorem Tileable.dropWhile {p : Char → Bool} (hp : Leaves p) (h : Tileable cs) :
    Tileable (cs.dropWhile p) := by
  obtain ⟨pieces, hs, rfl⟩ := h
  induction pieces with
  | nil => exact .nil
  | cons piece pieces ih =>
    rw [List.forall_mem_cons] at hs
    obtain ⟨⟨kind, hpiece⟩, hpieces⟩ := hs
    rw [List.flatten_cons, List.dropWhile_append]
    rcases hp kind piece hpiece with hnil | ⟨kind, hleft⟩
    · rw [hnil]
      exact ih hpieces
    · have hne : (piece.dropWhile p).isEmpty = false := by
        simpa using hleft.ne_nil
      rw [hne]
      exact .append hleft ⟨pieces, hpieces, rfl⟩

theorem leaves_of_all_or_head {p : Char → Bool} (h : ∀ kind text, Spells kind text →
    (∀ c ∈ text, p c = true) ∨ ∃ c ∈ text.head?, p c = false) : Leaves p := by
  intro kind text hs
  rcases h kind text hs with hall | ⟨c, hc, hhead⟩
  · exact .inl (List.dropWhile_eq_nil_iff.mpr hall)
  · obtain ⟨tail, rfl⟩ := List.head?_eq_some_iff.mp hc
    exact .inr ⟨kind, by rwa [List.dropWhile_cons_of_neg (by simp [hhead])]⟩

theorem Spells.classes (h : Spells kind text) :
    (∃ first tail, text = first :: tail ∧ isLetter first = true ∧
      ∀ c ∈ tail, isWordChar c = true) ∨
    (∃ first tail, text = first :: tail ∧ isDigit first = true ∧ ∀ c ∈ tail, isDigit c = true) ∨
    (∃ first tail, text = first :: tail ∧ isBlank first = true ∧ ∀ c ∈ tail, isBlank c = true) ∨
    (∃ tail, text = '/' :: '/' :: tail ∧ ∀ c ∈ tail, isCommentChar c = true) ∨
    text ∈ [[':', '='], ['+'], ['-'], ['('], [')'], [';'], ['\n']] := by
  cases h with
  | number hne hd =>
    obtain ⟨first, tail, rfl⟩ := List.exists_cons_of_ne_nil hne
    rw [List.forall_mem_cons] at hd
    exact .inr (.inl ⟨first, tail, rfl, hd⟩)
  | name hf ht => exact .inl ⟨_, _, rfl, hf, ht⟩
  | keyword hk => exact .inl (keyword_is_word hk).2
  | comment ht => exact .inr (.inr (.inr (.inl ⟨_, rfl, ht⟩)))
  | blank hne hb =>
    obtain ⟨first, tail, rfl⟩ := List.exists_cons_of_ne_nil hne
    rw [List.forall_mem_cons] at hb
    exact .inr (.inr (.inl ⟨first, tail, rfl, hb⟩))
  | _ => exact .inr (.inr (.inr (.inr (by decide))))

theorem classes_of_symbol (h : text ∈ [[':', '='], ['+'], ['-'], ['('], [')'], [';'], ['\n']]) :
    ∃ c ∈ text.head?, isDigit c = false ∧ isWordChar c = false ∧ isBlank c = false := by
  simp only [List.mem_cons, List.not_mem_nil, or_false] at h
  rcases h with rfl | rfl | rfl | rfl | rfl | rfl | rfl <;> exact ⟨_, rfl, rfl, rfl, rfl⟩

theorem leaves_isDigit : Leaves isDigit := by
  refine leaves_of_all_or_head fun kind text hs => ?_
  rcases hs.classes with ⟨first, tail, rfl, hf, -⟩ | ⟨first, tail, rfl, hd⟩ |
    ⟨first, tail, rfl, hb, -⟩ | ⟨tail, rfl, -⟩ | hsym
  · exact .inr ⟨first, rfl, isDigit_of_isLetter hf⟩
  · exact .inl (List.forall_mem_cons.mpr hd)
  · exact .inr ⟨first, rfl, isDigit_of_isBlank hb⟩
  · exact .inr ⟨'/', rfl, rfl⟩
  · obtain ⟨c, hc, hd, -⟩ := classes_of_symbol hsym
    exact .inr ⟨c, hc, hd⟩

theorem leaves_isWordChar : Leaves isWordChar := by
  refine leaves_of_all_or_head fun kind text hs => ?_
  rcases hs.classes with ⟨first, tail, rfl, hf, ht⟩ | ⟨first, tail, rfl, hd, ht⟩ |
    ⟨first, tail, rfl, hb, -⟩ | ⟨tail, rfl, -⟩ | hsym
  · exact .inl (List.forall_mem_cons.mpr ⟨isWordChar_of_isLetter hf, ht⟩)
  · exact .inl (List.forall_mem_cons.mpr
      ⟨isWordChar_of_isDigit hd, fun c hc => isWordChar_of_isDigit (ht c hc)⟩)
  · refine .inr ⟨first, rfl, ?_⟩
    simp [isWordChar, isDigit_of_isBlank hb, isLetter_of_isBlank hb]
  · exact .inr ⟨'/', rfl, rfl⟩
  · obtain ⟨c, hc, -, hw, -⟩ := classes_of_symbol hsym
    exact .inr ⟨c, hc, hw⟩

theorem leaves_isBlank : Leaves isBlank := by
  refine leaves_of_all_or_head fun kind text hs => ?_
  rcases hs.classes with ⟨first, tail, rfl, hf, -⟩ | ⟨first, tail, rfl, hd, -⟩ |
    ⟨first, tail, rfl, hb⟩ | ⟨tail, rfl, -⟩ | hsym
  · refine .inr ⟨first, rfl, Bool.eq_false_iff.mpr fun hb => ?_⟩
    rw [isLetter_of_isBlank hb] at hf
    cases hf
  · refine .inr ⟨first, rfl, Bool.eq_false_iff.mpr fun hb => ?_⟩
    rw [isDigit_of_isBlank hb] at hd
    cases hd
  · exact .inl (List.forall_mem_cons.mpr hb)
  · exact .inr ⟨'/', rfl, rfl⟩
  · obtain ⟨c, hc, -, -, hb⟩ := classes_of_symbol hsym
    exact .inr ⟨c, hc, hb⟩

theorem isCommentChar_of_isWordChar (h : isWordChar c = true) : isCommentChar c = true := by
  have hfeed : c ≠ '\n' := by rintro rfl; revert h; decide
  have hreturn : c ≠ '\r' := by rintro rfl; revert h; decide
  simp [isCommentChar, hfeed, hreturn]

/-- Only blanks reach over the end of a comment: behind it, a carriage return and
more blanks are left. -/
theorem leaves_isCommentChar : Leaves isCommentChar := by
  intro kind text hs
  have whole (h : ∀ c ∈ text, isCommentChar c = true) :
      text.dropWhile isCommentChar = [] ∨ ∃ kind, Spells kind (text.dropWhile isCommentChar) :=
    .inl (List.dropWhile_eq_nil_iff.mpr h)
  rcases hs.classes with ⟨first, tail, rfl, hf, ht⟩ | ⟨first, tail, rfl, hd, ht⟩ |
    ⟨first, tail, rfl, hb⟩ | ⟨tail, rfl, ht⟩ | hsym
  · refine whole (List.forall_mem_cons.mpr ⟨?_, fun c hc => ?_⟩)
    · exact isCommentChar_of_isWordChar (isWordChar_of_isLetter hf)
    · exact isCommentChar_of_isWordChar (ht c hc)
  · refine whole (List.forall_mem_cons.mpr ⟨?_, fun c hc => ?_⟩)
    · exact isCommentChar_of_isWordChar (isWordChar_of_isDigit hd)
    · exact isCommentChar_of_isWordChar (isWordChar_of_isDigit (ht c hc))
  · have hall : ∀ c ∈ first :: tail, isBlank c = true := List.forall_mem_cons.mpr hb
    by_cases hnil : (first :: tail).dropWhile isCommentChar = []
    · exact .inl hnil
    · refine .inr ⟨.blank, .blank hnil fun c hc => hall c ?_⟩
      exact (List.dropWhile_suffix _).subset hc
  · exact whole (List.forall_mem_cons.mpr ⟨rfl, List.forall_mem_cons.mpr ⟨rfl, ht⟩⟩)
  · by_cases hfeed : text = ['\n']
    · exact .inr ⟨.lineBreak, hfeed ▸ .lineBreak⟩
    · refine whole (List.all_eq_true.mp ?_)
      clear hs whole
      revert text
      decide

theorem leaves_carriesOn (text : List Char) : Leaves (carriesOn text) := by
  have nothing : Leaves fun _ => false := by
    intro kind text hs
    exact .inr ⟨kind, by rwa [List.dropWhile_eq_self_iff.mpr (by simp)]⟩
  cases text with
  | nil => exact nothing
  | cons c text =>
    simp only [carriesOn]
    split
    next => exact leaves_isDigit
    next =>
      split
      next => exact leaves_isWordChar
      next =>
        split
        next => exact leaves_isBlank
        next =>
          split
          next => exact leaves_isCommentChar
          next => exact nothing

/-- The exchange: the longest lexeme may reach over lexemes of another cut, and
what it leaves of them can still be cut. -/
theorem Tileable.of_next? (hn : next? cs = some (lexeme, rest)) (h : Tileable cs) :
    Tileable rest := by
  obtain ⟨_ | ⟨piece, pieces⟩, hs, rfl⟩ := h
  · cases hn
  · rw [List.forall_mem_cons] at hs
    obtain ⟨⟨kind, hpiece⟩, hpieces⟩ := hs
    obtain ⟨taken, ht, -⟩ := hpiece.next?_append pieces.flatten
    rw [List.flatten_cons, ht] at hn
    obtain ⟨-, rfl⟩ := Prod.mk.inj (Option.some.inj hn)
    exact .dropWhile (leaves_carriesOn piece) ⟨pieces, hpieces, rfl⟩

-- ---------------------------------------------------------------------------
-- Tokens and errors of a source
-- ---------------------------------------------------------------------------

theorem exists_tokenizeFrom_eq_ok_iff (p : Place) (cs : List Char) :
    (∃ tokens, tokenizeFrom p cs = .ok tokens) ↔ Tileable cs := by
  induction cs using Lexeme.split.induct generalizing p with
  | case1 cs lexeme rest h ih =>
    have hiff : Tileable cs ↔ Tileable rest := by
      refine ⟨.of_next? h, fun hr => ?_⟩
      rw [← next?_append h]
      exact .append (spells_of_next? h) hr
    rw [hiff, ← ih (p.after lexeme.text), tokenizeFrom_of_next? h]
    split
    next => rfl
    next => cases tokenizeFrom (p.after lexeme.text) rest <;> simp [Except.map]
  | case2 cs h =>
    cases cs with
    | nil => simp [tokenizeFrom_nil, Tileable.nil]
    | cons c cs =>
      rw [tokenizeFrom_of_next?_eq_none h]
      have hnot := (next?_eq_none_iff.mp h).not_tileable
      exact ⟨fun ⟨_, he⟩ => (nomatch he), fun ht => absurd ht hnot⟩

inductive Passes : Place → List Char → Place → List Char → Prop
  | here {p : Place} {cs : List Char} : Passes p cs p cs
  | step {p q : Place} {cs rest ahead : List Char} {lexeme : Lexeme} :
      Munches cs lexeme rest → Passes (p.after lexeme.text) rest q ahead → Passes p cs q ahead

theorem Passes.exists_tileable {q : Place} {ahead : List Char} (h : Passes p cs q ahead) :
    ∃ before, before ++ ahead = cs ∧ q = p.after (String.ofList before) ∧ Tileable before := by
  induction h with
  | here => exact ⟨[], rfl, rfl, .nil⟩
  | @step p q cs rest ahead lexeme hm _ ih =>
    obtain ⟨before, rfl, rfl, ht⟩ := ih
    refine ⟨lexeme.text.toList ++ before, by rw [List.append_assoc, hm.append], ?_,
      .append hm.spells ht⟩
    rw [String.ofList_append, String.ofList_toList, Place.after_append]

theorem Passes.exists_append {q : Place} {ahead : List Char} (h : Passes p cs q ahead) :
    ∃ before, before ++ ahead = cs ∧ q = p.after (String.ofList before) := by
  obtain ⟨before, hcs, hplace, -⟩ := h.exists_tileable
  exact ⟨before, hcs, hplace⟩

theorem Scans.passes_token {result : Except LexicalError (List Token)} (h : Scans p cs result)
    {tokens : List Token} (hr : result = .ok tokens) {token : Token} (hm : token ∈ tokens) :
    ∃ after, Passes p cs token.toPlace (token.text.toList ++ after) ∧
      Munches (token.text.toList ++ after) token.toLexeme after := by
  induction h generalizing tokens with
  | done =>
    cases hr
    cases hm
  | stuck => cases hr
  | trivia hmunch _ _ ih =>
    obtain ⟨after, hp, ht⟩ := ih hr hm
    exact ⟨after, .step hmunch hp, ht⟩
  | @token p cs rest lexeme result hmunch _ _ ih =>
    cases result with
    | error e => cases hr
    | ok others =>
      cases hr
      rcases List.mem_cons.mp hm with rfl | hm
      · refine ⟨rest, ?_, ?_⟩
        · rw [hmunch.append]
          exact .here
        · rw [hmunch.append]
          exact hmunch
      · obtain ⟨after, hp, ht⟩ := ih rfl hm
        exact ⟨after, .step hmunch hp, ht⟩

theorem Scans.passes_error {result : Except LexicalError (List Token)} (h : Scans p cs result)
    {e : LexicalError} (hr : result = .error e) :
    ∃ c after, Passes p cs e.toPlace (c :: after) ∧ Unspelt (c :: after) ∧
      e.text = String.singleton c := by
  induction h with
  | done => cases hr
  | stuck hu =>
    cases hr
    exact ⟨_, _, .here, hu, rfl⟩
  | trivia hmunch _ _ ih =>
    obtain ⟨c, after, hp, hu⟩ := ih hr
    exact ⟨c, after, .step hmunch hp, hu⟩
  | @token p cs rest lexeme result hmunch _ _ ih =>
    cases result with
    | ok others => cases hr
    | error e' =>
      cases hr
      obtain ⟨c, after, hp, hu⟩ := ih rfl
      exact ⟨c, after, .step hmunch hp, hu⟩

theorem Munches.not_mem_keywords (h : Munches cs lexeme rest) (hk : lexeme.kind = .name) :
    lexeme.text ∉ keywords.map Prod.fst := by
  intro hm
  obtain ⟨⟨word, kind⟩, hmem, rfl⟩ := List.mem_map.mp hm
  have hname := h.keyword hk kind (.keyword hmem)
  subst hname
  revert hmem
  simp [keywords]

theorem Munches.not_spells_append (h : Munches cs lexeme rest) {more : List Char}
    (hne : more ≠ []) (hm : more <+: rest) (kind : Kind) :
    ¬ Spells kind (lexeme.text.toList ++ more) := by
  intro hs
  have hpre : lexeme.text.toList ++ more <+: cs := by
    rw [← h.append]
    exact (List.prefix_append_right_inj _).mpr hm
  have hle := h.longest kind _ hs hpre
  have hpos := List.length_pos_iff.mpr hne
  rw [List.length_append] at hle
  omega

/-- `tokenize` is the maximal munch lexer. Its names are no keywords, none of its
tokens could be longer, it takes every source that can be cut into lexemes in
any way, and it fails where its run stops. -/
theorem tokenize_maximal_munch (source : String) :
    (∀ result, tokenize source = result ↔ Scans .start source.toList result) ∧
    (∀ tokens, tokenize source = .ok tokens → ∀ token ∈ tokens,
      (token.kind = .name → token.text ∉ keywords.map Prod.fst) ∧
      ∃ before after, source.toList = before ++ token.text.toList ++ after ∧
        token.toPlace = Place.start.after (String.ofList before) ∧
        ∀ kind more, more ≠ [] → more <+: after →
          ¬ Spells kind (token.text.toList ++ more)) ∧
    ((∃ tokens, tokenize source = .ok tokens) ↔ Tileable source.toList) ∧
    (∀ e, tokenize source = .error e → ∃ c after,
      Passes .start source.toList e.toPlace (c :: after) ∧ Unspelt (c :: after) ∧
        e.text = String.singleton c) := by
  have hscan : Scans .start source.toList (tokenize source) := scans_tokenizeFrom _ _
  refine ⟨fun result => ⟨fun h => h ▸ hscan, Scans.tokenizeFrom_eq⟩, ?_,
    exists_tokenizeFrom_eq_ok_iff _ _, fun e he => hscan.passes_error he⟩
  intro tokens htokens token hmem
  obtain ⟨after, hpass, hmunch⟩ := hscan.passes_token htokens hmem
  obtain ⟨before, hsource, hplace⟩ := hpass.exists_append
  refine ⟨hmunch.not_mem_keywords, before, after, ?_, hplace, ?_⟩
  · rw [List.append_assoc, hsource]
  · exact fun kind more hne hm => hmunch.not_spells_append hne hm kind

end Abacus
