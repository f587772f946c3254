import Abacus.Proofs.Node.Shape
import Abacus.Node.Printer

/-!
# The lexemes of a written tree

`Node.spelling` gives the lexemes that a tree is written with, trivia left out.
Written texts keep their lexemes apart: each is followed by a blank or a
semicolon, which carry on no token. So cutting the text of a program gives its
spelling (`IsProgram.words_render`).
-/

namespace Abacus

open Lexeme (next? split)

variable {kind : Kind} {token : Token} {lexeme : Lexeme} {node : Node} {c : Char}
variable {cs text rest : List Char} {lexemes others : List Lexeme}

-- ---------------------------------------------------------------------------
-- Lexemes that are tokens
-- ---------------------------------------------------------------------------

/-- The lexemes of a text less its trivia, and the text at which none starts. -/
def Lexeme.words (cs : List Char) : List Lexeme × List Char :=
  (split cs).map (·.filter fun lexeme => !lexeme.kind.isTrivia) id

namespace Lexeme

theorem words_nil : words [] = ([], []) := by
  rw [words, split_of_next?_eq_none rfl]
  rfl

theorem words_of_trivia (h : next? cs = some (lexeme, rest)) (hk : lexeme.kind.isTrivia = true) :
    words cs = words rest := by
  simp [words, split_of_next?_eq_some h, Prod.map, hk]

theorem words_of_token (h : next? cs = some (lexeme, rest)) (hk : lexeme.kind.isTrivia = false) :
    words cs = (words rest).map (lexeme :: ·) id := by
  simp [words, split_of_next?_eq_some h, Prod.map, hk]

theorem words_lineBreak (cs : List Char) : words ('\n' :: cs) = words cs :=
  words_of_trivia rfl rfl

theorem words_blank (h : isBlank c = true) (cs : List Char) : words (c :: cs) = words cs := by
  rw [words_of_trivia (next?_of_isBlank h cs) rfl]
  cases cs with
  | nil => rfl
  | cons d cs =>
    cases hd : isBlank d with
    | false => simp [hd]
    | true =>
      rw [words_of_trivia (next?_of_isBlank hd cs) rfl]
      simp [hd]

end Lexeme

def Breaks (rest : List Char) : Prop := ∀ c ∈ rest.head?, isWordChar c = false

theorem Spells.isWordChar_of_carriesOn (h : Spells kind text) (hk : kind.isTrivia = false)
    (hc : carriesOn text c = true) : isWordChar c = true := by
  cases h with
  | number hne hd =>
    obtain ⟨first, tail, rfl⟩ := List.exists_cons_of_ne_nil hne
    rw [List.forall_mem_cons] at hd
    rw [carriesOn_of_isDigit hd.1] at hc
    exact isWordChar_of_isDigit hc
  | name hf _ => rwa [carriesOn_of_isLetter hf] at hc
  | keyword hm =>
    obtain ⟨-, first, tail, hw, hf, -⟩ := keyword_is_word hm
    rwa [hw, carriesOn_of_isLetter hf] at hc
  | comment => cases hk
  | lineBreak => cases hk
  | blank => cases hk
  | _ => exact absurd hc (by simp [carriesOn, Decimal.isDigit, isLetter, isBlank])

theorem Spells.stops (h : Spells kind text) (hk : kind.isTrivia = false) (hb : Breaks rest) :
    Stops text rest := by
  intro c hc
  by_contra hcarries
  rw [Bool.not_eq_false] at hcarries
  have hword := h.isWordChar_of_carriesOn hk hcarries
  rw [hb c hc] at hword
  cases hword

-- ---------------------------------------------------------------------------
-- Texts that are cut into given lexemes
-- ---------------------------------------------------------------------------

/-- Where the text stops behind it, `text` is cut into these lexemes and trivia. -/
def Cuts (text : String) (lexemes : List Lexeme) : Prop :=
  ∀ rest, Breaks rest →
    Lexeme.words (text.toList ++ rest) = (Lexeme.words rest).map (lexemes ++ ·) id

theorem Token.Spelt.cuts (h : token.Spelt kind) (hk : kind.isTrivia = false) :
    Cuts token.text [token.toLexeme] := by
  obtain ⟨rfl, hs, hname⟩ := h
  intro rest hb
  have hn := hs.next?_of_stops (by rwa [String.ofList_toList]) (hs.stops hk hb)
  rw [String.ofList_toList] at hn
  exact Lexeme.words_of_token hn hk

theorem Cuts.append {first second : String} (hf : Cuts first lexemes) (hs : Cuts second others) :
    Cuts (first ++ " " ++ second) (lexemes ++ others) := by
  intro rest hb
  have hblank : Breaks (' ' :: (second.toList ++ rest)) := by
    rintro _ ⟨⟩
    decide
  have htext : (first ++ " " ++ second).toList ++ rest =
      first.toList ++ ' ' :: (second.toList ++ rest) := by
    simp
  rw [htext, hf _ hblank, Lexeme.words_blank rfl, hs rest hb]
  simp [Prod.map]

theorem cuts_openParen : Cuts "(" [⟨.openParen, "("⟩] := by
  have hs : Token.Spelt ⟨⟨.openParen, "("⟩, .start⟩ .openParen := ⟨rfl, .openParen, nofun⟩
  exact hs.cuts rfl

theorem cuts_closeParen : Cuts ")" [⟨.closeParen, ")"⟩] := by
  have hs : Token.Spelt ⟨⟨.closeParen, ")"⟩, .start⟩ .closeParen := ⟨rfl, .closeParen, nofun⟩
  exact hs.cuts rfl

-- ---------------------------------------------------------------------------
-- The spelling of a tree
-- ---------------------------------------------------------------------------

namespace Node

def spellRight (node : Node) (lexemes : List Lexeme) : List Lexeme :=
  if node.isArith then [⟨.openParen, "("⟩] ++ lexemes ++ [⟨.closeParen, ")"⟩] else lexemes

mutual

def spelling : Node → List Lexeme
  | .number token | .name token => [token.toLexeme]
  | .print token operand => [token.toLexeme] ++ spelling operand
  | .arith _ token left right =>
    spelling left ++ [token.toLexeme] ++ right.spellRight (spelling right)
  | .assign token target value => spelling target ++ [token.toLexeme] ++ spelling value
  | .block items => spellingAll items

def spellingAll : List Node → List Lexeme
  | [] => []
  | item :: items => spelling item ++ ⟨.semicolon, ";"⟩ :: spellingAll items

end

theorem IsLeaf.cuts (h : node.IsLeaf) : Cuts node.render node.spelling := by
  cases h with
  | number hs => exact hs.cuts rfl
  | name hs => exact hs.cuts rfl

theorem cuts_parenthesize (h : Cuts node.render node.spelling) :
    Cuts (node.parenthesize node.render) (node.spellRight node.spelling) := by
  unfold parenthesize spellRight
  split
  next =>
    have htext : "( " ++ node.render ++ " )" = "(" ++ " " ++ node.render ++ " " ++ ")" := by
      rw [show "( " = "(" ++ " " from rfl, show " )" = " " ++ ")" from rfl]
      simp only [String.append_assoc]
    rw [htext]
    exact (cuts_openParen.append h).append cuts_closeParen
  next => exact h

theorem IsFormula.cuts (h : node.IsFormula) : Cuts node.render node.spelling := by
  induction h with
  | leaf hl => exact hl.cuts
  | @arith op token left right hs _ _ ihl ihr =>
    have hk : op.kind.isTrivia = false := by cases op <;> rfl
    exact (ihl.append (hs.cuts hk)).append (cuts_parenthesize ihr)

theorem IsStatement.cuts (h : node.IsStatement) : Cuts node.render node.spelling := by
  cases h with
  | print hs hf => exact (hs.cuts rfl).append hf.cuts
  | assign hs hl hf => exact (hl.cuts.append (hs.cuts rfl)).append hf.cuts

theorem words_renderItems {items : List Node} (h : ∀ item ∈ items, item.IsStatement) :
    Lexeme.words (renderItems items).toList = (spellingAll items, []) := by
  induction items with
  | nil => exact Lexeme.words_nil
  | cons item items ih =>
    rw [List.forall_mem_cons] at h
    have hsemi : Breaks (';' :: '\n' :: (renderItems items).toList) := by
      rintro _ ⟨⟩
      decide
    have htext : (renderItems (item :: items)).toList =
        item.render.toList ++ ';' :: '\n' :: (renderItems items).toList := by
      simp [renderItems]
    have hnext : next? (';' :: '\n' :: (renderItems items).toList) =
        some (⟨.semicolon, ";"⟩, '\n' :: (renderItems items).toList) := rfl
    rw [htext, h.1.cuts _ hsemi, Lexeme.words_of_token hnext rfl, Lexeme.words_lineBreak, ih h.2]
    simp [Prod.map, spellingAll]

theorem IsProgram.words_render (h : node.IsProgram) :
    Lexeme.words node.render.toList = (node.spelling, []) := by
  obtain ⟨h⟩ := h
  exact words_renderItems h

end Node

theorem exists_tokenizeFrom_of_words (p : Place) (h : Lexeme.words cs = (lexemes, [])) :
    ∃ tokens, tokenizeFrom p cs = .ok tokens ∧ tokens.map (·.toLexeme) = lexemes := by
  unfold Lexeme.words at h
  rcases hs : split cs with ⟨all, left⟩
  rw [hs] at h
  obtain ⟨rfl, rfl⟩ := Prod.mk.inj h
  refine ⟨(p.tokens all).filter fun token => !token.kind.isTrivia, ?_, ?_⟩
  · rw [tokenizeFrom, hs]
  · calc ((p.tokens all).filter fun token => !token.kind.isTrivia).map (·.toLexeme)
        = ((p.tokens all).map (·.toLexeme)).filter fun lexeme =>
            !lexeme.kind.isTrivia := by rw [List.filter_map]; rfl
      _ = all.filter fun lexeme => !lexeme.kind.isTrivia := by rw [Place.map_toLexeme_tokens]

theorem exists_tokenize_of_words {source : String}
    (h : Lexeme.words source.toList = (lexemes, [])) :
    ∃ tokens, tokenize source = .ok tokens ∧ tokens.map (·.toLexeme) = lexemes :=
  exists_tokenizeFrom_of_words .start h

end Abacus
