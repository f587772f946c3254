import Abacus.Proofs.Node.RoundTrip
import Abacus.Run

/-!
# The written form is canonical

A program is written with the tokens it was read from, less parentheses that it does not
need (`Derives.dropsParens`). The argument goes by the rules: as an operand, arithmetic
stands in parentheses, in the source as in the written form; as a formula it need not. So
of all tokens that are read as a program, or as one that differs only in places, none are
fewer than those it is written with. And since a written form reads back, two programs
are written alike exactly if they differ only in places.
-/

namespace Abacus

/-- Of the first lexemes the second are what is left when parentheses are taken out, and
nothing else. -/
structure DropsParens (all kept : List Lexeme) : Prop where
  sublist : kept.Sublist all
  rest_eq : kept.filter (fun lexeme => lexeme.kind ∉ [Kind.openParen, .closeParen]) =
    all.filter fun lexeme => lexeme.kind ∉ [Kind.openParen, .closeParen]

/-- The lexeme of a token; parentheses and semicolons as they are written. -/
def Token.plain (token : Token) : Lexeme :=
  match token.kind with
  | .openParen => ⟨.openParen, "("⟩
  | .closeParen => ⟨.closeParen, ")"⟩
  | .semicolon => ⟨.semicolon, ";"⟩
  | _ => token.toLexeme

def Rule.spelling : Rule → Node → List Lexeme
  | .operand, node => node.spellRight node.spelling
  | _, node => node.spelling

variable {rule : Rule} {tokens : List Token} {token : Token} {node a b : Node}
variable {all kept others left : List Lexeme}

-- ---------------------------------------------------------------------------
-- Leaving out parentheses
-- ---------------------------------------------------------------------------

namespace DropsParens

theorem refl (all : List Lexeme) : DropsParens all all := ⟨List.Sublist.refl _, rfl⟩

theorem trans (h : DropsParens all kept) (hk : DropsParens kept left) : DropsParens all left :=
  ⟨hk.sublist.trans h.sublist, hk.rest_eq.trans h.rest_eq⟩

theorem append (h : DropsParens all kept) (ho : DropsParens others left) :
    DropsParens (all ++ others) (kept ++ left) :=
  ⟨h.sublist.append ho.sublist, by simp only [List.filter_append, h.rest_eq, ho.rest_eq]⟩

theorem cons (lexeme : Lexeme) (h : DropsParens all kept) :
    DropsParens (lexeme :: all) (lexeme :: kept) :=
  (refl [lexeme]).append h

theorem parens (all : List Lexeme) :
    DropsParens (⟨.openParen, "("⟩ :: (all ++ [⟨.closeParen, ")"⟩])) all :=
  ⟨by simp, by simp⟩

theorem spellRight (node : Node) (all : List Lexeme) : DropsParens (node.spellRight all) all := by
  unfold Node.spellRight
  split
  next => exact .parens all
  next => exact .refl all

theorem parens_spellRight (node : Node) (h : DropsParens all kept) :
    DropsParens (⟨.openParen, "("⟩ :: (all ++ [⟨.closeParen, ")"⟩])) (node.spellRight kept) := by
  unfold Node.spellRight
  split
  next => exact (h.append (.refl _)).cons _
  next => exact (DropsParens.parens all).trans h

end DropsParens

-- ---------------------------------------------------------------------------
-- The tokens of a tree, and those it is written with
-- ---------------------------------------------------------------------------

theorem Derives.dropsParens (h : Derives rule tokens node) :
    DropsParens (tokens.map Token.plain) (rule.spelling node) := by
  induction h with
  | number hk | name hk =>
    simp only [List.map_cons, List.map_nil, Token.plain, hk]
    exact .refl _
  | parens ho _ hc ih =>
    simp only [List.map_cons, List.map_append, List.map_nil, Token.plain, ho, hc]
    exact ih.parens_spellRight _
  | single _ ih => exact ih.trans (.spellRight _ _)
  | add _ hk _ ihl ihr | sub _ hk _ ihl ihr =>
    simp only [List.map_cons, List.map_append, Token.plain, hk, Rule.spelling, Node.spelling,
      List.append_assoc]
    exact ihl.append (ihr.cons _)
  | print hk _ ih =>
    simp only [List.map_cons, Token.plain, hk]
    exact ih.cons _
  | assignName hn hk _ ih | assignNumber hn hk _ ih =>
    simp only [List.map_cons, Token.plain, hn, hk]
    exact (ih.cons _).cons _
  | printStatement _ ih | assignmentStatement _ ih => exact ih
  | noStatements => exact .refl _
  | moreStatements _ hs _ ihi ihr =>
    simp only [List.map_cons, List.map_append, Token.plain, hs]
    exact ihi.append (ihr.cons _)

theorem Derives.length_spelling_le (h : Derives rule tokens node) :
    (rule.spelling node).length ≤ tokens.length := by
  simpa using h.dropsParens.sublist.length_le

theorem Token.Spelt.plain_eq (h : token.Spelt token.kind) : token.plain = token.toLexeme := by
  obtain ⟨⟨kind, text⟩, place⟩ := token
  obtain ⟨-, hs, -⟩ := h
  have htext : text = String.ofList text.toList := String.ofList_toList.symm
  generalize hcs : text.toList = cs at hs htext
  subst htext
  cases hs with
  | keyword hm =>
    simp only [keywords, List.mem_cons, Prod.mk.injEq, List.not_mem_nil, or_false] at hm
    rcases hm with ⟨-, rfl⟩ | ⟨-, rfl⟩ | ⟨-, rfl⟩ | ⟨-, rfl⟩ | ⟨-, rfl⟩ <;> rfl
  | _ => rfl

theorem map_plain_of_tokenize {source : String} (h : tokenize source = .ok tokens) :
    tokens.map Token.plain = tokens.map (·.toLexeme) :=
  List.map_congr_left fun _ hm => (spelt_of_mem_tokens h hm).plain_eq

-- ---------------------------------------------------------------------------
-- Trees that differ only in places
-- ---------------------------------------------------------------------------

namespace Node

theorem spellingAll_mapAll {f : Token → Token} {items : List Node}
    (h : ∀ item ∈ items, (item.map f).spelling = item.spelling) :
    spellingAll (mapAll f items) = spellingAll items := by
  induction items with
  | nil => rfl
  | cons item items ih =>
    rw [List.forall_mem_cons] at h
    simp only [mapAll, spellingAll, h.1, ih h.2]

theorem spelling_map {f : Token → Token} (hf : ∀ token, (f token).toLexeme = token.toLexeme)
    (node : Node) : (node.map f).spelling = node.spelling := by
  induction node with
  | number token | name token => simp only [map, spelling, hf]
  | print token operand ih => simp only [map, spelling, hf, ih]
  | arith op token left right ihl ihr =>
    simp only [map, spelling, spellRight, isArith_map, hf, ihl, ihr]
  | assign token target value iht ihv => simp only [map, spelling, hf, iht, ihv]
  | block items ih =>
    simp only [map, spelling]
    exact spellingAll_mapAll ih

theorem spelling_bare (node : Node) : node.bare.spelling = node.spelling :=
  spelling_map (f := Token.bare) (fun _ => rfl) node

theorem spelling_eq_of_bare_eq (h : a.bare = b.bare) : a.spelling = b.spelling := by
  rw [← spelling_bare a, h, spelling_bare b]

theorem IsProgram.bare_eq_of_render_eq (ha : a.IsProgram) (hb : b.IsProgram)
    (h : a.render = b.render) : a.bare = b.bare := by
  have hwords : (a.spelling, ([] : List Char)) = (b.spelling, []) := by
    rw [← ha.words_render, h, hb.words_render]
  have hspelling : a.spelling = b.spelling := congrArg Prod.fst hwords
  obtain ⟨tokens, -, htokens⟩ := exists_tokenize_of_words ha.words_render
  obtain ⟨first, hfirst, hfirstBare⟩ := ha.copied htokens
  obtain ⟨second, hsecond, hsecondBare⟩ := hb.copied (htokens.trans hspelling)
  obtain rfl := hfirst.unique hsecond
  exact hfirstBare.symm.trans hsecondBare

end Node

/-- A program that is read from a source is written with the tokens of the source, less
parentheses, and with no more tokens than any that it can be read from. Two programs are
written alike exactly if they differ only in the places of their tokens. -/
theorem render_is_canonical :
    (∀ source tokens program, tokenize source = .ok tokens → parse tokens = .ok program →
      ∃ written, tokenize program.render = .ok written ∧
        DropsParens (tokens.map (·.toLexeme)) (written.map (·.toLexeme)) ∧
        (∃ copy, parse written = .ok copy ∧ copy.bare = program.bare) ∧
        ∀ others copy, parse others = .ok copy → copy.bare = program.bare →
          written.length ≤ others.length) ∧
    (∀ first second a b, readProgram first = .ok a → readProgram second = .ok b →
      (a.render = b.render ↔ a.bare = b.bare)) := by
  refine ⟨fun source tokens program ht hp => ?_, fun first second a b ha hb => ?_⟩
  · have hprogram := isProgram_of_parse ht hp
    obtain ⟨written, hw, hspelling⟩ := exists_tokenize_of_words hprogram.words_render
    refine ⟨written, hw, ?_, ?_, fun others copy ho hbare => ?_⟩
    · rw [hspelling, ← map_plain_of_tokenize ht]
      exact (parse_eq_ok_iff.mp hp).dropsParens
    · obtain ⟨copy, hderives, hbare⟩ := hprogram.copied hspelling
      exact ⟨copy, parse_eq_ok_iff.mpr hderives, hbare⟩
    · calc written.length
          = (written.map (·.toLexeme)).length := by simp
        _ = copy.spelling.length := by rw [hspelling, Node.spelling_eq_of_bare_eq hbare]
        _ ≤ others.length := (parse_eq_ok_iff.mp ho).length_spelling_le
  · obtain ⟨firstTokens, hft, hfp⟩ := readProgram_eq_ok ha
    obtain ⟨secondTokens, hst, hsp⟩ := readProgram_eq_ok hb
    have hfirst := isProgram_of_parse hft hfp
    have hsecond := isProgram_of_parse hst hsp
    exact ⟨hfirst.bare_eq_of_render_eq hsecond, Node.render_eq_of_bare_eq⟩

end Abacus
