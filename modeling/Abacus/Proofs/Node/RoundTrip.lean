import Abacus.Proofs.Node.Bare
import Abacus.Proofs.Node.Spelling

/-!
# Written programs read back

Tokens with the spelling of a formula derive a copy of it: parentheses stand
around right operands that are arithmetic, which are then single operands, and
left operands need none, since sums are read from the left. The same holds of
statements and programs. With the cut of a written text into its spelling, a
program that is written and read again is the same but for the places of its
tokens.
-/

namespace Abacus.Node

variable {node : Node} {token : Token} {tokens : List Token} {rule : Rule}

/-- A tree that is derived from the tokens and equal to a given one but for
places. -/
def CopiedBy (node : Node) (rule : Rule) (tokens : List Token) : Prop :=
  ∃ copy, Derives rule tokens copy ∧ copy.bare = node.bare

theorem bare_eq_of_toLexeme_eq {other : Token} (h : other.toLexeme = token.toLexeme) :
    other.bare = token.bare := by
  rw [Token.bare, h, Token.bare]

theorem IsLeaf.copied (h : node.IsLeaf) (ht : tokens.map (·.toLexeme) = node.spelling) :
    ∃ other copy, tokens = [other] ∧ other.leaf? = some copy ∧ copy.bare = node.bare := by
  cases h with
  | number hs =>
    obtain ⟨other, rfl, ho⟩ := List.map_eq_singleton_iff.mp ht
    have hk : other.kind = .number := hs.kind_eq_of_toLexeme_eq ho
    refine ⟨other, .number other, rfl, by simp [Token.leaf?, hk], ?_⟩
    exact congrArg Node.number (bare_eq_of_toLexeme_eq ho)
  | name hs =>
    obtain ⟨other, rfl, ho⟩ := List.map_eq_singleton_iff.mp ht
    have hk : other.kind = .name := hs.kind_eq_of_toLexeme_eq ho
    refine ⟨other, .name other, rfl, by simp [Token.leaf?, hk], ?_⟩
    exact congrArg Node.name (bare_eq_of_toLexeme_eq ho)

theorem exists_of_map_toLexeme_eq {lefts rights : List Lexeme} {lexeme : Lexeme}
    (h : tokens.map (·.toLexeme) = lefts ++ lexeme :: rights) :
    ∃ before token after, tokens = before ++ token :: after ∧
      before.map (·.toLexeme) = lefts ∧ token.toLexeme = lexeme ∧
      after.map (·.toLexeme) = rights := by
  obtain ⟨before, more, rfl, hb, hm⟩ := List.map_eq_append_iff.mp h
  obtain ⟨token, after, rfl, ht, ha⟩ := List.map_eq_cons_iff.mp hm
  exact ⟨before, token, after, rfl, hb, ht, ha⟩

theorem IsFormula.copied_right (h : node.IsFormula)
    (ih : ∀ {tokens : List Token}, tokens.map (·.toLexeme) = node.spelling →
      node.CopiedBy .formula tokens)
    (ht : tokens.map (·.toLexeme) = node.spellRight node.spelling) :
    node.CopiedBy .operand tokens := by
  cases h with
  | leaf hl =>
    have hright : node.spellRight node.spelling = node.spelling := by cases hl <;> rfl
    rw [hright] at ht
    obtain ⟨other, copy, rfl, hcopy, hbare⟩ := hl.copied ht
    exact ⟨copy, Token.derives_of_leaf? hcopy, hbare⟩
  | arith =>
    obtain ⟨opening, others, rfl, ho, hothers⟩ := List.map_eq_cons_iff.mp ht
    obtain ⟨body, last, rfl, hb, hlast⟩ := List.map_eq_append_iff.mp hothers
    obtain ⟨closing, rfl, hc⟩ := List.map_eq_singleton_iff.mp hlast
    obtain ⟨copy, hd, hbare⟩ := ih hb
    have hopening : opening.kind = .openParen := congrArg Lexeme.kind ho
    have hclosing : closing.kind = .closeParen := congrArg Lexeme.kind hc
    exact ⟨copy, .parens hopening hd hclosing, hbare⟩

theorem IsFormula.copied (h : node.IsFormula) (ht : tokens.map (·.toLexeme) = node.spelling) :
    node.CopiedBy .formula tokens := by
  induction h generalizing tokens with
  | leaf hl =>
    obtain ⟨other, copy, rfl, hcopy, hbare⟩ := hl.copied ht
    exact ⟨copy, .single (Token.derives_of_leaf? hcopy), hbare⟩
  | @arith op token left right hs _ hright ihl ihr =>
    rw [spelling, List.append_assoc] at ht
    obtain ⟨before, other, after, rfl, hb, ho, ha⟩ := exists_of_map_toLexeme_eq ht
    obtain ⟨leftCopy, hl, hlbare⟩ := ihl hb
    obtain ⟨rightCopy, hr, hrbare⟩ := hright.copied_right ihr ha
    have hk : other.kind = op.kind := hs.kind_eq_of_toLexeme_eq ho
    refine ⟨.arith op other leftCopy rightCopy, ?_, ?_⟩
    · cases op with
      | add => exact .add hl hk hr
      | sub => exact .sub hl hk hr
    · have hbare := bare_eq_of_toLexeme_eq ho
      simp only [bare, map] at hlbare hrbare ⊢
      rw [hbare, hlbare, hrbare]

theorem IsStatement.copied (h : node.IsStatement) (ht : tokens.map (·.toLexeme) = node.spelling) :
    node.CopiedBy .statement tokens := by
  cases h with
  | @print token operand hs hf =>
    obtain ⟨other, body, rfl, ho, hb⟩ := List.map_eq_cons_iff.mp ht
    obtain ⟨copy, hd, hbare⟩ := hf.copied hb
    have hk : other.kind = .print := hs.kind_eq_of_toLexeme_eq ho
    refine ⟨.print other copy, .printStatement (.print hk hd), ?_⟩
    have htoken := bare_eq_of_toLexeme_eq ho
    simp only [bare, map] at hbare ⊢
    rw [htoken, hbare]
  | @assign token target value hs hl hf =>
    rw [spelling, List.append_assoc] at ht
    obtain ⟨before, other, after, rfl, hb, ho, ha⟩ := exists_of_map_toLexeme_eq ht
    obtain ⟨target, targetCopy, rfl, htarget, htbare⟩ := hl.copied hb
    obtain ⟨valueCopy, hvalue, hvbare⟩ := hf.copied ha
    have hk : other.kind = .assign := hs.kind_eq_of_toLexeme_eq ho
    refine ⟨.assign other targetCopy valueCopy, .assignmentStatement ?_, ?_⟩
    · exact (Leads.assign htarget hk).build hvalue
    · have htoken := bare_eq_of_toLexeme_eq ho
      simp only [bare, map] at htbare hvbare ⊢
      rw [htoken, htbare, hvbare]

theorem copied_of_items {items : List Node} (h : ∀ item ∈ items, item.IsStatement)
    (ht : tokens.map (·.toLexeme) = spellingAll items) :
    (Node.block items).CopiedBy .code tokens := by
  induction items generalizing tokens with
  | nil =>
    obtain rfl := List.map_eq_nil_iff.mp ht
    exact ⟨.block [], .noStatements, rfl⟩
  | cons item items ih =>
    rw [List.forall_mem_cons] at h
    rw [spellingAll] at ht
    obtain ⟨before, semicolon, after, rfl, hb, hs, ha⟩ := exists_of_map_toLexeme_eq ht
    obtain ⟨itemCopy, hitem, hibare⟩ := h.1.copied hb
    obtain ⟨restCopy, hrest, hrbare⟩ := ih h.2 ha
    obtain ⟨copies, rfl⟩ := hrest.code_eq_block
    have hk : semicolon.kind = .semicolon := congrArg Lexeme.kind hs
    refine ⟨.block (itemCopy :: copies), .moreStatements hitem hk hrest, ?_⟩
    simp only [bare, map, mapAll, Node.block.injEq] at hibare hrbare ⊢
    rw [hibare, hrbare]

theorem IsProgram.copied (h : node.IsProgram) (ht : tokens.map (·.toLexeme) = node.spelling) :
    node.CopiedBy .code tokens := by
  obtain ⟨h⟩ := h
  exact copied_of_items h ht

/-- Every program that is written reads back as itself but for places, and is then
written alike; and what can be read from any source is a program. -/
theorem render_reads_back :
    (∀ program : Node, program.IsProgram → ∃ tokens copy,
      tokenize program.render = .ok tokens ∧ parse tokens = .ok copy ∧
      copy.bare = program.bare ∧ copy.render = program.render) ∧
    (∀ source tokens program, tokenize source = .ok tokens → parse tokens = .ok program →
      program.IsProgram) := by
  refine ⟨fun program h => ?_, fun source tokens program => isProgram_of_parse⟩
  obtain ⟨tokens, htokens, hspelling⟩ := exists_tokenize_of_words h.words_render
  obtain ⟨copy, hderives, hbare⟩ := h.copied hspelling
  exact ⟨tokens, copy, htokens, parse_eq_ok_iff.mpr hderives, hbare, render_eq_of_bare_eq hbare⟩

end Abacus.Node
