import Abacus.Proofs.Grammar.Rewriting
import Abacus.Proofs.Lexeme.Joined
import Abacus.Proofs.Node.Lines
import Abacus.Proofs.Node.RoundTrip

/-!
# Reformatting keeps the meaning

A written program has one statement on each line, so that the tokens of a
statement that is read back are all on the line of its number
(`exists_copies_on_lines`). Evaluation looks at no other place, so a program that
is written and run does what the source it was read from does. Only the line of an
error differs: it is the number of the statement that fails.
-/

namespace Abacus

variable {kind : Kind} {p : Place} {cs text : List Char} {node : Node} {items : List Node}
variable {source : String} {tokens : List Token} {program : Node}

-- ---------------------------------------------------------------------------
-- One statement on a line
-- ---------------------------------------------------------------------------

theorem Spells.lineFeed_not_mem (h : Spells kind text) (hk : kind.isTrivia = false) :
    '\n' ∉ text := by
  intro hm
  obtain rfl := h.eq_of_lineFeed_mem hm
  -- Cut on its own, the text is a line break.
  obtain ⟨taken, hn, htaken⟩ := h.next?_append []
  obtain ⟨hlexeme, -⟩ := Prod.mk.inj (Option.some.inj hn)
  obtain rfl : Kind.lineBreak = taken := congrArg Lexeme.kind hlexeme
  rcases htaken rfl with rfl | ⟨rfl, hname⟩
  · cases hk
  · revert hname
    decide

namespace Node

theorem IsLeaf.lineFeed_not_mem (h : node.IsLeaf) : '\n' ∉ node.render.toList := by
  cases h with
  | number hs => exact hs.spells.lineFeed_not_mem rfl
  | name hs => exact hs.spells.lineFeed_not_mem rfl

theorem IsFormula.lineFeed_not_mem (h : node.IsFormula) : '\n' ∉ node.render.toList := by
  induction h with
  | leaf hl => exact hl.lineFeed_not_mem
  | @arith op token left right hs _ _ ihl ihr =>
    have htoken := hs.spells.lineFeed_not_mem (by cases op <;> rfl)
    have hright : '\n' ∉ (right.parenthesize right.render).toList := by
      unfold parenthesize
      split
      next => simp [ihr]
      next => exact ihr
    simp [render, ihl, htoken, hright]

theorem IsStatement.lineFeed_not_mem (h : node.IsStatement) : '\n' ∉ node.render.toList := by
  cases h with
  | print hs hf =>
    have htoken := hs.spells.lineFeed_not_mem rfl
    simp [render, htoken, hf.lineFeed_not_mem]
  | assign hs hl hf =>
    have htoken := hs.spells.lineFeed_not_mem rfl
    simp [render, htoken, hl.lineFeed_not_mem, hf.lineFeed_not_mem]

end Node

theorem Place.line_after (p : Place) (h : '\n' ∉ cs) :
    (p.after (String.ofList cs)).line = p.line := by
  simp [Place.after, List.count_eq_zero.mpr h]

theorem line_of_mem_tokenizeFrom (h : tokenizeFrom p cs = .ok tokens) (hf : '\n' ∉ cs)
    {token : Token} (hm : token ∈ tokens) : token.line = p.line := by
  obtain ⟨after, hpass, -⟩ := (scans_tokenizeFrom p cs).passes_token h hm
  obtain ⟨before, rfl, hplace⟩ := hpass.exists_append
  calc token.line = (p.after (String.ofList before)).line := congrArg Place.line hplace
    _ = p.line := p.line_after fun hmem => hf (List.mem_append_left _ hmem)

-- ---------------------------------------------------------------------------
-- Statements read back
-- ---------------------------------------------------------------------------

theorem Node.IsStatement.exists_copy_on_line (h : node.IsStatement) (p : Place) :
    ∃ before semicolon copy,
      tokenizeFrom p (node.render.toList ++ [';']) = .ok (before ++ [semicolon]) ∧
      semicolon.kind = .semicolon ∧ Derives .statement before copy ∧
      copy.bare = node.bare ∧ copy.OnLine p.line := by
  have hbreaks : Breaks [';'] := by
    rintro _ ⟨⟩
    decide
  have hsemi : Lexeme.next? [';'] = some (⟨.semicolon, ";"⟩, []) := rfl
  have hwords : Lexeme.words (node.render.toList ++ [';']) =
      (node.spelling ++ [⟨.semicolon, ";"⟩], []) := by
    rw [h.cuts _ hbreaks, Lexeme.words_of_token hsemi rfl, Lexeme.words_nil]
    rfl
  have hfeed : '\n' ∉ node.render.toList ++ [';'] := by simp [h.lineFeed_not_mem]
  obtain ⟨tokens, htokens, hspelling⟩ := exists_tokenizeFrom_of_words p hwords
  obtain ⟨before, semicolon, after, rfl, hbefore, hs, hafter⟩ :=
    Node.exists_of_map_toLexeme_eq hspelling
  obtain rfl := List.map_eq_nil_iff.mp hafter
  obtain ⟨copy, hderives, hbare⟩ := h.copied hbefore
  refine ⟨before, semicolon, copy, htokens, congrArg Lexeme.kind hs, hderives, hbare, ?_⟩
  refine hderives.map_eq_self (fun _ => rfl) fun token hm => ?_
  have hline := line_of_mem_tokenizeFrom htokens hfeed (List.mem_append_left _ hm)
  rw [Token.toLine, ← hline]

theorem exists_copies_on_lines (h : ∀ item ∈ items, item.IsStatement) (p : Place) :
    ∃ tokens copies, tokenizeFrom p (Node.renderItems items).toList = .ok tokens ∧
      Derives .code tokens (.block copies) ∧
      RelabelsEach (fun i _ => p.line + i) items copies := by
  induction items generalizing p with
  | nil => exact ⟨[], [], tokenizeFrom_nil p, .noStatements, .nil⟩
  | cons item items ih =>
    rw [List.forall_mem_cons] at h
    have htext : (Node.renderItems (item :: items)).toList =
        (item.render.toList ++ [';']) ++ '\n' :: (Node.renderItems items).toList := by
      simp [Node.renderItems]
    have hnext : ((p.after (String.ofList (item.render.toList ++ [';']))).after "\n").line =
        p.line + 1 := by
      have hfeed : '\n' ∉ item.render.toList ++ [';'] := by simp [h.1.lineFeed_not_mem]
      calc ((p.after (String.ofList (item.render.toList ++ [';']))).after "\n").line
          = (p.after (String.ofList (item.render.toList ++ [';']))).line + 1 := rfl
        _ = p.line + 1 := by rw [p.line_after hfeed]
    obtain ⟨before, semicolon, copy, hitem, hk, hderives, hbare, honline⟩ :=
      h.1.exists_copy_on_line p
    obtain ⟨tokens, copies, hrest, hcode, hcopies⟩ :=
      ih h.2 ((p.after (String.ofList (item.render.toList ++ [';']))).after "\n")
    refine ⟨before ++ semicolon :: tokens, copy :: copies, ?_,
      .moreStatements hderives hk hcode, .cons (Node.relabels_of_onLine honline hbare) ?_⟩
    · rw [htext, tokenizeFrom_append_lineFeed, hitem, hrest]
      simp [Except.bind, Except.map]
    · simpa only [hnext, Nat.add_assoc, Nat.add_comm 1] using hcopies

-- ---------------------------------------------------------------------------
-- Runs
-- ---------------------------------------------------------------------------

/-- A program that is written and run leaves the same on any sink as the source
that it was read from, and the same scope or the same error. The line of the
error is then the number of the statement that fails. -/
theorem run_render_eq_run (ht : tokenize source = .ok tokens) (hp : parse tokens = .ok program)
    (sink : Sink) :
    let steps := (Session.start sink).evalEach program.statements
    (run program.render sink).sink = (run source sink).sink ∧
    (∀ scope, (run source sink).result = .ok scope →
      (run program.render sink).result = .ok scope) ∧
    (∀ e, (run source sink).result = .error e → ∃ cause, e = .eval cause ∧
      steps.1.2 = some cause ∧
      (run program.render sink).result =
        .error (.eval (cause.mapLine fun _ => steps.1.1.length + 1))) := by
  intro steps
  obtain ⟨items, rfl⟩ := (parse_eq_ok_iff.mp hp).code_eq_block
  obtain ⟨hitems⟩ := isProgram_of_parse ht hp
  obtain ⟨copyTokens, copies, hcopyTokens, hderives, hcopies⟩ := exists_copies_on_lines hitems .start
  have hread : tokenize (Node.block items).render = .ok copyTokens := hcopyTokens
  obtain ⟨hsink, hok, herror⟩ := run_eq_evalEach ht hp sink
  obtain ⟨hcopySink, hcopyOk, hcopyError⟩ :=
    run_eq_evalEach hread (parse_eq_ok_iff.mpr hderives) sink
  have hsteps := hcopies.evalEach (.start sink)
  rw [hsteps] at hcopySink hcopyOk hcopyError
  refine ⟨hcopySink.trans hsink.symm, fun scope hscope => ?_, fun e he => ?_⟩
  · cases hend : steps.1.2 with
    | none =>
      rw [hcopyOk (congrArg (Option.map _) hend), ← hscope, hok hend]
    | some cause =>
      rw [herror cause hend] at hscope
      cases hscope
  · cases hend : steps.1.2 with
    | none =>
      rw [hok hend] at he
      cases he
    | some cause =>
      rw [herror cause hend] at he
      cases he
      refine ⟨cause, rfl, rfl, ?_⟩
      rw [hcopyError _ (congrArg (Option.map _) hend), Nat.add_comm]
      rfl

/-- The second statement of a source that is all on one line fails. Written again,
it fails on the second line. -/
theorem run_render_eq_run_second_line :
    ∃ tokens program, tokenize "x:=(1);LOG x-y;" = .ok tokens ∧ parse tokens = .ok program ∧
      (run "x:=(1);LOG x-y;" .unlimited).result = .error (.eval (.undefinedName "y" 1)) ∧
      (run program.render .unlimited).result = .error (.eval (.undefinedName "y" 2)) := by
  have hread : (readProgram "x:=(1);LOG x-y;").map (fun program =>
      ((Session.start .unlimited).evalEach program.statements).1) =
      .ok ([some ⟨1, by decide⟩], some (.undefinedName "y" 1)) := by
    decide +kernel
  obtain ⟨tokens, program, ht, hp, hfails⟩ := exists_program hread
  have hsource : (run "x:=(1);LOG x-y;" .unlimited).result =
      .error (.eval (.undefinedName "y" 1)) := by
    decide +kernel
  obtain ⟨-, -, herror⟩ := run_render_eq_run ht hp .unlimited
  obtain ⟨cause, hcause, -, hrender⟩ := herror _ hsource
  cases hcause
  rw [hfails] at hrender
  exact ⟨tokens, program, ht, hp, hsource, hrender⟩

end Abacus
