import Mathlib.Data.List.Forall2
import Abacus.Proofs.Grammar.Rewriting
import Abacus.Proofs.Grammar.ViablePrefix
import Abacus.Proofs.Node.Lines
import Abacus.Proofs.Node.Shape

/-!
# Spelling and layout do not matter

The parser looks at the kinds of tokens, and evaluation at the texts of numbers and
names. What is left of a token is its essence. Two sources whose tokens have the
same essences fail to parse in the same place, or they run alike on every sink, up
to the line of an error.
-/

namespace Abacus

variable {f : Token → Token} {token other : Token} {node : Node} {tokens others : List Token}
variable {items copies : List Node}

-- ---------------------------------------------------------------------------
-- The essence of a token
-- ---------------------------------------------------------------------------

structure Token.ReadsLike (token other : Token) : Prop where
  kind_eq : token.kind = other.kind
  text_eq : token.kind = .number ∨ token.kind = .name → token.text = other.text

/-- The token without its place, and without its spelling unless it is a number or
a name. -/
def Token.essence (token : Token) : Token :=
  ⟨⟨token.kind, if token.kind = .number ∨ token.kind = .name then token.text else ""⟩, .start⟩

theorem Token.text_essence (h : token.kind = .number ∨ token.kind = .name) :
    token.essence.text = token.text := by
  simp [Token.essence, h]

theorem Token.readsLike_iff : token.ReadsLike other ↔ token.essence = other.essence := by
  unfold Token.essence
  constructor
  · intro h
    rw [h.kind_eq]
    split
    next hleaf => rw [h.text_eq (h.kind_eq ▸ hleaf)]
    next => rfl
  · intro h
    have hkind : token.kind = other.kind := congrArg (·.kind) h
    refine ⟨hkind, fun hleaf => ?_⟩
    rw [if_pos hleaf, if_pos (hkind ▸ hleaf)] at h
    exact congrArg (·.text) h

theorem forall₂_readsLike_iff :
    List.Forall₂ Token.ReadsLike tokens others ↔
      tokens.map Token.essence = others.map Token.essence := by
  rw [← List.forall₂_eq_eq_eq, List.forall₂_map_left_iff, List.forall₂_map_right_iff]
  simp only [← Token.readsLike_iff]

namespace Node

theorem IsLeaf.render_map_essence (h : node.IsLeaf) :
    (node.map Token.essence).render = node.render := by
  cases h with
  | number hs => exact Token.text_essence (.inl hs.kind_eq)
  | name hs => exact Token.text_essence (.inr hs.kind_eq)

theorem IsFormula.keeps_essence (h : node.IsFormula) : node.Keeps Token.essence := by
  induction h with
  | leaf hl =>
    have htext := hl.render_map_essence
    cases hl with
    | number _ => exact .number htext
    | name _ => exact .name htext
  | arith _ _ _ ihl ihr => exact .arith ihl ihr

theorem IsStatement.keeps_essence (h : node.IsStatement) : node.Keeps Token.essence := by
  cases h with
  | print _ hf => exact .print hf.keeps_essence
  | assign _ hl hf => exact .assign hl.render_map_essence hf.keeps_essence

end Node

-- ---------------------------------------------------------------------------
-- Reading and evaluating by essences
-- ---------------------------------------------------------------------------

theorem parse_map_cases (hf : ∀ token, (f token).kind = token.kind) (tokens : List Token) :
    (∃ node, parse tokens = .ok node ∧ parse (tokens.map f) = .ok (node.map f)) ∨
    ∃ kinds next, parse tokens = .error (Cursor.expected next kinds) ∧
      parse (tokens.map f) = .error ((next.map f).expected kinds) := by
  have hread := Cursor.rewrites_read hf (.start tokens) .code
  have hstart : (Cursor.start tokens).map f = .start (tokens.map f) := rfl
  rw [hstart] at hread
  unfold parse
  generalize (Cursor.start tokens).read .code = answer at hread ⊢
  generalize (Cursor.start (tokens.map f)).read .code = rewritten at hread ⊢
  cases hread with
  | tree => exact .inl ⟨_, rfl, rfl⟩
  | refusal => exact .inr ⟨_, _, rfl, rfl⟩

theorem parse_alike (hf : ∀ token, (f token).kind = token.kind) (h : tokens.map f = others.map f) :
    (∃ e e', parse tokens = .error e ∧ parse others = .error e' ∧ e.position = e'.position ∧
      e.expected = e'.expected) ∨
    ∃ node node', parse tokens = .ok node ∧ parse others = .ok node' ∧
      node.map f = node'.map f := by
  obtain ⟨node, hn, hnode⟩ | ⟨kinds, next, hn, hnext⟩ := parse_map_cases hf tokens
  all_goals
    obtain ⟨node', hn', hnode'⟩ | ⟨kinds', next', hn', hnext'⟩ := parse_map_cases hf others
  · rw [h, hnode'] at hnode
    exact .inr ⟨node, node', hn, hn', (Except.ok.inj hnode).symm⟩
  · rw [h, hnext'] at hnode
    cases hnode
  · rw [h, hnode'] at hnext
    cases hnext
  · rw [h, hnext'] at hnext
    have herror := Except.error.inj hnext
    have hposition := congrArg SyntaxError.position herror
    have hkinds := congrArg SyntaxError.expected herror
    simp only [Cursor.position_expected, Cursor.expected_expected] at hposition hkinds
    refine .inl ⟨_, _, hn, hn', ?_, ?_⟩
    · rw [Cursor.position_expected, Cursor.position_expected]
      exact hposition.symm
    · rw [Cursor.expected_expected, Cursor.expected_expected]
      exact hkinds.symm

def EvalError.Like (e other : EvalError) : Prop :=
  e.mapLine (fun _ => 1) = other.mapLine fun _ => 1

theorem evalEach_alike (hi : ∀ item ∈ items, item.IsStatement)
    (hc : ∀ copy ∈ copies, copy.IsStatement)
    (h : Node.mapAll Token.essence items = Node.mapAll Token.essence copies) (session : Session) :
    (session.evalEach items).2 = (session.evalEach copies).2 ∧
    (session.evalEach items).1.2.map (EvalError.mapLine fun _ => 1) =
      (session.evalEach copies).1.2.map (EvalError.mapLine fun _ => 1) := by
  have hessence {items : List Node} (hi : ∀ item ∈ items, item.IsStatement) :=
    (relabelsEach_of_keeps (g := fun _ => 1) (fun item hm => (hi item hm).keeps_essence)
      fun _ => rfl).evalEach session
  have hpair := (hessence hi).symm.trans ((congrArg session.evalEach h).trans (hessence hc))
  exact ⟨congrArg (·.2) hpair, congrArg (·.1.2) hpair⟩

-- ---------------------------------------------------------------------------
-- Runs
-- ---------------------------------------------------------------------------

/-- A rewriting of tokens that keeps their kinds goes through every rule, from any
cursor. Two sources whose tokens are of the same kinds, with the same numbers and
names, are both refused at the same token, or do the same on every sink. -/
theorem respelt_reads_and_runs_alike :
    (∀ f : Token → Token, (∀ token, (f token).kind = token.kind) → ∀ tokens position rule,
      Cursor.Rewrites f ((Cursor.seek tokens position).read rule)
        ((Cursor.seek (tokens.map f) position).read rule)) ∧
    ∀ source other tokens others, tokenize source = .ok tokens → tokenize other = .ok others →
      List.Forall₂ Token.ReadsLike tokens others →
      (∃ e e', parse tokens = .error e ∧ parse others = .error e' ∧ e.position = e'.position ∧
        e.expected = e'.expected) ∨
      ∃ program program', parse tokens = .ok program ∧ parse others = .ok program' ∧ ∀ sink,
        (run source sink).sink = (run other sink).sink ∧
        ((∃ scope, (run source sink).result = .ok scope ∧ (run other sink).result = .ok scope) ∨
          ∃ e e', (run source sink).result = .error (.eval e) ∧
            (run other sink).result = .error (.eval e') ∧ e.Like e') := by
  refine ⟨fun f hf tokens position rule => ?_, fun source other tokens others ht ho hlike => ?_⟩
  · rw [← Cursor.map_seek]
    exact Cursor.rewrites_read hf _ rule
  obtain hrefused | ⟨program, program', hp, hp', htrees⟩ :=
    parse_alike (f := Token.essence) (fun _ => rfl) (forall₂_readsLike_iff.mp hlike)
  · exact .inl hrefused
  obtain ⟨items, rfl⟩ := (parse_eq_ok_iff.mp hp).code_eq_block
  obtain ⟨copies, rfl⟩ := (parse_eq_ok_iff.mp hp').code_eq_block
  obtain ⟨hitems⟩ := isProgram_of_parse ht hp
  obtain ⟨hcopies⟩ := isProgram_of_parse ho hp'
  refine .inr ⟨_, _, hp, hp', fun sink => ?_⟩
  obtain ⟨hsink, hok, herror⟩ := run_eq_evalEach ht hp sink
  obtain ⟨hsink', hok', herror'⟩ := run_eq_evalEach ho hp' sink
  obtain ⟨hsession, hend⟩ := evalEach_alike hitems hcopies (Node.block.inj htrees) (.start sink)
  refine ⟨by rw [hsink, hsink', hsession], ?_⟩
  cases he : ((Session.start sink).evalEach items).1.2 with
  | none =>
    rw [he, Option.map_none, eq_comm, Option.map_eq_none_iff] at hend
    exact .inl ⟨_, hok he, hsession ▸ hok' hend⟩
  | some e =>
    rw [he, Option.map_some, eq_comm, Option.map_eq_some_iff] at hend
    obtain ⟨e', he', hlike⟩ := hend
    exact .inr ⟨e, e', herror e he, herror' e' he', hlike.symm⟩

/-- Keywords in letters, a comment and a line break change nothing. -/
theorem respelt_reads_and_runs_alike_keywords :
    ∃ tokens others, tokenize "x:=1;LOG x+2;" = .ok tokens ∧
      tokenize "x РАВНО 1;// one\nКОНСОЛЬ x ПЛЮС 2;" = .ok others ∧
      List.Forall₂ Token.ReadsLike tokens others ∧
      ∀ sink, (run "x:=1;LOG x+2;" sink).sink =
        (run "x РАВНО 1;// one\nКОНСОЛЬ x ПЛЮС 2;" sink).sink := by
  have hread : (readProgram "x:=1;LOG x+2;").map (fun _ => ()) = .ok () := by
    decide +kernel
  have hsame : (tokenize "x:=1;LOG x+2;").map (·.map Token.essence) =
      (tokenize "x РАВНО 1;// one\nКОНСОЛЬ x ПЛЮС 2;").map (·.map Token.essence) := by
    decide +kernel
  obtain ⟨tokens, program, ht, hp, -⟩ := exists_program hread
  rw [ht] at hsame
  rcases ho : tokenize "x РАВНО 1;// one\nКОНСОЛЬ x ПЛЮС 2;" with e | others
  · rw [ho] at hsame
    cases hsame
  rw [ho] at hsame
  have hlike := forall₂_readsLike_iff.mpr (Except.ok.inj hsame)
  refine ⟨tokens, others, ht, rfl, hlike, fun sink => ?_⟩
  obtain ⟨e, _, he, -⟩ | ⟨_, _, -, -, hruns⟩ :=
    respelt_reads_and_runs_alike.2 _ _ _ _ ht ho hlike
  · rw [hp] at he
    cases he
  · exact (hruns sink).1

end Abacus
