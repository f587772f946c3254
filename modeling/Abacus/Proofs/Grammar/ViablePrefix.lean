import Abacus.Proofs.Grammar.Exact

/-!
# Syntax errors are where the tokens go wrong

Tokens are viable if they can be extended to a program. The automaton gets over
a list of tokens exactly if it is viable (`viable_iff`), since from every phase
there is a way to the end of a program. So a syntax error stands behind the
longest viable beginning of the tokens: at the token that cannot follow, or at
the end if all of them are viable.

The kinds it names can all follow. Of those that can, it leaves out the operators
behind an operand, and the targets of assignments where a statement starts.
-/

namespace Abacus

open Phase (advance? continues)

variable {goal : Goal} {outer : List (Option Pending)} {left node : Node} {token : Token}
variable {tokens body : List Token} {items : List Node} {phase : Phase} {progress : Progress}

-- ---------------------------------------------------------------------------
-- Viable tokens
-- ---------------------------------------------------------------------------

def Viable (tokens : List Token) : Prop := ∃ more node, parse (tokens ++ more) = .ok node

def Kind.sample (kind : Kind) : Token := ⟨⟨kind, ""⟩, .start⟩

def closing (outer : List (Option Pending)) : List Token :=
  outer.map (fun _ => Kind.sample .closeParen) ++ [Kind.sample .semicolon]

def Phase.completion : Phase → List Token
  | .statement => []
  | .print => Kind.sample .print :: Kind.sample .number :: closing []
  | .assignment =>
    Kind.sample .name :: Kind.sample .assign :: Kind.sample .number :: closing []
  | .assign _ => Kind.sample .assign :: Kind.sample .number :: closing []
  | .operand _ outer _ => Kind.sample .number :: closing outer
  | .operator _ outer _ => closing outer

theorem Progress.foldlM_closing (goal : Goal) (outer : List (Option Pending)) (left : Node)
    (items : List Node) :
    ∃ after, (closing outer).foldlM Progress.advance? ⟨items, .operator goal outer left⟩ =
      some ⟨after, .statement⟩ := by
  induction outer generalizing left with
  | nil => exact ⟨goal.build left :: items, rfl⟩
  | cons pending outer ih =>
    obtain ⟨after, h⟩ := ih (Pending.complete pending left)
    exact ⟨after, h⟩

theorem Progress.foldlM_completion (progress : Progress) :
    ∃ after, progress.phase.completion.foldlM Progress.advance? progress =
      some ⟨after, .statement⟩ := by
  obtain ⟨items, phase⟩ := progress
  cases phase with
  | statement => exact ⟨items, rfl⟩
  | operator goal outer left => exact Progress.foldlM_closing goal outer left items
  | operand goal outer pending =>
    exact Progress.foldlM_closing goal outer (Pending.complete pending _) items
  | _ => exact Progress.foldlM_closing _ [] _ items

theorem viable_iff :
    Viable tokens ↔ ∃ progress, tokens.foldlM Progress.advance? .start = some progress := by
  simp only [Viable, parse_eq_ok_iff, derives_code_iff, List.foldlM_append]
  constructor
  · rintro ⟨more, node, after, h, -⟩
    obtain ⟨progress, hp, -⟩ := Option.bind_eq_some_iff.mp h
    exact ⟨progress, hp⟩
  · rintro ⟨progress, hp⟩
    obtain ⟨after, h⟩ := progress.foldlM_completion
    refine ⟨progress.phase.completion, .block after.reverse, ⟨after, .statement⟩, ?_, rfl⟩
    rw [hp]
    exact h

theorem viable_append_singleton_iff
    (h : tokens.foldlM Progress.advance? .start = some progress) :
    Viable (tokens ++ [token]) ↔ ∃ after, progress.advance? token = some after := by
  simp [viable_iff, List.foldlM_append, h]

-- ---------------------------------------------------------------------------
-- Behind an operand, and between statements
-- ---------------------------------------------------------------------------

/-- The tokens end with an operand, at a place where a parenthesis could have
opened one. -/
def AfterOperand (tokens : List Token) : Prop :=
  ∃ before operand node, before ++ operand = tokens ∧ Derives .operand operand node ∧
    ∃ opening : Token, opening.kind = .openParen ∧ Viable (before ++ [opening])

/-- The tokens are a program, so the next one starts a statement. -/
def BetweenStatements (tokens : List Token) : Prop := ∃ node, Derives .code tokens node

theorem Derives.exists_last_operand (h : Derives (innermost goal outer) body left) :
    ∃ pending before operand node, before ++ operand = body ∧
      Awaits goal outer pending before ∧ Derives .operand operand node := by
  unfold innermost at h
  split at h
  next hc =>
    cases h with
    | single ho => exact ⟨none, [], _, _, rfl, .first, ho⟩
    | add hl hk ho => exact ⟨_, _, _, _, by simp, .add hc hl hk, ho⟩
    | sub hl hk ho => exact ⟨_, _, _, _, by simp, .sub hc hl hk, ho⟩
  next => exact ⟨none, [], _, _, rfl, .first, h⟩

theorem Progress.exists_operand_of_openParen {after : Progress} (hk : token.kind = .openParen)
    (h : progress.advance? token = some after) :
    ∃ goal outer pending, progress.phase = .operand goal outer pending := by
  obtain ⟨items, phase⟩ := progress
  cases phase with
  | operand goal outer pending => exact ⟨goal, outer, pending, rfl⟩
  | _ => simp [Progress.advance?, Phase.advance?, Token.leaf?, Kind.op?, hk] at h

theorem afterOperand_iff (h : tokens.foldlM Progress.advance? .start = some progress) :
    AfterOperand tokens ↔ ∃ goal outer left, progress.phase = .operator goal outer left := by
  constructor
  · rintro ⟨before, operand, node, rfl, hoperand, opening, hk, hviable⟩
    rw [List.foldlM_append] at h
    obtain ⟨⟨items, phase⟩, hbefore, hrun⟩ := Option.bind_eq_some_iff.mp h
    obtain ⟨after, hopen⟩ := (viable_append_singleton_iff hbefore).mp hviable
    obtain ⟨goal, outer, pending, rfl⟩ := Progress.exists_operand_of_openParen hk hopen
    rw [Progress.foldlM_phase (hoperand.foldlM_operand goal outer pending)] at hrun
    cases hrun
    exact ⟨goal, outer, _, rfl⟩
  · rintro ⟨goal, outer, left, hphase⟩
    obtain ⟨code, current, rfl, hcode, hcurrent⟩ := Progress.reads_iff.mpr h
    rw [hphase] at hcurrent
    cases hcurrent with
    | @operator _ _ _ _ lead opened body hlead hopened hbody =>
      obtain ⟨pending, before, operand, node, rfl, hawaits, hoperand⟩ := hbody.exists_last_operand
      refine ⟨code ++ (lead ++ opened ++ before), operand, node, by simp, hoperand,
        Kind.sample .openParen, rfl, ?_⟩
      have hreads : Progress.Reads ⟨progress.items, .operand goal outer pending⟩
          (code ++ (lead ++ opened ++ before)) :=
        ⟨code, _, rfl, hcode, .operand hlead hopened hawaits⟩
      exact (viable_append_singleton_iff (Progress.reads_iff.mp hreads)).mpr ⟨_, rfl⟩

theorem betweenStatements_iff (h : tokens.foldlM Progress.advance? .start = some progress) :
    BetweenStatements tokens ↔ progress.phase = .statement := by
  simp only [BetweenStatements, derives_code_iff, h]
  constructor
  · rintro ⟨node, after, hafter, hn⟩
    cases hafter
    exact (Progress.result?_eq_some_iff.mp hn).1
  · intro hphase
    exact ⟨_, progress, rfl, Progress.result?_eq_some_iff.mpr ⟨hphase, rfl⟩⟩

-- ---------------------------------------------------------------------------
-- The kinds that can follow
-- ---------------------------------------------------------------------------

theorem Leads.continues_of_statement {lead : List Token} (h : Leads .statement goal lead)
    (outer : List (Option Pending)) : continues goal outer = true := by
  cases h with
  | printStatement h => cases h; rfl
  | assignmentStatement h => cases h; rfl

/-- The kinds that a reached point takes: those it names, operators behind an
operand, and targets where a statement starts. -/
theorem Progress.Reads.advance?_iff (h : progress.Reads tokens) :
    (∃ after, progress.advance? token = some after) ↔
      token.kind ∈ progress.phase.expected ∨
      token.kind ∈ [Kind.plus, .minus] ∧
        (∃ goal outer left, progress.phase = .operator goal outer left) ∨
      token.kind ∈ [Kind.name, .number] ∧ progress.phase = .statement := by
  obtain ⟨items, phase⟩ := progress
  obtain ⟨code, current, -, -, hcurrent⟩ := h
  cases hcurrent with
  | statement =>
    cases hk : token.kind <;>
      simp [Progress.advance?, Phase.advance?, Phase.result?, Phase.expected, Token.leaf?, hk]
  | target hrule hl =>
    cases hk : token.kind <;>
      simp [Progress.advance?, Phase.advance?, Phase.result?, Phase.expected, hk]
  | operand hlead hopened hawaits =>
    cases hk : token.kind <;>
      simp [Progress.advance?, Phase.advance?, Phase.result?, Phase.expected, Token.leaf?, hk]
  | @operator _ goal outer left _ _ _ hlead hopened hbody =>
    have hc := hlead.continues_of_statement outer
    cases outer <;> cases hk : token.kind <;>
      simp [Progress.advance?, Phase.advance?, Phase.result?, Phase.expected, Kind.op?, hk, hc]

theorem Phase.expected_operator (goal : Goal) (outer : List (Option Pending)) (left : Node) :
    Kind.plus ∉ expected (.operator goal outer left) ∧
      Kind.minus ∉ expected (.operator goal outer left) := by
  cases outer <;> simp [Phase.expected]

-- ---------------------------------------------------------------------------
-- The error of a list of tokens
-- ---------------------------------------------------------------------------

theorem parse_eq_error {e : SyntaxError} (h : parse tokens = .error e) :
    ∃ taken rest progress, taken ++ rest = tokens ∧
      taken.foldlM Progress.advance? .start = some progress ∧
      (∀ token ∈ rest.head?, progress.advance? token = none) ∧
      e = (Cursor.mk rest taken.length).expected progress.phase.expected := by
  rcases hf : Cursor.follow Progress.advance? .start 0 tokens with ⟨progress, stop⟩
  obtain ⟨taken, ht, hp, hrun, hstop⟩ := Cursor.follow_eq_iff.mp hf
  refine ⟨taken, stop.rest, progress, ht, hrun, hstop, ?_⟩
  rw [Nat.zero_add] at hp
  rw [← hp]
  unfold parse Cursor.read Cursor.readCode at h
  simp only [Cursor.start, hf] at h
  split at h
  next => cases h
  next => cases h; rfl

theorem not_viable_append_cons (h : tokens.foldlM Progress.advance? .start = some progress)
    (hs : progress.advance? token = none) (more : List Token) :
    ¬ Viable (tokens ++ token :: more) := by
  rw [viable_iff]
  simp [List.foldlM_append, h, hs]

theorem parse_eq_endOfInput_iff :
    (∃ expected position, parse tokens = .error (.endOfInput expected position)) ↔
      Viable tokens ∧ ∀ node, parse tokens ≠ .ok node := by
  constructor
  · rintro ⟨expected, position, he⟩
    obtain ⟨taken, rest, progress, rfl, hrun, -, hexpected⟩ := parse_eq_error he
    refine ⟨?_, fun node hok => ?_⟩
    · cases rest with
      | nil =>
        rw [List.append_nil]
        exact viable_iff.mpr ⟨progress, hrun⟩
      | cons token rest => cases hexpected
    · rw [he] at hok
      cases hok
  · rintro ⟨hviable, hnot⟩
    cases he : parse tokens with
    | ok node => exact absurd he (hnot node)
    | error e =>
      obtain ⟨taken, rest, progress, rfl, hrun, hstop, rfl⟩ := parse_eq_error he
      cases rest with
      | nil => exact ⟨_, _, rfl⟩
      | cons token rest =>
        exact absurd hviable (not_viable_append_cons hrun (hstop token rfl) rest)

theorem Cursor.position_expected (cursor : Cursor) (kinds : List Kind) :
    (cursor.expected kinds).position = cursor.position := by
  unfold Cursor.expected
  split <;> rfl

theorem Cursor.expected_expected (cursor : Cursor) (kinds : List Kind) :
    (cursor.expected kinds).expected = kinds := by
  unfold Cursor.expected
  split <;> rfl

/-- A syntax error stands behind the longest viable beginning of the tokens, with
the token found there if there is one. It names the kinds that can follow, less
operators behind an operand and targets where a statement starts. -/
theorem parse_error_behind_longest_viable (tokens : List Token) :
    (∀ e, parse tokens = .error e →
      e.position ≤ tokens.length ∧ Viable (tokens.take e.position) ∧
      (∀ _ : e.position < tokens.length,
        e = .unexpected e.expected tokens[e.position].text e.position tokens[e.position].line ∧
        ¬ Viable (tokens.take (e.position + 1))) ∧
      (e.position = tokens.length → e = .endOfInput e.expected e.position) ∧
      (∀ token : Token, Viable (tokens.take e.position ++ [token]) ↔
        token.kind ∈ e.expected ∨
        token.kind ∈ [Kind.plus, .minus] ∧ AfterOperand (tokens.take e.position) ∨
        token.kind ∈ [Kind.name, .number] ∧ BetweenStatements (tokens.take e.position)) ∧
      (AfterOperand (tokens.take e.position) → .plus ∉ e.expected ∧ .minus ∉ e.expected) ∧
      (BetweenStatements (tokens.take e.position) → e.expected = [.print])) ∧
    ((∃ expected position, parse tokens = .error (.endOfInput expected position)) ↔
      Viable tokens ∧ ∀ node, parse tokens ≠ .ok node) := by
  refine ⟨fun e he => ?_, parse_eq_endOfInput_iff⟩
  obtain ⟨taken, rest, progress, rfl, hrun, hstop, rfl⟩ := parse_eq_error he
  rw [Cursor.position_expected, Cursor.expected_expected, List.take_left]
  refine ⟨by simp, viable_iff.mpr ⟨progress, hrun⟩, ?_, ?_, ?_, ?_, ?_⟩
  · intro hlt
    obtain ⟨token, more, rfl⟩ : ∃ token more, rest = token :: more :=
      List.exists_cons_of_ne_nil (by rintro rfl; simp at hlt)
    have hrefused := not_viable_append_cons hrun (hstop token rfl) []
    refine ⟨by simp [Cursor.expected], ?_⟩
    rw [List.take_length_add_append]
    exact hrefused
  · intro hlen
    obtain rfl : rest = [] := by simpa using hlen
    rfl
  · intro token
    rw [viable_append_singleton_iff hrun, afterOperand_iff hrun, betweenStatements_iff hrun]
    exact (Progress.reads_iff.mpr hrun).advance?_iff
  · rw [afterOperand_iff hrun]
    rintro ⟨goal, outer, left, hphase⟩
    rw [hphase]
    exact Phase.expected_operator goal outer left
  · rw [betweenStatements_iff hrun]
    intro hphase
    rw [hphase]
    rfl

end Abacus
