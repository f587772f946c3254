import Abacus.Proofs.Grammar.Reads

/-!
# The parser accepts exactly the grammar

From any cursor, a rule gives a tree and moves behind the tokens that spell it,
and it does so exactly if the grammar derives the tree from these tokens and the
construct may end there. A formula goes on over every operator, so it and what
is built from it does not end before one; an operand may end anywhere; a program
ends with the tokens. In particular, tokens spell at most one tree.
-/

namespace Abacus

open Phase (advance? continues)

variable {rule : Rule} {goal : Goal} {left node : Node} {token : Token}
variable {tokens lead rest : List Token} {cursor next : Cursor}

-- ---------------------------------------------------------------------------
-- Where a construct may end
-- ---------------------------------------------------------------------------

/-- Whether a construct may end before these tokens. -/
def Rule.EndsBefore : Rule → List Token → Prop
  | .code, rest => rest = []
  | .operand, _ => True
  | _, rest => ∀ token ∈ rest.head?, token.kind ≠ .plus ∧ token.kind ≠ .minus

theorem Rule.endsBefore_nil (rule : Rule) : rule.EndsBefore [] := by
  cases rule <;> simp [Rule.EndsBefore]

theorem Kind.op?_eq_none_iff {kind : Kind} : kind.op? = none ↔ kind ≠ .plus ∧ kind ≠ .minus := by
  cases kind <;> simp [Kind.op?]

theorem Phase.advance?_operator_nil_eq_none_iff :
    advance? (.operator goal [] left) token = none ↔
      (continues goal [] = true → token.kind.op? = none) := by
  cases hop : token.kind.op? <;> simp [advance?, hop]

theorem Leads.endsBefore_iff (h : Leads rule goal lead) :
    rule.EndsBefore rest ↔ ∀ token ∈ rest.head?, advance? (.operator goal [] left) token = none := by
  simp only [Phase.advance?_operator_nil_eq_none_iff, Kind.op?_eq_none_iff]
  cases h with
  | operand => simp [Rule.EndsBefore, continues]
  | formula => simp [Rule.EndsBefore, continues]
  | print => simp [Rule.EndsBefore, continues]
  | assign => simp [Rule.EndsBefore, continues]
  | printStatement h =>
    cases h
    simp [Rule.EndsBefore, continues]
  | assignmentStatement h =>
    cases h
    simp [Rule.EndsBefore, continues]

-- ---------------------------------------------------------------------------
-- Reading by a rule
-- ---------------------------------------------------------------------------

namespace Cursor

theorem read_eq_readFrom (h : rule ≠ .code) : cursor.read rule = cursor.readFrom rule.start := by
  cases rule with
  | code => exact absurd rfl h
  | _ => rfl

theorem readFrom_eq_ok_iff (hr : rule ≠ .code) :
    cursor.readFrom rule.start = (.ok node, next) ↔
      ∃ taken, taken ++ next.rest = cursor.rest ∧
        next.position = cursor.position + taken.length ∧ Derives rule taken node ∧
        rule.EndsBefore next.rest := by
  constructor
  · intro h
    rcases hf : follow advance? rule.start cursor.position cursor.rest with ⟨phase, stop⟩
    simp only [readFrom, hf] at h
    split at h
    next result hresult =>
      cases h
      obtain ⟨taken, ht, hp, hrun, hstop⟩ := follow_eq_iff.mp hf
      have hreads := (reads_iff hr).mpr hrun
      refine ⟨taken, ht, hp, hreads.derives hresult, ?_⟩
      cases hreads with
      | @operator _ goal outer left lead opened body hlead hopened hbody =>
        cases hopened with
        | nil => exact hlead.endsBefore_iff.mpr hstop
        | paren => cases hresult
      | _ => cases hresult
    next => cases h
  · rintro ⟨taken, ht, hp, hderives, hends⟩
    obtain ⟨goal, left, hreads, hn⟩ := hderives.reads hr
    have hstop : ∀ token ∈ next.rest.head?, advance? (.operator goal [] left) token = none := by
      cases hreads with
      | operator hlead _ _ => exact hlead.endsBefore_iff.mp hends
    have hf := follow_eq_iff.mpr ⟨taken, ht, hp, hreads.foldlM_start, hstop⟩
    simp [readFrom, hf, Phase.result?, hn]

theorem readCode_eq_ok_iff :
    cursor.readCode = (.ok node, next) ↔
      Derives .code cursor.rest node ∧ next = ⟨[], cursor.position + cursor.rest.length⟩ := by
  constructor
  · intro h
    rcases hf : follow Progress.advance? .start cursor.position cursor.rest with ⟨progress, stop⟩
    simp only [readCode, hf] at h
    split at h
    next result hresult hrest =>
      cases h
      obtain ⟨taken, ht, hp, hrun, -⟩ := follow_eq_iff.mp hf
      rw [hrest, List.append_nil] at ht
      subst ht
      refine ⟨derives_code_iff.mpr ⟨progress, hrun, hresult⟩, ?_⟩
      rw [← hrest, ← hp]
    next => cases h
  · rintro ⟨hderives, rfl⟩
    obtain ⟨progress, hrun, hresult⟩ := derives_code_iff.mp hderives
    have hf : follow Progress.advance? .start cursor.position cursor.rest =
        (progress, ⟨[], cursor.position + cursor.rest.length⟩) :=
      follow_eq_iff.mpr ⟨cursor.rest, List.append_nil _, rfl, hrun, by simp⟩
    simp [readCode, hf, hresult]

theorem read_eq_ok_iff :
    cursor.read rule = (.ok node, next) ↔
      ∃ taken, taken ++ next.rest = cursor.rest ∧
        next.position = cursor.position + taken.length ∧ Derives rule taken node ∧
        rule.EndsBefore next.rest := by
  by_cases hr : rule = .code
  · subst hr
    show cursor.readCode = _ ↔ _
    rw [readCode_eq_ok_iff]
    constructor
    · rintro ⟨hderives, rfl⟩
      exact ⟨cursor.rest, List.append_nil _, rfl, hderives, rfl⟩
    · rintro ⟨taken, ht, hp, hderives, hends⟩
      obtain ⟨rest, position⟩ := next
      obtain rfl : rest = [] := hends
      rw [List.append_nil] at ht
      subst ht
      exact ⟨hderives, by rw [← hp]⟩
  · rw [read_eq_readFrom hr]
    exact readFrom_eq_ok_iff hr

def seek (tokens : List Token) (position : Nat) : Cursor := ⟨tokens.drop position, position⟩

end Cursor

theorem parse_eq_ok_iff : parse tokens = .ok node ↔ Derives .code tokens node := by
  constructor
  · intro h
    exact (Cursor.readCode_eq_ok_iff.mp (Prod.ext h rfl)).1
  · intro h
    exact congrArg Prod.fst (Cursor.readCode_eq_ok_iff.mpr ⟨h, rfl⟩)

theorem Derives.unique {other : Node} (h : Derives rule tokens node)
    (ho : Derives rule tokens other) : node = other := by
  have reading {node : Node} (h : Derives rule tokens node) :
      (Cursor.start tokens).read rule = (.ok node, ⟨[], tokens.length⟩) := by
    refine Cursor.read_eq_ok_iff.mpr ⟨tokens, List.append_nil _, ?_, h, rule.endsBefore_nil⟩
    exact (Nat.zero_add _).symm
  have hpair := (reading h).symm.trans (reading ho)
  cases hpair
  rfl

def Rule.EndsAt (tokens : List Token) (position : Nat) : Rule → Prop
  | .code => position = tokens.length
  | .operand => True
  | _ => position = tokens.length ∨
      ∃ token, tokens[position]? = some token ∧ token.kind ≠ .plus ∧ token.kind ≠ .minus

theorem Rule.endsAt_iff {position : Nat} (h : position ≤ tokens.length) :
    rule.EndsAt tokens position ↔ rule.EndsBefore (tokens.drop position) := by
  have hend : position = tokens.length ↔ tokens.length ≤ position :=
    ⟨Nat.le_of_eq ∘ Eq.symm, Nat.le_antisymm h⟩
  cases rule with
  | code => simp only [Rule.EndsAt, Rule.EndsBefore, List.drop_eq_nil_iff, hend]
  | operand => rfl
  | _ =>
    simp only [Rule.EndsAt, Rule.EndsBefore, List.head?_drop, hend]
    cases ht : tokens[position]? with
    | none => simpa using ht
    | some token =>
      have hlt := (List.getElem?_eq_some_iff.mp ht).1
      simp [Nat.not_le.mpr hlt]

/-- From any cursor, each rule accepts exactly what the grammar derives by it,
and tokens spell at most one tree. -/
theorem read_accepts_exactly_grammar (tokens : List Token) {p : Nat} (hp : p ≤ tokens.length) :
    (∀ rule node cursor, (Cursor.seek tokens p).read rule = (.ok node, cursor) ↔
      ∃ q, p ≤ q ∧ q ≤ tokens.length ∧ cursor = Cursor.seek tokens q ∧
        Derives rule (tokens.extract p q) node ∧ rule.EndsAt tokens q) ∧
    ∀ rule segment node other,
      Derives rule segment node → Derives rule segment other → node = other := by
  refine ⟨fun rule node cursor => ?_, fun rule segment node other => Derives.unique⟩
  rw [Cursor.read_eq_ok_iff]
  constructor
  · rintro ⟨taken, ht, hpos, hderives, hends⟩
    obtain ⟨rest, q⟩ := cursor
    obtain rfl : q = p + taken.length := hpos
    have hdrop : tokens.drop p = taken ++ rest := ht.symm
    have hrest : tokens.drop (p + taken.length) = rest := by
      rw [← List.drop_drop, hdrop, List.drop_left]
    have hle : p + taken.length ≤ tokens.length := by
      have hlen := congrArg List.length hdrop
      rw [List.length_drop, List.length_append] at hlen
      omega
    refine ⟨p + taken.length, Nat.le_add_right _ _, hle, ?_, ?_, ?_⟩
    · rw [Cursor.seek, hrest]
    · rw [List.extract_eq_take_drop, hdrop, Nat.add_sub_cancel_left, List.take_left]
      exact hderives
    · rw [Rule.endsAt_iff hle, hrest]
      exact hends
  · rintro ⟨q, hpq, hq, rfl, hderives, hends⟩
    refine ⟨tokens.extract p q, ?_, ?_, hderives, (Rule.endsAt_iff hq).mp hends⟩
    · have hdrop : tokens.drop q = (tokens.drop p).drop (q - p) := by
        rw [List.drop_drop, Nat.add_sub_cancel' hpq]
      rw [Cursor.seek, hdrop]
      exact List.take_append_drop _ _
    · rw [List.extract_eq_take_drop, List.length_take, List.length_drop]
      show q = p + _
      omega

/-- Behind the keyword of `LOG 1 - x;` stands a formula of three tokens. -/
theorem read_accepts_exactly_grammar_difference :
    let log : Token := ⟨⟨.print, "LOG"⟩, ⟨0, 1⟩⟩
    let one : Token := ⟨⟨.number, "1"⟩, ⟨4, 1⟩⟩
    let minus : Token := ⟨⟨.minus, "-"⟩, ⟨6, 1⟩⟩
    let x : Token := ⟨⟨.name, "x"⟩, ⟨8, 1⟩⟩
    let semicolon : Token := ⟨⟨.semicolon, ";"⟩, ⟨9, 1⟩⟩
    let tokens := [log, one, minus, x, semicolon]
    1 ≤ tokens.length ∧ (Cursor.seek tokens 1).read .formula =
      (.ok (.arith .sub minus (.number one) (.name x)), Cursor.seek tokens 4) := by
  intro log one minus x semicolon tokens
  have hp : 1 ≤ tokens.length := by decide
  have hsum : Derives .formula [one, minus, x] (.arith .sub minus (.number one) (.name x)) :=
    .sub (.single (.number rfl)) rfl (.name rfl)
  refine ⟨hp, ((read_accepts_exactly_grammar tokens hp).1 _ _ _).mpr ?_⟩
  exact ⟨4, by decide, by decide, rfl, hsum, .inr ⟨semicolon, rfl, by decide, by decide⟩⟩

end Abacus
