import Abacus.Grammar.Complete

/-!
# What the automaton has read

`Reads` gives, for each phase, the tokens that lead to it from the start of a
construct: the head of the construct, then for each open parenthesis the sum it
stands in, then the sum or the formula read last. It is an invariant of every
step (`Reads.advance?`) and exact: the automaton gets to a phase over just these
tokens (`reads_iff`). `Progress.Reads` is the same for a whole program.
-/

namespace Abacus

open Phase (advance? continues)

variable {rule : Rule} {goal : Goal} {outer : List (Option Pending)} {pending : Option Pending}
variable {left node : Node} {token : Token} {phase next : Phase}
variable {tokens lead opened before body : List Token}

-- ---------------------------------------------------------------------------
-- Runs
-- ---------------------------------------------------------------------------

/-- Following takes the longest run of tokens that the steps allow. -/
theorem Cursor.follow_eq_iff {σ : Type} {step : σ → Token → Option σ} {state next : σ}
    {position : Nat} {cursor : Cursor} :
    follow step state position tokens = (next, cursor) ↔
      ∃ taken, taken ++ cursor.rest = tokens ∧ cursor.position = position + taken.length ∧
        taken.foldlM step state = some next ∧
        ∀ token ∈ cursor.rest.head?, step next token = none := by
  constructor
  · intro h
    fun_induction follow step state position tokens with
    | case1 state position =>
      cases h
      exact ⟨[], rfl, rfl, rfl, by simp⟩
    | case2 state position token rest after hs ih =>
      obtain ⟨taken, rfl, hp, hf, hstop⟩ := ih h
      refine ⟨token :: taken, rfl, ?_, ?_, hstop⟩
      · rw [hp, List.length_cons, Nat.add_assoc, Nat.add_comm 1]
      · simp [List.foldlM_cons, hs, hf]
    | case3 state position token rest hs =>
      cases h
      refine ⟨[], rfl, rfl, rfl, ?_⟩
      rintro _ ⟨⟩
      exact hs
  · rintro ⟨taken, rfl, hp, hf, hstop⟩
    obtain ⟨rest, _⟩ := cursor
    obtain rfl := hp
    induction taken generalizing state position with
    | nil =>
      cases hf
      cases rest with
      | nil => rfl
      | cons token rest => exact follow_cons_none (hstop token rfl) position rest
    | cons token taken ih =>
      rw [List.foldlM_cons] at hf
      obtain ⟨middle, hs, hf⟩ := Option.bind_eq_some_iff.mp hf
      rw [List.cons_append, follow_cons_some hs, ih hf hstop, List.length_cons, Nat.add_assoc,
        Nat.add_comm 1]

theorem Cursor.foldlM_of_follow {σ : Type} {step : σ → Token → Option σ} {state next : σ}
    {position stop : Nat} (h : follow step state position tokens = follow step next stop []) :
    tokens.foldlM step state = some next := by
  obtain ⟨taken, ht, -, hf, -⟩ := follow_eq_iff.mp h
  rw [← ht, List.append_nil]
  exact hf

theorem Cursor.foldlM_invariant {σ : Type} {step : σ → Token → Option σ}
    {invariant : σ → List Token → Prop}
    (hstep : ∀ {state next tokens token}, invariant state tokens → step state token = some next →
      invariant next (tokens ++ [token]))
    {state next : σ} (h : invariant state before) (hs : tokens.foldlM step state = some next) :
    invariant next (before ++ tokens) := by
  induction tokens generalizing state before with
  | nil =>
    cases hs
    rwa [List.append_nil]
  | cons token tokens ih =>
    rw [List.foldlM_cons] at hs
    obtain ⟨middle, hm, hs⟩ := Option.bind_eq_some_iff.mp hs
    rw [List.append_cons]
    exact ih (hstep h hm) hs

def innermost (goal : Goal) (outer : List (Option Pending)) : Rule :=
  if continues goal outer then .formula else .operand

theorem Derives.foldlM_operand (h : Derives .operand tokens node) (goal : Goal)
    (outer : List (Option Pending)) (pending : Option Pending) :
    tokens.foldlM advance? (.operand goal outer pending) =
      some (.operator goal outer (Pending.complete pending node)) := by
  have hf := h.follow_operand goal outer pending 0 []
  rw [List.append_nil] at hf
  exact Cursor.foldlM_of_follow hf

theorem Derives.foldlM_innermost (h : Derives (innermost goal outer) tokens node) :
    tokens.foldlM advance? (.operand goal outer none) = some (.operator goal outer node) := by
  unfold innermost at h
  split at h
  next hc =>
    have hf := h.follow_formula hc 0 []
    rw [List.append_nil] at hf
    exact Cursor.foldlM_of_follow hf
  next => exact h.foldlM_operand goal outer none

-- ---------------------------------------------------------------------------
-- The invariant
-- ---------------------------------------------------------------------------

/-- The tokens of a sum that lacks its right operand, in a formula that may have
sums. -/
inductive Awaits (goal : Goal) (outer : List (Option Pending)) :
    Option Pending → List Token → Prop
  | first : Awaits goal outer none []
  | add {lefts : List Token} {token : Token} {left : Node} :
      continues goal outer = true → Derives .formula lefts left → token.kind = .plus →
      Awaits goal outer (some ⟨.add, token, left⟩) (lefts ++ [token])
  | sub {lefts : List Token} {token : Token} {left : Node} :
      continues goal outer = true → Derives .formula lefts left → token.kind = .minus →
      Awaits goal outer (some ⟨.sub, token, left⟩) (lefts ++ [token])

/-- The tokens up to the innermost open parenthesis. -/
inductive Opened (goal : Goal) : List (Option Pending) → List Token → Prop
  | nil : Opened goal [] []
  | paren {outer : List (Option Pending)} {pending : Option Pending}
      {opened before : List Token} {opening : Token} :
      Opened goal outer opened → Awaits goal outer pending before →
      opening.kind = .openParen →
      Opened goal (pending :: outer) (opened ++ before ++ [opening])

inductive Leads : Rule → Goal → List Token → Prop
  | operand : Leads .operand .operand []
  | formula : Leads .formula .formula []
  | print {token : Token} : token.kind = .print → Leads .print (.print token) [token]
  | assign {target token : Token} {leaf : Node} : target.leaf? = some leaf →
      token.kind = .assign → Leads .assignment (.assign leaf token) [target, token]
  | printStatement {goal : Goal} {lead : List Token} :
      Leads .print goal lead → Leads .statement goal lead
  | assignmentStatement {goal : Goal} {lead : List Token} :
      Leads .assignment goal lead → Leads .statement goal lead

/-- The tokens read of a construct when the automaton is in a phase. -/
inductive Reads : Rule → Phase → List Token → Prop
  | statement : Reads .statement .statement []
  | print : Reads .print .print []
  | assignment : Reads .assignment .assignment []
  | target {rule : Rule} {token : Token} {leaf : Node} :
      rule = .assignment ∨ rule = .statement → token.leaf? = some leaf →
      Reads rule (.assign leaf) [token]
  | operand {rule : Rule} {goal : Goal} {outer : List (Option Pending)}
      {pending : Option Pending} {lead opened before : List Token} :
      Leads rule goal lead → Opened goal outer opened → Awaits goal outer pending before →
      Reads rule (.operand goal outer pending) (lead ++ opened ++ before)
  | operator {rule : Rule} {goal : Goal} {outer : List (Option Pending)} {left : Node}
      {lead opened body : List Token} :
      Leads rule goal lead → Opened goal outer opened → Derives (innermost goal outer) body left →
      Reads rule (.operator goal outer left) (lead ++ opened ++ body)

-- ---------------------------------------------------------------------------
-- Steps and runs keep the invariant
-- ---------------------------------------------------------------------------

theorem innermost_eq_formula (hc : continues goal outer = true) :
    innermost goal outer = .formula := by
  simp [innermost, hc]

theorem Derives.innermost_of_operand (h : Derives .operand tokens node) :
    Derives (innermost goal outer) tokens node := by
  unfold innermost
  split
  next => exact .single h
  next => exact h

theorem Awaits.complete (h : Awaits goal outer pending before)
    (ho : Derives .operand tokens node) :
    Derives (innermost goal outer) (before ++ tokens) (Pending.complete pending node) := by
  cases h with
  | first => exact ho.innermost_of_operand
  | add hc hl ht =>
    rw [innermost_eq_formula hc, List.append_assoc]
    exact .add hl ht ho
  | sub hc hl ht =>
    rw [innermost_eq_formula hc, List.append_assoc]
    exact .sub hl ht ho

theorem Token.derives_of_leaf? {leaf : Node} (h : token.leaf? = some leaf) :
    Derives .operand [token] leaf := by
  unfold Token.leaf? at h
  split at h
  next hk => cases h; exact .number hk
  next hk => cases h; exact .name hk
  next => cases h

theorem Leads.build (h : Leads rule goal lead) (hb : Derives (innermost goal []) body node) :
    Derives rule (lead ++ body) (goal.build node) := by
  induction h with
  | operand => exact hb
  | formula => exact hb
  | print ht => exact .print ht hb
  | assign hl ht =>
    unfold Token.leaf? at hl
    split at hl
    next hk => cases hl; exact .assignNumber hk ht hb
    next hk => cases hl; exact .assignName hk ht hb
    next => cases hl
  | printStatement _ ih => exact .printStatement (ih hb)
  | assignmentStatement _ ih => exact .assignmentStatement (ih hb)

theorem Awaits.of_op {op : Op} (hc : continues goal outer = true)
    (hb : Derives (innermost goal outer) body left) (hop : token.kind.op? = some op) :
    Awaits goal outer (some ⟨op, token, left⟩) (body ++ [token]) := by
  rw [innermost_eq_formula hc] at hb
  unfold Kind.op? at hop
  split at hop
  next hk => cases hop; exact .add hc hb hk
  next hk => cases hop; exact .sub hc hb hk
  next => cases hop

theorem Reads.formula (h : Leads rule goal lead) : Reads rule (.formula goal) lead := by
  have hr := Reads.operand h .nil .first
  rwa [List.append_nil, List.append_nil] at hr

theorem Reads.advance? (h : Reads rule phase tokens) (hs : phase.advance? token = some next) :
    Reads rule next (tokens ++ [token]) := by
  cases h with
  | statement =>
    simp only [Phase.advance?] at hs
    split at hs
    next hk =>
      cases hs
      exact .formula (.printStatement (.print hk))
    next =>
      obtain ⟨leaf, hl, rfl⟩ := Option.map_eq_some_iff.mp hs
      exact .target (.inr rfl) hl
  | print =>
    simp only [Phase.advance?] at hs
    split at hs
    next hk =>
      cases hs
      exact .formula (.print hk)
    next => cases hs
  | assignment =>
    obtain ⟨leaf, hl, rfl⟩ := Option.map_eq_some_iff.mp hs
    exact .target (.inl rfl) hl
  | target hrule hl =>
    simp only [Phase.advance?] at hs
    split at hs
    next hk =>
      cases hs
      rcases hrule with rfl | rfl
      · exact .formula (.assign hl hk)
      · exact .formula (.assignmentStatement (.assign hl hk))
    next => cases hs
  | @operand _ goal outer pending lead opened before hlead hopened hawaits =>
    simp only [Phase.advance?] at hs
    split at hs
    next hk =>
      cases hs
      have hr := Reads.operand hlead (.paren hopened hawaits hk) .first
      simpa only [List.append_assoc, List.append_nil] using hr
    next =>
      obtain ⟨leaf, hl, rfl⟩ := Option.map_eq_some_iff.mp hs
      have hr := Reads.operator hlead hopened (hawaits.complete (Token.derives_of_leaf? hl))
      simpa only [List.append_assoc] using hr
  | @operator _ goal outer left lead opened body hlead hopened hbody =>
    simp only [Phase.advance?] at hs
    split at hs
    next op hop =>
      split at hs
      next hc =>
        cases hs
        have hr := Reads.operand hlead hopened (.of_op hc hbody hop)
        simpa only [List.append_assoc] using hr
      next => cases hs
    next =>
      split at hs
      next pending outer hk =>
        cases hs
        rw [innermost_eq_formula (Phase.continues_cons goal pending outer)] at hbody
        -- The parenthesis closed here is the innermost open one.
        obtain - | ⟨hopened, hawaits, ho⟩ := hopened
        have hr := Reads.operator hlead hopened (hawaits.complete (.parens ho hbody hk))
        simpa only [List.append_assoc, List.cons_append, List.nil_append] using hr
      next => cases hs

theorem Reads.foldlM (h : Reads rule phase before)
    (hs : tokens.foldlM Phase.advance? phase = some next) : Reads rule next (before ++ tokens) :=
  Cursor.foldlM_invariant Reads.advance? h hs

-- ---------------------------------------------------------------------------
-- The invariant is exact
-- ---------------------------------------------------------------------------

def Rule.start : Rule → Phase
  | .code | .statement => .statement
  | .print => .print
  | .assignment => .assignment
  | .formula => .formula .formula
  | .operand => .formula .operand

theorem reads_start (h : rule ≠ .code) : Reads rule rule.start [] := by
  cases rule with
  | code => exact absurd rfl h
  | statement => exact .statement
  | print => exact .print
  | assignment => exact .assignment
  | formula => exact .formula .formula
  | operand => exact .formula .operand

theorem Token.kind_ne_print_of_leaf? {leaf : Node} (h : token.leaf? = some leaf) :
    token.kind ≠ .print := by
  intro hk
  simp [Token.leaf?, hk] at h

theorem Leads.foldlM (h : Leads rule goal lead) :
    lead.foldlM advance? rule.start = some (.operand goal [] none) := by
  cases h with
  | operand => rfl
  | formula => rfl
  | print hk => simp [Rule.start, Phase.advance?, Phase.formula, hk]
  | assign hl hk => simp [Rule.start, Phase.advance?, Phase.formula, hl, hk]
  | printStatement h =>
    cases h with
    | print hk => simp [Rule.start, Phase.advance?, Phase.formula, hk]
  | assignmentStatement h =>
    cases h with
    | assign hl hk =>
      simp [Rule.start, Phase.advance?, Phase.formula, hl, hk, Token.kind_ne_print_of_leaf? hl]

theorem Awaits.foldlM (h : Awaits goal outer pending before) :
    before.foldlM advance? (.operand goal outer none) = some (.operand goal outer pending) := by
  cases h with
  | first => rfl
  | add hc hl hk =>
    rw [List.foldlM_append, Derives.foldlM_innermost (innermost_eq_formula hc ▸ hl)]
    simp [Phase.advance?_plus hk hc]
  | sub hc hl hk =>
    rw [List.foldlM_append, Derives.foldlM_innermost (innermost_eq_formula hc ▸ hl)]
    simp [Phase.advance?_minus hk hc]

theorem Opened.foldlM (h : Opened goal outer opened) :
    opened.foldlM advance? (.operand goal [] none) = some (.operand goal outer none) := by
  induction h with
  | nil => rfl
  | paren _ ha hk ih => simp [List.foldlM_append, ih, ha.foldlM, Phase.advance?_openParen hk]

theorem Reads.foldlM_start (h : Reads rule phase tokens) :
    tokens.foldlM Phase.advance? rule.start = some phase := by
  cases h with
  | statement => rfl
  | print => rfl
  | assignment => rfl
  | target hrule hl =>
    rcases hrule with rfl | rfl
    · simp [Rule.start, Phase.advance?, hl]
    · simp [Rule.start, Phase.advance?, hl, Token.kind_ne_print_of_leaf? hl]
  | operand hlead hopened hawaits =>
    simp [List.foldlM_append, hlead.foldlM, hopened.foldlM, hawaits.foldlM]
  | operator hlead hopened hbody =>
    simp [List.foldlM_append, hlead.foldlM, hopened.foldlM, hbody.foldlM_innermost]

theorem reads_iff (hr : rule ≠ .code) :
    Reads rule phase tokens ↔ tokens.foldlM advance? rule.start = some phase := by
  constructor
  · exact Reads.foldlM_start
  · intro h
    simpa using (reads_start hr).foldlM h

theorem Reads.derives (h : Reads rule phase tokens) (hn : phase.result? = some node) :
    Derives rule tokens node := by
  cases h with
  | @operator _ goal outer left lead opened body hlead hopened hbody =>
    cases hopened with
    | nil =>
      cases hn
      simpa only [List.append_nil] using hlead.build hbody
    | paren => cases hn
  | _ => cases hn

theorem Derives.exists_leads (h : Derives rule tokens node) (hr : rule ≠ .code) :
    ∃ goal lead body left, tokens = lead ++ body ∧ Leads rule goal lead ∧
      Derives (innermost goal []) body left ∧ goal.build left = node := by
  induction h with
  | number hk => exact ⟨.operand, [], _, _, rfl, .operand, .number hk, rfl⟩
  | name hk => exact ⟨.operand, [], _, _, rfl, .operand, .name hk, rfl⟩
  | parens ho hf hc => exact ⟨.operand, [], _, _, rfl, .operand, .parens ho hf hc, rfl⟩
  | single ho => exact ⟨.formula, [], _, _, rfl, .formula, .single ho, rfl⟩
  | add hl hk ho => exact ⟨.formula, [], _, _, rfl, .formula, .add hl hk ho, rfl⟩
  | sub hl hk ho => exact ⟨.formula, [], _, _, rfl, .formula, .sub hl hk ho, rfl⟩
  | print hk hf => exact ⟨.print _, [_], _, _, rfl, .print hk, hf, rfl⟩
  | assignName ht hk hf =>
    exact ⟨.assign _ _, [_, _], _, _, rfl, .assign (by simp [Token.leaf?, ht]) hk, hf, rfl⟩
  | assignNumber ht hk hf =>
    exact ⟨.assign _ _, [_, _], _, _, rfl, .assign (by simp [Token.leaf?, ht]) hk, hf, rfl⟩
  | printStatement _ ih =>
    obtain ⟨goal, lead, body, left, ht, hl, hb, hn⟩ := ih (by simp)
    exact ⟨goal, lead, body, left, ht, .printStatement hl, hb, hn⟩
  | assignmentStatement _ ih =>
    obtain ⟨goal, lead, body, left, ht, hl, hb, hn⟩ := ih (by simp)
    exact ⟨goal, lead, body, left, ht, .assignmentStatement hl, hb, hn⟩
  | noStatements => exact absurd rfl hr
  | moreStatements => exact absurd rfl hr

theorem Derives.reads (h : Derives rule tokens node) (hr : rule ≠ .code) :
    ∃ goal left, Reads rule (.operator goal [] left) tokens ∧ goal.build left = node := by
  obtain ⟨goal, lead, body, left, rfl, hl, hb, hn⟩ := h.exists_leads hr
  refine ⟨goal, left, ?_, hn⟩
  simpa only [List.append_nil] using Reads.operator hl .nil hb

-- ---------------------------------------------------------------------------
-- Programs
-- ---------------------------------------------------------------------------

theorem Derives.code_append {items : List Node} {item : Node} {code current : List Token}
    {semicolon : Token} (h : Derives .code code (.block items))
    (hi : Derives .statement current item) (hs : semicolon.kind = .semicolon) :
    Derives .code (code ++ (current ++ [semicolon])) (.block (items ++ [item])) := by
  generalize hrule : Rule.code = rule at h
  generalize hnode : Node.block items = node at h
  induction h generalizing items with
  | noStatements =>
    cases hnode
    exact .moreStatements hi hs .noStatements
  | moreStatements hfirst hsemi _ _ ih =>
    cases hnode
    rw [List.append_assoc, List.cons_append]
    exact .moreStatements hfirst hsemi (ih rfl rfl)
  | _ => cases hrule

namespace Progress

variable {items : List Node} {progress after : Progress}

/-- The tokens read of a program: the complete statements, and the one in hand. -/
def Reads (progress : Progress) (tokens : List Token) : Prop :=
  ∃ code current, code ++ current = tokens ∧ Derives .code code (.block progress.items.reverse) ∧
    Abacus.Reads .statement progress.phase current

theorem reads_start : Reads .start [] := ⟨[], [], rfl, .noStatements, .statement⟩

theorem Reads.advance? (h : progress.Reads tokens) (hs : progress.advance? token = some after) :
    after.Reads (tokens ++ [token]) := by
  obtain ⟨code, current, rfl, hcode, hcurrent⟩ := h
  unfold Progress.advance? at hs
  split at hs
  next phase hp =>
    cases hs
    exact ⟨code, current ++ [token], by rw [List.append_assoc], hcode, hcurrent.advance? hp⟩
  next =>
    split at hs
    next item hk hn =>
      cases hs
      refine ⟨code ++ (current ++ [token]), [], by simp, ?_, .statement⟩
      rw [List.reverse_cons]
      exact hcode.code_append (hcurrent.derives hn) hk
    next => cases hs

theorem Reads.foldlM (h : progress.Reads before)
    (hs : tokens.foldlM Progress.advance? progress = some after) :
    after.Reads (before ++ tokens) :=
  Cursor.foldlM_invariant Reads.advance? h hs

theorem foldlM_phase (hs : tokens.foldlM Phase.advance? phase = some next) (items : List Node) :
    tokens.foldlM Progress.advance? ⟨items, phase⟩ = some ⟨items, next⟩ := by
  induction tokens generalizing phase with
  | nil =>
    cases hs
    rfl
  | cons token tokens ih =>
    rw [List.foldlM_cons] at hs
    obtain ⟨middle, hm, hs⟩ := Option.bind_eq_some_iff.mp hs
    simp [List.foldlM_cons, Progress.advance?, hm, ih hs]

theorem advance?_semicolon (hk : token.kind = .semicolon) (goal : Goal) (left : Node)
    (items : List Node) :
    Progress.advance? ⟨items, .operator goal [] left⟩ token =
      some ⟨goal.build left :: items, .statement⟩ := by
  simp [Progress.advance?, Phase.advance?, Phase.result?, Kind.op?, hk]

theorem result?_eq_some_iff :
    progress.result? = some node ↔
      progress.phase = .statement ∧ .block progress.items.reverse = node := by
  obtain ⟨items, phase⟩ := progress
  cases phase <;> simp [Progress.result?]

end Progress

theorem Derives.foldlM_code {items : List Node} (h : Derives .code tokens (.block items))
    (others : List Node) :
    tokens.foldlM Progress.advance? ⟨others, .statement⟩ =
      some ⟨items.reverse ++ others, .statement⟩ := by
  generalize hrule : Rule.code = rule at h
  generalize hnode : Node.block items = node at h
  induction h generalizing items others with
  | noStatements =>
    cases hnode
    rfl
  | @moreStatements _ _ semicolon item items hfirst hsemi _ _ ih =>
    cases hnode
    obtain ⟨goal, left, hreads, rfl⟩ := hfirst.reads (by simp)
    have hrun := Progress.foldlM_phase hreads.foldlM_start others
    simp only [Rule.start] at hrun
    simp [hrun, List.foldlM_append, List.foldlM_cons, Progress.advance?_semicolon hsemi, ih _ rfl rfl]
  | _ => cases hrule

theorem Derives.code_eq_block (h : Derives .code tokens node) : ∃ items, node = .block items := by
  cases h with
  | noStatements => exact ⟨[], rfl⟩
  | moreStatements => exact ⟨_, rfl⟩

theorem Progress.reads_iff {progress : Progress} :
    progress.Reads tokens ↔ tokens.foldlM Progress.advance? .start = some progress := by
  constructor
  · rintro ⟨code, current, rfl, hcode, hcurrent⟩
    have hitems := hcode.foldlM_code []
    rw [List.reverse_reverse, List.append_nil] at hitems
    rw [List.foldlM_append, Progress.start, hitems]
    exact Progress.foldlM_phase hcurrent.foldlM_start progress.items
  · intro h
    simpa using Progress.reads_start.foldlM h

theorem derives_code_iff : Derives .code tokens node ↔
    ∃ progress, tokens.foldlM Progress.advance? .start = some progress ∧
      progress.result? = some node := by
  constructor
  · intro h
    obtain ⟨items, rfl⟩ := h.code_eq_block
    exact ⟨_, h.foldlM_code [], by simp [Progress.result?]⟩
  · rintro ⟨progress, hf, hn⟩
    obtain ⟨hphase, rfl⟩ := Progress.result?_eq_some_iff.mp hn
    obtain ⟨code, current, rfl, hcode, hcurrent⟩ := Progress.reads_iff.mpr hf
    rw [hphase] at hcurrent
    cases hcurrent
    rwa [List.append_nil]

end Abacus
