import Mathlib.Data.List.Basic
import Abacus.Proofs.Node.Causes
import Abacus.Proofs.Run.Unfolded

/-!
# Errors and their causes

What a run fails by can be seen in its source. A name is undefined where no
statement before assigns to it, a target is invalid where it is a number, and a
literal is invalid where it is too large for a value. Which of several causes shows
depends on the order of evaluation, but a program with any of them does not succeed.
-/

namespace Abacus

variable {item : Node} {items done : List Node} {session next : Session} {e : EvalError}
variable {answer : Option Value}

-- ---------------------------------------------------------------------------
-- What a statement holds
-- ---------------------------------------------------------------------------

namespace Node

def reads (item : Node) : List String :=
  item.formula.leaves.filterMap fun
    | .name token => some token.text
    | _ => none

def literals (item : Node) : List Token :=
  item.formula.leaves.filterMap fun
    | .number token => some token
    | _ => none

def AssignsNumber (item : Node) : Prop :=
  ∃ token target value, item = .assign token (.number target) value

/-- What an error says about the statement that it comes from. The statements in
`done` stand before it, and it is evaluated in `session`. -/
def Explains (item : Node) (done : List Node) (session : Session) : EvalError → Prop
  | .undefinedName text _ => text ∈ item.reads ∧ text ∉ done.filterMap target?
  | .invalidTarget text line => ∃ token target value v,
      item = .assign token (.number target) value ∧ target.text = text ∧ token.line = line ∧
        value.eval.on session = (.ok (some v), session)
  | .invalidLiteral text line => ∃ token ∈ item.literals, token.text = text ∧ token.line = line ∧
      2 ^ 63 - 1 < Decimal.positional token.text.toList
  | .missingValue _ => False
  | .overflow _ | .output _ => True

theorem mem_reads {name : String} :
    name ∈ item.reads ↔ ∃ token, .name token ∈ item.formula.leaves ∧ token.text = name := by
  simp only [reads, List.mem_filterMap]
  constructor
  · rintro ⟨leaf, hm, hleaf⟩
    cases leaf with
    | name token => exact ⟨token, hm, Option.some.inj hleaf⟩
    | _ => cases hleaf
  · rintro ⟨token, hm, rfl⟩
    exact ⟨_, hm, rfl⟩

theorem mem_literals {token : Token} :
    token ∈ item.literals ↔ .number token ∈ item.formula.leaves := by
  simp only [literals, List.mem_filterMap]
  constructor
  · rintro ⟨leaf, hm, hleaf⟩
    cases leaf with
    | number other =>
      cases hleaf
      exact hm
    | _ => cases hleaf
  · exact fun hm => ⟨_, hm, rfl⟩

theorem IsStatement.isFormula_formula (h : item.IsStatement) : item.formula.IsFormula := by
  cases h with
  | print _ hf => exact hf
  | assign _ _ hf => exact hf

-- ---------------------------------------------------------------------------
-- One statement
-- ---------------------------------------------------------------------------

theorem Acts.binds_of_ok (h : Acts session item (.ok answer) next) :
    ¬ item.AssignsNumber ∧
    ∀ name, next.scope.contains name = true ↔
      session.scope.contains name = true ∨ item.target? = some name := by
  cases h with
  | prints _ _ =>
    refine ⟨?_, by simp [target?]⟩
    rintro ⟨_, _, _, hassign⟩
    cases hassign
  | binds _ =>
    refine ⟨?_, fun name => ?_⟩
    · rintro ⟨_, _, _, hassign⟩
      cases hassign
    · simp only [Scope.contains_eq_isSome_get?, Scope.get?_bind, target?]
      split
      next heq => simp [heq]
      next hne => simp [hne]

theorem Acts.leaves_of_ok (h : Acts session item (.ok answer) next) (hsum : item.formula.IsSum) :
    ∀ leaf ∈ item.formula.leaves, (leaf.leafValue? session.scope).isSome := by
  cases h with
  | prints hv _ => exact hsum.leaves_of_ok hv
  | binds hv => exact hsum.leaves_of_ok hv

end Node

-- ---------------------------------------------------------------------------
-- Statements one after the other
-- ---------------------------------------------------------------------------

theorem Session.contains_evalEach (hi : ∀ item ∈ items, item.IsStatement)
    (h : (session.evalEach items).1.2 = none) (name : String) :
    (session.evalEach items).2.scope.contains name = true ↔
      session.scope.contains name = true ∨ name ∈ items.filterMap Node.target? := by
  induction items generalizing session with
  | nil => simp [evalEach]
  | cons item items ih =>
    rw [List.forall_mem_cons] at hi
    have hacts := hi.1.isAction.acts session
    rcases hrun : item.eval.on session with ⟨e | answer, next⟩
    · rw [evalEach_cons_of_error hrun] at h
      cases h
    · rw [evalEach_cons_of_ok hrun] at h ⊢
      rw [hrun] at hacts
      obtain ⟨-, hbinds⟩ := hacts.binds_of_ok
      have htail := ih hi.2 h
      simp only [Prod.map_snd, id] at htail ⊢
      rw [htail, hbinds, or_assoc, List.mem_filterMap, List.mem_filterMap, List.exists_mem_cons_iff]

theorem contains_behind {sink : Sink} (hi : ∀ item ∈ done, item.IsStatement)
    (h : ((Session.start sink).evalEach done).1.2 = none) (name : String) :
    (((Session.start sink).evalEach done).2.scope.get? name).isSome ↔
      name ∈ done.filterMap Node.target? := by
  rw [← Scope.contains_eq_isSome_get?, Session.contains_evalEach hi h,
    Scope.contains_eq_isSome_get?]
  simp [Session.start]

/-- Every name that a statement reads is assigned to by a statement before it. -/
def Defined (items : List Node) : Prop :=
  ∀ done item rest, items = done ++ item :: rest →
    ∀ name ∈ item.reads, name ∈ done.filterMap Node.target?

/-- Of these statements, `item` is the first that fails, in the session that those in
`done` before it leave. -/
structure FailsFirst (sink : Sink) (items done : List Node) (item : Node) (e : EvalError) :
    Prop where
  split : ∃ rest, items = done ++ item :: rest
  done_ok : ((Session.start sink).evalEach done).1.2 = none
  error : (item.eval.on ((Session.start sink).evalEach done).2).1 = .error e

theorem exists_failsFirst {sink : Sink} (h : ((Session.start sink).evalEach items).1.2 = some e) :
    ∃ done item, FailsFirst sink items done item e := by
  obtain ⟨done, item, rest, hsplit, hdone, hfails⟩ := Session.exists_failing h
  exact ⟨done, item, ⟨rest, hsplit⟩, hdone, congrArg Prod.fst hfails⟩

theorem FailsFirst.explains {sink : Sink} (h : FailsFirst sink items done item e)
    (hi : ∀ item ∈ items, item.IsStatement) :
    item.Explains done ((Session.start sink).evalEach done).2 e := by
  obtain ⟨⟨rest, rfl⟩, hdone, he⟩ := h
  rw [List.forall_mem_append, List.forall_mem_cons] at hi
  obtain ⟨hbefore, hs, -⟩ := hi
  have hacts := hs.isAction.acts ((Session.start sink).evalEach done).2
  rw [he] at hacts
  generalize (item.eval.on _).2 = last at hacts
  cases hacts with
  | refused _ _ => trivial
  | misses hv => exact ⟨_, _, _, _, rfl, rfl, rfl, hv⟩
  | fails hformula _ =>
    cases hs.isAction.isSum_formula.failsBy_of_error hformula with
    | @unbound token hm hn =>
      refine ⟨Node.mem_reads.mpr ⟨token, hm, rfl⟩, fun htarget => ?_⟩
      have hbound := (contains_behind hbefore hdone token.text).mpr htarget
      rw [hn] at hbound
      cases hbound
    | @unreadable token hm hn =>
      have hspelt := hs.isFormula_formula.spelt_of_mem_leaves hm
      exact ⟨token, Node.mem_literals.mpr hm, rfl, rfl, hspelt.ofLiteral?_eq_none_iff.mp hn⟩
    | outOfRange => trivial

theorem sound_of_evalEach {sink : Sink} {rest : List Node}
    (hi : ∀ other ∈ done ++ item :: rest, other.IsStatement)
    (h : ((Session.start sink).evalEach (done ++ item :: rest)).1.2 = none) :
    (∀ name ∈ item.reads, name ∈ done.filterMap Node.target?) ∧ ¬ item.AssignsNumber ∧
      ∀ token ∈ item.literals, Decimal.positional token.text.toList ≤ 2 ^ 63 - 1 := by
  rw [List.forall_mem_append, List.forall_mem_cons] at hi
  obtain ⟨hbefore, hs, -⟩ := hi
  obtain ⟨hdone, value, next, hrun⟩ := Session.ok_of_evalEach_append h
  have hacts := hs.isAction.acts ((Session.start sink).evalEach done).2
  rw [hrun] at hacts
  have hleaves := hacts.leaves_of_ok hs.isAction.isSum_formula
  obtain ⟨hnumber, -⟩ := hacts.binds_of_ok
  refine ⟨fun name hm => ?_, hnumber, fun token hm => ?_⟩
  · obtain ⟨token, hleaf, rfl⟩ := Node.mem_reads.mp hm
    exact (contains_behind hbefore hdone token.text).mp (hleaves _ hleaf)
  · have hleaf := Node.mem_literals.mp hm
    have hspelt := hs.isFormula_formula.spelt_of_mem_leaves hleaf
    have hvalue : Value.ofLiteral? token.text ≠ none :=
      Option.isSome_iff_ne_none.mp (hleaves _ hleaf)
    rw [Ne, hspelt.ofLiteral?_eq_none_iff] at hvalue
    exact Nat.le_of_not_lt hvalue

-- ---------------------------------------------------------------------------
-- Runs
-- ---------------------------------------------------------------------------

variable {source : String} {tokens : List Token} {program : Node}

/-- An error of a run comes from the first statement that fails, and that statement
explains it. No name is undefined if all are assigned before they are read. In a
program that succeeds they are, no statement assigns to a number, and no literal in a
formula is too large. -/
theorem run_error_explained (ht : tokenize source = .ok tokens) (hp : parse tokens = .ok program)
    (sink : Sink) :
    let outcome := run source sink
    (∀ e, outcome.result = .error e → ∃ cause done item, e = .eval cause ∧
      FailsFirst sink program.statements done item cause ∧
      item.Explains done ((Session.start sink).evalEach done).2 cause) ∧
    (Defined program.statements →
      ∀ name line, outcome.result ≠ .error (.eval (.undefinedName name line))) ∧
    (∀ scope, outcome.result = .ok scope → Defined program.statements ∧
      ∀ item ∈ program.statements, ¬ item.AssignsNumber ∧
        ∀ token ∈ item.literals, Decimal.positional token.text.toList ≤ 2 ^ 63 - 1) := by
  intro outcome
  obtain ⟨items, rfl⟩ := (parse_eq_ok_iff.mp hp).code_eq_block
  obtain ⟨hitems⟩ := isProgram_of_parse ht hp
  obtain ⟨-, hok, herror⟩ := run_eq_evalEach ht hp sink
  cases hend : ((Session.start sink).evalEach items).1.2 with
  | none =>
    have hresult : outcome.result = .ok _ := hok hend
    refine ⟨fun e he => (nomatch he.symm.trans hresult),
      fun _ name line he => (nomatch he.symm.trans hresult), fun _ _ => ⟨?_, fun item hm => ?_⟩⟩
    · rintro done item rest hsplit
      subst hsplit
      exact (sound_of_evalEach hitems hend).1
    · obtain ⟨done, rest, rfl⟩ := List.append_of_mem hm
      exact (sound_of_evalEach hitems hend).2
  | some cause =>
    have hresult : outcome.result = .error (.eval cause) := herror cause hend
    obtain ⟨done, item, hfails⟩ := exists_failsFirst hend
    have hexplains := hfails.explains hitems
    refine ⟨fun e he => ?_, fun hdefined name line he => ?_,
      fun scope hscope => (nomatch hscope.symm.trans hresult)⟩
    · cases he.symm.trans hresult
      exact ⟨cause, done, item, rfl, hfails, hexplains⟩
    · cases he.symm.trans hresult
      obtain ⟨hreads, hundefined⟩ := hexplains
      obtain ⟨rest, hsplit⟩ := hfails.split
      exact hundefined (hdefined done item rest hsplit name hreads)

/-- A target that is too large for a value is not read as a literal. The error is for
the target, and comes before that of the name in the last statement. -/
theorem run_error_explained_number_target :
    ∃ tokens program done item,
      tokenize "x:=1;99999999999999999999:=x;LOG y;" = .ok tokens ∧ parse tokens = .ok program ∧
      FailsFirst .unlimited program.statements done item
        (.invalidTarget "99999999999999999999" 1) ∧
      item.AssignsNumber := by
  have hread : (readProgram "x:=1;99999999999999999999:=x;LOG y;").map (fun _ => ()) = .ok () := by
    decide +kernel
  obtain ⟨tokens, program, ht, hp, -⟩ := exists_program hread
  have hresult : (run "x:=1;99999999999999999999:=x;LOG y;" .unlimited).result =
      .error (.eval (.invalidTarget "99999999999999999999" 1)) := by decide +kernel
  obtain ⟨_, done, item, hcause, hfails, hexplains⟩ :=
    (run_error_explained ht hp .unlimited).1 _ hresult
  cases hcause
  obtain ⟨token, target, value, _, hitem, -⟩ := hexplains
  exact ⟨tokens, program, done, item, ht, hp, hfails, token, target, value, hitem⟩

end Abacus
