import Abacus.Proofs.Node.Action
import Abacus.Proofs.Session.Stepwise

/-!
# Runs without a store

A name in a formula stands for the right side of its latest assignment, in which
each name stands for what it stood for at that assignment. With its names replaced
in this way a formula stands for an integer, or for none, whatever the scope and
the range of values.

A run agrees with this reading (`run_eq_unfolded`): it writes the integers of its
unfolded prints, up to the first statement that fails, and then has bound each
name that was assigned to the integer of its unfolding. The invariant is
`Unfolds`, which ties each binding to its latest assignment.
-/

namespace Abacus

open Sink (linesOf)

variable {item value : Node} {items past : List Node} {session next : Session} {scope : Scope}
variable {sink : Sink} {v : Value} {e : EvalError} {answer : Option Value}

-- ---------------------------------------------------------------------------
-- Unfolding
-- ---------------------------------------------------------------------------

/-- What a name stands for behind these statements, of which the latest comes
first: the right side of its latest assignment, unfolded where that stands. -/
def definition? : List Node → String → Option Node
  | [], _ => none
  | .assign _ (.name target) value :: past, name =>
    if target.text = name then some (value.subst (definition? past)) else definition? past name
  | _ :: past, name => definition? past name

namespace Node

def target? : Node → Option String
  | .assign _ (.name target) _ => some target.text
  | _ => none

def unfolded (past : List Node) (node : Node) : Node := node.subst (definition? past)

def closed? (node : Node) : Option Int := node.integer? fun _ => none

end Node

/-- The formulas that statements print, each unfolded where it stands. The
statements in `past` come before them, the latest first. -/
def unfoldedPrints : (past items : List Node) → List Node
  | _, [] => []
  | past, .print token operand :: items =>
    operand.unfolded past :: unfoldedPrints (.print token operand :: past) items
  | past, item :: items => unfoldedPrints (item :: past) items

def Session.completed (session : Session) : List Node → List Node
  | [] => []
  | item :: items =>
    match item.eval.on session with
    | (.ok _, next) => item :: next.completed items
    | (.error _, _) => []

theorem definition?_eq_none_iff {name : String} :
    definition? past name = none ↔ name ∉ past.filterMap Node.target? := by
  induction past with
  | nil => simp [definition?]
  | cons item past ih =>
    cases item with
    | assign token target value =>
      cases target with
      | name target =>
        have htarget : (Node.assign token (.name target) value).target? = some target.text := rfl
        rw [definition?, List.filterMap_cons_some htarget, List.mem_cons, not_or, ← ih]
        split <;> simp_all [eq_comm]
      | _ => exact ih
    | _ => exact ih

-- ---------------------------------------------------------------------------
-- The invariant
-- ---------------------------------------------------------------------------

/-- Each name is bound to the integer of its unfolding, if it has one. -/
def Unfolds (past : List Node) (scope : Scope) : Prop :=
  ∀ name, (definition? past name).map Node.closed? =
    (scope.get? name).map fun v => some v.toInt

theorem unfolds_nil : Unfolds [] .empty := by
  intro name
  rw [Scope.get?_empty]
  rfl

theorem Unfolds.closed?_unfolded (h : Unfolds past scope) (node : Node) :
    (node.unfolded past).closed? = node.integer? scope.integer? := by
  rw [Node.closed?, Node.unfolded, Node.integer?_subst]
  congr 1
  funext name
  have hname := h name
  unfold Node.closed? at hname
  rw [hname, Scope.integer?]
  cases scope.get? name <;> rfl

theorem Unfolds.contains_iff (h : Unfolds past scope) (name : String) :
    scope.contains name = true ↔ name ∈ past.filterMap Node.target? := by
  have hname := congrArg Option.isSome (h name)
  rw [Option.isSome_map, Option.isSome_map] at hname
  rw [Scope.contains_eq_isSome_get?, ← hname, Option.isSome_iff_ne_none, Ne,
    definition?_eq_none_iff, not_not]

theorem Unfolds.integer?_eq (h : Unfolds past scope) (name : String) :
    scope.integer? name = (definition? past name).bind Node.closed? := by
  have hname := h name
  unfold Scope.integer?
  cases hv : scope.get? name with
  | none =>
    rw [hv, Option.map_none, Option.map_eq_none_iff] at hname
    rw [hname]
    rfl
  | some v =>
    rw [hv, Option.map_some, Option.map_eq_some_iff] at hname
    obtain ⟨formula, hdefinition, hclosed⟩ := hname
    rw [hdefinition, Option.bind_some, hclosed]
    rfl

theorem Unfolds.assign (h : Unfolds past scope) (hv : value.integer? scope.integer? = some v.toInt)
    (token target : Token) :
    Unfolds (.assign token (.name target) value :: past) (scope.bind target.text v) := by
  intro name
  rw [definition?, Scope.get?_bind]
  split
  next => exact congrArg some ((h.closed?_unfolded value).trans hv)
  next => exact h name

-- ---------------------------------------------------------------------------
-- Statements one after the other
-- ---------------------------------------------------------------------------

namespace Session

theorem completed_cons_of_ok (h : item.eval.on session = (.ok answer, next)) (items : List Node) :
    session.completed (item :: items) = item :: next.completed items := by
  simp only [completed, h]

theorem completed_cons_of_error (h : item.eval.on session = (.error e, next))
    (items : List Node) : session.completed (item :: items) = [] := by
  simp only [completed, h]

theorem completed_cases (session : Session) (hi : ∀ item ∈ items, item.IsStatement)
    (hs : session.sink.NeverFails) :
    let steps := session.evalEach items
    (steps.1.2 = none ∧ session.completed items = items) ∨
    ∃ e item rest, steps.1.2 = some e ∧ items = session.completed items ++ item :: rest ∧
      item.eval.on steps.2 = (.error e, steps.2) := by
  induction items generalizing session with
  | nil => exact .inl ⟨rfl, rfl⟩
  | cons item items ih =>
    rw [List.forall_mem_cons] at hi
    have hacts := hi.1.isAction.acts session
    rcases hrun : item.eval.on session with ⟨e | answer, next⟩
    · rw [hrun] at hacts
      obtain rfl := hacts.eq_of_error hs
      rw [evalEach_cons_of_error hrun, completed_cons_of_error hrun]
      exact .inr ⟨e, item, items, rfl, rfl, hrun⟩
    · rw [hrun] at hacts
      rw [evalEach_cons_of_ok hrun, completed_cons_of_ok hrun]
      obtain ⟨hnone, hall⟩ | ⟨e, failing, rest, he, hsplit, hfails⟩ :=
        ih next hi.2 (hacts.neverFails hs)
      · exact .inl ⟨hnone, congrArg (item :: ·) hall⟩
      · exact .inr ⟨e, failing, rest, he, congrArg (item :: ·) hsplit, hfails⟩

theorem evalEach_unfolded (session : Session) (hi : ∀ item ∈ items, item.IsStatement)
    (hs : session.sink.NeverFails) (hu : Unfolds past session.scope) :
    let last := (session.evalEach items).2
    let done := session.completed items
    ∃ values : List Int, (unfoldedPrints past done).map Node.closed? = values.map some ∧
      last.sink = session.sink.took (linesOf Decimal.signed values) ∧
      Unfolds (done.reverse ++ past) last.scope := by
  induction items generalizing session past with
  | nil => exact ⟨[], rfl, (Sink.took_nil _).symm, hu⟩
  | cons item items ih =>
    rw [List.forall_mem_cons] at hi
    have hacts := hi.1.isAction.acts session
    have hsum := hi.1.isAction.isSum_formula
    rcases hrun : item.eval.on session with ⟨e | answer, next⟩
    · rw [hrun] at hacts
      obtain rfl := hacts.eq_of_error hs
      rw [evalEach_cons_of_error hrun, completed_cons_of_error hrun]
      exact ⟨[], rfl, (Sink.took_nil _).symm, hu⟩
    rw [hrun] at hacts
    rw [evalEach_cons_of_ok hrun, completed_cons_of_ok hrun]
    have hpasts : (item :: next.completed items).reverse ++ past =
        (next.completed items).reverse ++ item :: past := by
      simp
    have hnext := hacts.neverFails hs
    simp only [hpasts]
    cases hacts with
    | @prints token operand v hv hfits =>
      have hpast : Unfolds (.print token operand :: past) session.scope := hu
      have hexact := (hsum.exact_of_ok hv).1
      obtain ⟨values, hvalues, hsink, hscope⟩ := ih _ hi.2 hnext hpast
      refine ⟨v.toInt :: values, ?_, hsink.trans (Sink.took_append _ _ _).symm, hscope⟩
      rw [unfoldedPrints, List.map_cons, List.map_cons, hvalues, hu.closed?_unfolded]
      exact congrArg (· :: _) hexact
    | @binds token target value v hv =>
      have hpast := hu.assign (hsum.exact_of_ok hv).1 token target
      exact ih _ hi.2 hnext hpast

end Session

-- ---------------------------------------------------------------------------
-- Runs
-- ---------------------------------------------------------------------------

variable {source : String} {tokens : List Token} {program : Node}

/-- On a sink that never fails, a run completes the statements before the first
that fails. It writes a line for each print among them, with the integer that its
unfolding stands for, and flushes as often. It binds the names that they assign
to, each to the integer that its unfolding then stands for. -/
theorem run_eq_unfolded (ht : tokenize source = .ok tokens) (hp : parse tokens = .ok program)
    (hs : sink.NeverFails) :
    let outcome := run source sink
    let last := (program.eval.on (.start sink)).2
    let done := (Session.start sink).completed program.statements
    ((outcome.result = .ok last.scope ∧ done = program.statements) ∨
      ∃ e item rest, outcome.result = .error (.eval e) ∧
        program.statements = done ++ item :: rest ∧ item.eval.on last = (.error e, last)) ∧
    (∃ values : List Int, (unfoldedPrints [] done).map Node.closed? = values.map some ∧
      outcome.sink.written =
        sink.written ++ String.ofList (values.flatMap fun n => Decimal.signed n ++ ['\n']) ∧
      outcome.sink.flushes = sink.flushes + values.length) ∧
    (∀ name, (last.scope.contains name = true ↔ name ∈ done.filterMap Node.target?) ∧
      last.scope.integer? name = (definition? done.reverse name).bind Node.closed?) := by
  intro outcome last done
  obtain ⟨items, rfl⟩ := (parse_eq_ok_iff.mp hp).code_eq_block
  obtain ⟨hitems⟩ := isProgram_of_parse ht hp
  obtain ⟨hsink, hok, herror⟩ := run_eq_evalEach ht hp sink
  have hlast : last = ((Session.start sink).evalEach items).2 :=
    congrArg Prod.snd (Node.on_eval_block items (.start sink))
  obtain ⟨values, hvalues, hwritten, hscope⟩ :=
    Session.evalEach_unfolded (.start sink) hitems hs unfolds_nil
  have hscope : Unfolds done.reverse last.scope := by
    rwa [List.append_nil, ← hlast] at hscope
  have hwritten : outcome.sink = sink.took (linesOf Decimal.signed values) := hsink.trans hwritten
  refine ⟨?_, ⟨values, hvalues, ?_, ?_⟩, fun name => ⟨?_, hscope.integer?_eq name⟩⟩
  · obtain ⟨hnone, hall⟩ | ⟨e, item, rest, he, hsplit, hfails⟩ :=
      Session.completed_cases (.start sink) hitems hs
    · exact .inl ⟨hlast ▸ hok hnone, hall⟩
    · exact .inr ⟨e, item, rest, herror e he, hsplit, hlast ▸ hfails⟩
  · rw [hwritten]
    rfl
  · simp [hwritten, Sink.took, linesOf]
  · rw [hscope.contains_iff, List.filterMap_reverse, List.mem_reverse]

/-- Here `x` is assigned from itself, and the second print fails. -/
theorem run_eq_unfolded_rebound :
    ∃ tokens program, tokenize "x:=2;x:=x-5;LOG x;LOG y;x:=1;" = .ok tokens ∧
      parse tokens = .ok program ∧ Sink.unlimited.NeverFails ∧
      (let outcome := run "x:=2;x:=x-5;LOG x;LOG y;x:=1;" .unlimited
      outcome.sink.written = "-3\n" ∧ outcome.sink.flushes = 1) ∧
      (program.eval.on (.start .unlimited)).2.scope.integer? "x" = some (-3) := by
  have hs : Sink.unlimited.NeverFails := ⟨rfl, rfl⟩
  let done (program : Node) := (Session.start .unlimited).completed program.statements
  have hread : (readProgram "x:=2;x:=x-5;LOG x;LOG y;x:=1;").map (fun program =>
      ((unfoldedPrints [] (done program)).map Node.closed?,
        (definition? (done program).reverse "x").bind Node.closed?)) =
      .ok ([some (-3)], some (-3)) := by
    decide +kernel
  obtain ⟨tokens, program, ht, hp, hdone⟩ := exists_program hread
  obtain ⟨hprints, hname⟩ := Prod.mk.inj hdone
  obtain ⟨-, ⟨values, hvalues, hwritten, hflushes⟩, hscope⟩ := run_eq_unfolded ht hp hs
  rw [hprints, eq_comm, List.map_eq_singleton_iff] at hvalues
  obtain ⟨n, rfl, hn⟩ := hvalues
  cases hn
  refine ⟨tokens, program, ht, hp, hs, ⟨?_, hflushes⟩, (hscope "x").2.trans hname⟩
  rw [hwritten]
  decide +kernel

end Abacus
