import Abacus.Proofs.Node.Action
import Abacus.Proofs.Session.Stepwise

/-!
# Statements are atomic

A statement does what it says or nothing. The one exception is a print that the sink
refuses, which may leave the beginning of its line; and then it has not flushed. So a
program that fails leaves what the statements before the failing one leave, but for such
a beginning (`Session.leaves_of_evalEach`).
-/

namespace Abacus

variable {item : Node} {items : List Node} {session last : Session} {e : EvalError}
variable {answer : Except EvalError (Option Value)}

/-- What a statement leaves that failed in a session: the scope and the sink as they
were, or the beginning of the line that the sink refused. -/
def Node.LeavesOnError (item : Node) (session : Session) (e : EvalError) (last : Session) : Prop :=
  last.scope = session.scope ∧
  ((∀ fault, e ≠ .output fault) ∧ last.sink = session.sink ∨
    ∃ fault token operand v part, e = .output fault ∧ item = .print token operand ∧
      operand.eval.on session = (.ok (some v), session) ∧ part <+: v.decimal ++ ['\n'] ∧
      last.sink.written = session.sink.written ++ String.ofList part ∧
      last.sink.flushes = session.sink.flushes)

namespace Node

theorem Acts.leavesOnError (h : Acts session item (.error e) last) :
    item.LeavesOnError session e last := by
  cases h with
  | @refused token operand v hv _ =>
    refine ⟨rfl, .inr ⟨_, token, operand, v, _, rfl, rfl, hv, ?_, rfl, rfl⟩⟩
    exact List.take_prefix _ _
  | misses _ => exact ⟨rfl, .inl ⟨nofun, rfl⟩⟩
  | fails _ hne => exact ⟨rfl, .inl ⟨hne, rfl⟩⟩

theorem Acts.binds_or_prints_or_fails (h : Acts session item answer last) :
    (∃ token target value v, item = .assign token (.name target) value ∧
      value.eval.on session = (.ok (some v), session) ∧ answer = .ok (some v) ∧
      last.scope = session.scope.bind target.text v ∧ last.sink = session.sink) ∨
    (∃ token operand v, item = .print token operand ∧
      operand.eval.on session = (.ok (some v), session) ∧ answer = .ok none ∧
      last.scope = session.scope ∧
      last.sink.written = session.sink.written ++ String.ofList (v.decimal ++ ['\n']) ∧
      last.sink.flushes = session.sink.flushes + 1) ∨
    ∃ e, answer = .error e ∧ item.LeavesOnError session e last := by
  cases h with
  | @binds token target value v hv => exact .inl ⟨token, target, value, v, rfl, hv, rfl, rfl, rfl⟩
  | @prints token operand v hv _ =>
    refine .inr (.inl ⟨token, operand, v, rfl, hv, rfl, rfl, ?_, rfl⟩)
    simp [Sink.took]
  | refused hv hfits => exact .inr (.inr ⟨_, rfl, (Acts.refused hv hfits).leavesOnError⟩)
  | misses hv => exact .inr (.inr ⟨_, rfl, (Acts.misses hv).leavesOnError⟩)
  | fails he hne => exact .inr (.inr ⟨_, rfl, (Acts.fails he hne).leavesOnError⟩)

theorem evalEach_of_block_error (h : (Node.block items).eval.on session = (.error e, last)) :
    (session.evalEach items).1.2 = some e ∧ (session.evalEach items).2 = last := by
  rw [on_eval_block] at h
  obtain ⟨hanswer, hlast⟩ := Prod.mk.inj h
  refine ⟨?_, hlast⟩
  cases herror : (session.evalEach items).1.2 with
  | none =>
    rw [herror] at hanswer
    cases hanswer
  | some cause =>
    rw [herror] at hanswer
    cases hanswer
    rfl

end Node

theorem Session.leaves_of_evalEach (hi : ∀ item ∈ items, item.IsAction)
    (h : (session.evalEach items).1.2 = some e) :
    ∃ done item rest, items = done ++ item :: rest ∧ (session.evalEach done).1.2 = none ∧
      (item.eval.on (session.evalEach done).2).1 = .error e ∧
      item.LeavesOnError (session.evalEach done).2 e (session.evalEach items).2 := by
  obtain ⟨done, item, rest, rfl, hdone, hfails⟩ := exists_failing h
  have hacts := (hi item (by simp)).acts (session.evalEach done).2
  rw [hfails] at hacts
  exact ⟨done, item, rest, rfl, hdone, congrArg Prod.fst hfails, hacts.leavesOnError⟩

/-- A statement binds its target to its value and leaves the sink alone; or it prints a
line, flushes once and leaves the scope alone; or it fails and leaves both alone, but for
the beginning of a line that the sink refused. A program that fails leaves what the
statements before the failing one leave, but for such a beginning. -/
theorem statements_atomic (session : Session) :
    (∀ cursor item next, Cursor.read cursor .statement = (.ok item, next) →
      let answer := (item.eval.on session).1
      let last := (item.eval.on session).2
      (∃ token target value v, item = .assign token (.name target) value ∧
        value.eval.on session = (.ok (some v), session) ∧ answer = .ok (some v) ∧
        last.scope = session.scope.bind target.text v ∧ last.sink = session.sink) ∨
      (∃ token operand v, item = .print token operand ∧
        operand.eval.on session = (.ok (some v), session) ∧ answer = .ok none ∧
        last.scope = session.scope ∧
        last.sink.written = session.sink.written ++ String.ofList (v.decimal ++ ['\n']) ∧
        last.sink.flushes = session.sink.flushes + 1) ∨
      ∃ e, answer = .error e ∧ item.LeavesOnError session e last) ∧
    ∀ tokens program, parse tokens = .ok program →
      ∀ e last, program.eval.on session = (.error e, last) →
        ∃ done item rest, program.statements = done ++ item :: rest ∧
          (session.evalEach done).1.2 = none ∧
          (item.eval.on (session.evalEach done).2).1 = .error e ∧
          item.LeavesOnError (session.evalEach done).2 e last := by
  refine ⟨fun cursor item next hread => ?_, fun tokens program hparse e last hrun => ?_⟩
  · obtain ⟨taken, -, -, hderives, -⟩ := Cursor.read_eq_ok_iff.mp hread
    have haction : item.IsAction := hderives.yields
    exact (haction.acts session).binds_or_prints_or_fails
  · have hderives := parse_eq_ok_iff.mp hparse
    obtain ⟨items, rfl⟩ := hderives.code_eq_block
    have hactions : ∀ item ∈ items, item.IsAction := hderives.yields
    obtain ⟨herror, rfl⟩ := Node.evalEach_of_block_error hrun
    exact Session.leaves_of_evalEach hactions herror

end Abacus
