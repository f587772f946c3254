import Abacus.Run

/-!
# Programs, statement by statement

Evaluating a program as a whole does what evaluating its statements one by one
in a single session does, up to the first error. So does a run of a source that
can be read (`run_eq_evalEach`). Statements in two parts are evaluated one part
after the other (`Session.evalEach_append`).
-/

namespace Abacus

variable {session : Session} {item : Node} {items others : List Node}

namespace Session

theorem evalEach_cons_of_ok {value : Option Value} {next : Session}
    (h : item.eval.on session = (.ok value, next)) (items : List Node) :
    session.evalEach (item :: items) =
      (next.evalEach items).map (Prod.map (value :: ·) id) id := by
  simp only [evalEach, h]

theorem evalEach_cons_of_error {e : EvalError} {next : Session}
    (h : item.eval.on session = (.error e, next)) (items : List Node) :
    session.evalEach (item :: items) = (([], some e), next) := by
  simp only [evalEach, h]

theorem evalEach_append (session : Session) (items others : List Node) :
    session.evalEach (items ++ others) =
      match session.evalEach items with
      | ((values, none), next) => (next.evalEach others).map (Prod.map (values ++ ·) id) id
      | ((values, some e), next) => ((values, some e), next) := by
  induction items generalizing session with
  | nil => rfl
  | cons item items ih =>
    rw [List.cons_append]
    rcases h : item.eval.on session with ⟨e | value, next⟩
    · rw [evalEach_cons_of_error h, evalEach_cons_of_error h]
    · rw [evalEach_cons_of_ok h, evalEach_cons_of_ok h, ih]
      rcases next.evalEach items with ⟨⟨values, _ | e⟩, last⟩ <;> rfl

theorem evalEach_append_of_error {e : EvalError} (h : (session.evalEach items).1.2 = some e)
    (others : List Node) : session.evalEach (items ++ others) = session.evalEach items := by
  rw [evalEach_append]
  rcases hs : session.evalEach items with ⟨⟨values, error⟩, next⟩
  rw [hs] at h
  obtain rfl : error = some e := h
  rfl

theorem evalEach_append_of_ok (h : (session.evalEach items).1.2 = none) (others : List Node) :
    session.evalEach (items ++ others) =
      ((session.evalEach items).2.evalEach others).map
        (Prod.map ((session.evalEach items).1.1 ++ ·) id) id := by
  rw [evalEach_append]
  rcases hs : session.evalEach items with ⟨⟨values, error⟩, next⟩
  rw [hs] at h
  obtain rfl : error = none := h
  rfl

/-- An error comes from the first statement that fails, in the session that those
before it leave. -/
theorem exists_failing {e : EvalError} (h : (session.evalEach items).1.2 = some e) :
    ∃ done item rest, items = done ++ item :: rest ∧ (session.evalEach done).1.2 = none ∧
      item.eval.on (session.evalEach done).2 = (.error e, (session.evalEach items).2) := by
  induction items generalizing session with
  | nil => cases h
  | cons item items ih =>
    rcases hrun : item.eval.on session with ⟨e' | value, next⟩
    · rw [evalEach_cons_of_error hrun] at h ⊢
      cases h
      exact ⟨[], item, items, rfl, rfl, hrun⟩
    · rw [evalEach_cons_of_ok hrun] at h ⊢
      obtain ⟨done, failing, rest, rfl, hnone, hfails⟩ := ih h
      refine ⟨item :: done, failing, rest, rfl, ?_⟩
      rw [evalEach_cons_of_ok hrun]
      exact ⟨hnone, hfails⟩

theorem ok_of_evalEach_append {done rest : List Node}
    (h : (session.evalEach (done ++ item :: rest)).1.2 = none) :
    (session.evalEach done).1.2 = none ∧
      ∃ value next, item.eval.on (session.evalEach done).2 = (.ok value, next) := by
  cases hdone : (session.evalEach done).1.2 with
  | some e =>
    rw [evalEach_append_of_error hdone, hdone] at h
    cases h
  | none =>
    rw [evalEach_append_of_ok hdone] at h
    rcases hrun : item.eval.on (session.evalEach done).2 with ⟨e | value, next⟩
    · rw [evalEach_cons_of_error hrun] at h
      cases h
    · exact ⟨rfl, value, next, rfl⟩

end Session

namespace Node

def answer : Option EvalError → Except EvalError Unit
  | none => .ok ()
  | some e => .error e

theorem on_evalAll (items : List Node) (session : Session) :
    (evalAll items).on session =
      (answer (session.evalEach items).1.2, (session.evalEach items).2) := by
  induction items generalizing session with
  | nil => rfl
  | cons item items ih =>
    rw [evalAll, Eval.on_bind]
    rcases h : item.eval.on session with ⟨e | value, next⟩
    · rw [Session.evalEach_cons_of_error h]
      rfl
    · rw [Session.evalEach_cons_of_ok h]
      exact ih next

theorem on_eval_block (items : List Node) (session : Session) :
    (Node.block items).eval.on session =
      ((answer (session.evalEach items).1.2).map fun _ => none, (session.evalEach items).2) := by
  rw [eval, Eval.on_bind, on_evalAll]
  cases (session.evalEach items).1.2 <;> rfl

end Node

theorem run_eq_evalEach {source : String} {tokens : List Token} (ht : tokenize source = .ok tokens)
    (hp : parse tokens = .ok (.block items)) (sink : Sink) :
    let steps := (Session.start sink).evalEach items
    (run source sink).sink = steps.2.sink ∧
    (steps.1.2 = none → (run source sink).result = .ok steps.2.scope) ∧
    (∀ e, steps.1.2 = some e → (run source sink).result = .error (.eval e)) := by
  intro steps
  have hrun := Node.on_eval_block items (.start sink)
  refine ⟨?_, fun hnone => ?_, fun e he => ?_⟩
  · simp only [run, ht, hp, hrun]
    rfl
  · rw [show ((Session.start sink).evalEach items).1.2 = none from hnone] at hrun
    simp only [run, ht, hp, hrun]
    rfl
  · rw [show ((Session.start sink).evalEach items).1.2 = some e from he] at hrun
    simp only [run, ht, hp, hrun]
    rfl

end Abacus
