import Abacus.Error
import Abacus.Journal
import Abacus.Scope

/-!
# Sessions

A session is what evaluation changes: the scope, the sink and the journal. An
evaluation either gives a value or stops with an error; in both cases its
effects so far stay.
-/

namespace Abacus

structure Session where
  scope : Scope
  sink : Sink
  journal : Array Event
  deriving DecidableEq

def Session.start (sink : Sink) : Session := ⟨.empty, sink, #[]⟩

abbrev Eval (α : Type) : Type := ExceptT EvalError (StateM Session) α

namespace Eval

variable {α β : Type}

/-- The answer of an evaluation in a session, and the session after it. -/
def on (eval : Eval α) (session : Session) : Except EvalError α × Session :=
  eval.run.run session

def note (event : Event) : Eval Unit :=
  modify fun session => { session with journal := session.journal.push event }

def lookup (name : String) : Eval (Option Value) := return (← get).scope.get? name

def bindName (name : String) (value : Value) : Eval Unit := do
  note (.bound name value)
  modify fun session => { session with scope := session.scope.bind name value }

def printValue (value : Value) : Eval Unit := do
  note (.printed value)
  let (answer, sink) := (← get).sink.putLine value.decimal
  modify fun session => { session with sink }
  match answer with
  | .ok () => return
  | .error fault => throw (.output fault)

@[simp] theorem on_pure (a : α) (session : Session) :
    (pure a : Eval α).on session = (.ok a, session) := rfl

theorem on_bind (eval : Eval α) (next : α → Eval β) (session : Session) :
    (eval >>= next).on session =
      match eval.on session with
      | (.ok a, session) => (next a).on session
      | (.error e, session) => (.error e, session) := by
  show (match eval.on session with
    | (answer, session) => (ExceptT.bindCont next answer).run session) = _
  rcases eval.on session with ⟨_ | _, _⟩ <;> rfl

@[simp] theorem on_note (event : Event) (session : Session) :
    (note event).on session =
      (.ok (), { session with journal := session.journal.push event }) := rfl

@[simp] theorem on_lookup (name : String) (session : Session) :
    (lookup name).on session = (.ok (session.scope.get? name), session) := rfl

@[simp] theorem on_bindName (name : String) (value : Value) (session : Session) :
    (bindName name value).on session = (.ok (), { session with
      scope := session.scope.bind name value
      journal := session.journal.push (.bound name value) }) := rfl

theorem on_printValue (value : Value) (session : Session) :
    (printValue value).on session =
      ((session.sink.putLine value.decimal).1.mapError .output, { session with
        sink := (session.sink.putLine value.decimal).2
        journal := session.journal.push (.printed value) }) := by
  simp only [printValue, on_bind, on_note]
  show (match (session.sink.putLine value.decimal).1 with
    | .ok () => return
    | .error fault => throw (.output fault) : Eval Unit).on _ = _
  cases (session.sink.putLine value.decimal).1 <;> rfl

end Eval

end Abacus
