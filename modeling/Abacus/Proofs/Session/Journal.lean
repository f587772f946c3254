import Abacus.Proofs.Node.Action
import Abacus.Proofs.Node.Alike
import Abacus.Proofs.Session.Stepwise

/-!
# The journal of a session

The journal is only ever written to: whatever stands in it, an evaluation does the same
and adds the same events (`Node.on_behind`). A statement that succeeds adds one event,
which tells its effect; one that fails adds none, unless it is a print that the sink
refuses. So the events tell what became of the scope and what was written
(`Session.exists_notes`, `Session.exists_journal`).
-/

namespace Abacus

open Sink (linesOf)

variable {item : Node} {items : List Node} {session next last : Session}
variable {events : List Event} {event : Event} {e : EvalError} {answer : Option Value}

-- ---------------------------------------------------------------------------
-- The journal is not read
-- ---------------------------------------------------------------------------

def Session.behind (journal : Array Event) (session : Session) : Session :=
  { session with journal := journal ++ session.journal }

theorem Session.carries_behind (journal : Array Event) (looks binds : List String) :
    Eval.Carries (.same looks binds) fun session copy => copy = session.behind journal where
  lookup := by
    rintro _ name session _ ⟨rfl, -⟩ rfl
    rfl
  bindName := by
    rintro _ name session _ ⟨rfl, -⟩ rfl value
    simp [behind]
  sink := by
    rintro session _ - rfl
    rfl
  printValue := by
    rintro session _ - rfl value
    simp [Eval.on_printValue, behind]

theorem Node.on_behind (node : Node) (journal : Array Event) (session : Session) :
    node.eval.on (session.behind journal) =
      (node.eval.on session).map id (Session.behind journal) :=
  (node.alike_eval.ends (Session.carries_behind journal _ _) rfl).eq_map

theorem Session.evalEach_behind (journal : Array Event) (session : Session) (items : List Node) :
    (session.behind journal).evalEach items =
      (session.evalEach items).map id (Session.behind journal) := by
  induction items generalizing session with
  | nil => rfl
  | cons item items ih =>
    have hbehind := item.on_behind journal session
    rcases hrun : item.eval.on session with ⟨e | answer, next⟩
    · rw [hrun] at hbehind
      rw [evalEach_cons_of_error hrun, evalEach_cons_of_error hbehind]
      rfl
    · rw [hrun] at hbehind
      rw [evalEach_cons_of_ok hrun, evalEach_cons_of_ok hbehind, ih]
      rfl

-- ---------------------------------------------------------------------------
-- Events and effects
-- ---------------------------------------------------------------------------

def Scope.note (scope : Scope) : Event → Scope
  | .bound name value => scope.bind name value
  | .lexed _ | .parsed _ | .printed _ => scope

def Scope.replay (scope : Scope) (events : List Event) : Scope := events.foldl note scope

def Event.printed? : Event → Option Value
  | .printed value => some value
  | .lexed _ | .parsed _ | .bound _ _ => none

def Event.lines (events : List Event) : List (List Char) :=
  linesOf Value.decimal (events.filterMap printed?)

/-- The event that a statement notes, with the value of its formula. -/
inductive Node.NotedAs (session : Session) : Node → Event → Prop
  | bound {token target : Token} {value : Node} {v : Value} :
      value.eval.on session = (.ok (some v), session) →
      NotedAs session (.assign token (.name target) value) (.bound target.text v)
  | printed {token : Token} {operand : Node} {v : Value} :
      operand.eval.on session = (.ok (some v), session) →
      NotedAs session (.print token operand) (.printed v)

/-- The statements succeed, one after the other, and note these events, one each. -/
inductive Session.Notes : Session → List Node → List Event → Prop
  | nil {session : Session} : Notes session [] []
  | cons {session next : Session} {item : Node} {items : List Node} {event : Event}
      {events : List Event} {answer : Option Value} :
      item.eval.on session = (.ok answer, next) → item.NotedAs session event →
      Notes next items events → Notes session (item :: items) (event :: events)

theorem Node.NotedAs.entries_length (h : item.NotedAs session event) :
    event.entries.length = 1 := by
  cases h <;> rfl

theorem Session.Notes.length_entries (h : session.Notes items events) :
    (events.flatMap Event.entries).length = items.length := by
  induction h with
  | nil => rfl
  | cons _ hnoted _ ih =>
    rw [List.flatMap_cons, List.length_append, hnoted.entries_length, ih, List.length_cons,
      Nat.add_comm]

def Session.noting (session : Session) (event : Event) : Session where
  scope := session.scope.note event
  sink := session.sink.took (Event.lines [event])
  journal := session.journal.push event

theorem Session.noting_bound (session : Session) (name : String) (value : Value) :
    session.noting (.bound name value) = { session with
      scope := session.scope.bind name value
      journal := session.journal.push (.bound name value) } := by
  have hlines : Event.lines [.bound name value] = [] := rfl
  rw [noting, hlines, Sink.took_nil]
  rfl

theorem Node.Acts.noted (h : Acts session item (.ok answer) next) :
    ∃ event, item.NotedAs session event ∧ session.sink.Fits (Event.lines [event]) ∧
      next = session.noting event := by
  cases h with
  | @binds token target value v hv =>
    exact ⟨.bound target.text v, .bound hv, Sink.fits_nil _, (session.noting_bound _ v).symm⟩
  | @prints token operand v hv hfits => exact ⟨.printed v, .printed hv, hfits, rfl⟩

theorem Session.foldl_noting (session : Session) (events : List Event) :
    events.foldl noting session =
      ⟨session.scope.replay events, session.sink.took (Event.lines events),
        session.journal ++ events.toArray⟩ := by
  induction events generalizing session with
  | nil =>
    have hlines : Event.lines [] = [] := rfl
    rw [hlines, Sink.took_nil]
    simp [Scope.replay]
  | cons event events ih =>
    have hlines : Event.lines (event :: events) = Event.lines [event] ++ Event.lines events := by
      cases event <;> rfl
    rw [List.foldl_cons, ih, hlines, Sink.took_append]
    simp [noting, Scope.replay]

theorem Session.exists_notes (hi : ∀ item ∈ items, item.IsAction)
    (h : (session.evalEach items).1.2 = none) :
    ∃ events, session.Notes items events ∧
      (session.evalEach items).2 = events.foldl noting session := by
  induction items generalizing session with
  | nil => exact ⟨[], .nil, rfl⟩
  | cons item items ih =>
    rw [List.forall_mem_cons] at hi
    have hacts := hi.1.acts session
    rcases hrun : item.eval.on session with ⟨e | answer, next⟩
    · rw [evalEach_cons_of_error hrun] at h
      cases h
    · rw [evalEach_cons_of_ok hrun] at h ⊢
      rw [hrun] at hacts
      obtain ⟨event, hnoted, -, rfl⟩ := hacts.noted
      obtain ⟨events, hnotes, hlast⟩ := ih hi.2 h
      exact ⟨event :: events, .cons hrun hnoted hnotes, hlast⟩

-- ---------------------------------------------------------------------------
-- Failures
-- ---------------------------------------------------------------------------

/-- What a statement notes that fails: the print that the sink refused, or nothing. -/
def Node.NotesOnError (item : Node) (session : Session) (e : EvalError) (extra : List Event) :
    Prop :=
  (∀ fault, e ≠ .output fault) ∧ extra = [] ∨
  ∃ fault v, e = .output fault ∧ item.NotedAs session (.printed v) ∧ extra = [.printed v]

theorem Node.Acts.notesOnError (h : Acts session item (.error e) last) :
    ∃ extra, item.NotesOnError session e extra ∧ last.scope = session.scope.replay extra ∧
      last.journal = session.journal ++ extra.toArray ∧
      (session.sink.NeverFails → extra = [] ∧ last.sink = session.sink) := by
  cases h with
  | @refused token operand v hv hfits =>
    refine ⟨[.printed v], .inr ⟨_, v, rfl, .printed hv, rfl⟩, rfl, by simp, fun hs => ?_⟩
    exact absurd (hs.fits _) hfits
  | misses _ => exact ⟨[], .inl ⟨nofun, rfl⟩, rfl, by simp, fun _ => ⟨rfl, rfl⟩⟩
  | fails _ hne => exact ⟨[], .inl ⟨hne, rfl⟩, rfl, by simp, fun _ => ⟨rfl, rfl⟩⟩

/-- The journal of statements: one event for each that succeeded, and maybe one more for
a print that failed. The scope is what the events tell of; so is the sink, if it never
fails. -/
theorem Session.exists_journal (session : Session) (hi : ∀ item ∈ items, item.IsAction) :
    let steps := session.evalEach items
    ∃ done notes extra, session.Notes done notes ∧
      steps.2.scope = session.scope.replay (notes ++ extra) ∧
      steps.2.journal = session.journal ++ (notes ++ extra).toArray ∧
      (session.sink.NeverFails →
        extra = [] ∧ steps.2.sink = session.sink.took (Event.lines notes)) ∧
      (steps.1.2 = none ∧ items = done ∧ extra = [] ∨
        ∃ e item rest, steps.1.2 = some e ∧ items = done ++ item :: rest ∧
          (item.eval.on (session.evalEach done).2).1 = .error e ∧
          item.NotesOnError (session.evalEach done).2 e extra) := by
  intro steps
  cases hend : steps.1.2 with
  | none =>
    obtain ⟨notes, hnotes, hlast⟩ := exists_notes hi hend
    rw [foldl_noting] at hlast
    refine ⟨items, notes, [], hnotes, ?_, ?_, fun _ => ⟨rfl, ?_⟩, .inl ⟨rfl, rfl, rfl⟩⟩
    · rw [List.append_nil]
      exact congrArg Session.scope hlast
    · rw [List.append_nil]
      exact congrArg Session.journal hlast
    · exact congrArg Session.sink hlast
  | some e =>
    obtain ⟨done, item, rest, rfl, hdone, hfails⟩ := exists_failing hend
    rw [List.forall_mem_append, List.forall_mem_cons] at hi
    obtain ⟨notes, hnotes, hmiddle⟩ := exists_notes hi.1 hdone
    have hacts := hi.2.1.acts (session.evalEach done).2
    rw [hfails] at hacts
    obtain ⟨extra, hextra, hscope, hjournal, hsink⟩ := hacts.notesOnError
    rw [foldl_noting] at hmiddle
    refine ⟨done, notes, extra, hnotes, ?_, ?_, fun hs => ?_,
      .inr ⟨e, item, rest, rfl, rfl, congrArg Prod.fst hfails, hextra⟩⟩
    · rw [hscope, hmiddle]
      exact List.foldl_append.symm
    · rw [hjournal, hmiddle]
      simp
    · rw [hmiddle] at hsink
      exact hsink (hs.took _)

end Abacus
