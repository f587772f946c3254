import Abacus.Cursor
import Abacus.Node.Eval
import Abacus.Tokenize

/-!
# Running a source

A source is tokenized, parsed and evaluated in that order, and the first error
of any phase ends the run. Nothing is evaluated, and nothing written, before the
whole source is parsed.
-/

namespace Abacus

def readProgram (source : String) : Except Error Node :=
  match tokenize source with
  | .error e => .error (.lexical e)
  | .ok tokens => (parse tokens).mapError .grammar

theorem readProgram_eq_ok {source : String} {program : Node}
    (h : readProgram source = .ok program) :
    ∃ tokens, tokenize source = .ok tokens ∧ parse tokens = .ok program := by
  unfold readProgram at h
  split at h
  next => cases h
  next tokens ht =>
    rcases hp : parse tokens with e | node
    · rw [hp] at h
      cases h
    · rw [hp] at h
      cases h
      exact ⟨tokens, ht, hp⟩

theorem exists_program {α : Type} {source : String} {f : Node → α} {a : α}
    (h : (readProgram source).map f = .ok a) :
    ∃ tokens program, tokenize source = .ok tokens ∧ parse tokens = .ok program ∧
      f program = a := by
  rcases hread : readProgram source with e | program
  · rw [hread] at h
    cases h
  · rw [hread] at h
    obtain ⟨tokens, ht, hp⟩ := readProgram_eq_ok hread
    exact ⟨tokens, program, ht, hp, Except.ok.inj h⟩

structure Outcome where
  result : Except Error Scope
  sink : Sink
  journal : List Event

def run (source : String) (sink : Sink) : Outcome :=
  match tokenize source with
  | .error e => ⟨.error (.lexical e), sink, []⟩
  | .ok tokens =>
    match parse tokens with
    | .error e => ⟨.error (.grammar e), sink, [.lexed tokens]⟩
    | .ok program =>
      let (answer, session) := program.eval.on (.start sink)
      let result := match answer with
        | .ok _ => .ok session.scope
        | .error e => .error (.eval e)
      ⟨result, session.sink,
        .lexed tokens :: .parsed program.statements.length :: session.journal.toList⟩

end Abacus
