import Abacus.Proofs.Node.Causes
import Abacus.Proofs.Session.Journal

/-!
# The log of a run

At the finest level a log shows the tokens, the number of statements, and one entry for
each statement that was executed. The events of the statements can be read back from the
texts of their entries (`Entry.event?`), and from them the scope at the end and the output
can be told, whether the run succeeded or not (`run_log_faithful`). Coarser levels show
part of the same log: the two counts, or nothing. A run at a level logs as it goes and
keeps no journal (`runAt`), and is the same run at every level.
-/

namespace Abacus

variable {level : Level} {entry : Entry} {event : Event} {events others : List Event}
variable {rule : Rule} {tokens : List Token} {node item : Node} {items : List Node}
variable {session : Session}

-- ---------------------------------------------------------------------------
-- Levels
-- ---------------------------------------------------------------------------

theorem Event.level_of_mem_entries (h : entry ∈ event.entries) :
    entry.level = .debug ∨ entry.level = .trace := by
  cases event with
  | lexed tokens =>
    simp only [entries, List.mem_cons, List.not_mem_nil, or_false] at h
    rcases h with rfl | rfl
    · exact .inl rfl
    · exact .inr rfl
  | parsed statements =>
    obtain rfl := List.mem_singleton.mp h
    exact .inl rfl
  | bound name value =>
    obtain rfl := List.mem_singleton.mp h
    exact .inr rfl
  | printed value =>
    obtain rfl := List.mem_singleton.mp h
    exact .inr rfl

namespace Level

theorem entries_append (level : Level) (journal later : List Event) :
    level.entries (journal ++ later) = level.entries journal ++ level.entries later := by
  simp [entries]

theorem entries_trace (journal : List Event) :
    trace.entries journal = journal.flatMap Event.entries := by
  refine List.filter_eq_self.mpr fun entry _ => ?_
  cases h : entry.level <;> simp [rank]

theorem entries_debug (journal : List Event) :
    debug.entries journal = (trace.entries journal).filter (·.level = .debug) := by
  rw [entries_trace]
  refine List.filter_congr fun entry hm => ?_
  obtain ⟨event, -, hentry⟩ := List.mem_flatMap.mp hm
  rcases Event.level_of_mem_entries hentry with h | h <;> simp [h, rank]

theorem entries_of_lt_debug (h : level.rank < debug.rank) (journal : List Event) :
    level.entries journal = [] := by
  refine List.filter_eq_nil_iff.mpr fun entry hm => ?_
  obtain ⟨event, -, hentry⟩ := List.mem_flatMap.mp hm
  simp only [rank] at h
  rcases Event.level_of_mem_entries hentry with hl | hl <;> simp [hl, rank] <;> omega

end Level

-- ---------------------------------------------------------------------------
-- Reading entries back
-- ---------------------------------------------------------------------------

/-- The event that the text of an entry tells of: `NAME := VALUE` or `print VALUE`. -/
def Entry.event? (entry : Entry) : Option Event :=
  let word := entry.text.toList.takeWhile isWordChar
  match entry.text.toList.dropWhile isWordChar with
  | ' ' :: ':' :: '=' :: ' ' :: literal =>
    (Value.ofLiteral? (String.ofList literal)).map (.bound (String.ofList word))
  | ' ' :: literal =>
    if word = "print".toList then (Value.ofLiteral? (String.ofList literal)).map .printed else none
  | _ => none

theorem Decimal.digits_append_ne {c : Char} (hc : isDigit c = false) (n : Nat)
    (rest tail : List Char) : digits n ++ rest ≠ c :: tail := by
  intro h
  have hall := all_isDigit_digits n
  cases hd : digits n with
  | nil => exact digits_ne_nil n hd
  | cons d ds =>
    rw [hd] at h hall
    cases h
    simp [hc] at hall

namespace Entry

theorem takeWhile_word {word : List Char} {c : Char} (hw : ∀ c ∈ word, isWordChar c = true)
    (hc : isWordChar c = false) (rest : List Char) :
    (word ++ c :: rest).takeWhile isWordChar = word := by
  rw [List.takeWhile_append_of_pos hw, List.takeWhile_cons_of_neg (by simp [hc]), List.append_nil]

theorem dropWhile_word {word : List Char} {c : Char} (hw : ∀ c ∈ word, isWordChar c = true)
    (hc : isWordChar c = false) (rest : List Char) :
    (word ++ c :: rest).dropWhile isWordChar = c :: rest := by
  rw [List.dropWhile_append_of_pos hw, List.dropWhile_cons_of_neg (by simp [hc])]

theorem event?_bound {name : String} (hn : ∀ c ∈ name.toList, isWordChar c = true) (v : Value) :
    event? ⟨.trace, name ++ " := " ++ v.render⟩ = some (.bound name v) := by
  have htext : (name ++ " := " ++ v.render).toList =
      name.toList ++ ' ' :: ':' :: '=' :: ' ' :: v.render.toList := by simp
  have hspace : isWordChar ' ' = false := by decide
  simp only [event?, htext, takeWhile_word hn hspace, dropWhile_word hn hspace]
  simp [Value.ofLiteral?_render]

theorem event?_word {word rest : String} (hw : ∀ c ∈ word.toList, isWordChar c = true)
    (hr : ∀ tail, rest.toList ≠ ':' :: tail) (level : Level) :
    event? ⟨level, word ++ " " ++ rest⟩ =
      if word = "print" then (Value.ofLiteral? rest).map .printed else none := by
  have htext : (word ++ " " ++ rest).toList = word.toList ++ ' ' :: rest.toList := by simp
  have hspace : isWordChar ' ' = false := by decide
  simp only [event?, htext, takeWhile_word hw hspace, dropWhile_word hw hspace, String.toList_inj]
  split
  next tail hbinds => exact absurd (List.cons.inj hbinds).2 (hr _)
  next literal _ hliteral => rw [← (List.cons.inj hliteral).2, String.ofList_toList]
  next hnot => exact absurd rfl (hnot rest.toList)

theorem event?_printed (v : Value) : event? ⟨.trace, "print " ++ v.render⟩ = some (.printed v) := by
  have hrest : ∀ tail, v.render.toList ≠ ':' :: tail := by
    intro tail
    rw [Value.render, String.toList_ofList, Value.decimal]
    split
    next => simp
    next => simpa using Decimal.digits_append_ne (by decide) v.toInt.natAbs [] tail
  have hword : ∀ c ∈ "print".toList, isWordChar c = true :=
    List.all_eq_true.mp (by decide)
  have hread := event?_word hword hrest .trace
  rwa [if_pos rfl, Value.ofLiteral?_render] at hread

theorem event?_count {word : String} (hw : ∀ c ∈ word.toList, isWordChar c = true)
    (hp : word ≠ "print") (level : Level) (n : Nat) (unit : String) :
    event? ⟨level, word ++ " " ++ Decimal.render n ++ unit⟩ = none := by
  have hrest : ∀ tail, (Decimal.render n ++ unit).toList ≠ ':' :: tail := by
    intro tail
    rw [String.toList_append, Decimal.render, String.toList_ofList]
    exact Decimal.digits_append_ne (by decide) n unit.toList tail
  rw [String.append_assoc, event?_word hw hrest, if_neg hp]

theorem event?_tokens (text : String) : event? ⟨.trace, "tokens: " ++ text⟩ = none := by
  have htext : ("tokens: " ++ text).toList = "tokens".toList ++ ':' :: ' ' :: text.toList := by
    simp
  have hword : ∀ c ∈ "tokens".toList, isWordChar c = true :=
    List.all_eq_true.mp (by decide)
  have hcolon : isWordChar ':' = false := by decide
  simp only [event?, htext, dropWhile_word hword hcolon]
  rfl

end Entry

theorem Spells.isWordChar_of_name {text : List Char} (h : Spells .name text) :
    ∀ c ∈ text, isWordChar c = true := by
  cases h with
  | name hf hr => exact List.forall_mem_cons.mpr ⟨isWordChar_of_isLetter hf, hr⟩
  | keyword hm => simp [keywords] at hm

def Event.ReadBack (events : List Event) : Prop :=
  (events.flatMap entries).filterMap Entry.event? = events

namespace Event

theorem ReadBack.append (h : ReadBack events) (ho : ReadBack others) :
    ReadBack (events ++ others) := by
  rw [ReadBack, List.flatMap_append, List.filterMap_append, h, ho]

theorem ReadBack.behind_counts (h : ReadBack events) (tokens : List Token) (statements : Nat) :
    ((.lexed tokens :: .parsed statements :: events).flatMap entries).filterMap Entry.event? =
      events := by
  have hlexed : ∀ c ∈ "lexed".toList, isWordChar c = true :=
    List.all_eq_true.mp (by decide)
  have hparsed : ∀ c ∈ "parsed".toList, isWordChar c = true :=
    List.all_eq_true.mp (by decide)
  have hfirst := Entry.event?_count hlexed (by decide) .debug tokens.length " tokens"
  have hlast := Entry.event?_count hparsed (by decide) .debug statements " statements"
  rw [List.flatMap_cons, List.flatMap_cons, entries, entries]
  exact (List.filterMap_cons_none hfirst).trans <|
    (List.filterMap_cons_none (Entry.event?_tokens _)).trans <|
    (List.filterMap_cons_none hlast).trans h

end Event

theorem Node.NotedAs.readBack (h : item.NotedAs session event) (hi : item.IsStatement) :
    Event.ReadBack [event] := by
  cases h with
  | bound hv =>
    cases hi with
    | assign _ ht _ =>
      cases ht with
      | name hs =>
        simp [Event.ReadBack, Event.entries, Entry.event?_bound hs.spells.isWordChar_of_name]
  | printed hv => simp [Event.ReadBack, Event.entries, Entry.event?_printed]

theorem Session.Notes.readBack (h : session.Notes items events)
    (hi : ∀ item ∈ items, item.IsStatement) : Event.ReadBack events := by
  induction h with
  | nil => rfl
  | cons _ hnoted _ ih =>
    rw [List.forall_mem_cons] at hi
    exact (hnoted.readBack hi.1).append (ih hi.2)

theorem Node.NotesOnError.readBack {e : EvalError} (h : item.NotesOnError session e events) :
    Event.ReadBack events := by
  obtain ⟨-, rfl⟩ | ⟨fault, v, -, -, rfl⟩ := h
  · rfl
  · simp [Event.ReadBack, Event.entries, Entry.event?_printed]

-- ---------------------------------------------------------------------------
-- Statements and semicolons
-- ---------------------------------------------------------------------------

def Rule.semicolons : Rule → Node → Nat
  | .code, node => node.statements.length
  | _, _ => 0

theorem Derives.countP_semicolon (h : Derives rule tokens node) :
    tokens.countP (·.kind = .semicolon) = rule.semicolons node := by
  induction h with
  | number hk => simp [Rule.semicolons, hk]
  | name hk => simp [Rule.semicolons, hk]
  | parens ho _ hc ih => simp_all [Rule.semicolons]
  | single _ ih => exact ih
  | add _ hk _ ihl ihr => simp_all [Rule.semicolons]
  | sub _ hk _ ihl ihr => simp_all [Rule.semicolons]
  | print hk _ ih => simp_all [Rule.semicolons]
  | assignName hn hk _ ih => simp_all [Rule.semicolons]
  | assignNumber hn hk _ ih => simp_all [Rule.semicolons]
  | printStatement _ ih => exact ih
  | assignmentStatement _ ih => exact ih
  | noStatements => rfl
  | moreStatements _ hs _ ihi ihr => simp_all [Rule.semicolons, Node.statements]

-- ---------------------------------------------------------------------------
-- Runs at a level
-- ---------------------------------------------------------------------------

def Session.drained (session : Session) : Session := { session with journal := #[] }

/-- Evaluates statements one after the other, up to the first error. It logs what each of
them notes, as far as the level shows it, and keeps nothing of it for the next one. -/
def Session.logEach (level : Level) (session : Session) :
    List Node → (List Entry × Option EvalError) × Session
  | [] => (([], none), session)
  | item :: items =>
    match item.eval.on session with
    | (.ok _, next) =>
      (next.drained.logEach level items).map
        (Prod.map (level.entries next.journal.toList ++ ·) id) id
    | (.error e, last) => ((level.entries last.journal.toList, some e), last.drained)

/-- What is left of a run at a level: the answer, the scope and the sink at the end, and
what was logged. -/
structure Report where
  result : Except Error Scope
  scope : Scope
  sink : Sink
  log : List Entry

def runAt (level : Level) (source : String) (sink : Sink) : Report :=
  match tokenize source with
  | .error e => ⟨.error (.lexical e), .empty, sink, []⟩
  | .ok tokens =>
    let lexed := level.entries [.lexed tokens]
    match parse tokens with
    | .error e => ⟨.error (.grammar e), .empty, sink, lexed⟩
    | .ok program =>
      let parsed := level.entries [.parsed program.statements.length]
      match (Session.start sink).logEach level program.statements with
      | ((log, none), last) => ⟨.ok last.scope, last.scope, last.sink, lexed ++ parsed ++ log⟩
      | ((log, some e), last) =>
        ⟨.error (.eval e), last.scope, last.sink, lexed ++ parsed ++ log⟩

theorem Session.behind_drained (session : Session) :
    session.drained.behind session.journal = session := by
  simp [behind, drained]

theorem Session.logEach_eq (level : Level) (session : Session) (hj : session.journal = #[])
    (items : List Node) :
    session.logEach level items =
      ((level.entries (session.evalEach items).2.journal.toList, (session.evalEach items).1.2),
        (session.evalEach items).2.drained) := by
  induction items generalizing session with
  | nil =>
    have hdrained : session.drained = session := by rw [drained, ← hj]
    rw [evalEach, logEach, hdrained, hj]
    rfl
  | cons item items ih =>
    rcases hrun : item.eval.on session with ⟨e | answer, next⟩
    · rw [evalEach_cons_of_error hrun]
      simp only [logEach, hrun]
    · -- The rest starts without what was noted so far, and does not miss it.
      have hrest : next.evalEach items =
          (next.drained.evalEach items).map id (behind next.journal) := by
        rw [← evalEach_behind, behind_drained]
      rw [evalEach_cons_of_ok hrun, hrest]
      simp only [logEach, hrun, ih next.drained rfl]
      simp [behind, drained, Level.entries]

theorem runAt_of_parse {source : String} {program : Node} (ht : tokenize source = .ok tokens)
    (hp : parse tokens = .ok program) (level : Level) (sink : Sink) :
    let outcome := run source sink
    runAt level source sink = ⟨outcome.result, (program.eval.on (.start sink)).2.scope,
      outcome.sink, level.entries outcome.journal⟩ := by
  intro outcome
  obtain ⟨items, rfl⟩ := (parse_eq_ok_iff.mp hp).code_eq_block
  have hlog := Session.logEach_eq level (.start sink) rfl items
  have hrun := Node.on_eval_block items (.start sink)
  simp only [outcome, run, runAt, ht, hp, Node.statements, hlog, hrun]
  generalize (Session.start sink).evalEach items = steps
  have hentries : level.entries [.lexed tokens] ++ level.entries [.parsed items.length] ++
      level.entries steps.2.journal.toList =
      level.entries (.lexed tokens :: .parsed items.length :: steps.2.journal.toList) := by
    rw [← Level.entries_append, ← Level.entries_append]
    rfl
  rw [← hentries]
  obtain ⟨⟨values, _ | e⟩, last⟩ := steps <;> rfl

theorem runAt_alike (level : Level) (source : String) (sink : Sink) :
    let outcome := run source sink
    let report := runAt level source sink
    report.result = outcome.result ∧ report.sink = outcome.sink ∧
      report.log = level.entries outcome.journal := by
  intro outcome report
  cases ht : tokenize source with
  | error e => simp [outcome, report, run, runAt, ht, Level.entries]
  | ok tokens =>
    cases hp : parse tokens with
    | error e => simp [outcome, report, run, runAt, ht, hp]
    | ok program => simp [outcome, report, runAt_of_parse ht hp]

-- ---------------------------------------------------------------------------
-- Runs
-- ---------------------------------------------------------------------------

/-- The log of a run at the finest level is empty if the source cannot be cut into tokens.
Otherwise it begins with the tokens; and if they can be parsed, it goes on with the number
of statements, which is that of the semicolons, and one entry for each statement that
succeeded, maybe followed by one for a print that the sink refused. The bindings that the
texts of the entries tell of make up the scope at the end. If the sink never fails, there
is no such last entry, and what was written are the values that the texts tell of.

Coarser levels show the counts, or nothing. At every level the result, the scope and the
sink are the same, and what was logged plays no part in what a run does. -/
theorem run_log_faithful (source : String) (sink : Sink) :
    let outcome := run source sink
    let log (level : Level) := level.entries outcome.journal
    (∀ level, let report := runAt level source sink
      report.result = outcome.result ∧ report.sink = outcome.sink ∧ report.log = log level) ∧
    (log .debug = (log .trace).filter (·.level = .debug) ∧
      ∀ level, level.rank < Level.debug.rank → log level = []) ∧
    (∀ e, tokenize source = .error e → log .trace = []) ∧
    ∀ tokens, tokenize source = .ok tokens →
      let lexed : List Entry :=
        [⟨.debug, "lexed " ++ Decimal.render tokens.length ++ " tokens"⟩,
          ⟨.trace, "tokens: " ++ Token.describeAll tokens⟩]
      (∀ e, parse tokens = .error e → log .trace = lexed) ∧
      ∀ program, parse tokens = .ok program →
        let start := Session.start sink
        let last := (program.eval.on start).2
        let semicolons := tokens.countP (·.kind = .semicolon)
        let told := (log .trace).filterMap Entry.event?
        (∀ level, (runAt level source sink).scope = last.scope) ∧
        (∀ journal, program.eval.on (start.behind journal) =
          ((program.eval.on start).1, last.behind journal)) ∧
        last.scope = Scope.empty.replay told ∧
        (sink.NeverFails → outcome.sink.written = sink.written ++
          String.ofList (told.filterMap Event.printed? |>.flatMap fun v => v.decimal ++ ['\n'])) ∧
        ∃ done notes extra, start.Notes done notes ∧ told = notes ++ extra ∧
          log .trace = lexed ++
            ⟨.debug, "parsed " ++ Decimal.render semicolons ++ " statements"⟩ ::
            (notes ++ extra).flatMap Event.entries ∧
          (notes.flatMap Event.entries).length = done.length ∧
          (sink.NeverFails → extra = []) ∧
          (outcome.result = .ok last.scope ∧ program.statements = done ∧ extra = [] ∨
            ∃ e item rest, outcome.result = .error (.eval e) ∧
              program.statements = done ++ item :: rest ∧
              (item.eval.on (start.evalEach done).2).1 = .error e ∧
              item.NotesOnError (start.evalEach done).2 e extra) := by
  intro outcome log
  refine ⟨fun level => runAt_alike level source sink,
    ⟨Level.entries_debug _, fun level h => Level.entries_of_lt_debug h _⟩, ?_, ?_⟩
  · intro e he
    simp only [log, outcome, run, he]
    rfl
  intro tokens ht lexed
  refine ⟨fun e he => ?_, fun program hp => ?_⟩
  · simp only [log, outcome, run, ht, he]
    rfl
  intro start last semicolons told
  have hreport (level : Level) : (runAt level source sink).scope = last.scope := by
    rw [runAt_of_parse ht hp]
  have hderives := parse_eq_ok_iff.mp hp
  obtain ⟨items, rfl⟩ := hderives.code_eq_block
  have hactions : ∀ item ∈ items, item.IsAction := hderives.yields
  have hcount : semicolons = items.length := hderives.countP_semicolon
  obtain ⟨hstatements⟩ := isProgram_of_parse ht hp
  obtain ⟨hsink, hok, herror⟩ := run_eq_evalEach ht hp sink
  have hlast : last = (start.evalEach items).2 := congrArg Prod.snd (Node.on_eval_block items start)
  obtain ⟨done, notes, extra, hnotes, hscope, hevents, hwritten, hcases⟩ :=
    start.exists_journal hactions
  rw [← hlast] at hscope hevents hwritten hsink
  have hjournal : outcome.journal = .lexed tokens :: .parsed semicolons :: (notes ++ extra) := by
    rw [hcount]
    have hrun : outcome.journal = .lexed tokens :: .parsed items.length :: last.journal.toList := by
      simp only [outcome, run, ht, hp]
      rfl
    simp [hrun, hevents, start, Session.start]
  have hread : Event.ReadBack (notes ++ extra) := by
    obtain ⟨-, rfl, rfl⟩ | ⟨e, failing, rest, -, rfl, -, hextra⟩ := hcases
    · exact (hnotes.readBack hstatements).append rfl
    · rw [List.forall_mem_append] at hstatements
      exact (hnotes.readBack hstatements.1).append hextra.readBack
  have htold : told = notes ++ extra := by
    simp only [told, log, hjournal, Level.entries_trace]
    exact hread.behind_counts tokens semicolons
  have hlog : log .trace = lexed ++
      ⟨.debug, "parsed " ++ Decimal.render semicolons ++ " statements"⟩ ::
      (notes ++ extra).flatMap Event.entries := by
    simp only [log, hjournal, Level.entries_trace]
    rfl
  refine ⟨hreport, fun journal => Node.on_behind _ journal start, ?_, fun hs => ?_, done, notes,
    extra, hnotes, htold, hlog, hnotes.length_entries, fun hs => (hwritten hs).1, ?_⟩
  · rw [htold]
    exact hscope
  · obtain ⟨hextra, htook⟩ := hwritten hs
    have hsame : outcome.sink = sink.took (Event.lines notes) := hsink.trans htook
    rw [hsame, htold, hextra, List.append_nil]
    rfl
  · obtain ⟨hend, hitems, hextra⟩ | ⟨e, item, rest, hend, hitems, hfails, hextra⟩ := hcases
    · exact .inl ⟨hlast ▸ hok hend, hitems, hextra⟩
    · exact .inr ⟨e, item, rest, herror e hend, hitems, hfails, hextra⟩

end Abacus
