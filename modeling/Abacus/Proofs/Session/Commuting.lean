import Abacus.Proofs.Node.Frame
import Abacus.Proofs.Scope.History

/-!
# Independent statements commute

Two statements are independent if they do not both print and neither of them binds a name
that the other looks up or binds. Neither then sees whether the other one was executed:
what it notes is the same (`Node.NotedAs.of_agreesOn`), and so is its effect, which is what
the event tells of (`Node.NotedAs.on_eval`). So next to each other they can change places,
in any program (`Session.Runs.swap`).
-/

namespace Abacus

variable {node item a b : Node} {items others before after : List Node} {names : List String}
variable {session other next last : Session} {event ea eb : Event}

-- ---------------------------------------------------------------------------
-- Independence
-- ---------------------------------------------------------------------------

def Node.isPrint : Node → Bool
  | .print .. => true
  | _ => false

/-- Statements that do not both print, and of which neither binds a name that the other one
looks up or binds. -/
structure Node.Independent (a b : Node) : Prop where
  notBothPrint : ¬ (a.isPrint = true ∧ b.isPrint = true)
  leftUnseen : ∀ name ∈ a.targets, name ∉ b.lookups ∧ name ∉ b.targets
  rightUnseen : ∀ name ∈ b.targets, name ∉ a.lookups ∧ name ∉ a.targets

theorem Node.Independent.symm (h : a.Independent b) : b.Independent a :=
  ⟨fun hp => h.notBothPrint hp.symm, h.rightUnseen, h.leftUnseen⟩

-- ---------------------------------------------------------------------------
-- Events of statements
-- ---------------------------------------------------------------------------

namespace Node

theorem IsSum.on_eval_of_agreesOn (h : node.IsSum)
    (hagrees : session.scope.AgreesOn node.lookups other.scope) :
    node.eval.on other = ((node.eval.on session).1, other) := by
  induction h with
  | number token =>
    rw [eval]
    cases Value.ofLiteral? token.text <;> rfl
  | name token =>
    have hname : other.scope.get? token.text = session.scope.get? token.text :=
      hagrees token.text (by simp [lookups])
    rw [eval, Eval.on_bind, Eval.on_bind, Eval.on_lookup, Eval.on_lookup, hname]
    cases session.scope.get? token.text <;> rfl
  | @arith op token left right hl hr ihl ihr =>
    have hleft := ihl fun name hn => hagrees name (List.mem_append_left _ hn)
    have hright := ihr fun name hn => hagrees name (List.mem_append_right _ hn)
    rw [eval]
    obtain ⟨x, hx⟩ | ⟨e, he, -⟩ := hl.value_or_fails session
    · rw [hx] at hleft
      rw [Eval.on_bind_of_ok (Eval.on_demand_of_some hx _),
        Eval.on_bind_of_ok (Eval.on_demand_of_some hleft _)]
      obtain ⟨y, hy⟩ | ⟨e, he, -⟩ := hr.value_or_fails session
      · rw [hy] at hright
        rw [Eval.on_bind_of_ok (Eval.on_demand_of_some hy _),
          Eval.on_bind_of_ok (Eval.on_demand_of_some hright _)]
        cases op.compute? x y <;> rfl
      · rw [he] at hright
        rw [Eval.on_bind_of_error (Eval.on_demand_of_error he _),
          Eval.on_bind_of_error (Eval.on_demand_of_error hright _)]
    · rw [he] at hleft
      rw [Eval.on_bind_of_error (Eval.on_demand_of_error he _),
        Eval.on_bind_of_error (Eval.on_demand_of_error hleft _)]

theorem NotedAs.of_agreesOn (h : item.NotedAs session event) (hi : item.IsAction)
    (hagrees : session.scope.AgreesOn item.lookups other.scope) : item.NotedAs other event := by
  cases h with
  | bound hv =>
    cases hi with
    | assignName hsum =>
      apply NotedAs.bound
      rw [hsum.on_eval_of_agreesOn hagrees, hv]
  | printed hv =>
    cases hi with
    | print hsum =>
      apply NotedAs.printed
      rw [hsum.on_eval_of_agreesOn hagrees, hv]

theorem NotedAs.on_eval (h : item.NotedAs session event)
    (hfits : session.sink.Fits (Event.lines [event])) :
    ∃ answer, item.eval.on session = (.ok answer, session.noting event) := by
  cases h with
  | @bound token target value v hv =>
    refine ⟨some v, ?_⟩
    rw [eval, Eval.on_bind_of_ok (Eval.on_demand_of_some hv token.line), Session.noting_bound]
    rfl
  | @printed token operand v hv =>
    have hline : session.sink.Fits [v.decimal ++ ['\n']] := hfits
    refine ⟨none, ?_⟩
    rw [eval, Eval.on_bind_of_ok (Eval.on_demand_of_some hv token.line), Eval.on_bind,
      Eval.on_printValue, Sink.putLine_of_fits hline]
    rfl

theorem NotedAs.agreesOn_note (h : item.NotedAs session event)
    (hnames : ∀ name ∈ item.targets, name ∉ names) :
    session.scope.AgreesOn names (session.scope.note event) := by
  intro name hn
  cases h with
  | @bound token target value v _ =>
    have hne : target.text ≠ name := by
      rintro rfl
      exact hnames target.text (by simp [targets, name?]) hn
    simp [Scope.note, Scope.get?_bind, hne]
  | printed _ => rfl

theorem Independent.lines_eq_nil (h : a.Independent b) (ha : a.NotedAs session ea)
    (hb : b.NotedAs other eb) : Event.lines [ea] = [] ∨ Event.lines [eb] = [] := by
  cases ha with
  | bound _ => exact .inl rfl
  | printed _ =>
    cases hb with
    | bound _ => exact .inr rfl
    | printed _ => exact absurd ⟨rfl, rfl⟩ h.notBothPrint

theorem Independent.note_comm (h : a.Independent b) (ha : a.NotedAs session ea)
    (hb : b.NotedAs other eb) (scope : Scope) :
    (scope.note ea).note eb = (scope.note eb).note ea := by
  cases ha with
  | @bound _ first _ v _ =>
    cases hb with
    | @bound _ second _ w _ =>
      have hfirst := h.leftUnseen first.text (by simp [targets, name?])
      have hne : first.text ≠ second.text := by
        intro he
        exact hfirst.2 (by simp [targets, name?, he])
      exact Scope.bind_comm hne scope v w
    | printed _ => rfl
  | printed _ => rfl

end Node

-- ---------------------------------------------------------------------------
-- Runs of statements
-- ---------------------------------------------------------------------------

namespace Session

/-- The other session differs at most in its journal. -/
structure Matches (session other : Session) : Prop where
  scope_eq : other.scope = session.scope
  sink_eq : other.sink = session.sink

def Runs (session : Session) (items : List Node) (last : Session) : Prop :=
  (Node.block items).eval.on session = (.ok none, last)

theorem runs_iff : session.Runs items last ↔ (Node.evalAll items).on session = (.ok (), last) := by
  rw [Runs, Node.eval, Eval.on_bind]
  rcases (Node.evalAll items).on session with ⟨e | _, after⟩ <;> simp

theorem runs_cons_iff :
    session.Runs (item :: items) last ↔
      ∃ answer next, item.eval.on session = (.ok answer, next) ∧ next.Runs items last := by
  simp only [runs_iff, Node.evalAll, Eval.on_bind]
  rcases item.eval.on session with ⟨e | answer, next⟩
  · simp
  · simp

theorem runs_append_iff :
    session.Runs (items ++ others) last ↔
      ∃ next, session.Runs items next ∧ next.Runs others last := by
  induction items generalizing session with
  | nil => simp [runs_iff, Node.evalAll]
  | cons item items ih =>
    simp only [List.cons_append, runs_cons_iff, ih]
    constructor
    · rintro ⟨answer, middle, hitem, next, hitems, hothers⟩
      exact ⟨next, ⟨answer, middle, hitem, hitems⟩, hothers⟩
    · rintro ⟨next, ⟨answer, middle, hitem, hitems⟩, hothers⟩
      exact ⟨answer, middle, hitem, next, hitems, hothers⟩

theorem Runs.of_matches (h : session.Runs items last) (hm : session.Matches other) :
    ∃ copy, other.Runs items copy ∧ last.Matches copy := by
  obtain ⟨answer, sink, events, -, hrun⟩ := (Node.block items).framed_eval session
  have hself := hrun session rfl fun _ _ => rfl
  have hother := hrun other hm.sink_eq fun name _ => by rw [hm.scope_eq]
  rw [Runs, hself] at h
  obtain ⟨rfl, rfl⟩ := Prod.mk.inj h
  refine ⟨_, hother, ?_, rfl⟩
  simp [following, hm.scope_eq]

theorem noting_swap (h : a.Independent b) (ha : a.NotedAs session ea) (hb : b.NotedAs session eb) :
    ((session.noting ea).noting eb).Matches ((session.noting eb).noting ea) := by
  refine ⟨(h.note_comm ha hb session.scope).symm, ?_⟩
  simp only [noting, ← Sink.took_append]
  obtain hlines | hlines := h.lines_eq_nil ha hb <;> simp [hlines]

theorem fits_swap (h : a.Independent b) (ha : a.NotedAs session ea) (hb : b.NotedAs session eb)
    (hfits : session.sink.Fits (Event.lines [ea]))
    (hnext : (session.noting ea).sink.Fits (Event.lines [eb])) :
    session.sink.Fits (Event.lines [eb]) ∧
      (session.noting eb).sink.Fits (Event.lines [ea]) := by
  have happend : session.sink.Fits (Event.lines [ea] ++ Event.lines [eb]) :=
    (Sink.fits_append_iff hfits).mpr hnext
  -- At most one of the two prints, so their lines are the same in either order.
  have hswap : session.sink.Fits (Event.lines [eb] ++ Event.lines [ea]) := by
    obtain hlines | hlines := h.lines_eq_nil ha hb <;> simpa [hlines] using happend
  exact ⟨hswap.of_append, (Sink.fits_append_iff hswap.of_append).mp hswap⟩

theorem exists_swapped (hi : a.Independent b) (ha : a.IsAction) (hb : b.IsAction)
    {answer answer' : Option Value} (hfirst : a.eval.on session = (.ok answer, next))
    (hsecond : b.eval.on next = (.ok answer', last)) :
    ∃ answer answer' middle copy, b.eval.on session = (.ok answer, middle) ∧
      a.eval.on middle = (.ok answer', copy) ∧ last.Matches copy := by
  have hacts := ha.acts session
  rw [hfirst] at hacts
  obtain ⟨ea, hea, hfits, rfl⟩ := hacts.noted
  have hacts' := hb.acts (session.noting ea)
  rw [hsecond] at hacts'
  obtain ⟨eb, heb, hnext, rfl⟩ := hacts'.noted
  -- The first one bound no name that the second one looks up.
  have hback : (session.noting ea).scope.AgreesOn b.lookups session.scope := fun name hn =>
    (hea.agreesOn_note (fun target ht => (hi.leftUnseen target ht).1) name hn).symm
  have heb : b.NotedAs session eb := heb.of_agreesOn hb hback
  have hea' : a.NotedAs (session.noting eb) ea :=
    hea.of_agreesOn ha (heb.agreesOn_note fun target ht => (hi.rightUnseen target ht).1)
  obtain ⟨hfits, hnext⟩ := fits_swap hi hea heb hfits hnext
  obtain ⟨_, hrun⟩ := heb.on_eval hfits
  obtain ⟨_, hrun'⟩ := hea'.on_eval hnext
  exact ⟨_, _, _, _, hrun, hrun', noting_swap hi hea heb⟩

theorem Runs.swap (h : session.Runs (before ++ a :: b :: after) last) (hi : a.Independent b)
    (ha : a.IsAction) (hb : b.IsAction) :
    ∃ copy, session.Runs (before ++ b :: a :: after) copy ∧ last.Matches copy := by
  simp only [runs_append_iff, runs_cons_iff] at h ⊢
  obtain ⟨start, hbefore, _, middle, hfirst, _, next, hsecond, hafter⟩ := h
  obtain ⟨_, _, middle, next, hfirst, hsecond, hmatches⟩ := exists_swapped hi ha hb hfirst hsecond
  obtain ⟨copy, hafter, hmatches⟩ := hafter.of_matches hmatches
  exact ⟨copy, ⟨start, hbefore, _, middle, hfirst, _, next, hsecond, hafter⟩, hmatches⟩

end Session

/-- Two independent statements next to each other can change places in any program, in any
session: it succeeds exactly if it did before, and leaves the same scope and the same sink. -/
theorem independent_statements_commute (hi : a.Independent b) (ha : a.IsAction) (hb : b.IsAction)
    (before after : List Node) (session : Session) :
    let run := (Node.block (before ++ a :: b :: after)).eval.on session
    let swapped := (Node.block (before ++ b :: a :: after)).eval.on session
    (run.1 = .ok none ↔ swapped.1 = .ok none) ∧
    (run.1 = .ok none → swapped.2.scope = run.2.scope ∧ swapped.2.sink = run.2.sink) := by
  intro run swapped
  have hswap (h : run.1 = .ok none) : swapped.1 = .ok none ∧ run.2.Matches swapped.2 := by
    have hruns : session.Runs (before ++ a :: b :: after) run.2 := Prod.ext h rfl
    obtain ⟨copy, hcopy, hmatches⟩ := hruns.swap hi ha hb
    have hswapped : swapped = (.ok none, copy) := hcopy
    exact hswapped ▸ ⟨rfl, hmatches⟩
  refine ⟨⟨fun h => (hswap h).1, fun h => ?_⟩, fun h => ?_⟩
  · have hruns : session.Runs (before ++ b :: a :: after) swapped.2 := Prod.ext h rfl
    obtain ⟨copy, hcopy, -⟩ := hruns.swap hi.symm hb ha
    exact congrArg Prod.fst hcopy
  · exact ⟨(hswap h).2.scope_eq, (hswap h).2.sink_eq⟩

/-- An assignment and a print that read the same name, on a sink that is full in the end. -/
theorem independent_statements_commute_reading_alike :
    let token (kind : Kind) (text : String) : Token := ⟨⟨kind, text⟩, ⟨0, 1⟩⟩
    let x := Node.name (token .name "x")
    let y := Node.name (token .name "y")
    let assign (target value : Node) := Node.assign (token .assign ":=") target value
    let print (operand : Node) := Node.print (token .print "LOG") operand
    let two := Node.number (token .number "2")
    let session := Session.start (.limited (some 4) (some 2) .nothingTaken)
    let program := Node.block ([assign y two] ++ assign x y :: print y :: [print x])
    let swapped := Node.block ([assign y two] ++ print y :: assign x y :: [print x])
    (assign x y).Independent (print y) ∧ (assign x y).IsAction ∧ (print y).IsAction ∧
      (program.eval.on session).1 = .ok none ∧ (swapped.eval.on session).1 = .ok none ∧
      (swapped.eval.on session).2.scope = (program.eval.on session).2.scope ∧
      (swapped.eval.on session).2.sink.written = "2\n2\n" := by
  intro token x y assign print two session program swapped
  have hindependent : (assign x y).Independent (print y) := by
    refine ⟨?_, ?_, ?_⟩
    · rintro ⟨⟨⟩, -⟩
    · simp [assign, print, x, y, token, Node.targets, Node.lookups, Node.name?]
    · simp [print, y, Node.targets]
  have hassign : (assign x y).IsAction := .assignName (.name _)
  have hprint : (print y).IsAction := .print (.name _)
  obtain ⟨hsucceeds, hsame⟩ := independent_statements_commute hindependent hassign hprint
    [assign y two] [print x] session
  have hrun : (program.eval.on session).1 = .ok none := by decide +kernel
  have hwritten : (program.eval.on session).2.sink.written = "2\n2\n" := by decide +kernel
  obtain ⟨hscope, hsink⟩ := hsame hrun
  exact ⟨hindependent, hassign, hprint, hrun, hsucceeds.mp hrun, hscope,
    (congrArg Sink.written hsink).trans hwritten⟩

end Abacus
