import Abacus.Proofs.Session.Alike
import Abacus.Proofs.Sink.Delivery

/-!
# A fault of the sink cuts a run off

Evaluation never looks at its sink. It hands lines to it, in an order that no
sink changes, and stops as soon as one is refused. `Node.prints` lists the values
that a node prints, each with the session just before its line is written;
`Emits` says that an evaluation on any sink is the one without limits, cut off at
the first line that the sink refuses. It holds of the primitives, is kept by
sequencing, and so holds of every tree.
-/

namespace Abacus

open Sink (deliver linesOf)

variable {α β : Type}

def Session.ideal (session : Session) : Session :=
  { session with sink := session.sink.unbounded }

/-- A value about to be printed, in the session as it is then. -/
structure Print where
  session : Session
  value : Value

namespace Print

def text (print : Print) : List Char := print.value.decimal

def noted (print : Print) : Session :=
  { print.session with journal := print.session.journal.push (.printed print.value) }

def lines (prints : List Print) : List (List Char) := linesOf text prints

/-- Each value is about to be printed when the lines before it are on the sink. -/
def Successive (sink : Sink) : List Print → Prop
  | [] => True
  | print :: prints =>
    print.session.sink = sink ∧ Successive (sink.took [print.text ++ ['\n']]) prints

theorem successive_append_iff {sink : Sink} {prints others : List Print} :
    Successive sink (prints ++ others) ↔
      Successive sink prints ∧ Successive (sink.took (lines prints)) others := by
  induction prints generalizing sink with
  | nil => simp [Successive, lines, linesOf, Sink.took_nil]
  | cons print prints ih =>
    simp only [List.cons_append, Successive, ih, ← Sink.took_append, and_assoc]
    rfl

end Print

namespace Eval

def andThen (eval : Eval α) (next : α → Session → List Print) (session : Session) : List Print :=
  match eval.on session with
  | (.ok a, session) => next a session
  | (.error _, _) => []

end Eval

namespace Node

mutual

def prints : Node → Session → List Print
  | .number _, _ | .name _, _ => []
  | .print token operand, session =>
    prints operand session ++
      (Eval.demand token.line operand.eval).andThen (fun value now => [⟨now, value⟩]) session
  | .arith _ token left right, session =>
    prints left session ++
      (Eval.demand token.line left.eval).andThen (fun _ => prints right) session
  | .assign _ _ value, session => prints value session
  | .block items, session => printsAll items session

def printsAll : List Node → Session → List Print
  | [], _ => []
  | item :: items, session =>
    prints item session ++ item.eval.andThen (fun _ => printsAll items) session

end

end Node

-- ---------------------------------------------------------------------------
-- Runs that are cut off
-- ---------------------------------------------------------------------------

/-- What becomes of a run when its lines go to a sink. -/
def cutOff (ideal : Except EvalError α × Session) (prints : List Print) (sink : Sink) :
    Except EvalError α × Session :=
  match sink.deliver Print.text prints with
  | (none, sink) => (ideal.1, { ideal.2 with sink })
  | (some (print, fault), sink) => (.error (.output fault), { print.noted with sink })

/-- An evaluation on any sink is the one without limits, cut off, and these are
the values that the one without limits prints. -/
structure Emits (eval : Eval α) (prints : Session → List Print) : Prop where
  on_eq : ∀ session : Session, eval.on session =
    cutOff (eval.on session.ideal) (prints session.ideal) session.sink
  successive : ∀ session : Session, Print.Successive session.ideal.sink (prints session.ideal)

def Silent (eval : Eval α) : Prop := Emits eval fun _ => []

theorem Session.ideal_ideal (session : Session) : session.ideal.ideal = session.ideal := rfl

theorem cutOff_of_fits {sink : Sink} {prints : List Print} (h : sink.Fits (Print.lines prints))
    (ideal : Except EvalError α × Session) :
    cutOff ideal prints sink =
      (ideal.1, { ideal.2 with sink := sink.took (Print.lines prints) }) := by
  simp only [cutOff, Sink.deliver_of_fits h]
  rfl

theorem Emits.sink_ideal {eval : Eval α} {prints : Session → List Print} (h : Emits eval prints)
    (session : Session) :
    (eval.on session.ideal).2.sink =
      (session.sink.took (Print.lines (prints session.ideal))).unbounded := by
  have hfits : session.ideal.sink.Fits (Print.lines (prints session.ideal)) :=
    Sink.fits_unbounded session.sink _
  have hideal := h.on_eq session.ideal
  rw [Session.ideal_ideal, cutOff_of_fits hfits] at hideal
  rw [hideal]
  rfl

theorem Emits.bind {eval : Eval α} {next : α → Eval β} {prints : Session → List Print}
    {others : α → Session → List Print} (h : Emits eval prints)
    (hn : ∀ a, Emits (next a) (others a)) :
    Emits (eval >>= next) fun session => prints session ++ eval.andThen others session where
  on_eq := by
    intro session
    rw [Eval.on_bind, h.on_eq session]
    by_cases hfits : session.sink.Fits (Print.lines (prints session.ideal))
    · rw [cutOff_of_fits hfits]
      simp only [cutOff, Eval.on_bind, Eval.andThen, Sink.deliver_append_of_fits hfits]
      rcases hrun : eval.on session.ideal with ⟨_ | a, after⟩
      · rfl
      · -- Without limits, `next` starts where it starts here.
        have hsink := h.sink_ideal session
        rw [hrun] at hsink
        have hafter : Session.ideal { after with
            sink := session.sink.took (Print.lines (prints session.ideal)) } = after := by
          rw [Session.ideal, ← hsink]
        have hnext := (hn a).on_eq { after with
          sink := session.sink.took (Print.lines (prints session.ideal)) }
        rwa [hafter] at hnext
    · obtain ⟨before, print, after, hp, hb, hnot⟩ := Sink.exists_first_not_fits hfits
      obtain ⟨last, hlast, -⟩ := Sink.deliver_of_not_fits hb hnot after
      rw [← hp] at hlast
      simp only [cutOff, hlast, Sink.deliver_append_of_refused hlast]
  successive := by
    intro session
    refine Print.successive_append_iff.mpr ⟨h.successive session, ?_⟩
    have hsink := h.sink_ideal session
    unfold Eval.andThen
    rcases hrun : eval.on session.ideal with ⟨_ | a, after⟩
    · trivial
    · rw [hrun] at hsink
      have hafter : after.ideal = after := by
        obtain ⟨scope, sink, journal⟩ := after
        obtain rfl : sink = _ := hsink
        rfl
      have hnext := (hn a).successive after
      rw [hafter, hsink] at hnext
      exact hnext

theorem Eval.andThen_nil (eval : Eval α) (session : Session) :
    eval.andThen (fun _ _ => []) session = [] := by
  unfold Eval.andThen
  split <;> rfl

theorem Emits.bind_silent {eval : Eval α} {next : α → Eval β} {prints : Session → List Print}
    (h : Emits eval prints) (hn : ∀ a, Silent (next a)) : Emits (eval >>= next) prints := by
  have hbind := h.bind hn
  simpa only [Eval.andThen_nil, List.append_nil] using hbind

-- ---------------------------------------------------------------------------
-- The primitives
-- ---------------------------------------------------------------------------

def Eval.Pairing.unprinted : Pairing where
  looks name other := other = name
  binds name other := other = name
  prints := False

theorem Eval.carries_withSink (sink : Sink) :
    Carries .unprinted fun session copy => copy = { session with sink } where
  lookup := by
    rintro _ name session _ rfl rfl
    rfl
  bindName := by
    rintro _ name session _ rfl rfl value
    rfl
  sink := nofun
  printValue := nofun

theorem silent_of_alike {eval : Eval α}
    (h : Eval.Alike .unprinted (fun _ => Eq) eval eval) : Silent eval where
  on_eq := by
    intro session
    have hself : session = { session.ideal with sink := session.sink } := rfl
    exact (h.ends (Eval.carries_withSink session.sink) hself).eq_map
  successive := fun _ => trivial

theorem silent_pure (a : α) : Silent (pure a) := silent_of_alike (.pure a)

theorem silent_some_orThrow (e : EvalError) (a : Option α) :
    Silent (some <$> Eval.orThrow e a) :=
  silent_of_alike (.some_orThrow (fun _ => rfl) a)

theorem Emits.demand {eval : Eval (Option Value)} {prints : Session → List Print}
    (h : Emits eval prints) (line : Nat) : Emits (Eval.demand line eval) prints :=
  h.bind_silent fun a => silent_of_alike (.orThrow (fun _ => rfl) a)

theorem emits_printValue (value : Value) :
    Emits (Eval.printValue value) fun session => [⟨session, value⟩] where
  on_eq := by
    intro session
    have hideal : session.ideal.sink.putLine value.decimal = (.ok (), _) :=
      Sink.putLine_of_fits (Sink.fits_unbounded _ _)
    simp only [Eval.on_printValue, cutOff, deliver, Print.text, hideal]
    rcases session.sink.putLine value.decimal with ⟨_ | _, sink⟩ <;> rfl
  successive := fun _ => ⟨rfl, trivial⟩

-- ---------------------------------------------------------------------------
-- Trees
-- ---------------------------------------------------------------------------

namespace Node

theorem emits_evalAll {items : List Node} (h : ∀ item ∈ items, Emits item.eval item.prints) :
    Emits (evalAll items) (printsAll items) := by
  induction items with
  | nil => exact silent_pure ()
  | cons item items ih =>
    rw [List.forall_mem_cons] at h
    exact h.1.bind fun _ => ih h.2

theorem emits_eval (node : Node) : Emits node.eval node.prints := by
  induction node with
  | number token => exact silent_some_orThrow _ _
  | name token =>
    refine (silent_of_alike ?_).bind_silent (silent_some_orThrow _)
    exact .lookup rfl
  | print token operand ih =>
    refine (ih.demand token.line).bind fun value => ?_
    exact (emits_printValue value).bind_silent fun _ => silent_pure none
  | arith op token left right ihl ihr =>
    refine (ihl.demand token.line).bind fun a => ?_
    exact (ihr.demand token.line).bind_silent fun b => silent_some_orThrow _ _
  | assign token target value iht ihv =>
    refine (ihv.demand token.line).bind_silent fun v => ?_
    cases target with
    | name leaf =>
      refine (silent_of_alike ?_).bind_silent fun _ => silent_pure (some v)
      exact .bindName rfl v
    | _ =>
      apply silent_of_alike
      exact .throw fun _ => rfl
  | block items ih => exact (emits_evalAll ih).bind_silent fun _ => silent_pure none

end Node

-- ---------------------------------------------------------------------------
-- Faulty sinks
-- ---------------------------------------------------------------------------

theorem Decimal.utf8Size_of_isDigit {c : Char} (h : Decimal.isDigit c = true) :
    c.utf8Size = 1 := by
  simp only [Decimal.isDigit, Bool.and_eq_true, decide_eq_true_eq] at h
  exact Char.utf8Size_eq_one_iff.mpr (UInt32.le_trans h.2 (by decide))

/-- What is printed is ASCII, so that it has as many bytes as characters. -/
theorem Print.utf8Size_of_mem_lines {prints : List Print} {c : Char}
    (h : c ∈ (lines prints).flatten) : c.utf8Size = 1 := by
  have hdigits (n : Nat) (hc : c ∈ Decimal.digits n) : c.utf8Size = 1 :=
    Decimal.utf8Size_of_isDigit (List.all_eq_true.mp (Decimal.all_isDigit_digits n) c hc)
  obtain ⟨line, hline, hc⟩ := List.mem_flatten.mp h
  obtain ⟨print, -, rfl⟩ := List.mem_map.mp hline
  rcases List.mem_append.mp hc with hc | hc
  · unfold Print.text Value.decimal at hc
    split at hc
    next =>
      rcases List.mem_cons.mp hc with rfl | hc
      · decide
      · exact hdigits _ hc
    next => exact hdigits _ hc
  · obtain rfl := List.mem_singleton.mp hc
    decide

/-- Evaluation on a sink with limits is evaluation without limits, cut off at the
first line for which there is no room or no flush. Up to there it has done the
same, and what there is room for of the text up to the end of that line is kept. -/
theorem Node.eval_cut_off_at_first_refused_line (node : Node) (session : Session) :
    let sink := session.sink
    let ideal := node.eval.on session.ideal
    let run := node.eval.on session
    let prints := node.prints session.ideal
    (ideal.2.sink.written = sink.written ++ String.ofList (Print.lines prints).flatten ∧
      ideal.2.sink.flushes = sink.flushes + prints.length ∧
      ∀ c ∈ (Print.lines prints).flatten, c.utf8Size = 1) ∧
    (sink.Fits (Print.lines prints) →
      run.1 = ideal.1 ∧ run.2.scope = ideal.2.scope ∧
      run.2.sink.written = ideal.2.sink.written ∧ run.2.sink.flushes = ideal.2.sink.flushes) ∧
    (¬ sink.Fits (Print.lines prints) →
      ∃ before print after, prints = before ++ print :: after ∧
        sink.Fits (Print.lines before) ∧ ¬ sink.Fits (Print.lines (before ++ [print])) ∧
        (let text := (Print.lines (before ++ [print])).flatten
        run.1 = .error (.output
          (if sink.HasRoom text.length then sink.flushFault else sink.writeFault)) ∧
        run.2.sink.written = sink.written ++ String.ofList (sink.kept text)) ∧
        run.2.sink.flushes = sink.flushes + before.length ∧
        run.2.scope = print.session.scope ∧
        print.session.sink.written =
          sink.written ++ String.ofList (Print.lines before).flatten) := by
  intro sink ideal run prints
  have hemits := node.emits_eval
  have hrun : run = cutOff ideal prints sink := hemits.on_eq session
  have hideal : ideal.2.sink = (sink.took (Print.lines prints)).unbounded :=
    hemits.sink_ideal session
  have hflushes : ideal.2.sink.flushes = sink.flushes + prints.length := by
    simp [hideal, Sink.unbounded, Sink.took, Print.lines, linesOf]
  refine ⟨⟨by rw [hideal]; rfl, hflushes, fun c => Print.utf8Size_of_mem_lines⟩, ?_, ?_⟩
  · intro hfits
    rw [cutOff_of_fits hfits] at hrun
    rw [hrun, hideal]
    exact ⟨rfl, rfl, rfl, rfl⟩
  · intro hnot
    obtain ⟨before, print, after, hprints, hbefore, hfirst⟩ := Sink.exists_first_not_fits hnot
    obtain ⟨last, hlast, hwritten, hcount⟩ := Sink.deliver_of_not_fits hbefore hfirst after
    have hmoment := hemits.successive session
    rw [show node.prints session.ideal = before ++ print :: after from hprints,
      Print.successive_append_iff] at hmoment
    rw [← hprints] at hlast
    simp only [cutOff, hlast] at hrun
    rw [hrun]
    refine ⟨before, print, after, hprints, hbefore, hfirst, ⟨rfl, hwritten⟩, hcount, rfl, ?_⟩
    rw [hmoment.2.1]
    rfl

end Abacus
