import Abacus.Node.Eval

/-!
# Evaluations that are made alike

Two evaluations are made alike if they are put together from primitives in the same way, and
differ only in names and in errors (`Eval.Alike`). If each primitive keeps a relation of
sessions (`Eval.Carries`), so do all evaluations that are made alike: from related sessions they
give the same answer, or errors that may stand for each other, and leave related sessions
(`Eval.Alike.ends`). So a law that compares two runs is stated as a relation of sessions and
shown of the primitives only.
-/

namespace Abacus.Eval

variable {α β : Type}

/-- Which names may stand for each other where one is looked up and where one is bound, and
whether an evaluation may print. -/
structure Pairing where
  looks : String → String → Prop
  binds : String → String → Prop
  prints : Prop

def Pairing.same (looks binds : List String) : Pairing where
  looks name other := other = name ∧ name ∈ looks
  binds name other := other = name ∧ name ∈ binds
  prints := True

/-- Which errors may stand for each other in an evaluation that starts in a session. -/
abbrev Errors := Session → EvalError → EvalError → Prop

inductive Alike (pairing : Pairing) : {α : Type} → Errors → Eval α → Eval α → Prop
  | pure {α : Type} {errors : Errors} (a : α) : Alike pairing errors (pure a) (pure a)
  | throw {α : Type} {errors : Errors} {e e' : EvalError} : (∀ session, errors session e e') →
      Alike pairing errors (throw e : Eval α) (throw e')
  | lookup {errors : Errors} {name other : String} : pairing.looks name other →
      Alike pairing errors (lookup name) (lookup other)
  | bindName {errors : Errors} {name other : String} : pairing.binds name other →
      (value : Value) → Alike pairing errors (bindName name value) (bindName other value)
  | printValue {errors : Errors} : pairing.prints →
      (∀ session fault, errors session (.output fault) (.output fault)) → (value : Value) →
      Alike pairing errors (printValue value) (printValue value)
  /-- An error of the second part is one of the whole, in the session that the first part
  started in. -/
  | bind {α β : Type} {errors first : Errors} {second : α → Errors} {eval other : Eval α}
      {next otherNext : α → Eval β} :
      Alike pairing first eval other → (∀ a, Alike pairing (second a) (next a) (otherNext a)) →
      (∀ session e e', first session e e' → errors session e e') →
      (∀ session a after e e', eval.on session = (.ok a, after) → second a after e e' →
        errors session e e') →
      Alike pairing errors (eval >>= next) (other >>= otherNext)

-- ---------------------------------------------------------------------------
-- Putting evaluations together
-- ---------------------------------------------------------------------------

namespace Alike

variable {pairing : Pairing} {errors : Errors} {eval other : Eval α}
variable {next otherNext : α → Eval β} {e e' : EvalError}

theorem mono {more : Errors} (h : Alike pairing errors eval other)
    (hm : ∀ session e e', errors session e e' → more session e e') :
    Alike pairing more eval other := by
  cases h with
  | pure a => exact .pure a
  | throw he => exact .throw fun session => hm _ _ _ (he session)
  | lookup hn => exact .lookup hn
  | bindName hn value => exact .bindName hn value
  | printValue hp he value =>
    exact .printValue hp (fun session fault => hm _ _ _ (he session fault)) value
  | bind h hn hfirst hsecond =>
    refine .bind h hn (fun session e e' he => hm _ _ _ (hfirst _ _ _ he)) ?_
    intro session a after e e' hrun he
    exact hm _ _ _ (hsecond _ _ _ _ _ hrun he)

theorem andThen {plain : EvalError → EvalError → Prop} (h : Alike pairing errors eval other)
    (hn : ∀ a, Alike pairing (fun _ => plain) (next a) (otherNext a))
    (hp : ∀ session e e', plain e e' → errors session e e') :
    Alike pairing errors (eval >>= next) (other >>= otherNext) :=
  h.bind hn (fun _ _ _ he => he) fun session _ _ e e' _ he => hp session e e' he

theorem seq {plain : EvalError → EvalError → Prop} (h : Alike pairing (fun _ => plain) eval other)
    (hn : ∀ a, Alike pairing (fun _ => plain) (next a) (otherNext a)) :
    Alike pairing (fun _ => plain) (eval >>= next) (other >>= otherNext) :=
  h.andThen hn fun _ _ _ he => he

theorem orThrow (he : ∀ session, errors session e e') (a : Option α) :
    Alike pairing errors (Eval.orThrow e a) (Eval.orThrow e' a) := by
  cases a with
  | none => exact .throw he
  | some a => exact .pure a

theorem some_orThrow (he : ∀ session, errors session e e') (a : Option α) :
    Alike pairing errors (some <$> Eval.orThrow e a) (some <$> Eval.orThrow e' a) := by
  cases a with
  | none => exact .throw he
  | some a => exact .pure (some a)

theorem demand {eval other : Eval (Option Value)} {line line' : Nat}
    (h : Alike pairing errors eval other)
    (he : ∀ session, errors session (.missingValue line) (.missingValue line')) :
    Alike pairing errors (Eval.demand line eval) (Eval.demand line' other) := by
  have hmissing (a : Option Value) :
      Alike pairing (fun _ e e' => e = .missingValue line ∧ e' = .missingValue line')
        (Eval.orThrow (.missingValue line) a) (Eval.orThrow (.missingValue line') a) :=
    orThrow (fun _ => ⟨rfl, rfl⟩) a
  refine h.andThen hmissing ?_
  rintro session _ _ ⟨rfl, rfl⟩
  exact he session

end Alike

-- ---------------------------------------------------------------------------
-- Runs of evaluations that are made alike
-- ---------------------------------------------------------------------------

/-- The primitives keep a relation of sessions, where they are given names that may stand for
each other. -/
structure Carries (pairing : Pairing) (related : Session → Session → Prop) : Prop where
  lookup : ∀ {name other session copy}, pairing.looks name other → related session copy →
    copy.scope.get? other = session.scope.get? name
  bindName : ∀ {name other session copy}, pairing.binds name other → related session copy →
    ∀ value, related ((bindName name value).on session).2 ((bindName other value).on copy).2
  sink : ∀ {session copy}, pairing.prints → related session copy → copy.sink = session.sink
  printValue : ∀ {session copy}, pairing.prints → related session copy →
    ∀ value, related ((printValue value).on session).2 ((printValue value).on copy).2

inductive EndsAlike (related : Session → Session → Prop) (errors : EvalError → EvalError → Prop) :
    Except EvalError α × Session → Except EvalError α × Session → Prop
  | ok {a : α} {last copy : Session} : related last copy →
      EndsAlike related errors (.ok a, last) (.ok a, copy)
  | error {e e' : EvalError} {last copy : Session} : related last copy → errors e e' →
      EndsAlike related errors (.error e, last) (.error e', copy)

variable {pairing : Pairing} {related : Session → Session → Prop}

theorem EndsAlike.mono {errors more : EvalError → EvalError → Prop}
    {run other : Except EvalError α × Session} (h : EndsAlike related errors run other)
    (hm : ∀ e e', errors e e' → more e e') : EndsAlike related more run other := by
  cases h with
  | ok hlast => exact .ok hlast
  | error hlast he => exact .error hlast (hm _ _ he)

theorem EndsAlike.last_related {errors : EvalError → EvalError → Prop}
    {run other : Except EvalError α × Session} (h : EndsAlike related errors run other) :
    related run.2 other.2 := by
  cases h with
  | ok hlast => exact hlast
  | error hlast _ => exact hlast

theorem EndsAlike.answer {run other : Except EvalError α × Session}
    (h : EndsAlike related Eq run other) : other.1 = run.1 := by
  cases h with
  | ok _ => rfl
  | error _ he => rw [he]

theorem EndsAlike.eq_map {f : Session → Session} {run other : Except EvalError α × Session}
    (h : EndsAlike (fun session copy => copy = f session) Eq run other) :
    other = run.map id f :=
  Prod.ext h.answer h.last_related

theorem Carries.ends_printValue {errors : EvalError → EvalError → Prop} {session copy : Session}
    (h : Carries pairing related) (hp : pairing.prints) (hs : related session copy)
    (he : ∀ fault, errors (.output fault) (.output fault)) (value : Value) :
    EndsAlike related errors ((Eval.printValue value).on session)
      ((Eval.printValue value).on copy) := by
  have hlast := h.printValue hp hs value
  rw [on_printValue, on_printValue, h.sink hp hs] at hlast ⊢
  cases (session.sink.putLine value.decimal).1 with
  | ok _ => exact .ok hlast
  | error fault => exact .error hlast (he fault)

theorem Alike.ends {errors : Errors} {eval other : Eval α} {session copy : Session}
    (h : Alike pairing errors eval other) (hc : Carries pairing related)
    (hs : related session copy) :
    EndsAlike related (errors session) (eval.on session) (other.on copy) := by
  induction h generalizing session copy with
  | pure a => exact .ok hs
  | throw he => exact .error hs (he session)
  | lookup hn =>
    rw [on_lookup, on_lookup, hc.lookup hn hs]
    exact .ok hs
  | bindName hn value => exact .ok (hc.bindName hn hs value)
  | printValue hp he value => exact hc.ends_printValue hp hs (he session) value
  | @bind _ _ _ _ _ eval other next otherNext _ _ hfirst hsecond ih ihn =>
    have hends := ih hs
    rw [on_bind, on_bind]
    generalize hrun : eval.on session = run at hends
    generalize other.on copy = run' at hends
    cases hends with
    | @ok a after _ hafter => exact (ihn a hafter).mono (hsecond session a after · · hrun)
    | error hafter he => exact .error hafter (hfirst session _ _ he)

end Abacus.Eval
