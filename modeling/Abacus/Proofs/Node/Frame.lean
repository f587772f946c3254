import Abacus.Proofs.Session.Journal

/-!
# What evaluation looks up and what it binds

An evaluation is framed by two lists of names if, of the scope, it sees no more than the
first, and its bindings, which are all in the journal, are of the second. Every tree is
framed by the names that it looks up and its targets, also one that no source spells
(`Node.framed_eval`).
-/

namespace Abacus

variable {α : Type} {name : String} {names looks binds : List String}
variable {events : List Event} {session other : Session}

-- ---------------------------------------------------------------------------
-- Bindings of events
-- ---------------------------------------------------------------------------

def Event.binding? (name : String) : Event → Option Value
  | .bound target value => if target = name then some value else none
  | .lexed _ | .parsed _ | .printed _ => none

def Event.lastBinding? (name : String) (events : List Event) : Option Value :=
  events.reverse.findSome? (binding? name)

theorem Event.isSome_lastBinding? :
    (lastBinding? name events).isSome ↔ ∃ value, .bound name value ∈ events := by
  simp only [lastBinding?, List.findSome?_isSome_iff, List.mem_reverse]
  constructor
  · rintro ⟨event, hm, hsome⟩
    cases event with
    | bound target value =>
      obtain rfl : target = name := by simpa [binding?] using hsome
      exact ⟨value, hm⟩
    | _ => simp [binding?] at hsome
  · rintro ⟨value, hm⟩
    exact ⟨_, hm, by simp [binding?]⟩

theorem Scope.get?_note (scope : Scope) (event : Event) (name : String) :
    (scope.note event).get? name = (event.binding? name).or (scope.get? name) := by
  cases event with
  | bound target value =>
    by_cases h : target = name <;> simp [note, get?_bind, Event.binding?, h]
  | _ => simp [note, Event.binding?]

theorem Scope.get?_replay (scope : Scope) (events : List Event) (name : String) :
    (scope.replay events).get? name = (Event.lastBinding? name events).or (scope.get? name) := by
  induction events generalizing scope with
  | nil => rfl
  | cons event events ih =>
    have hreplay := ih (scope.note event)
    simp only [replay, List.foldl_cons] at hreplay ⊢
    simp [hreplay, get?_note, Event.lastBinding?, List.findSome?_append, Option.or_assoc]

def Scope.AgreesOn (names : List String) (scope other : Scope) : Prop :=
  ∀ name ∈ names, other.get? name = scope.get? name

theorem Scope.AgreesOn.replay {scope other : Scope} (h : scope.AgreesOn names other)
    (events : List Event) :
    (scope.replay events).AgreesOn names (other.replay events) := by
  intro name hm
  simp [get?_replay, h name hm]

-- ---------------------------------------------------------------------------
-- Framed evaluations
-- ---------------------------------------------------------------------------

/-- The session with the effects that events tell of, and another sink. -/
def Session.following (session : Session) (sink : Sink) (events : List Event) : Session :=
  ⟨session.scope.replay events, sink, session.journal ++ events.toArray⟩

theorem Session.following_inj {sink last : Sink} {more : List Event}
    (h : session.following sink events = session.following last more) :
    sink = last ∧ events = more := by
  obtain ⟨-, hsink, hjournal⟩ := Session.mk.inj h
  have htoArray : events.toArray = more.toArray := Array.append_inj_right hjournal rfl
  exact ⟨hsink, List.toArray_inj htoArray⟩

theorem Session.get?_following (session : Session) (sink : Sink) (events : List Event)
    (name : String) :
    (session.following sink events).scope.get? name =
      (Event.lastBinding? name events).or (session.scope.get? name) :=
  session.scope.get?_replay events name

theorem Session.contains_following (session : Session) (sink : Sink) (events : List Event)
    (h : session.scope.contains name = true) :
    (session.following sink events).scope.contains name = true := by
  simp only [Scope.contains_eq_isSome_get?, get?_following, Option.isSome_or,
    Bool.or_eq_true] at h ⊢
  exact .inr h

/-- In all sessions with the same sink that bind the names in `looks` alike, the
evaluation gives the same answer, leaves the same sink, and makes the same bindings, which
are all of names in `binds`. -/
def Framed (looks binds : List String) (eval : Eval α) : Prop :=
  ∀ session : Session, ∃ answer sink events,
    (∀ name value, Event.bound name value ∈ events → name ∈ binds) ∧
    ∀ other : Session, other.sink = session.sink → session.scope.AgreesOn looks other.scope →
      eval.on other = (answer, other.following sink events)

/-- Events have happened in both sessions, and what they bound is among these names. -/
def Session.FollowAlike (binds : List String) (session other now copy : Session) : Prop :=
  ∃ sink events, (∀ name value, Event.bound name value ∈ events → name ∈ binds) ∧
    now = session.following sink events ∧ copy = other.following sink events

theorem Session.followAlike_refl (h : other.sink = session.sink) :
    session.FollowAlike binds other session other := by
  refine ⟨session.sink, [], by simp, ?_, ?_⟩
  · simp [following, Scope.replay]
  · simp [following, Scope.replay, ← h]

theorem Session.carries_followAlike (h : session.scope.AgreesOn looks other.scope) :
    Eval.Carries (.same looks binds) (session.FollowAlike binds other) where
  lookup := by
    rintro _ name _ _ ⟨rfl, hname⟩ ⟨sink, events, -, rfl, rfl⟩
    exact h.replay events name hname
  bindName := by
    rintro _ name _ _ ⟨rfl, hname⟩ ⟨sink, events, hbinds, rfl, rfl⟩ value
    refine ⟨sink, events ++ [.bound name value], ?_, ?_, ?_⟩
    · intro bound v hm
      rcases List.mem_append.mp hm with hm | hm
      · exact hbinds bound v hm
      · cases List.mem_singleton.mp hm
        exact hname
    · simp [following, Scope.replay, Scope.note]
    · simp [following, Scope.replay, Scope.note]
  sink := by
    rintro _ _ - ⟨sink, events, -, rfl, rfl⟩
    rfl
  printValue := by
    rintro _ _ - ⟨sink, events, hbinds, rfl, rfl⟩ value
    refine ⟨(sink.putLine value.decimal).2, events ++ [.printed value], ?_, ?_, ?_⟩
    · simpa using hbinds
    · simp [Eval.on_printValue, following, Scope.replay, Scope.note]
    · simp [Eval.on_printValue, following, Scope.replay, Scope.note]

theorem framed_of_alike {eval : Eval α}
    (h : Eval.Alike (.same looks binds) (fun _ => Eq) eval eval) :
    Framed looks binds eval := by
  intro session
  have hends (other : Session) (hsink : other.sink = session.sink)
      (hagrees : session.scope.AgreesOn looks other.scope) :=
    h.ends (Session.carries_followAlike hagrees) (Session.followAlike_refl hsink)
  obtain ⟨sink, events, hbinds, hlast, -⟩ := (hends session rfl fun _ _ => rfl).last_related
  refine ⟨(eval.on session).1, sink, events, hbinds, fun other hsink hagrees => ?_⟩
  -- The run in the first session is the same one in both comparisons, and so are its events.
  obtain ⟨sink', events', -, hlast', hcopy⟩ := (hends other hsink hagrees).last_related
  obtain ⟨rfl, rfl⟩ := Session.following_inj (hlast.symm.trans hlast')
  exact Prod.ext (hends other hsink hagrees).answer hcopy

namespace Node

theorem framed_eval (node : Node) : Framed node.lookups node.targets node.eval :=
  framed_of_alike node.alike_eval

/-- Whether evaluation succeeds or fails, no binding disappears, only targets are bound,
and the journal tells what was bound. In another session with the same sink that binds the
looked-up names alike, it gives the same answer, leaves the same sink and notes the same
events; and the scopes then agree wherever they did before, and on what was bound. -/
theorem eval_framed_by_own_names (node : Node) (session : Session) :
    let last := (node.eval.on session).2
    (∀ name, session.scope.contains name = true → last.scope.contains name = true) ∧
    (∀ name, name ∉ node.targets → last.scope.get? name = session.scope.get? name) ∧
    ∃ events, last.journal = session.journal ++ events.toArray ∧
      last.scope = session.scope.replay events ∧
      ∀ other : Session, other.sink = session.sink →
        (∀ name ∈ node.lookups, other.scope.get? name = session.scope.get? name) →
        let copy := (node.eval.on other).2
        (node.eval.on other).1 = (node.eval.on session).1 ∧ copy.sink = last.sink ∧
        copy.journal = other.journal ++ events.toArray ∧
        (∀ name, other.scope.get? name = session.scope.get? name →
          copy.scope.get? name = last.scope.get? name) ∧
        ∀ name value, Event.bound name value ∈ events →
          copy.scope.get? name = last.scope.get? name := by
  intro last
  obtain ⟨answer, sink, events, hbinds, hrun⟩ := node.framed_eval session
  have hself := hrun session rfl fun _ _ => rfl
  have hlast : last = session.following sink events := congrArg Prod.snd hself
  refine ⟨fun name hbound => ?_, fun name hname => ?_, events, ?_, ?_, ?_⟩
  · simpa [hlast] using session.contains_following sink events hbound
  · have hnone : Event.lastBinding? name events = none := by
      rw [← Option.not_isSome_iff_eq_none, Event.isSome_lastBinding?]
      rintro ⟨value, hm⟩
      exact hname (hbinds name value hm)
    simp [hlast, Session.get?_following, hnone]
  · simp [hlast, Session.following]
  · simp [hlast, Session.following]
  · intro other hsink hagrees copy
    have hother := hrun other hsink hagrees
    have hcopy : copy = other.following sink events := congrArg Prod.snd hother
    refine ⟨by simp [hother, hself], by simp [hcopy, hlast, Session.following],
      by simp [hcopy, Session.following], fun name hname => ?_, fun name value hm => ?_⟩
    · simp [hcopy, hlast, Session.get?_following, hname]
    · obtain ⟨v, hv⟩ := Option.isSome_iff_exists.mp (Event.isSome_lastBinding?.mpr ⟨value, hm⟩)
      simp [hcopy, hlast, Session.get?_following, hv]

end Node

end Abacus
