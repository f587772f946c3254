import Mathlib.Data.List.Nodup
import Mathlib.Logic.Equiv.Set
import Abacus.Proofs.Session.Alike
import Abacus.Proofs.Scope.History

/-!
# Evaluation and the choice of names

Evaluation tells names apart and looks at nothing else of them. So a tree with its names
replaced, in a scope with its names replaced, does what it did before, as long as no two of
them become one (`Node.renames_eval`). Errors speak of the new names: that of a name that is
not bound has the new name, and that of an invalid target has the target as it is written
now. `Node.Refuses` says which target that is.
-/

namespace Abacus

-- ---------------------------------------------------------------------------
-- New names
-- ---------------------------------------------------------------------------

def Token.rename (r : String → String) (token : Token) : Token :=
  { token with text := r token.text }

namespace Node

mutual

def rename (r : String → String) : Node → Node
  | .number token => .number token
  | .name token => .name (token.rename r)
  | .print token operand => .print token (rename r operand)
  | .arith op token left right => .arith op token (rename r left) (rename r right)
  | .assign token target value => .assign token (rename r target) (rename r value)
  | .block items => .block (renameAll r items)

def renameAll (r : String → String) : List Node → List Node
  | [] => []
  | item :: items => rename r item :: renameAll r items

end

mutual

/-- The names of a tree, also those in targets. -/
def names : Node → List String
  | .number _ => []
  | .name token => [token.text]
  | .print _ operand => names operand
  | .arith _ _ left right => names left ++ names right
  | .assign _ target value => names target ++ names value
  | .block items => namesAll items

def namesAll : List Node → List String
  | [] => []
  | item :: items => names item ++ namesAll items

end

end Node

def Scope.rename (r : String → String) (scope : Scope) : Scope :=
  assigned (scope.toList.map (Prod.map r id))

def Event.rename (r : String → String) : Event → Event
  | .bound name value => .bound (r name) value
  | .lexed tokens => .lexed tokens
  | .parsed statements => .parsed statements
  | .printed value => .printed value

def Session.rename (r : String → String) (session : Session) : Session :=
  ⟨session.scope.rename r, session.sink, session.journal.map (Event.rename r)⟩

variable {α β : Type} {r : String → String} {names : Set String} {name : String}
variable {value : Value} {scope : Scope}

-- ---------------------------------------------------------------------------
-- Scopes
-- ---------------------------------------------------------------------------

theorem lastAssigned?_eq_some_iff {history : List (String × Value)}
    (h : (history.map Prod.fst).Nodup) :
    lastAssigned? history name = some value ↔ (name, value) ∈ history := by
  have hmem {v : Value} (hv : lastAssigned? history name = some v) : (name, v) ∈ history := by
    obtain ⟨before, after, hsplit, -⟩ := List.lookup_eq_some_iff.mp hv
    rw [← List.mem_reverse, hsplit]
    simp
  constructor
  · exact hmem
  · intro hm
    have hsome : (lastAssigned? history name).isSome :=
      isSome_lastAssigned?_iff.mpr (List.mem_map_of_mem hm)
    obtain ⟨v, hv⟩ := Option.isSome_iff_exists.mp hsome
    obtain ⟨-, rfl⟩ := Prod.mk.inj (List.inj_on_of_nodup_map h (hmem hv) hm rfl)
    exact hv

namespace Scope

def Within (names : Set String) (scope : Scope) : Prop :=
  ∀ name, scope.contains name = true → name ∈ names

theorem Within.mem (h : scope.Within names) (hv : scope.get? name = some value) : name ∈ names := by
  apply h
  simp [contains_eq_isSome_get?, hv]

theorem Within.bind (h : scope.Within names) (hn : name ∈ names) (value : Value) :
    (scope.bind name value).Within names := by
  intro other hother
  by_cases he : name = other
  · exact he ▸ hn
  · apply h
    simpa [contains_eq_isSome_get?, get?_bind, he] using hother

theorem get?_rename_eq_some_iff (hr : Set.InjOn r names) (h : scope.Within names) :
    (scope.rename r).get? name = some value ↔
      ∃ old, r old = name ∧ scope.get? old = some value := by
  -- No two bindings take the same new name, so that none overwrites another one.
  have hnodup : ((scope.toList.map (Prod.map r id)).map Prod.fst).Nodup := by
    have hmap : (scope.toList.map (Prod.map r id)).map Prod.fst =
        (scope.toList.map Prod.fst).map r := by
      simp [Function.comp_def]
    rw [hmap]
    refine scope.nodup_names.map_on fun old hold other hother he => hr ?_ ?_ he
    · exact h old (by rwa [contains_eq_isSome_get?, ← mem_names_iff])
    · exact h other (by rwa [contains_eq_isSome_get?, ← mem_names_iff])
  rw [rename, get?_assigned, lastAssigned?_eq_some_iff hnodup, List.mem_map]
  constructor
  · rintro ⟨⟨old, v⟩, hm, he⟩
    obtain ⟨rfl, rfl⟩ := Prod.mk.inj he
    exact ⟨old, rfl, mem_toList_iff.mp hm⟩
  · rintro ⟨old, rfl, hv⟩
    exact ⟨(old, value), mem_toList_iff.mpr hv, rfl⟩

theorem get?_rename (hr : Set.InjOn r names) (h : scope.Within names) (hn : name ∈ names) :
    (scope.rename r).get? (r name) = scope.get? name := by
  ext value
  rw [get?_rename_eq_some_iff hr h]
  constructor
  · rintro ⟨old, he, hv⟩
    rwa [← hr (h.mem hv) hn he]
  · intro hv
    exact ⟨name, rfl, hv⟩

theorem rename_bind (hr : Set.InjOn r names) (h : scope.Within names) (hn : name ∈ names)
    (value : Value) :
    (scope.bind name value).rename r = (scope.rename r).bind (r name) value := by
  apply ext_get?
  intro other
  ext v
  rw [get?_rename_eq_some_iff hr (h.bind hn value), get?_bind]
  split
  next he =>
    constructor
    · rintro ⟨old, hold, hv⟩
      obtain rfl : name = old := hr hn ((h.bind hn value).mem hv) (he.trans hold.symm)
      rwa [get?_bind_self] at hv
    · intro hv
      exact ⟨name, he, by rwa [get?_bind_self]⟩
  next he =>
    rw [get?_rename_eq_some_iff hr h]
    have hbind {old : String} (hold : r old = other) :
        (scope.bind name value).get? old = scope.get? old := by
      rw [get?_bind, if_neg]
      rintro rfl
      exact he hold
    constructor
    · rintro ⟨old, hold, hv⟩
      exact ⟨old, hold, hbind hold ▸ hv⟩
    · rintro ⟨old, hold, hv⟩
      exact ⟨old, hold, (hbind hold).trans hv⟩

end Scope

-- ---------------------------------------------------------------------------
-- Errors
-- ---------------------------------------------------------------------------

namespace Node

mutual

/-- Evaluation of the node in the session stops at an assignment whose value it has
found, because its target is not a name. -/
inductive Refuses : Session → Node → Node → Prop
  | target {session next : Session} {token : Token} {target value : Node} {v : Value} :
      value.eval.on session = (.ok (some v), next) → (∀ leaf, target ≠ .name leaf) →
      Refuses session (.assign token target value) target
  | value {session : Session} {token : Token} {other value target : Node} :
      Refuses session value target → Refuses session (.assign token other value) target
  | print {session : Session} {token : Token} {operand target : Node} :
      Refuses session operand target → Refuses session (.print token operand) target
  | left {session : Session} {op : Op} {token : Token} {left right target : Node} :
      Refuses session left target → Refuses session (.arith op token left right) target
  | right {session next : Session} {op : Op} {token : Token} {left right target : Node}
      {v : Value} : left.eval.on session = (.ok (some v), next) → Refuses next right target →
      Refuses session (.arith op token left right) target
  | block {session : Session} {items : List Node} {target : Node} :
      RefusesAmong session items target → Refuses session (.block items) target

inductive RefusesAmong : Session → List Node → Node → Prop
  | first {session : Session} {item target : Node} {items : List Node} :
      Refuses session item target → RefusesAmong session (item :: items) target
  | later {session next : Session} {item target : Node} {items : List Node}
      {answer : Option Value} : item.eval.on session = (.ok answer, next) →
      RefusesAmong next items target → RefusesAmong session (item :: items) target

end

end Node

/-- The error of an evaluation with other names. An invalid target is one that was
refused, written with these names. -/
inductive EvalError.Renamed (r : String → String) (refused : Node → Prop) :
    EvalError → EvalError → Prop
  | undefinedName (name : String) (line : Nat) :
      Renamed r refused (.undefinedName name line) (.undefinedName (r name) line)
  | invalidTarget {target : Node} (line : Nat) : refused target →
      Renamed r refused (.invalidTarget target.render line)
        (.invalidTarget (target.rename r).render line)
  | invalidLiteral (text : String) (line : Nat) :
      Renamed r refused (.invalidLiteral text line) (.invalidLiteral text line)
  | overflow (line : Nat) : Renamed r refused (.overflow line) (.overflow line)
  | missingValue (line : Nat) : Renamed r refused (.missingValue line) (.missingValue line)
  | output (fault : Fault) : Renamed r refused (.output fault) (.output fault)

theorem EvalError.Renamed.mono {refused other : Node → Prop} {e e' : EvalError}
    (h : e.Renamed r refused e') (ho : ∀ target, refused target → other target) :
    e.Renamed r other e' := by
  cases h with
  | undefinedName name line => exact .undefinedName name line
  | invalidTarget line ht => exact .invalidTarget line (ho _ ht)
  | invalidLiteral text line => exact .invalidLiteral text line
  | overflow line => exact .overflow line
  | missingValue line => exact .missingValue line
  | output fault => exact .output fault

-- ---------------------------------------------------------------------------
-- Evaluations with other names
-- ---------------------------------------------------------------------------

def Eval.Pairing.renaming (r : String → String) (names : Set String) : Pairing where
  looks name other := other = r name ∧ name ∈ names
  binds name other := other = r name ∧ name ∈ names
  prints := True

theorem Eval.carries_rename (hr : Set.InjOn r names) : Carries (.renaming r names)
    fun session copy => session.scope.Within names ∧ copy = session.rename r where
  lookup := by
    rintro name _ session _ ⟨rfl, hn⟩ ⟨hw, rfl⟩
    exact Scope.get?_rename hr hw hn
  bindName := by
    rintro name _ session _ ⟨rfl, hn⟩ ⟨hw, rfl⟩ value
    refine ⟨hw.bind hn value, ?_⟩
    simp [Session.rename, Scope.rename_bind hr hw hn, Event.rename]
  sink := by
    rintro session _ - ⟨-, rfl⟩
    rfl
  printValue := by
    rintro session _ - ⟨hw, rfl⟩ value
    refine ⟨?_, ?_⟩
    · rwa [on_printValue]
    · simp [on_printValue, Session.rename, Event.rename]

abbrev Renames (r : String → String) (names : Set String) (refused : Session → Node → Prop)
    (eval other : Eval α) : Prop :=
  Eval.Alike (.renaming r names) (fun session e e' => e.Renamed r (refused session) e') eval other

section Sequencing

variable {eval other : Eval α} {next otherNext : α → Eval β} {refused : Session → Node → Prop}

/-- What is refused on the way is refused by the first part, or by the second one in the
session that the first one leaves. -/
theorem Renames.andThen {first : Session → Node → Prop} {second : α → Session → Node → Prop}
    (h : Renames r names first eval other)
    (hn : ∀ a, Renames r names (second a) (next a) (otherNext a))
    (hfirst : ∀ session target, first session target → refused session target)
    (hsecond : ∀ session a after target, eval.on session = (.ok a, after) →
      second a after target → refused session target) :
    Renames r names refused (eval >>= next) (other >>= otherNext) := by
  refine h.bind hn ?_ ?_
  · intro session e e' he
    exact he.mono (hfirst session)
  · intro session a after e e' hrun he
    exact he.mono fun target ht => hsecond session a after target hrun ht

theorem Renames.bind_plain (h : Renames r names refused eval other)
    (hn : ∀ a, Renames r names (fun _ _ => False) (next a) (otherNext a)) :
    Renames r names refused (eval >>= next) (other >>= otherNext) := by
  refine h.andThen hn (fun _ _ ht => ht) ?_
  rintro session a after target - ⟨⟩

theorem Renames.mono {more : Session → Node → Prop} (h : Renames r names refused eval other)
    (hm : ∀ session target, refused session target → more session target) :
    Renames r names more eval other :=
  Eval.Alike.mono h fun session _ _ he => he.mono (hm session)

theorem Renames.demand {eval other : Eval (Option Value)} (h : Renames r names refused eval other)
    (line : Nat) : Renames r names refused (Eval.demand line eval) (Eval.demand line other) :=
  Eval.Alike.demand h fun _ => .missingValue line

end Sequencing

-- ---------------------------------------------------------------------------
-- Trees
-- ---------------------------------------------------------------------------

theorem Eval.of_on_demand {eval : Eval (Option Value)} {line : Nat} {session next : Session}
    {v : Value} (h : (Eval.demand line eval).on session = (.ok v, next)) :
    eval.on session = (.ok (some v), next) := by
  rw [demand, on_bind] at h
  rcases hrun : eval.on session with ⟨e | _ | a, after⟩
  all_goals
    rw [hrun] at h
    cases h
  rfl

namespace Node

variable {items : List Node}

theorem renames_evalAll
    (h : ∀ item ∈ items, (∀ name ∈ item.names, name ∈ names) →
      Renames r names (Refuses · item) item.eval (item.rename r).eval)
    (hn : ∀ name ∈ namesAll items, name ∈ names) :
    Renames r names (RefusesAmong · items) (evalAll items) (evalAll (renameAll r items)) := by
  induction items with
  | nil => exact .pure ()
  | cons item items ih =>
    rw [namesAll, List.forall_mem_append] at hn
    rw [List.forall_mem_cons] at h
    refine (h.1 hn.1).andThen (fun _ => ih h.2 hn.2) (fun _ _ => .first) ?_
    intro session answer after target hrun ht
    exact .later hrun ht

theorem renames_eval (node : Node) (hn : ∀ name ∈ node.names, name ∈ names) :
    Renames r names (Refuses · node) node.eval (node.rename r).eval := by
  induction node with
  | number token =>
    apply Eval.Alike.some_orThrow
    exact fun _ => .invalidLiteral token.text token.line
  | name token =>
    have hname : token.text ∈ names := hn token.text (by simp [Node.names])
    have hlookup : Renames r names (Refuses · (.name token)) (Eval.lookup token.text)
        (Eval.lookup (r token.text)) := by
      apply Eval.Alike.lookup
      exact ⟨rfl, hname⟩
    refine hlookup.bind_plain fun _ => ?_
    apply Eval.Alike.some_orThrow
    exact fun _ => .undefinedName token.text token.line
  | print token operand ih =>
    have hprint (value : Value) : Renames r names (fun _ _ => False) (Eval.printValue value)
        (Eval.printValue value) := by
      apply Eval.Alike.printValue trivial
      exact fun _ fault => .output fault
    have hoperand := (ih hn).demand token.line
    refine Renames.mono ?_ fun _ _ => .print
    exact hoperand.bind_plain fun value => (hprint value).bind_plain fun _ => .pure none
  | arith op token left right ihl ihr =>
    rw [Node.names, List.forall_mem_append] at hn
    have hleft := (ihl hn.1).demand token.line
    have hright := (ihr hn.2).demand token.line
    refine hleft.andThen (fun a => hright.bind_plain fun b => ?_) (fun _ _ => .left) ?_
    · apply Eval.Alike.some_orThrow
      exact fun _ => .overflow token.line
    · intro session a after target hrun ht
      exact .right (Eval.of_on_demand hrun) ht
  | assign token target value _ ihv =>
    rw [Node.names, List.forall_mem_append] at hn
    have hvalue := (ihv hn.2).demand token.line
    -- The names of a target that is refused show only in the text of the error.
    have hinvalid (_ : Value) : Renames r names (fun _ other => other = target)
        (throw (.invalidTarget target.render token.line) : Eval (Option Value))
        (throw (.invalidTarget (target.rename r).render token.line)) :=
      .throw fun _ => .invalidTarget token.line rfl
    cases target with
    | name leaf =>
      have hleaf : leaf.text ∈ names := hn.1 leaf.text (by simp [Node.names])
      have hbind (v : Value) : Renames r names (fun _ _ => False) (Eval.bindName leaf.text v)
          (Eval.bindName (r leaf.text) v) := by
        apply Eval.Alike.bindName
        exact ⟨rfl, hleaf⟩
      refine Renames.mono ?_ fun _ _ => .value
      exact hvalue.bind_plain fun v => (hbind v).bind_plain fun _ => .pure (some v)
    | _ =>
      refine hvalue.andThen hinvalid (fun _ _ => .value) ?_
      rintro session v after target hrun rfl
      exact .target (Eval.of_on_demand hrun) nofun
  | block items ih =>
    refine Renames.mono ?_ fun _ _ => .block
    exact (renames_evalAll ih hn).bind_plain fun _ => .pure none

/-- A tree with its names replaced, in a session with its names replaced, gives the same
answer and leaves the same session with its names replaced, if no two names of the tree and
the scope become one. It fails exactly if the tree did, by the same error; of the fields of
the error only a name that is not bound and the text of an invalid target are replaced. -/
theorem eval_rename_alike (node : Node) (session : Session)
    (hr : Set.InjOn r {name | name ∈ node.names ∨ session.scope.contains name = true}) :
    let run := node.eval.on session
    let renamed := (node.rename r).eval.on (session.rename r)
    renamed.2 = run.2.rename r ∧ (∀ answer, run.1 = .ok answer → renamed.1 = .ok answer) ∧
    ∀ e, run.1 = .error e →
      ∃ e', renamed.1 = .error e' ∧ e.Renamed r (Refuses session node) e' := by
  intro run renamed
  have hrenames : Renames r {name | name ∈ node.names ∨ session.scope.contains name = true}
      (Refuses · node) node.eval (node.rename r).eval :=
    node.renames_eval fun name hn => .inl hn
  have hends := hrenames.ends (Eval.carries_rename hr) ⟨fun name hbound => .inr hbound, rfl⟩
  have hlast : renamed.2 = run.2.rename r := hends.last_related.2
  refine ⟨hlast, ?_⟩
  change Eval.EndsAlike _ _ run renamed at hends
  generalize run = run at hends ⊢
  generalize renamed = renamed at hends ⊢
  cases hends with
  | ok _ =>
    refine ⟨fun answer h => h, ?_⟩
    rintro e ⟨⟩
  | error _ he =>
    refine ⟨?_, ?_⟩
    · rintro answer ⟨⟩
    · rintro e ⟨⟩
      exact ⟨_, rfl, he⟩

/-- Two names that change places, also in a target that is refused. -/
theorem eval_rename_alike_exchanged :
    let token (kind : Kind) (text : String) (line : Nat) : Token := ⟨⟨kind, text⟩, ⟨0, line⟩⟩
    let x := Node.name (token .name "x" 1)
    let y := Node.name (token .name "y" 1)
    let sum := Node.arith .add (token .plus "+" 2) x y
    let node := Node.block
      [.assign (token .assign ":=" 1) x y, .assign (token .assign ":=" 2) sum x]
    let session : Session := { Session.start .unlimited with
      scope := Scope.empty.bind "y" ⟨7, by decide⟩ }
    let r := Equiv.swap "x" "y"
    Set.InjOn r {name | name ∈ node.names ∨ session.scope.contains name = true} ∧
      (node.eval.on session).1 = .error (.invalidTarget "x + y" 2) ∧
      (node.rename r).eval.on (session.rename r) =
        (.error (.invalidTarget "y + x" 2), (node.eval.on session).2.rename r) ∧
      EvalError.Renamed r (Refuses session node) (.invalidTarget "x + y" 2)
        (.invalidTarget "y + x" 2) := by
  intro token x y sum node session r
  have hr : Set.InjOn r {name | name ∈ node.names ∨ session.scope.contains name = true} :=
    r.injective.injOn
  obtain ⟨hlast, -, herror⟩ := node.eval_rename_alike session hr
  have hrun : (node.eval.on session).1 = .error (.invalidTarget "x + y" 2) := by decide +kernel
  have hanswer : ((node.rename r).eval.on (session.rename r)).1 =
      .error (.invalidTarget "y + x" 2) := by decide +kernel
  obtain ⟨e', he', hrenamed⟩ := herror _ hrun
  cases hanswer.symm.trans he'
  exact ⟨hr, hrun, Prod.ext hanswer hlast, hrenamed⟩

end Node

end Abacus
