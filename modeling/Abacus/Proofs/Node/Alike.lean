import Abacus.Proofs.Node.Bare
import Abacus.Proofs.Session.Alike

/-!
# Trees that are evaluated alike

Evaluation reads the texts of the tokens of a tree, and puts their lines into its
errors. It looks at nothing else of them, and of the texts only at those of leaves
and targets (`Node.Keeps`). It looks up only names that stand outside of targets, and
binds only names that are targets (`Node.lookups`, `Node.targets`). So a tree is evaluated
like its copy with the tokens moved, with the lines in errors replaced, and with no names
but these (`Node.Keeps.alike`).
-/

namespace Abacus

variable {f : Token → Token} {g : Nat → Nat} {looks binds : List String}

def EvalError.mapLine (g : Nat → Nat) : EvalError → EvalError
  | .undefinedName name line => .undefinedName name (g line)
  | .invalidTarget target line => .invalidTarget target (g line)
  | .invalidLiteral text line => .invalidLiteral text (g line)
  | .overflow line => .overflow (g line)
  | .missingValue line => .missingValue (g line)
  | .output fault => .output fault

theorem EvalError.mapLine_id (e : EvalError) : e.mapLine id = e := by
  cases e <;> rfl

namespace Node

-- ---------------------------------------------------------------------------
-- Names of a tree
-- ---------------------------------------------------------------------------

def name? : Node → Option String
  | .name token => some token.text
  | _ => none

mutual

/-- The names that are the target of an assignment, wherever it stands. -/
def targets : Node → List String
  | .number _ | .name _ => []
  | .print _ operand => targets operand
  | .arith _ _ left right => targets left ++ targets right
  | .assign _ target value => target.name?.toList ++ targets target ++ targets value
  | .block items => targetsAll items

def targetsAll : List Node → List String
  | [] => []
  | item :: items => targets item ++ targetsAll items

end

mutual

/-- The names that are not in the target of any assignment. -/
def lookups : Node → List String
  | .number _ => []
  | .name token => [token.text]
  | .print _ operand => lookups operand
  | .arith _ _ left right => lookups left ++ lookups right
  | .assign _ _ value => lookups value
  | .block items => lookupsAll items

def lookupsAll : List Node → List String
  | [] => []
  | item :: items => lookups item ++ lookupsAll items

end

-- ---------------------------------------------------------------------------
-- Copies
-- ---------------------------------------------------------------------------

/-- The rewriting changes no text that evaluation looks at. These are the texts of
leaves, and a target as it is written. -/
inductive Keeps (f : Token → Token) : Node → Prop
  | number {token : Token} : (f token).text = token.text → Keeps f (.number token)
  | name {token : Token} : (f token).text = token.text → Keeps f (.name token)
  | print {token : Token} {operand : Node} : Keeps f operand → Keeps f (.print token operand)
  | arith {op : Op} {token : Token} {left right : Node} :
      Keeps f left → Keeps f right → Keeps f (.arith op token left right)
  | assign {token : Token} {target value : Node} :
      (target.map f).render = target.render → Keeps f value → Keeps f (.assign token target value)
  | block {items : List Node} : (∀ item ∈ items, Keeps f item) → Keeps f (.block items)

theorem keeps_of_text_eq (hf : ∀ token, (f token).text = token.text) (node : Node) :
    node.Keeps f := by
  induction node with
  | number token => exact .number (hf token)
  | name token => exact .name (hf token)
  | print token operand ih => exact .print ih
  | arith op token left right ihl ihr => exact .arith ihl ihr
  | assign token target value _ ihv => exact .assign (render_map hf target) ihv
  | block items ih => exact .block ih

theorem mapAll_id {items : List Node} (h : ∀ item ∈ items, item.map id = item) :
    mapAll id items = items := by
  induction items with
  | nil => rfl
  | cons item items ih =>
    rw [List.forall_mem_cons] at h
    rw [mapAll, h.1, ih h.2]

theorem map_id (node : Node) : node.map id = node := by
  induction node with
  | number token => rfl
  | name token => rfl
  | print token operand ih => rw [map, ih, id]
  | arith op token left right ihl ihr => rw [map, ihl, ihr, id]
  | assign token target value iht ihv => rw [map, iht, ihv, id]
  | block items ih => rw [map, mapAll_id ih]

-- ---------------------------------------------------------------------------
-- Evaluation
-- ---------------------------------------------------------------------------

abbrev Relined (g : Nat → Nat) (looks binds : List String) {α : Type} (eval other : Eval α) :
    Prop :=
  Eval.Alike (.same looks binds) (fun _ e e' => e' = e.mapLine g) eval other

theorem relined_evalAll {items : List Node}
    (h : ∀ item ∈ items, item.lookups ⊆ looks → item.targets ⊆ binds →
      Relined g looks binds item.eval (item.map f).eval)
    (hl : lookupsAll items ⊆ looks) (hb : targetsAll items ⊆ binds) :
    Relined g looks binds (evalAll items) (evalAll (mapAll f items)) := by
  induction items with
  | nil => exact .pure ()
  | cons item items ih =>
    simp only [lookupsAll, targetsAll, List.append_subset] at hl hb
    rw [List.forall_mem_cons] at h
    exact (h.1 hl.1 hb.1).seq fun _ => ih h.2 hl.2 hb.2

theorem Keeps.alike {node : Node} (h : node.Keeps f) (hg : ∀ token, (f token).line = g token.line)
    (hl : node.lookups ⊆ looks) (hb : node.targets ⊆ binds) :
    Relined g looks binds node.eval (node.map f).eval := by
  induction h with
  | number ht =>
    simp only [map, eval, ht, hg]
    refine .some_orThrow ?_ _
    exact fun _ => rfl
  | @name token ht =>
    have hname : token.text ∈ looks := hl (by simp [lookups])
    simp only [map, eval, ht, hg]
    refine .seq (.lookup ⟨rfl, hname⟩) fun _ => .some_orThrow ?_ _
    exact fun _ => rfl
  | @print token operand _ ih =>
    simp only [map, eval, hg]
    have hprint (value : Value) :
        Relined g looks binds (Eval.printValue value) (Eval.printValue value) := by
      apply Eval.Alike.printValue trivial
      exact fun _ _ => rfl
    exact ((ih hl hb).demand fun _ => rfl).seq fun value => (hprint value).seq fun _ => .pure none
  | @arith op token left right _ _ ihl ihr =>
    simp only [lookups, targets, List.append_subset] at hl hb
    simp only [map, eval, hg]
    refine ((ihl hl.1 hb.1).demand fun _ => rfl).seq fun a => ?_
    refine ((ihr hl.2 hb.2).demand fun _ => rfl).seq fun b => ?_
    refine .some_orThrow ?_ _
    exact fun _ => rfl
  | @assign token target value ht _ ihv =>
    -- The target is not evaluated, so it adds no lookups.
    simp only [lookups, targets, List.append_subset] at hl hb
    have hinvalid : Relined g looks binds
        (throw (.invalidTarget target.render token.line) : Eval (Option Value))
        (throw (.invalidTarget (target.map f).render (g token.line))) := by
      rw [ht]
      exact .throw fun _ => rfl
    simp only [map, eval, hg]
    refine ((ihv hl hb.2).demand fun _ => rfl).seq fun v => ?_
    cases target with
    | name leaf =>
      have hleaf : (f leaf).text = leaf.text := ht
      have htarget : leaf.text ∈ binds := hb.1.1 (by simp [name?])
      have hbind : Relined g looks binds (Eval.bindName leaf.text v)
          (Eval.bindName leaf.text v) := by
        apply Eval.Alike.bindName
        exact ⟨rfl, htarget⟩
      simp only [map, hleaf]
      exact hbind.seq fun _ => .pure (some v)
    | _ => exact hinvalid
  | block _ ih =>
    simp only [map, eval]
    exact (relined_evalAll ih hl hb).seq fun _ => .pure none

theorem alike_eval (node : Node) :
    Eval.Alike (.same node.lookups node.targets) (fun _ => Eq) node.eval node.eval := by
  have hself : Relined id node.lookups node.targets node.eval (node.map id).eval :=
    (keeps_of_text_eq (fun _ => rfl) node).alike (fun _ => rfl) (List.Subset.refl _)
      (List.Subset.refl _)
  rw [map_id] at hself
  refine hself.mono fun _ e e' he => ?_
  rw [he, EvalError.mapLine_id]

end Node

end Abacus
