import Abacus.Proofs.Node.Alike
import Abacus.Proofs.Session.Stepwise

/-!
# Evaluation and the lines of tokens

A tree whose tokens are moved to other lines does the same as before, but for the line
that an error speaks of (`Node.Keeps.relabels`). Trees that are equal but for places do
the same, and if the tokens of one of them are all on one line, its errors speak of that
line (`Node.relabels_of_onLine`).
-/

namespace Abacus

variable {α : Type} {g : Nat → Nat}

-- ---------------------------------------------------------------------------
-- Evaluations that differ in lines
-- ---------------------------------------------------------------------------

def relabel (g : Nat → Nat) (run : Except EvalError α × Session) : Except EvalError α × Session :=
  run.map (Except.mapError (EvalError.mapLine g)) id

theorem relabel_relabel (f g : Nat → Nat) (run : Except EvalError α × Session) :
    relabel g (relabel f run) = relabel (g ∘ f) run := by
  obtain ⟨e | a, session⟩ := run
  · cases e <;> rfl
  · rfl

/-- The other evaluation does the same, and its errors speak of other lines. -/
def Relabels (g : Nat → Nat) (eval other : Eval α) : Prop :=
  ∀ session, other.on session = relabel g (eval.on session)

-- ---------------------------------------------------------------------------
-- Trees with their tokens moved
-- ---------------------------------------------------------------------------

theorem Eval.carries_eq (looks binds : List String) : Carries (.same looks binds) (· = ·) where
  lookup := by
    rintro _ name session _ ⟨rfl, -⟩ rfl
    rfl
  bindName := by
    rintro _ name session _ ⟨rfl, -⟩ rfl value
    rfl
  sink := by
    rintro session _ - rfl
    rfl
  printValue := by
    rintro session _ - rfl value
    rfl

namespace Node

variable {f : Token → Token}

theorem Keeps.relabels {node : Node} (h : node.Keeps f)
    (hg : ∀ token, (f token).line = g token.line) : Relabels g node.eval (node.map f).eval := by
  intro session
  have halike : Relined g node.lookups node.targets node.eval (node.map f).eval :=
    h.alike hg (List.Subset.refl _) (List.Subset.refl _)
  have hends := halike.ends (Eval.carries_eq _ _) (Eq.refl session)
  generalize node.eval.on session = run at hends ⊢
  generalize (node.map f).eval.on session = moved at hends ⊢
  cases hends with
  | ok hlast =>
    subst hlast
    rfl
  | error hlast he =>
    subst hlast he
    rfl

theorem relabels_map (hf : ∀ token, (f token).text = token.text)
    (hg : ∀ token, (f token).line = g token.line) (node : Node) :
    Relabels g node.eval (node.map f).eval :=
  (keeps_of_text_eq hf node).relabels hg

end Node

-- ---------------------------------------------------------------------------
-- Trees on one line
-- ---------------------------------------------------------------------------

def Token.toLine (line : Nat) (token : Token) : Token := ⟨token.toLexeme, token.offset, line⟩

def Node.OnLine (line : Nat) (node : Node) : Prop := node.map (Token.toLine line) = node

theorem Node.OnLine.relabels_self {line : Nat} {node : Node} (h : node.OnLine line) :
    Relabels (fun _ => line) node.eval node.eval := by
  have hmap := relabels_map (f := Token.toLine line) (g := fun _ => line) (fun _ => rfl)
    (fun _ => rfl) node
  rwa [h] at hmap

/-- The errors of a tree on one line are those of any tree that is equal to it but
for places, with that line. -/
theorem Node.relabels_of_onLine {line : Nat} {node copy : Node} (h : copy.OnLine line)
    (hb : copy.bare = node.bare) : Relabels (fun _ => line) node.eval copy.eval := by
  intro session
  have hbare (node : Node) : node.bare.eval.on session =
      relabel (fun _ => 1) (node.eval.on session) :=
    relabels_map Token.text_bare (fun _ => rfl) node session
  calc copy.eval.on session
      = relabel (fun _ => line) (copy.eval.on session) := h.relabels_self session
    _ = relabel (fun _ => line) (relabel (fun _ => 1) (copy.eval.on session)) := by
        rw [relabel_relabel]
        rfl
    _ = relabel (fun _ => line) (relabel (fun _ => 1) (node.eval.on session)) := by
        rw [← hbare copy, hb, hbare node]
    _ = relabel (fun _ => line) (node.eval.on session) := by
        rw [relabel_relabel]
        rfl

-- ---------------------------------------------------------------------------
-- Statements with their tokens moved
-- ---------------------------------------------------------------------------

/-- Each statement is relabelled in a way that may depend on its index. -/
inductive RelabelsEach : (Nat → Nat → Nat) → List Node → List Node → Prop
  | nil {g : Nat → Nat → Nat} : RelabelsEach g [] []
  | cons {g : Nat → Nat → Nat} {item copy : Node} {items copies : List Node} :
      Relabels (g 0) item.eval copy.eval → RelabelsEach (fun i => g (i + 1)) items copies →
      RelabelsEach g (item :: items) (copy :: copies)

theorem RelabelsEach.evalEach {g : Nat → Nat → Nat} {items copies : List Node}
    (h : RelabelsEach g items copies) (session : Session) :
    session.evalEach copies =
      (((session.evalEach items).1.1,
        (session.evalEach items).1.2.map
          (EvalError.mapLine (g (session.evalEach items).1.1.length))),
        (session.evalEach items).2) := by
  induction h generalizing session with
  | nil => rfl
  | @cons g item copy items copies hitem _ ih =>
    have hcopy := hitem session
    rcases hrun : item.eval.on session with ⟨e | value, next⟩
    · rw [hrun] at hcopy
      rw [Session.evalEach_cons_of_error hrun, Session.evalEach_cons_of_error hcopy]
      rfl
    · rw [hrun] at hcopy
      rw [Session.evalEach_cons_of_ok hrun, Session.evalEach_cons_of_ok hcopy, id, ih next]
      rfl

theorem relabelsEach_of_keeps {f : Token → Token} {g : Nat → Nat} {items : List Node}
    (h : ∀ item ∈ items, item.Keeps f) (hg : ∀ token, (f token).line = g token.line) :
    RelabelsEach (fun _ => g) items (Node.mapAll f items) := by
  induction items with
  | nil => exact .nil
  | cons item items ih =>
    rw [List.forall_mem_cons] at h
    exact .cons (h.1.relabels hg) (ih h.2)

theorem relabelsEach_mapAll {f : Token → Token} {g : Nat → Nat}
    (hf : ∀ token, (f token).text = token.text) (hg : ∀ token, (f token).line = g token.line)
    (items : List Node) : RelabelsEach (fun _ => g) items (Node.mapAll f items) :=
  relabelsEach_of_keeps (fun item _ => Node.keeps_of_text_eq hf item) hg

end Abacus
