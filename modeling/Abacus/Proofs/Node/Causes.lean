import Abacus.Proofs.Node.Arithmetic
import Abacus.Proofs.Value.Literals

/-!
# Why a formula fails

A formula fails because of one of its leaves, a name that is not bound or a literal
that cannot be read, or because a result is out of range (`Node.IsSum.failsBy_of_error`).
If it does not fail, all of its leaves have values (`Node.IsSum.leaves_of_ok`). Both come
from the first node that is not sound. The literals of the language that cannot be read
are those that are too large.
-/

namespace Abacus

variable {node : Node} {token : Token} {scope : Scope} {e : EvalError} {session next : Session}

-- ---------------------------------------------------------------------------
-- Leaves
-- ---------------------------------------------------------------------------

namespace Node

def leaves : Node → List Node
  | .number token => [.number token]
  | .name token => [.name token]
  | .arith _ _ left right => leaves left ++ leaves right
  | .print .. | .assign .. | .block _ => []

def leafValue? (scope : Scope) : Node → Option Value
  | .number token => Value.ofLiteral? token.text
  | .name token => scope.get? token.text
  | _ => none

/-- Why a sum fails: a name or a literal in it has no value, or a result is out of
range. -/
inductive FailsBy (node : Node) (scope : Scope) : EvalError → Prop
  | unbound {token : Token} : .name token ∈ node.leaves → scope.get? token.text = none →
      FailsBy node scope (.undefinedName token.text token.line)
  | unreadable {token : Token} : .number token ∈ node.leaves → Value.ofLiteral? token.text = none →
      FailsBy node scope (.invalidLiteral token.text token.line)
  | outOfRange {line : Nat} : FailsBy node scope (.overflow line)

theorem IsSum.mem_leaves_iff (h : node.IsSum) {sub : Node} :
    sub ∈ node.leaves ↔ sub ∈ node.postorder ∧ sub.isArith = false := by
  induction h with
  | number token =>
    simp only [leaves, postorder, List.mem_singleton]
    constructor
    · rintro rfl
      exact ⟨rfl, rfl⟩
    · exact And.left
  | name token =>
    simp only [leaves, postorder, List.mem_singleton]
    constructor
    · rintro rfl
      exact ⟨rfl, rfl⟩
    · exact And.left
  | arith _ _ ihl ihr =>
    simp only [leaves, postorder, List.mem_append, List.mem_singleton, ihl, ihr]
    constructor
    · rintro (⟨hm, hleaf⟩ | ⟨hm, hleaf⟩)
      · exact ⟨.inl (.inl hm), hleaf⟩
      · exact ⟨.inl (.inr hm), hleaf⟩
    · rintro ⟨(hm | hm) | rfl, hleaf⟩
      · exact .inl ⟨hm, hleaf⟩
      · exact .inr ⟨hm, hleaf⟩
      · cases hleaf

theorem IsSum.failsBy_of_error (h : node.IsSum) (he : node.eval.on session = (.error e, next)) :
    node.FailsBy session.scope e := by
  obtain ⟨before, sub, after, hpost, -, hnot, hcomplaint⟩ := h.firstFault_of_error he
  have hmem : sub ∈ node.postorder := by simp [hpost]
  cases sub with
  | number token =>
    cases hcomplaint
    rw [sound_number_iff, Option.not_isSome_iff_eq_none] at hnot
    exact .unreadable (h.mem_leaves_iff.mpr ⟨hmem, rfl⟩) hnot
  | name token =>
    cases hcomplaint
    rw [sound_name_iff, Option.not_isSome_iff_eq_none] at hnot
    exact .unbound (h.mem_leaves_iff.mpr ⟨hmem, rfl⟩) hnot
  | arith op token left right =>
    cases hcomplaint
    exact .outOfRange
  | _ => cases hcomplaint

theorem IsSum.leaves_of_ok {v : Value} (h : node.IsSum)
    (hv : node.eval.on session = (.ok (some v), next)) :
    ∀ leaf ∈ node.leaves, (leaf.leafValue? session.scope).isSome := by
  intro leaf hm
  obtain ⟨hpost, hleaf⟩ := h.mem_leaves_iff.mp hm
  have hsound := (h.exact_of_ok hv).2 leaf hpost
  cases leaf with
  | number token => exact sound_number_iff.mp hsound
  | name token => exact sound_name_iff.mp hsound
  | arith _ _ _ _ => cases hleaf
  | _ => cases hsound

end Node

-- ---------------------------------------------------------------------------
-- Literals
-- ---------------------------------------------------------------------------

theorem Spells.digits {text : List Char} (h : Spells .number text) :
    text ≠ [] ∧ ∀ c ∈ text, Decimal.isDigit c = true := by
  cases h with
  | number hne hd => exact ⟨hne, hd⟩
  | keyword hm => simp [keywords] at hm

theorem Token.Spelt.ofLiteral?_eq_none_iff (h : token.Spelt .number) :
    Value.ofLiteral? token.text = none ↔ 2 ^ 63 - 1 < Decimal.positional token.text.toList := by
  obtain ⟨hne, hd⟩ := h.spells.digits
  rw [← Decimal.value_eq_positional, Value.ofLiteral?_eq_bind, Decimal.literal?_of_digits hne hd,
    Option.bind_some, Value.ofInt?_eq_none_iff, InRange]
  omega

theorem Node.IsFormula.spelt_of_mem_leaves (h : node.IsFormula) (hm : .number token ∈ node.leaves) :
    token.Spelt .number := by
  induction h with
  | leaf hl =>
    cases hl with
    | number hs =>
      rw [leaves, List.mem_singleton] at hm
      cases hm
      exact hs
    | name _ =>
      rw [leaves, List.mem_singleton] at hm
      cases hm
  | arith _ _ _ ihl ihr =>
    rcases List.mem_append.mp hm with hm | hm
    · exact ihl hm
    · exact ihr hm

end Abacus
