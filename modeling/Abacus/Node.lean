import Abacus.Token

/-!
# Trees

A node holds the token it was made from; a block holds no token of its own. The
type allows any node in any place. What the parser builds is narrower: a block
of prints and assignments, whose operands are formulas of numbers, names and
arithmetic.
-/

namespace Abacus

inductive Op where
  | add
  | sub
  deriving DecidableEq, Repr

inductive Node where
  | number (token : Token)
  | name (token : Token)
  | print (token : Token) (operand : Node)
  | arith (op : Op) (token : Token) (left right : Node)
  | assign (token : Token) (target value : Node)
  | block (items : List Node)
  deriving Repr

namespace Node

def line? : Node → Option Nat
  | .number token | .name token | .print token _ | .arith _ token _ _ | .assign token _ _ =>
    some token.line
  | .block _ => none

def isArith : Node → Bool
  | .arith .. => true
  | _ => false

mutual

/-- Equality of trees, all token fields included. -/
def same : Node → Node → Bool
  | .number s, .number t | .name s, .name t => s == t
  | .print s a, .print t b => s == t && same a b
  | .arith o s a b, .arith p t c d => o == p && s == t && same a c && same b d
  | .assign s a b, .assign t c d => s == t && same a c && same b d
  | .block as, .block bs => sameAll as bs
  | _, _ => false

def sameAll : List Node → List Node → Bool
  | [], [] => true
  | a :: as, b :: bs => same a b && sameAll as bs
  | _, _ => false

end

/-- Induction on trees, with the hypothesis for a block given item by item. -/
@[induction_eliminator]
theorem induction {motive : Node → Prop}
    (number : ∀ token, motive (.number token))
    (name : ∀ token, motive (.name token))
    (print : ∀ token operand, motive operand → motive (.print token operand))
    (arith : ∀ op token left right, motive left → motive right →
      motive (.arith op token left right))
    (assign : ∀ token target value, motive target → motive value →
      motive (.assign token target value))
    (block : ∀ items, (∀ item ∈ items, motive item) → motive (.block items))
    (node : Node) : motive node :=
  @Node.rec motive (fun items => ∀ item ∈ items, motive item)
    number name print arith assign block (fun _ h => nomatch h)
    (fun _ _ first rest => List.forall_mem_cons.mpr ⟨first, rest⟩) node

theorem sameAll_iff_eq {as bs : List Node} (h : ∀ a ∈ as, ∀ b, same a b = true ↔ a = b) :
    sameAll as bs = true ↔ as = bs := by
  induction as generalizing bs with
  | nil => cases bs <;> simp [sameAll]
  | cons a as ih =>
    cases bs with
    | nil => simp [sameAll]
    | cons b bs =>
      rw [List.forall_mem_cons] at h
      simp [sameAll, h.1, ih h.2]

theorem same_iff_eq (a b : Node) : same a b = true ↔ a = b := by
  induction a generalizing b with
  | number s => cases b <;> simp [same]
  | name s => cases b <;> simp [same]
  | print s a iha => cases b <;> simp [same, iha]
  | arith o s a b iha ihb => cases b <;> simp [same, iha, ihb, and_assoc]
  | assign s a b iha ihb => cases b <;> simp [same, iha, ihb, and_assoc]
  | block as ih =>
    cases b with
    | block bs => simp [same, sameAll_iff_eq ih]
    | _ => simp [same]

instance : DecidableEq Node := fun a b => decidable_of_iff _ (same_iff_eq a b)

end Node

end Abacus
