import Abacus.Cursor

/-!
# The automaton reads what the grammar spells

Whatever waits on the stack, the tokens of an operand take the automaton from
before an operand to behind it, with the operand's tree in hand. The tokens of a
formula do the same where an operator may follow (`Derives.follow_formula`).
-/

namespace Abacus

open Cursor (follow follow_cons_some)
open Phase (advance?)

variable {goal : Goal} {outer : List (Option Pending)} {pending : Option Pending}
variable {left node : Node} {token : Token} {tokens : List Token}

namespace Phase

theorem continues_cons (goal : Goal) (pending : Option Pending) (outer : List (Option Pending)) :
    continues goal (pending :: outer) = true := by
  cases goal <;> rfl

theorem advance?_openParen (h : token.kind = .openParen) :
    advance? (.operand goal outer pending) token =
      some (.operand goal (pending :: outer) none) := by
  simp [advance?, h]

theorem advance?_number (h : token.kind = .number) :
    advance? (.operand goal outer pending) token =
      some (.operator goal outer (Pending.complete pending (.number token))) := by
  simp [advance?, Token.leaf?, h]

theorem advance?_name (h : token.kind = .name) :
    advance? (.operand goal outer pending) token =
      some (.operator goal outer (Pending.complete pending (.name token))) := by
  simp [advance?, Token.leaf?, h]

theorem advance?_plus (h : token.kind = .plus) (hc : continues goal outer = true) :
    advance? (.operator goal outer left) token =
      some (.operand goal outer (some ⟨.add, token, left⟩)) := by
  simp [advance?, Kind.op?, h, hc]

theorem advance?_minus (h : token.kind = .minus) (hc : continues goal outer = true) :
    advance? (.operator goal outer left) token =
      some (.operand goal outer (some ⟨.sub, token, left⟩)) := by
  simp [advance?, Kind.op?, h, hc]

theorem advance?_closeParen (h : token.kind = .closeParen) :
    advance? (.operator goal (pending :: outer) left) token =
      some (.operator goal outer (Pending.complete pending left)) := by
  simp [advance?, Kind.op?, h]

end Phase

/-- What the tokens of an operand or a formula do to the automaton. -/
def Rule.Followed (tokens : List Token) (node : Node) : Rule → Prop
  | .operand => ∀ goal outer pending position rest,
      follow advance? (.operand goal outer pending) position (tokens ++ rest) =
        follow advance? (.operator goal outer (Pending.complete pending node))
          (position + tokens.length) rest
  | .formula => ∀ goal outer position rest, Phase.continues goal outer = true →
      follow advance? (.operand goal outer none) position (tokens ++ rest) =
        follow advance? (.operator goal outer node) (position + tokens.length) rest
  | _ => True

theorem Derives.followed {rule : Rule} (h : Derives rule tokens node) :
    rule.Followed tokens node := by
  induction h with
  | number hk =>
    intro goal outer pending position rest
    exact follow_cons_some (Phase.advance?_number hk) position rest
  | name hk =>
    intro goal outer pending position rest
    exact follow_cons_some (Phase.advance?_name hk) position rest
  | parens ho _ hc ih =>
    intro goal outer pending position rest
    rw [List.cons_append, follow_cons_some (Phase.advance?_openParen ho), List.append_assoc,
      ih goal (pending :: outer) _ _ (Phase.continues_cons goal pending outer),
      List.singleton_append, follow_cons_some (Phase.advance?_closeParen hc)]
    simp [Nat.add_assoc, Nat.add_comm 1]
  | single _ ih =>
    intro goal outer position rest _
    exact ih goal outer none position rest
  | add _ ht _ ihl ihr =>
    intro goal outer position rest hc
    rw [List.append_assoc, ihl goal outer _ _ hc, List.cons_append,
      follow_cons_some (Phase.advance?_plus ht hc), ihr]
    simp [Pending.complete, Nat.add_assoc, Nat.add_comm 1]
  | sub _ ht _ ihl ihr =>
    intro goal outer position rest hc
    rw [List.append_assoc, ihl goal outer _ _ hc, List.cons_append,
      follow_cons_some (Phase.advance?_minus ht hc), ihr]
    simp [Pending.complete, Nat.add_assoc, Nat.add_comm 1]
  | _ => trivial

theorem Derives.follow_operand (h : Derives .operand tokens node) (goal : Goal)
    (outer : List (Option Pending)) (pending : Option Pending) (position : Nat)
    (rest : List Token) :
    follow advance? (.operand goal outer pending) position (tokens ++ rest) =
      follow advance? (.operator goal outer (Pending.complete pending node))
        (position + tokens.length) rest :=
  h.followed goal outer pending position rest

theorem Derives.follow_formula (h : Derives .formula tokens node)
    (hc : Phase.continues goal outer = true) (position : Nat) (rest : List Token) :
    follow advance? (.operand goal outer none) position (tokens ++ rest) =
      follow advance? (.operator goal outer node) (position + tokens.length) rest :=
  h.followed goal outer position rest hc

end Abacus
