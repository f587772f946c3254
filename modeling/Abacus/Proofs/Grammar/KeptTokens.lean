import Mathlib.Combinatorics.Enumerative.DyckWord
import Abacus.Proofs.Grammar.Pieces
import Abacus.Proofs.Node.Action

/-!
# The tree keeps the tokens

Read in the order of the source, the tokens in a tree are those that it was read from, but
for parentheses and semicolons, which leave no trace of their own. Each stands in a node
that fits its kind. The parentheses left out are balanced, and by statement: those of a
piece are a Dyck word.
-/

namespace Abacus

def Kind.isPunctuation : Kind → Bool
  | .openParen | .closeParen | .semicolon => true
  | _ => false

def Kind.paren? : Kind → Option DyckStep
  | .openParen => some .U
  | .closeParen => some .D
  | _ => none

def Balanced (tokens : List Token) : Prop :=
  ∃ word : DyckWord, word.toList = tokens.filterMap (·.kind.paren?)

namespace Node

mutual

/-- The tokens of a tree in the order of the source. -/
def inorder : Node → List Token
  | .number token | .name token => [token]
  | .print token operand => token :: inorder operand
  | .arith _ token left right => inorder left ++ token :: inorder right
  | .assign token target value => inorder target ++ token :: inorder value
  | .block items => inorderAll items

def inorderAll : List Node → List Token
  | [] => []
  | item :: items => inorder item ++ inorderAll items

end

inductive Fits : Node → Prop
  | number {token : Token} : token.kind = .number → Fits (.number token)
  | name {token : Token} : token.kind = .name → Fits (.name token)
  | print {token : Token} {operand : Node} :
      token.kind = .print → Fits operand → Fits (.print token operand)
  | arith {op : Op} {token : Token} {left right : Node} :
      token.kind = op.kind → Fits left → Fits right → Fits (.arith op token left right)
  | assign {token : Token} {target value : Node} :
      token.kind = .assign → Fits target → Fits value → Fits (.assign token target value)
  | block {items : List Node} : (∀ item ∈ items, Fits item) → Fits (.block items)

end Node

variable {rule : Rule} {node : Node} {tokens others : List Token} {token : Token}

theorem Derives.inorder_eq (h : Derives rule tokens node) :
    node.inorder = tokens.filter fun token => !token.kind.isPunctuation := by
  induction h with
  | number hk => simp [Node.inorder, Kind.isPunctuation, hk]
  | name hk => simp [Node.inorder, Kind.isPunctuation, hk]
  | parens ho _ hc ih => simp [Kind.isPunctuation, ho, hc, ih]
  | single _ ih => exact ih
  | add _ hk _ ihl ihr => simp [Node.inorder, Kind.isPunctuation, hk, ihl, ihr]
  | sub _ hk _ ihl ihr => simp [Node.inorder, Kind.isPunctuation, hk, ihl, ihr]
  | print hk _ ih => simp [Node.inorder, Kind.isPunctuation, hk, ih]
  | assignName hn hk _ ih => simp [Node.inorder, Kind.isPunctuation, hn, hk, ih]
  | assignNumber hn hk _ ih => simp [Node.inorder, Kind.isPunctuation, hn, hk, ih]
  | printStatement _ ih => exact ih
  | assignmentStatement _ ih => exact ih
  | noStatements => rfl
  | moreStatements _ hs _ ihi ihr =>
    simp only [Node.inorder] at ihr ⊢
    simp [Node.inorderAll, Kind.isPunctuation, hs, ihi, ihr]

theorem Derives.fits (h : Derives rule tokens node) : node.Fits := by
  induction h with
  | number hk => exact .number hk
  | name hk => exact .name hk
  | parens _ _ _ ih => exact ih
  | single _ ih => exact ih
  | add _ hk _ ihl ihr => exact .arith hk ihl ihr
  | sub _ hk _ ihl ihr => exact .arith hk ihl ihr
  | print hk _ ih => exact .print hk ih
  | assignName hn hk _ ih => exact .assign hk (.name hn) ih
  | assignNumber hn hk _ ih => exact .assign hk (.number hn) ih
  | printStatement _ ih => exact ih
  | assignmentStatement _ ih => exact ih
  | noStatements => exact .block (List.forall_mem_nil _)
  | moreStatements _ _ _ ihi ihr =>
    cases ihr with
    | block hitems => exact .block (List.forall_mem_cons.mpr ⟨ihi, hitems⟩)

-- ---------------------------------------------------------------------------
-- Parentheses
-- ---------------------------------------------------------------------------

theorem balanced_nil : Balanced [] := ⟨0, rfl⟩

theorem Balanced.cons (h : Balanced tokens) (hk : token.kind.paren? = none) :
    Balanced (token :: tokens) := by
  obtain ⟨word, hword⟩ := h
  exact ⟨word, by simp [hword, hk]⟩

theorem Balanced.append (h : Balanced tokens) (ho : Balanced others) :
    Balanced (tokens ++ others) := by
  obtain ⟨word, hword⟩ := h
  obtain ⟨other, hother⟩ := ho
  refine ⟨word + other, ?_⟩
  rw [List.filterMap_append, ← hword, ← hother]
  rfl

theorem Balanced.nest {opening closing : Token} (h : Balanced tokens)
    (ho : opening.kind = .openParen) (hc : closing.kind = .closeParen) :
    Balanced (opening :: (tokens ++ [closing])) := by
  obtain ⟨word, hword⟩ := h
  exact ⟨word.nest, by simp [DyckWord.nest, hword, Kind.paren?, ho, hc]⟩

theorem Derives.balanced (h : Derives rule tokens node) : Balanced tokens := by
  have hother {token : Token} {kind : Kind} (hk : token.kind = kind) (hp : kind.paren? = none) :
      token.kind.paren? = none := hk ▸ hp
  induction h with
  | number hk => exact balanced_nil.cons (hother hk rfl)
  | name hk => exact balanced_nil.cons (hother hk rfl)
  | parens ho _ hc ih => exact ih.nest ho hc
  | single _ ih => exact ih
  | add _ hk _ ihl ihr => exact ihl.append (ihr.cons (hother hk rfl))
  | sub _ hk _ ihl ihr => exact ihl.append (ihr.cons (hother hk rfl))
  | print hk _ ih => exact ih.cons (hother hk rfl)
  | assignName hn hk _ ih => exact (ih.cons (hother hk rfl)).cons (hother hn rfl)
  | assignNumber hn hk _ ih => exact (ih.cons (hother hk rfl)).cons (hother hn rfl)
  | printStatement _ ih => exact ih
  | assignmentStatement _ ih => exact ih
  | noStatements => exact balanced_nil
  | moreStatements _ hs _ ihi ihr => exact ihi.append (ihr.cons (hother hs rfl))

-- ---------------------------------------------------------------------------
-- Programs
-- ---------------------------------------------------------------------------

/-- In the order of the source, a program holds the tokens that it was read from, but for
parentheses and semicolons. The parentheses are balanced within each statement. Every node
holds a token of its own kind, and only the statements themselves print or assign. -/
theorem parse_keeps_tokens (h : parse tokens = .ok node) :
    node.inorder = tokens.filter (fun token => !token.kind.isPunctuation) ∧
    (∀ piece ∈ pieces tokens, Balanced piece.body) ∧ node.Fits ∧
    ∃ items, node = .block items ∧ ∀ item ∈ items, item.IsAction := by
  have hcode := parse_eq_ok_iff.mp h
  obtain ⟨items, rfl⟩ := hcode.code_eq_block
  refine ⟨hcode.inorder_eq, fun piece hm => ?_, hcode.fits, items, rfl, hcode.yields⟩
  obtain ⟨-, item, hitem⟩ := hcode.forall₂_pieces.2 piece hm
  exact (Piece.readsAs_iff.mp hitem).balanced

/-- Of `x := ( 1 ) - ( y + 2 );` the tree keeps seven tokens. -/
theorem parse_keeps_tokens_difference :
    let x : Token := ⟨⟨.name, "x"⟩, ⟨0, 1⟩⟩
    let assign : Token := ⟨⟨.assign, ":="⟩, ⟨2, 1⟩⟩
    let one : Token := ⟨⟨.number, "1"⟩, ⟨7, 1⟩⟩
    let minus : Token := ⟨⟨.minus, "-"⟩, ⟨11, 1⟩⟩
    let y : Token := ⟨⟨.name, "y"⟩, ⟨15, 1⟩⟩
    let plus : Token := ⟨⟨.plus, "+"⟩, ⟨17, 1⟩⟩
    let two : Token := ⟨⟨.number, "2"⟩, ⟨19, 1⟩⟩
    let tokens := [x, assign, ⟨⟨.openParen, "("⟩, ⟨5, 1⟩⟩, one, ⟨⟨.closeParen, ")"⟩, ⟨9, 1⟩⟩, minus,
      ⟨⟨.openParen, "("⟩, ⟨13, 1⟩⟩, y, plus, two, ⟨⟨.closeParen, ")"⟩, ⟨21, 1⟩⟩,
      ⟨⟨.semicolon, ";"⟩, ⟨22, 1⟩⟩]
    let sum := Node.arith .sub minus (.number one) (.arith .add plus (.name y) (.number two))
    let program := Node.block [.assign assign (.name x) sum]
    parse tokens = .ok program ∧ program.inorder = [x, assign, one, minus, y, plus, two] ∧
      ∀ piece ∈ pieces tokens, Balanced piece.body := by
  intro x assign one minus y plus two tokens sum program
  have hp : parse tokens = .ok program := rfl
  obtain ⟨horder, hbalanced, -⟩ := parse_keeps_tokens hp
  exact ⟨hp, horder, hbalanced⟩

end Abacus
