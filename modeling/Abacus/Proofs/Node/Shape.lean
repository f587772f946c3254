import Abacus.Proofs.Grammar.Exact
import Abacus.Proofs.Lexeme.MaximalMunch

/-!
# The trees that programs have

A program is a block of statements. A statement prints a formula or assigns one
to a leaf. A formula is a nesting of sums and differences over leaves, which are
numbers and names. Each node holds a token of its own kind, spelt as the kind
asks.

The parser builds no other trees (`Derives.shape`), so a source that can be read
has a program (`isProgram_of_parse`).
-/

namespace Abacus

variable {token : Token} {node : Node} {tokens : List Token} {rule : Rule}

/-- A token of a kind, with a text of that kind: `LOG` or `КОНСОЛЬ` if it is to
print, digits if it is a number. A name is no keyword. -/
structure Token.Spelt (token : Token) (kind : Kind) : Prop where
  kind_eq : token.kind = kind
  spells : Spells kind token.text.toList
  not_keyword : kind = .name → token.text ∉ keywords.map Prod.fst

def Op.kind : Op → Kind
  | .add => .plus
  | .sub => .minus

inductive Node.IsLeaf : Node → Prop
  | number {token : Token} : token.Spelt .number → IsLeaf (.number token)
  | name {token : Token} : token.Spelt .name → IsLeaf (.name token)

inductive Node.IsFormula : Node → Prop
  | leaf {node : Node} : node.IsLeaf → IsFormula node
  | arith {op : Op} {token : Token} {left right : Node} :
      token.Spelt op.kind → IsFormula left → IsFormula right →
      IsFormula (.arith op token left right)

inductive Node.IsStatement : Node → Prop
  | print {token : Token} {operand : Node} :
      token.Spelt .print → operand.IsFormula → IsStatement (.print token operand)
  | assign {token : Token} {target value : Node} :
      token.Spelt .assign → target.IsLeaf → value.IsFormula →
      IsStatement (.assign token target value)

inductive Node.IsProgram : Node → Prop
  | block {items : List Node} : (∀ item ∈ items, item.IsStatement) → IsProgram (.block items)

def Rule.Shape : Rule → Node → Prop
  | .code => Node.IsProgram
  | .statement | .print | .assignment => Node.IsStatement
  | .formula | .operand => Node.IsFormula

theorem Token.Spelt.of_eq {kind : Kind} (h : token.Spelt token.kind) (hk : token.kind = kind) :
    token.Spelt kind := hk ▸ h

theorem Token.Spelt.kind_eq_of_toLexeme_eq {kind : Kind} {other : Token} (h : token.Spelt kind)
    (ho : other.toLexeme = token.toLexeme) : other.kind = kind := by
  rw [← h.kind_eq]
  exact congrArg Lexeme.kind ho

theorem Derives.shape (h : Derives rule tokens node)
    (ht : ∀ token ∈ tokens, token.Spelt token.kind) : rule.Shape node := by
  induction h with
  | number hk => exact .leaf (.number ((ht _ (by simp)).of_eq hk))
  | name hk => exact .leaf (.name ((ht _ (by simp)).of_eq hk))
  | parens _ _ _ ih => exact ih fun token hm => ht token (by simp [hm])
  | single _ ih => exact ih ht
  | add _ hk _ ihl ihr =>
    exact .arith ((ht _ (by simp)).of_eq hk)
      (ihl fun token hm => ht token (by simp [hm])) (ihr fun token hm => ht token (by simp [hm]))
  | sub _ hk _ ihl ihr =>
    exact .arith ((ht _ (by simp)).of_eq hk)
      (ihl fun token hm => ht token (by simp [hm])) (ihr fun token hm => ht token (by simp [hm]))
  | print hk _ ih =>
    exact .print ((ht _ (by simp)).of_eq hk)
      (ih fun token hm => ht token (by simp [hm]))
  | assignName hn hk _ ih =>
    exact .assign ((ht _ (by simp)).of_eq hk)
      (.name ((ht _ (by simp)).of_eq hn))
      (ih fun token hm => ht token (by simp [hm]))
  | assignNumber hn hk _ ih =>
    exact .assign ((ht _ (by simp)).of_eq hk)
      (.number ((ht _ (by simp)).of_eq hn))
      (ih fun token hm => ht token (by simp [hm]))
  | printStatement _ ih => exact ih ht
  | assignmentStatement _ ih => exact ih ht
  | noStatements => exact .block (by simp)
  | moreStatements _ _ _ ihi ihr =>
    have hfirst := ihi fun token hm => ht token (by simp [hm])
    obtain ⟨hrest⟩ := ihr fun token hm => ht token (by simp [hm])
    exact .block (List.forall_mem_cons.mpr ⟨hfirst, hrest⟩)

theorem spelt_of_mem_tokens {source : String} (h : tokenize source = .ok tokens)
    (hm : token ∈ tokens) : token.Spelt token.kind := by
  obtain ⟨after, -, hmunch⟩ := (scans_tokenizeFrom _ _).passes_token h hm
  exact ⟨rfl, hmunch.spells, hmunch.not_mem_keywords⟩

theorem isProgram_of_parse {source : String} (h : tokenize source = .ok tokens)
    (hp : parse tokens = .ok node) : node.IsProgram :=
  (parse_eq_ok_iff.mp hp).shape fun _ hm => spelt_of_mem_tokens h hm

end Abacus
