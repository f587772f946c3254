import Abacus.Node.Printer

/-!
# Trees without places

`Node.map` rewrites the tokens of a tree. `Node.bare` forgets where they stand:
two trees that are equal as bare trees have the same shape and operators, and
tokens of the same kinds and texts. A tree is written from the texts of its
tokens alone, so equal bare trees are written alike (`render_eq_of_bare_eq`).
-/

namespace Abacus

def Token.bare (token : Token) : Token := ⟨token.toLexeme, .start⟩

theorem Token.text_bare (token : Token) : token.bare.text = token.text := rfl

namespace Node

mutual

def map (f : Token → Token) : Node → Node
  | .number token => .number (f token)
  | .name token => .name (f token)
  | .print token operand => .print (f token) (map f operand)
  | .arith op token left right => .arith op (f token) (map f left) (map f right)
  | .assign token target value => .assign (f token) (map f target) (map f value)
  | .block items => .block (mapAll f items)

def mapAll (f : Token → Token) : List Node → List Node
  | [] => []
  | item :: items => map f item :: mapAll f items

end

/-- A tree without the places of its tokens. -/
def bare (node : Node) : Node := node.map Token.bare

theorem isArith_map (f : Token → Token) (node : Node) : (node.map f).isArith = node.isArith := by
  cases node <;> rfl

theorem renderItems_mapAll {f : Token → Token} {items : List Node}
    (h : ∀ item ∈ items, (item.map f).render = item.render) :
    renderItems (mapAll f items) = renderItems items := by
  induction items with
  | nil => rfl
  | cons item items ih =>
    rw [List.forall_mem_cons] at h
    rw [mapAll, renderItems, renderItems, h.1, ih h.2]

theorem render_map {f : Token → Token} (hf : ∀ token, (f token).text = token.text) (node : Node) :
    (node.map f).render = node.render := by
  induction node with
  | number token => exact hf token
  | name token => exact hf token
  | print token operand ih => simp only [map, render, hf, ih]
  | arith op token left right ihl ihr =>
    simp only [map, render, parenthesize, isArith_map, hf, ihl, ihr]
  | assign token target value iht ihv => simp only [map, render, hf, iht, ihv]
  | block items ih =>
    simp only [map, render]
    exact renderItems_mapAll ih

theorem render_bare (node : Node) : node.bare.render = node.render :=
  render_map Token.text_bare node

theorem render_eq_of_bare_eq {a b : Node} (h : a.bare = b.bare) : a.render = b.render := by
  rw [← render_bare a, h, render_bare b]

end Node

end Abacus
