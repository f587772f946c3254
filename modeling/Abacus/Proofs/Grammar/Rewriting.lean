import Abacus.Proofs.Grammar.Exact
import Abacus.Proofs.Node.Bare

/-!
# The parser looks at kinds only

A rewriting of tokens that keeps their kinds takes derivations to derivations of
the rewritten tree (`Derives.map`), and steps of the automaton to steps
(`Phase.advance?_map`). What was read of earlier statements plays no part in the
steps either. So behind the tokens of a program, rewritten tokens are followed as
they are on their own (`Cursor.follow_behind`).
-/

namespace Abacus

open Cursor (follow follow_cons_some follow_cons_none)

variable {f : Token → Token} {node : Node} {tokens : List Token} {rule : Rule}

theorem Node.mapAll_eq_map (f : Token → Token) (items : List Node) :
    Node.mapAll f items = items.map (Node.map f) := by
  induction items with
  | nil => rfl
  | cons item items ih => rw [Node.mapAll, ih, List.map_cons]

-- ---------------------------------------------------------------------------
-- Derivations
-- ---------------------------------------------------------------------------

theorem Derives.map (hf : ∀ token, (f token).kind = token.kind) (h : Derives rule tokens node) :
    Derives rule (tokens.map f) (node.map f) := by
  induction h with
  | number hk => exact .number ((hf _).trans hk)
  | name hk => exact .name ((hf _).trans hk)
  | parens ho _ hc ih =>
    rw [List.map_cons, List.map_append]
    exact .parens ((hf _).trans ho) ih ((hf _).trans hc)
  | single _ ih => exact .single ih
  | add _ hk _ ihl ihr =>
    rw [List.map_append, List.map_cons]
    exact .add ihl ((hf _).trans hk) ihr
  | sub _ hk _ ihl ihr =>
    rw [List.map_append, List.map_cons]
    exact .sub ihl ((hf _).trans hk) ihr
  | print hk _ ih => exact .print ((hf _).trans hk) ih
  | assignName hn hk _ ih => exact .assignName ((hf _).trans hn) ((hf _).trans hk) ih
  | assignNumber hn hk _ ih => exact .assignNumber ((hf _).trans hn) ((hf _).trans hk) ih
  | printStatement _ ih => exact .printStatement ih
  | assignmentStatement _ ih => exact .assignmentStatement ih
  | noStatements => exact .noStatements
  | moreStatements _ hs _ ihi ihr =>
    rw [List.map_append, List.map_cons]
    exact .moreStatements ihi ((hf _).trans hs) ihr

theorem Derives.map_eq_self (hf : ∀ token, (f token).kind = token.kind)
    (h : Derives rule tokens node) (ht : ∀ token ∈ tokens, f token = token) :
    node.map f = node := by
  have htokens : tokens.map f = tokens := (List.map_congr_left ht).trans (List.map_id tokens)
  have hmap := h.map hf
  rw [htokens] at hmap
  exact hmap.unique h

-- ---------------------------------------------------------------------------
-- Steps of the automaton
-- ---------------------------------------------------------------------------

def Pending.map (f : Token → Token) (sum : Pending) : Pending :=
  ⟨sum.op, f sum.token, sum.left.map f⟩

def Goal.map (f : Token → Token) : Goal → Goal
  | .operand => .operand
  | .formula => .formula
  | .print token => .print (f token)
  | .assign target token => .assign (target.map f) (f token)

def Phase.map (f : Token → Token) : Phase → Phase
  | .statement => .statement
  | .print => .print
  | .assignment => .assignment
  | .assign target => .assign (target.map f)
  | .operand goal outer pending =>
    .operand (goal.map f) (outer.map (Option.map (Pending.map f))) (pending.map (Pending.map f))
  | .operator goal outer left =>
    .operator (goal.map f) (outer.map (Option.map (Pending.map f))) (left.map f)

theorem Pending.map_complete (f : Token → Token) (pending : Option Pending) (operand : Node) :
    (Pending.complete pending operand).map f =
      Pending.complete (pending.map (Pending.map f)) (operand.map f) := by
  cases pending <;> rfl

theorem Goal.map_build (f : Token → Token) (goal : Goal) (node : Node) :
    (goal.build node).map f = (goal.map f).build (node.map f) := by
  cases goal <;> rfl

theorem Token.leaf?_map {token : Token} (hf : (f token).kind = token.kind) :
    (f token).leaf? = token.leaf?.map (Node.map f) := by
  unfold Token.leaf?
  rw [hf]
  cases token.kind <;> rfl

namespace Phase

theorem continues_map (f : Token → Token) (goal : Goal) (outer : List (Option Pending)) :
    continues (goal.map f) (outer.map (Option.map (Pending.map f))) = continues goal outer := by
  cases goal <;> cases outer <;> rfl

theorem expected_map (f : Token → Token) (phase : Phase) :
    (phase.map f).expected = phase.expected := by
  cases phase with
  | operator goal outer left => cases outer <;> rfl
  | _ => rfl

theorem result?_map (f : Token → Token) (phase : Phase) :
    (phase.map f).result? = phase.result?.map (Node.map f) := by
  cases phase with
  | operator goal outer left =>
    cases outer with
    | nil => exact congrArg some (Goal.map_build f goal left).symm
    | cons => rfl
  | _ => rfl

theorem advance?_map {token : Token} (hf : (f token).kind = token.kind) (phase : Phase) :
    (phase.map f).advance? (f token) = (phase.advance? token).map (Phase.map f) := by
  have hleaf := Token.leaf?_map hf
  cases phase with
  | statement =>
    simp only [map, advance?, hf, hleaf]
    split <;> cases token.leaf? <;> rfl
  | print =>
    simp only [map, advance?, hf]
    split <;> rfl
  | assignment =>
    simp only [map, advance?, hleaf]
    cases token.leaf? <;> rfl
  | assign target =>
    simp only [map, advance?, hf]
    split <;> rfl
  | operand goal outer pending =>
    simp only [map, advance?, hf, hleaf]
    split
    next => rfl
    next => cases token.leaf? <;> simp [map, Pending.map_complete]
  | operator goal outer left =>
    simp only [map, advance?, hf, continues_map]
    cases hop : token.kind.op? with
    | some op =>
      simp only
      split <;> rfl
    | none =>
      cases outer with
      | nil => cases token.kind <;> rfl
      | cons pending outer => cases token.kind <;> simp [map, Pending.map_complete]

end Phase

-- ---------------------------------------------------------------------------
-- Programs behind programs
-- ---------------------------------------------------------------------------

/-- The same progress in rewritten tokens, behind the statements of a program. -/
def Progress.behind (f : Token → Token) (items : List Node) (progress : Progress) : Progress :=
  ⟨progress.items.map (Node.map f) ++ items.reverse, progress.phase.map f⟩

theorem Progress.advance?_behind {token : Token} (hf : (f token).kind = token.kind)
    (items : List Node) (progress : Progress) :
    (progress.behind f items).advance? (f token) =
      (progress.advance? token).map (Progress.behind f items) := by
  simp only [Progress.advance?, Progress.behind, Phase.advance?_map hf, Phase.result?_map, hf]
  cases progress.phase.advance? token with
  | some phase => rfl
  | none => cases token.kind <;> cases progress.phase.result? <;> rfl

theorem Progress.result?_behind (f : Token → Token) (items : List Node) (progress : Progress) :
    (progress.behind f items).result? =
      progress.result?.map fun _ => .block (items ++ Node.mapAll f progress.items.reverse) := by
  obtain ⟨others, phase⟩ := progress
  cases phase with
  | statement => simp [Progress.behind, Progress.result?, Phase.map, Node.mapAll_eq_map]
  | _ => rfl

namespace Cursor

/-- If a rewriting of tokens and one of states go together in each step, they do
so in a run, from any position. -/
theorem follow_map {σ : Type} {step : σ → Token → Option σ} {φ : σ → σ}
    (h : ∀ state token, step (φ state) (f token) = (step state token).map φ) (state : σ)
    (start position : Nat) (tokens : List Token) :
    follow step (φ state) (start + position) (tokens.map f) =
      (φ (follow step state position tokens).1,
        ⟨(follow step state position tokens).2.rest.map f,
          start + (follow step state position tokens).2.position⟩) := by
  fun_induction follow step state position tokens with
  | case1 state position => rfl
  | case2 state position token rest next hs ih =>
    have hstep := h state token
    rw [hs] at hstep
    rw [List.map_cons, follow_cons_some hstep]
    exact ih
  | case3 state position token rest hs =>
    have hstep := h state token
    rw [hs] at hstep
    rw [List.map_cons, follow_cons_none hstep]

theorem follow_append {σ : Type} {step : σ → Token → Option σ} {state next : σ}
    (h : tokens.foldlM step state = some next) (position : Nat) (others : List Token) :
    follow step state position (tokens ++ others) =
      follow step next (position + tokens.length) others := by
  induction tokens generalizing state position with
  | nil =>
    cases h
    rfl
  | cons token tokens ih =>
    rw [List.foldlM_cons] at h
    obtain ⟨middle, hs, h⟩ := Option.bind_eq_some_iff.mp h
    rw [List.cons_append, follow_cons_some hs, ih h, List.length_cons, Nat.add_assoc,
      Nat.add_comm 1]

theorem follow_behind {items : List Node} (h : Derives .code tokens (.block items))
    (hf : ∀ token, (f token).kind = token.kind) (others : List Token) :
    follow Progress.advance? .start 0 (tokens ++ others.map f) =
      ((follow Progress.advance? .start 0 others).1.behind f items,
        ⟨(follow Progress.advance? .start 0 others).2.rest.map f,
          tokens.length + (follow Progress.advance? .start 0 others).2.position⟩) := by
  have hitems := h.foldlM_code []
  rw [List.append_nil] at hitems
  rw [Progress.start, follow_append hitems, Nat.zero_add]
  exact follow_map (fun progress token => Progress.advance?_behind (hf token) items progress)
    .start tokens.length 0 others

-- ---------------------------------------------------------------------------
-- Rules over rewritten tokens
-- ---------------------------------------------------------------------------

def map (f : Token → Token) (cursor : Cursor) : Cursor := ⟨cursor.rest.map f, cursor.position⟩

theorem map_seek (f : Token → Token) (tokens : List Token) (position : Nat) :
    (seek tokens position).map f = seek (tokens.map f) position := by
  rw [map, seek, List.map_drop]
  rfl

/-- The answer of a rule and its answer over rewritten tokens: the rewritten tree, or
the refusal of the token that stands there now. The cursor is at the same position. -/
inductive Rewrites (f : Token → Token) :
    Except SyntaxError Node × Cursor → Except SyntaxError Node × Cursor → Prop
  | tree {node : Node} {next : Cursor} :
      Rewrites f (.ok node, next) (.ok (node.map f), next.map f)
  | refusal {kinds : List Kind} {next : Cursor} :
      Rewrites f (.error (next.expected kinds), next)
        (.error ((next.map f).expected kinds), next.map f)

theorem rewrites_readFrom (hf : ∀ token, (f token).kind = token.kind) (phase : Phase)
    (cursor : Cursor) :
    Rewrites f (cursor.readFrom phase) ((cursor.map f).readFrom (phase.map f)) := by
  have hfollow := follow_map (fun phase token => Phase.advance?_map (hf token) phase) phase 0
    cursor.position cursor.rest
  rw [Nat.zero_add, Nat.zero_add] at hfollow
  simp only [readFrom, map, hfollow, Phase.result?_map, Phase.expected_map]
  rcases follow Phase.advance? phase cursor.position cursor.rest with ⟨phase, next⟩
  cases phase.result? with
  | some node => exact .tree
  | none => exact .refusal

theorem rewrites_readCode (hf : ∀ token, (f token).kind = token.kind) (cursor : Cursor) :
    Rewrites f cursor.readCode (cursor.map f).readCode := by
  have hfollow := follow_map (fun progress token => Progress.advance?_behind (hf token) [] progress)
    .start 0 cursor.position cursor.rest
  rw [Nat.zero_add, Nat.zero_add] at hfollow
  have hstart : Progress.start.behind f [] = .start := rfl
  rw [hstart] at hfollow
  simp only [readCode, map, hfollow, Progress.result?_behind]
  rcases follow Progress.advance? .start cursor.position cursor.rest with
    ⟨progress, ⟨rest, position⟩⟩
  have hrefusal : Rewrites f
      (.error ((Cursor.mk rest position).expected progress.phase.expected), ⟨rest, position⟩)
      (.error ((Cursor.mk (rest.map f) position).expected (progress.behind f []).phase.expected),
        ⟨rest.map f, position⟩) := by
    rw [Progress.behind, Phase.expected_map]
    exact .refusal
  cases hresult : progress.result? with
  | none => exact hrefusal
  | some node =>
    obtain ⟨-, rfl⟩ := Progress.result?_eq_some_iff.mp hresult
    cases rest with
    | nil => exact .tree
    | cons token rest => exact hrefusal

theorem rewrites_read (hf : ∀ token, (f token).kind = token.kind) (cursor : Cursor) (rule : Rule) :
    Rewrites f (cursor.read rule) ((cursor.map f).read rule) := by
  cases rule with
  | code => exact rewrites_readCode hf cursor
  | statement => exact rewrites_readFrom hf .statement cursor
  | print => exact rewrites_readFrom hf .print cursor
  | assignment => exact rewrites_readFrom hf .assignment cursor
  | formula => exact rewrites_readFrom hf (.formula .formula) cursor
  | operand => exact rewrites_readFrom hf (.formula .operand) cursor

end Cursor

end Abacus
