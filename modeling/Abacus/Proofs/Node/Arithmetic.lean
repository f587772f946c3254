import Mathlib.Algebra.Ring.Int.Defs
import Abacus.Proofs.Node.Formula

/-!
# Sums are exact or fail at the first fault

A sum is evaluated from the left, operands before the node itself (`Node.postorder`).
Its value is the exact integer that it stands for, which is the sum of its leaves, each
with a sign (`Node.signedSum`). It has one exactly if every node on the way does: each
number can be read, each name is bound, and each result is in range (`Node.Sound`).
Otherwise the error is that of the first node which is not sound, even if the results
behind it would be in range again.
-/

namespace Abacus

theorem Op.compute?_eq_none_iff {op : Op} {a b : Value} :
    op.compute? a b = none ↔ ¬ InRange (op.apply a.toInt b.toInt) := by
  cases op <;> exact Value.ofInt?_eq_none_iff

namespace Node

variable {node : Node} {nodes others : List Node} {token : Token} {scope : Scope}
variable {session : Session}
variable {e : EvalError} {n : Int}

def postorder : Node → List Node
  | .arith op token left right =>
    postorder left ++ postorder right ++ [.arith op token left right]
  | node => [node]

def Sound (scope : Scope) : Node → Prop
  | .number token => ∃ n, Decimal.literal? token.text = some n ∧ InRange n
  | .name token => ∃ v, scope.get? token.text = some v
  | .arith op token left right =>
    ∃ n, integer? scope.integer? (.arith op token left right) = some n ∧ InRange n
  | .print .. | .assign .. | .block _ => False

def complaint? : Node → Option EvalError
  | .number token => some (.invalidLiteral token.text token.line)
  | .name token => some (.undefinedName token.text token.line)
  | .arith _ token _ _ => some (.overflow token.line)
  | .print .. | .assign .. | .block _ => none

/-- The leaves of a sum, each with the number of differences that it stands on the
right of. -/
def terms : Node → List (Nat × Node)
  | .arith .add _ left right => terms left ++ terms right
  | .arith .sub _ left right => terms left ++ (terms right).map (Prod.map (· + 1) id)
  | node => [(0, node)]

def signedSum (names : String → Option Int) (node : Node) : Int :=
  (node.terms.map fun term => (-1) ^ term.1 * (term.2.integer? names).getD 0).sum

-- ---------------------------------------------------------------------------
-- The exact value
-- ---------------------------------------------------------------------------

theorem sum_flipped (value : Node → Int) (terms : List (Nat × Node)) :
    ((terms.map (Prod.map (· + 1) id)).map fun term => (-1) ^ term.1 * value term.2).sum =
      -(terms.map fun term => (-1) ^ term.1 * value term.2).sum := by
  induction terms with
  | nil => rfl
  | cons term terms ih =>
    simp only [List.map_cons, List.sum_cons, ih, Prod.map_fst, Prod.map_snd, id, Int.pow_succ]
    simp only [Int.mul_neg, Int.mul_one, Int.neg_mul, Int.neg_add]

theorem signedSum_arith (names : String → Option Int) (op : Op) (token : Token)
    (left right : Node) :
    signedSum names (.arith op token left right) =
      op.apply (signedSum names left) (signedSum names right) := by
  cases op with
  | add => simp [signedSum, terms, Op.apply]
  | sub =>
    simp only [signedSum, terms, List.map_append, List.sum_append]
    rw [sum_flipped fun leaf => (leaf.integer? names).getD 0]
    rfl

theorem integer?_arith {names : String → Option Int} {left right : Node} {a b : Int} (op : Op)
    (token : Token) (hl : left.integer? names = some a) (hr : right.integer? names = some b) :
    integer? names (.arith op token left right) = some (op.apply a b) := by
  simp [integer?, hl, hr]

theorem IsSum.integer?_eq_signedSum {names : String → Option Int} (h : node.IsSum)
    (hn : node.integer? names = some n) : n = node.signedSum names := by
  induction h generalizing n with
  | number token => simp [signedSum, terms, hn]
  | name token => simp [signedSum, terms, hn]
  | arith _ _ ihl ihr =>
    rw [integer?] at hn
    obtain ⟨a, ha, hn⟩ := Option.bind_eq_some_iff.mp hn
    obtain ⟨b, hb, rfl⟩ := Option.map_eq_some_iff.mp hn
    rw [signedSum_arith, ← ihl ha, ← ihr hb]

-- ---------------------------------------------------------------------------
-- The first fault
-- ---------------------------------------------------------------------------

def FirstFault (scope : Scope) (nodes : List Node) (e : EvalError) : Prop :=
  ∃ before node after, nodes = before ++ node :: after ∧ (∀ other ∈ before, other.Sound scope) ∧
    ¬ node.Sound scope ∧ node.complaint? = some e

theorem firstFault_singleton (hs : ¬ node.Sound scope) (he : node.complaint? = some e) :
    FirstFault scope [node] e :=
  ⟨[], node, [], rfl, by simp, hs, he⟩

theorem FirstFault.append (h : FirstFault scope nodes e) (others : List Node) :
    FirstFault scope (nodes ++ others) e := by
  obtain ⟨before, node, after, rfl, hbefore, hs, he⟩ := h
  exact ⟨before, node, after ++ others, by simp, hbefore, hs, he⟩

theorem FirstFault.behind (h : FirstFault scope others e)
    (hn : ∀ node ∈ nodes, node.Sound scope) : FirstFault scope (nodes ++ others) e := by
  obtain ⟨before, node, after, rfl, hbefore, hs, he⟩ := h
  refine ⟨nodes ++ before, node, after, by simp, ?_, hs, he⟩
  exact List.forall_mem_append.mpr ⟨hn, hbefore⟩

theorem FirstFault.not_sound (h : FirstFault scope nodes e) :
    ¬ ∀ node ∈ nodes, node.Sound scope := by
  obtain ⟨before, node, after, rfl, -, hs, -⟩ := h
  intro hall
  exact hs (hall node (by simp))

theorem sound_number_iff :
    (Node.number token).Sound scope ↔ (Value.ofLiteral? token.text).isSome := by
  rw [Sound, Value.ofLiteral?_eq_bind]
  cases Decimal.literal? token.text with
  | none => simp
  | some n => simp [Option.isSome_iff_ne_none, Value.ofInt?_eq_none_iff]

theorem sound_name_iff : (Node.name token).Sound scope ↔ (scope.get? token.text).isSome :=
  Option.isSome_iff_exists.symm

/-- A sum fails by the first of its nodes that is not sound. If there is none, it has its
exact value. -/
theorem IsSum.firstFault_or_exact (h : node.IsSum) (session : Session) :
    (∃ e, node.eval.on session = (.error e, session) ∧
      FirstFault session.scope node.postorder e) ∨
    ∃ v, node.eval.on session = (.ok (some v), session) ∧
      node.integer? session.scope.integer? = some v.toInt ∧
      ∀ sub ∈ node.postorder, sub.Sound session.scope := by
  induction h with
  | number token =>
    rw [eval]
    cases hv : Value.ofLiteral? token.text with
    | none =>
      refine .inl ⟨_, rfl, firstFault_singleton ?_ rfl⟩
      simp [sound_number_iff, hv]
    | some v =>
      refine .inr ⟨v, rfl, Value.literal?_of_ofLiteral? hv, List.forall_mem_singleton.mpr ?_⟩
      simp [sound_number_iff, hv]
  | name token =>
    rw [eval, Eval.on_bind, Eval.on_lookup, integer?, Scope.integer?]
    cases hv : session.scope.get? token.text with
    | none =>
      refine .inl ⟨_, rfl, firstFault_singleton ?_ rfl⟩
      simp [sound_name_iff, hv]
    | some v => exact .inr ⟨v, rfl, rfl, List.forall_mem_singleton.mpr ⟨v, hv⟩⟩
  | @arith op token left right _ _ ihl ihr =>
    rw [eval, postorder]
    obtain ⟨e, he, hfault⟩ | ⟨a, ha, hleft, hlsound⟩ := ihl
    · refine .inl ⟨e, Eval.on_bind_of_error (Eval.on_demand_of_error he _) _, ?_⟩
      exact (hfault.append _).append _
    rw [Eval.on_bind_of_ok (Eval.on_demand_of_some ha _)]
    obtain ⟨e, he, hfault⟩ | ⟨b, hb, hright, hrsound⟩ := ihr
    · refine .inl ⟨e, Eval.on_bind_of_error (Eval.on_demand_of_error he _) _, ?_⟩
      exact (hfault.behind hlsound).append _
    rw [Eval.on_bind_of_ok (Eval.on_demand_of_some hb _)]
    -- All that stands before the operator is sound, so only its own result can fail.
    have hoperands := List.forall_mem_append.mpr ⟨hlsound, hrsound⟩
    have hexact := integer?_arith op token hleft hright
    cases hv : op.compute? a b with
    | none =>
      refine .inl ⟨_, rfl, (firstFault_singleton ?_ rfl).behind hoperands⟩
      rintro ⟨n, hn, hr⟩
      cases hexact.symm.trans hn
      exact Op.compute?_eq_none_iff.mp hv hr
    | some v =>
      rw [← Op.compute?_eq_some_iff.mp hv] at hexact
      refine .inr ⟨v, rfl, hexact, List.forall_mem_append.mpr ⟨hoperands, ?_⟩⟩
      exact List.forall_mem_singleton.mpr ⟨v.toInt, hexact, v.inRange⟩

theorem IsSum.exact_of_ok {v : Value} {next : Session} (h : node.IsSum)
    (hv : node.eval.on session = (.ok (some v), next)) :
    node.integer? session.scope.integer? = some v.toInt ∧
      ∀ sub ∈ node.postorder, sub.Sound session.scope := by
  obtain ⟨e, he, -⟩ | ⟨w, hw, hexact⟩ := h.firstFault_or_exact session
  · cases hv.symm.trans he
  · cases hv.symm.trans hw
    exact hexact

theorem IsSum.firstFault_of_error {next : Session} (h : node.IsSum)
    (he : node.eval.on session = (.error e, next)) :
    FirstFault session.scope node.postorder e := by
  obtain ⟨e', he', hfault⟩ | ⟨v, hv, -⟩ := h.firstFault_or_exact session
  · cases he.symm.trans he'
    exact hfault
  · cases he.symm.trans hv

/-- Evaluation of a sum changes nothing. It gives a value exactly if all nodes are sound,
and that is the exact integer, the sum of the leaves with their signs. Otherwise it fails
by the first node that is not sound. -/
theorem IsSum.eval_exact_or_first_fault (h : node.IsSum) (session : Session) :
    let scope := session.scope
    let answer := (node.eval.on session).1
    (node.eval.on session).2 = session ∧
    ((∃ v, answer = .ok (some v)) ↔ ∀ sub ∈ node.postorder, sub.Sound scope) ∧
    (∀ v, answer = .ok (some v) →
      node.integer? scope.integer? = some v.toInt ∧ v.toInt = node.signedSum scope.integer?) ∧
    ((¬ ∀ sub ∈ node.postorder, sub.Sound scope) →
      ∃ e, answer = .error e ∧ FirstFault scope node.postorder e) := by
  intro scope answer
  obtain ⟨e, he, hfault⟩ | ⟨v, hv, hexact, hsound⟩ := h.firstFault_or_exact session
  · have hanswer : answer = .error e := congrArg Prod.fst he
    refine ⟨congrArg Prod.snd he, ⟨?_, fun hsound => absurd hsound hfault.not_sound⟩, ?_,
      fun _ => ⟨e, hanswer, hfault⟩⟩
    · rintro ⟨v, hv⟩
      cases hv.symm.trans hanswer
    · intro v hv
      cases hv.symm.trans hanswer
  · have hanswer : answer = .ok (some v) := congrArg Prod.fst hv
    refine ⟨congrArg Prod.snd hv, ⟨fun _ => hsound, fun _ => ⟨v, hanswer⟩⟩, ?_,
      fun hnot => absurd hsound hnot⟩
    intro other hother
    cases hother.symm.trans hanswer
    exact ⟨hexact, h.integer?_eq_signedSum hexact⟩

/-- The largest value plus one is out of range, also where one is then taken off. -/
theorem IsSum.eval_exact_or_first_fault_at_limit :
    let token (kind : Kind) (text : String) (line : Nat) : Token := ⟨⟨kind, text⟩, ⟨0, line⟩⟩
    let above := Node.arith .add (token .plus "+" 2) (.name (token .name "x" 1))
      (.number (token .number "1" 3))
    let node := Node.arith .sub (token .minus "-" 4) above (.number (token .number "01" 5))
    let session : Session := { Session.start .unlimited with
      scope := Scope.empty.bind "x" ⟨9223372036854775807, by decide⟩ }
    node.IsSum ∧ node.integer? session.scope.integer? = some 9223372036854775807 ∧
      node.eval.on session = (.error (.overflow 2), session) ∧
      FirstFault session.scope node.postorder (.overflow 2) := by
  intro token above node session
  have hsum : node.IsSum := .arith (.arith (.name _) (.number _)) (.number _)
  obtain ⟨hsession, hvalue, -, hfault⟩ := hsum.eval_exact_or_first_fault session
  have hanswer : (node.eval.on session).1 = .error (.overflow 2) := by decide +kernel
  have hnot : ¬ ∀ sub ∈ node.postorder, sub.Sound session.scope := by
    rw [← hvalue]
    rintro ⟨v, hv⟩
    cases hanswer.symm.trans hv
  obtain ⟨e, he, hfirst⟩ := hfault hnot
  cases hanswer.symm.trans he
  exact ⟨hsum, by decide +kernel, Prod.ext hanswer hsession, hfirst⟩

end Node

end Abacus
