import Mathlib.Data.List.Induction
import Mathlib.Data.Nat.Digits.Defs
import Abacus.Proofs.Node.Formula
import Abacus.Proofs.Sink.Delivery

/-!
# Literals and the integers they denote

A literal is at most one sign and one or more digits, and denotes an integer by the places
of its digits (`Decimal.Denotes`). A number of a tree has the value that its text denotes,
if that is in range, and is invalid otherwise. A value is printed as the canonical one of
its literals, from which it can be read again (`Value.denotes_decimal`).
-/

namespace Abacus

variable {ds : List Char} {text : String} {n : Int} {v w : Value}

namespace Decimal

/-- The number that digits stand for, each by its place. -/
def positional (ds : List Char) : Nat := Nat.ofDigits 10 (ds.reverse.map digitValue)

inductive Denotes : List Char → Int → Prop
  | unsigned {ds : List Char} : ds ≠ [] → (∀ d ∈ ds, isDigit d = true) →
      Denotes ds (positional ds)
  | plus {ds : List Char} : ds ≠ [] → (∀ d ∈ ds, isDigit d = true) →
      Denotes ('+' :: ds) (positional ds)
  | minus {ds : List Char} : ds ≠ [] → (∀ d ∈ ds, isDigit d = true) →
      Denotes ('-' :: ds) (-(positional ds : Int))

/-- No plus sign, no sign before zero and no zero before other digits. -/
inductive Canonical : List Char → Prop
  | zero : Canonical ['0']
  | unsigned {d : Char} {ds : List Char} : isDigit d = true → d ≠ '0' → Canonical (d :: ds)
  | minus {d : Char} {ds : List Char} : isDigit d = true → d ≠ '0' → Canonical ('-' :: d :: ds)

-- ---------------------------------------------------------------------------
-- Reading
-- ---------------------------------------------------------------------------

theorem value_eq_positional (ds : List Char) : value ds = positional ds := by
  induction ds using List.reverseRecOn with
  | nil => rfl
  | append_singleton ds d ih =>
    rw [value_append_singleton, ih]
    simp [positional, Nat.ofDigits_cons, Nat.add_comm]

theorem read?_eq_some_iff {m : Nat} :
    read? ds = some m ↔ (ds ≠ [] ∧ ∀ d ∈ ds, isDigit d = true) ∧ positional ds = m := by
  rw [read?, ← value_eq_positional]
  split
  next h => simp_all
  next h => simp_all

theorem literal?_of_digits {text : String} (hne : text.toList ≠ [])
    (hd : ∀ c ∈ text.toList, isDigit c = true) :
    literal? text = some (value text.toList : Int) := by
  have hread : read? text.toList = some (value text.toList) := by
    rw [read?, if_pos ⟨hne, List.all_eq_true.mpr hd⟩]
  unfold literal?
  split
  next ds hminus =>
    have hsign := hd '-' (by simp [hminus])
    cases hsign
  next ds hplus =>
    have hsign := hd '+' (by simp [hplus])
    cases hsign
  next => rw [hread]; rfl

theorem denotes_of_literal? (h : literal? text = some n) : Denotes text.toList n := by
  unfold literal? at h
  split at h
  next ds htext =>
    obtain ⟨m, hm, rfl⟩ := Option.map_eq_some_iff.mp h
    obtain ⟨⟨hne, hd⟩, rfl⟩ := read?_eq_some_iff.mp hm
    exact htext ▸ .minus hne hd
  next ds htext =>
    obtain ⟨m, hm, rfl⟩ := Option.map_eq_some_iff.mp h
    obtain ⟨⟨hne, hd⟩, rfl⟩ := read?_eq_some_iff.mp hm
    exact htext ▸ .plus hne hd
  next =>
    obtain ⟨m, hm, rfl⟩ := Option.map_eq_some_iff.mp h
    obtain ⟨⟨hne, hd⟩, rfl⟩ := read?_eq_some_iff.mp hm
    exact .unsigned hne hd

theorem Denotes.literal? (h : Denotes text.toList n) : literal? text = some n := by
  generalize htext : text.toList = cs at h
  cases h with
  | unsigned hne hd =>
    subst htext
    rw [literal?_of_digits hne hd, value_eq_positional]
  | plus hne hd => simp [Decimal.literal?, htext, read?_eq_some_iff.mpr ⟨⟨hne, hd⟩, rfl⟩]
  | minus hne hd => simp [Decimal.literal?, htext, read?_eq_some_iff.mpr ⟨⟨hne, hd⟩, rfl⟩]

theorem literal?_eq_some_iff : literal? text = some n ↔ Denotes text.toList n :=
  ⟨denotes_of_literal?, Denotes.literal?⟩

-- ---------------------------------------------------------------------------
-- Writing
-- ---------------------------------------------------------------------------

theorem literal?_signed (n : Int) : literal? (String.ofList (signed n)) = some n := by
  unfold signed
  split
  next hn =>
    simp only [literal?, String.toList_ofList, read?_digits, Option.map_some, Option.some.injEq]
    omega
  next hn =>
    have hd := List.all_eq_true.mp (all_isDigit_digits n.natAbs)
    rw [literal?_of_digits (by simp [digits_ne_nil]) (by simpa using hd), String.toList_ofList,
      value_digits, Option.some.injEq]
    omega

theorem digitChar_ne_zero {m : Nat} (h : m ≠ 0) : digitChar m ≠ '0' := by
  unfold digitChar
  split <;> simp_all

theorem exists_digits_eq_cons {m : Nat} (h : m ≠ 0) :
    ∃ d ds, digits m = d :: ds ∧ isDigit d = true ∧ d ≠ '0' := by
  fun_induction digits m with
  | case1 m hlt => exact ⟨digitChar m, [], rfl, isDigit_digitChar m, digitChar_ne_zero h⟩
  | case2 m hge ih =>
    obtain ⟨d, ds, hds, hd, hne⟩ := ih (by omega)
    exact ⟨d, ds ++ [digitChar (m % 10)], by rw [hds]; rfl, hd, hne⟩

theorem canonical_signed (n : Int) : Canonical (signed n) := by
  by_cases hzero : n.natAbs = 0
  · have hdigits : digits n.natAbs = ['0'] := by
      rw [hzero, digits]
      rfl
    rw [signed, if_neg (by omega), hdigits]
    exact .zero
  · obtain ⟨d, ds, hds, hd, hne⟩ := exists_digits_eq_cons hzero
    rw [signed, hds]
    split
    next => exact .minus hd hne
    next => exact .unsigned hd hne

end Decimal

namespace Value

theorem ofLiteral?_render (v : Value) : ofLiteral? v.render = some v := by
  rw [ofLiteral?_eq_bind, render, decimal_eq_signed, Decimal.literal?_signed, Option.bind_some,
    ofInt?_toInt]

theorem ofLiteral?_eq_some_iff :
    ofLiteral? text = some v ↔ Decimal.Denotes text.toList v.toInt := by
  rw [ofLiteral?_eq_bind, ← Decimal.literal?_eq_some_iff, Option.bind_eq_some_iff]
  constructor
  · rintro ⟨n, hn, hv⟩
    rw [hn, ofInt?_eq_some_iff.mp hv]
  · intro h
    exact ⟨v.toInt, h, ofInt?_toInt v⟩

theorem denotes_decimal (v : Value) : Decimal.Denotes v.decimal v.toInt := by
  have h := ofLiteral?_eq_some_iff.mp (ofLiteral?_render v)
  rwa [render, String.toList_ofList] at h

theorem decimal_injective (h : v.decimal = w.decimal) : v = w := by
  have hv := ofLiteral?_render v
  rw [render, h] at hv
  exact Option.some.inj (hv.symm.trans (ofLiteral?_render w))

end Value

-- ---------------------------------------------------------------------------
-- Numbers of a tree
-- ---------------------------------------------------------------------------

namespace Node

variable {session next : Session} {token : Token}

theorem on_eval_number_of_some (h : Value.ofLiteral? token.text = some v) (session : Session) :
    (Node.number token).eval.on session = (.ok (some v), session) := by
  rw [eval, h]
  rfl

theorem on_eval_number_of_none (h : Value.ofLiteral? token.text = none) (session : Session) :
    (Node.number token).eval.on session =
      (.error (.invalidLiteral token.text token.line), session) := by
  rw [eval, h]
  rfl

theorem on_eval_number_iff :
    (Node.number token).eval.on session = (.ok (some v), session) ↔
      Decimal.Denotes token.text.toList v.toInt := by
  rw [← Value.ofLiteral?_eq_some_iff]
  constructor
  · intro h
    cases hread : Value.ofLiteral? token.text with
    | none =>
      rw [on_eval_number_of_none hread] at h
      cases h
    | some w =>
      rw [on_eval_number_of_some hread] at h
      cases h
      rfl
  · intro h
    exact on_eval_number_of_some h session

theorem written_print {operand : Node} (h : operand.eval.on session = (.ok (some v), next))
    (hfits : next.sink.Fits [v.decimal ++ ['\n']]) (token : Token) :
    ((Node.print token operand).eval.on session).2.sink.written =
      next.sink.written ++ String.ofList (v.decimal ++ ['\n']) := by
  rw [eval, Eval.on_bind_of_ok (Eval.on_demand_of_some h token.line), Eval.on_bind,
    Eval.on_printValue, Sink.putLine_of_fits hfits]
  simp [Sink.took, Except.mapError]

/-- A number gives a value exactly if its text is a literal of an integer in range, and that
integer is the value; otherwise it is invalid. The line that prints a value is the canonical
one of the literals of its integer. It can be read again, and no two values share it. -/
theorem literals_are_exact (session : Session) :
    (∀ token : Token,
      let run := (Node.number token).eval.on session
      let text := token.text.toList
      (∀ n : Int, (∃ v : Value, v.toInt = n ∧ run = (.ok (some v), session)) ↔
        Decimal.Denotes text n ∧ -2 ^ 63 ≤ n ∧ n ≤ 2 ^ 63 - 1) ∧
      ((∀ n : Int, ¬ (Decimal.Denotes text n ∧ -2 ^ 63 ≤ n ∧ n ≤ 2 ^ 63 - 1)) →
        run = (.error (.invalidLiteral token.text token.line), session))) ∧
    (∀ v : Value,
      (Decimal.Denotes v.decimal v.toInt ∧ Decimal.Canonical v.decimal) ∧
      (∀ token : Token, token.text.toList = v.decimal →
        (Node.number token).eval.on session = (.ok (some v), session)) ∧
      ∀ token operand next, operand.eval.on session = (.ok (some v), next) →
        next.sink.Fits [v.decimal ++ ['\n']] →
        ((Node.print token operand).eval.on session).2.sink.written =
          next.sink.written ++ String.ofList (v.decimal ++ ['\n'])) ∧
    ∀ v w : Value, v.decimal ++ ['\n'] = w.decimal ++ ['\n'] → v = w := by
  refine ⟨fun token => ⟨fun n => ?_, fun hnot => ?_⟩, fun v => ⟨?_, fun token htext => ?_, ?_⟩, ?_⟩
  · constructor
    · rintro ⟨v, rfl, hrun⟩
      exact ⟨on_eval_number_iff.mp hrun, v.inRange⟩
    · rintro ⟨hdenotes, hrange⟩
      exact ⟨⟨n, hrange⟩, rfl, on_eval_number_iff.mpr hdenotes⟩
  · apply on_eval_number_of_none
    rw [Option.eq_none_iff_forall_ne_some]
    intro v hv
    exact hnot v.toInt ⟨Value.ofLiteral?_eq_some_iff.mp hv, v.inRange⟩
  · exact ⟨v.denotes_decimal, Decimal.canonical_signed v.toInt⟩
  · rw [on_eval_number_iff, htext]
    exact v.denotes_decimal
  · intro token operand next h hfits
    exact written_print h hfits token
  · intro v w h
    exact Value.decimal_injective (List.append_cancel_right h)

end Node

end Abacus
