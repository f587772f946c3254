import Mathlib.Data.Fintype.Basic
import Abacus.Error

/-!
# What a message tells of its error

A message quotes texts that may hold anything, also the words of other messages. It can
still be taken apart in one way only: the line at the front and the position at the end are
numerals between other characters, the words that name the cause stand before the first
quotation, and a list of alternatives shows where it ends. So an error can be told from its
message (`Error.message_inj`). The exception is a fault of the sink, whose message leaves out
the reason; but its message is not that of any other error.
-/

namespace Abacus

-- ---------------------------------------------------------------------------
-- Numerals in a text
-- ---------------------------------------------------------------------------

namespace Decimal

variable {m n : Nat}

theorem append_cons_inj {ds es s t : List Char} {c : Char} (hds : ∀ d ∈ ds, isDigit d = true)
    (hes : ∀ d ∈ es, isDigit d = true) (hc : isDigit c = false) (h : ds ++ c :: s = es ++ c :: t) :
    ds = es ∧ s = t := by
  -- Both runs of digits are what a scan for digits takes of the whole text.
  have hrun := congrArg (List.takeWhile isDigit) h
  have hstop : ∀ rest, (c :: rest).takeWhile isDigit = [] :=
    fun rest => List.takeWhile_cons_of_neg (by simp [hc])
  rw [List.takeWhile_append_of_pos hds, List.takeWhile_append_of_pos hes, hstop, hstop,
    List.append_nil, List.append_nil] at hrun
  subst hrun
  exact ⟨rfl, (List.cons.inj (List.append_cancel_left h)).2⟩

theorem forall_isDigit_digits (n : Nat) : ∀ d ∈ digits n, isDigit d = true :=
  List.all_eq_true.mp (all_isDigit_digits n)

theorem render_colon_inj {s t : String} (h : render m ++ ": " ++ s = render n ++ ": " ++ t) :
    m = n ∧ s = t := by
  have hlist : digits m ++ ':' :: ' ' :: s.toList = digits n ++ ':' :: ' ' :: t.toList := by
    simpa [render, ← String.toList_inj] using h
  obtain ⟨hdigits, hrest⟩ :=
    append_cons_inj (forall_isDigit_digits m) (forall_isDigit_digits n) (by decide) hlist
  exact ⟨digits_injective hdigits, String.toList_inj.mp (List.cons.inj hrest).2⟩

theorem append_render_inj {s t words : String} (hwords : words.toList.getLast? = some ' ')
    (h : s ++ words ++ render m = t ++ words ++ render n) : s = t ∧ m = n := by
  obtain ⟨front, hfront⟩ := List.getLast?_eq_some_iff.mp hwords
  have hlist : (s.toList ++ front) ++ ' ' :: digits m = (t.toList ++ front) ++ ' ' :: digits n := by
    simpa [render, ← String.toList_inj, hfront] using h
  have hreverse : (digits m).reverse ++ ' ' :: (s.toList ++ front).reverse =
      (digits n).reverse ++ ' ' :: (t.toList ++ front).reverse := by
    simpa using congrArg List.reverse hlist
  have hall : ∀ k, ∀ d ∈ (digits k).reverse, isDigit d = true := by
    simpa using forall_isDigit_digits
  obtain ⟨hdigits, hrest⟩ := append_cons_inj (hall m) (hall n) (by decide) hreverse
  have htext : s.toList = t.toList := List.append_cancel_right (List.reverse_injective hrest)
  exact ⟨String.toList_inj.mp htext, digits_injective (List.reverse_injective hdigits)⟩

end Decimal

-- ---------------------------------------------------------------------------
-- Alternatives
-- ---------------------------------------------------------------------------

namespace Kind

instance : Fintype Kind where
  elems := {.number, .name, .assign, .plus, .minus, .openParen, .closeParen, .print, .semicolon,
    .comment, .lineBreak, .blank}
  complete k := by cases k <;> decide

variable {k l : Kind} {ks ls : List Kind} {s t : String}

theorem eq_of_describe_isPrefix :
    ∀ {k l : Kind}, k.describe.toList <+: l.describe.toList → k = l := by
  decide

/-- No description begins another one, so that it can be told whatever follows. -/
theorem describe_append_inj (h : k.describe ++ s = l.describe ++ t) : k = l ∧ s = t := by
  have hlist : k.describe.toList ++ s.toList = l.describe.toList ++ t.toList := by
    simpa [← String.toList_inj] using h
  have hk : k.describe.toList <+: l.describe.toList ++ t.toList := ⟨s.toList, hlist⟩
  have hl : l.describe.toList <+: l.describe.toList ++ t.toList := List.prefix_append _ _
  have heq : k = l := by
    rcases List.prefix_or_prefix_of_prefix hk hl with hkl | hlk
    · exact eq_of_describe_isPrefix hkl
    · exact (eq_of_describe_isPrefix hlk).symm
  subst heq
  exact ⟨rfl, (String.append_right_inj _).mp h⟩

theorem nothing_append_ne (k : Kind) (s t : String) : "nothing" ++ s ≠ k.describe ++ t := by
  cases k <;> simp [describe, ← String.toList_inj]

/-- The words before an alternative that is not the first, by those that come behind it. -/
def joint : List Kind → String
  | [] => " or "
  | _ :: _ => ", "

def describeMore : List Kind → String
  | [] => ""
  | k :: ks => joint ks ++ describeAll (k :: ks)

theorem describeAll_cons (k : Kind) (ks : List Kind) :
    describeAll (k :: ks) = k.describe ++ describeMore ks := by
  match ks with
  | [] => simp [describeAll, describeMore]
  | [l] => simp [describeAll, describeMore, joint, String.append_assoc]
  | l :: m :: ks => simp [describeAll, describeMore, joint, String.append_assoc]

theorem joint_append_inj (h : joint ks ++ s = joint ls ++ t) : s = t := by
  cases ks with
  | nil =>
    cases ls with
    | nil => exact (String.append_right_inj _).mp h
    | cons l ls => simp [joint, ← String.toList_inj] at h
  | cons k ks =>
    cases ls with
    | nil => simp [joint, ← String.toList_inj] at h
    | cons l ls => exact (String.append_right_inj _).mp h

/-- A text that does not go on with a further alternative. -/
def Closes (s : String) : Prop := ∀ ks rest, s ≠ joint ks ++ rest

theorem closes_empty : Closes "" := by
  intro ks rest
  cases ks <;> simp [joint, ← String.toList_inj]

theorem closes_but (s : String) : Closes (" but found '" ++ s) := by
  intro ks rest
  cases ks <;> simp [joint, ← String.toList_inj]

theorem describeAll_append_inj (hs : Closes s) (ht : Closes t)
    (h : describeAll ks ++ s = describeAll ls ++ t) : ks = ls ∧ s = t := by
  induction ks generalizing ls with
  | nil =>
    cases ls with
    | nil => exact ⟨rfl, (String.append_right_inj _).mp h⟩
    | cons l ls =>
      rw [describeAll_cons, String.append_assoc] at h
      exact absurd h (nothing_append_ne l s _)
  | cons k ks ih =>
    cases ls with
    | nil =>
      rw [describeAll_cons, String.append_assoc] at h
      exact absurd h.symm (nothing_append_ne k t _)
    | cons l ls =>
      rw [describeAll_cons, describeAll_cons, String.append_assoc, String.append_assoc] at h
      obtain ⟨rfl, hmore⟩ := describe_append_inj h
      -- Either both lists end here, or both go on and are joined in the same way.
      match ks, ls with
      | [], [] => exact ⟨rfl, by simpa [describeMore] using hmore⟩
      | [], l :: ls =>
        rw [describeMore, describeMore, String.empty_append, String.append_assoc] at hmore
        exact absurd hmore (hs ls _)
      | k :: ks, [] =>
        rw [describeMore, describeMore, String.empty_append, String.append_assoc] at hmore
        exact absurd hmore.symm (ht ks _)
      | k :: ks, l :: ls =>
        rw [describeMore, describeMore, String.append_assoc, String.append_assoc] at hmore
        obtain ⟨heq, hst⟩ := ih (joint_append_inj hmore)
        exact ⟨congrArg _ heq, hst⟩

theorem describeAll_injective : Function.Injective describeAll := by
  intro ks ls h
  exact (describeAll_append_inj closes_empty closes_empty (by rw [h])).1

end Kind

-- ---------------------------------------------------------------------------
-- Messages of each phase
-- ---------------------------------------------------------------------------

-- Stated by itself: the equation that Lean derives from the definition is slow to build.
theorem onLine_eq (line : Nat) (text : String) :
    onLine line text = "Error on line " ++ Decimal.render line ++ ": " ++ text := rfl

theorem onLine_inj {line other : Nat} {s t : String} (h : onLine line s = onLine other t) :
    line = other ∧ s = t := by
  simp only [onLine_eq, String.append_assoc, String.append_right_inj] at h
  exact Decimal.render_colon_inj (by simpa only [String.append_assoc] using h)

theorem onLine_ne_endOfInput (line : Nat) (text : String) (expected : List Kind) (position : Nat) :
    onLine line text ≠ (SyntaxError.endOfInput expected position).message := by
  change _ ≠ "Unexpected end of input: expected " ++ _ ++ _ ++ _ ++ _
  simp [onLine_eq, ← String.toList_inj]

theorem onLine_ne_output (line : Nat) (text : String) (fault : Fault) :
    onLine line text ≠ (EvalError.output fault).message := by
  change _ ≠ "Failed to write output: " ++ _
  simp [onLine_eq, ← String.toList_inj]

theorem endOfInput_ne_output (expected : List Kind) (position : Nat) (fault : Fault) :
    (SyntaxError.endOfInput expected position).message ≠ (EvalError.output fault).message := by
  change "Unexpected end of input: expected " ++ _ ++ _ ++ _ ++ _ ≠ "Failed to write output: " ++ _
  simp [← String.toList_inj]

theorem LexicalError.message_inj {d e : LexicalError} (h : d.message = e.message) : d = e := by
  obtain ⟨⟨offset, line⟩, text⟩ := d
  obtain ⟨⟨offset', line'⟩, text'⟩ := e
  obtain ⟨rfl, hbody⟩ := onLine_inj h
  obtain ⟨hquoted, rfl⟩ :=
    Decimal.append_render_inj (by decide) ((String.append_left_inj _).mp hbody)
  obtain rfl : text = text' := (String.append_right_inj _).mp hquoted
  rfl

theorem SyntaxError.message_inj {d e : SyntaxError} (h : d.message = e.message) : d = e := by
  cases d with
  | unexpected expected found position line =>
    cases e with
    | unexpected expected' found' position' line' =>
      obtain ⟨rfl, hbody⟩ := onLine_inj h
      obtain ⟨hquoted, rfl⟩ :=
        Decimal.append_render_inj (by decide) ((String.append_left_inj _).mp hbody)
      -- The text found may hold these words too: the alternatives are read from the left.
      have hsplit : Kind.describeAll expected ++ (" but found '" ++ found) =
          Kind.describeAll expected' ++ (" but found '" ++ found') := by
        simpa [String.append_assoc] using hquoted
      obtain ⟨rfl, hfound⟩ :=
        Kind.describeAll_append_inj (Kind.closes_but found) (Kind.closes_but found') hsplit
      obtain rfl : found = found' := (String.append_right_inj _).mp hfound
      rfl
    | endOfInput expected' position' => exact absurd h (onLine_ne_endOfInput _ _ _ _)
  | endOfInput expected position =>
    cases e with
    | unexpected expected' found' position' line' =>
      exact absurd h.symm (onLine_ne_endOfInput _ _ _ _)
    | endOfInput expected' position' =>
      obtain ⟨hlist, rfl⟩ :=
        Decimal.append_render_inj (by decide) ((String.append_left_inj _).mp h)
      obtain rfl : expected = expected' :=
        Kind.describeAll_injective ((String.append_right_inj _).mp hlist)
      rfl

theorem EvalError.message_inj {d e : EvalError} (hd : d.line?.isSome) (h : d.message = e.message) :
    d = e := by
  cases d with
  | undefinedName name line =>
    cases e with
    | undefinedName name' line' =>
      obtain ⟨rfl, hwords⟩ := onLine_inj h
      obtain rfl : name = name' := by simpa using hwords
      rfl
    | output fault => exact absurd h (onLine_ne_output _ _ _)
    | _ => exact absurd (onLine_inj h).2 (by simp [← String.toList_inj])
  | invalidTarget target line =>
    cases e with
    | invalidTarget target' line' =>
      obtain ⟨rfl, hwords⟩ := onLine_inj h
      obtain rfl : target = target' := by simpa using hwords
      rfl
    | output fault => exact absurd h (onLine_ne_output _ _ _)
    | _ => exact absurd (onLine_inj h).2 (by simp [← String.toList_inj])
  | invalidLiteral text line =>
    cases e with
    | invalidLiteral text' line' =>
      obtain ⟨rfl, hwords⟩ := onLine_inj h
      obtain rfl : text = text' := by simpa using hwords
      rfl
    | output fault => exact absurd h (onLine_ne_output _ _ _)
    | _ => exact absurd (onLine_inj h).2 (by simp [← String.toList_inj])
  | overflow line =>
    cases e with
    | overflow line' =>
      obtain ⟨rfl, -⟩ := onLine_inj h
      rfl
    | output fault => exact absurd h (onLine_ne_output _ _ _)
    | _ => exact absurd (onLine_inj h).2 (by simp [← String.toList_inj])
  | missingValue line =>
    cases e with
    | missingValue line' =>
      obtain ⟨rfl, -⟩ := onLine_inj h
      rfl
    | output fault => exact absurd h (onLine_ne_output _ _ _)
    | _ => exact absurd (onLine_inj h).2 (by simp [← String.toList_inj])
  | output fault => cases hd

theorem LexicalError.message_ne_syntax (d : LexicalError) (e : SyntaxError) :
    d.message ≠ e.message := by
  intro h
  cases e with
  | unexpected expected found position line =>
    exact absurd (onLine_inj h).2 (by simp [← String.toList_inj])
  | endOfInput expected position => exact onLine_ne_endOfInput _ _ _ _ h

theorem LexicalError.message_ne_eval (d : LexicalError) (e : EvalError) :
    d.message ≠ e.message := by
  intro h
  cases e with
  | output fault => exact onLine_ne_output _ _ _ h
  | _ => exact absurd (onLine_inj h).2 (by simp [← String.toList_inj])

theorem SyntaxError.message_ne_eval (d : SyntaxError) (e : EvalError) :
    d.message ≠ e.message := by
  intro h
  cases d with
  | unexpected expected found position line =>
    cases e with
    | output fault => exact onLine_ne_output _ _ _ h
    | _ => exact absurd (onLine_inj h).2 (by simp [← String.toList_inj])
  | endOfInput expected position =>
    cases e with
    | output fault => exact endOfInput_ne_output _ _ _ h
    | _ => exact onLine_ne_endOfInput _ _ _ _ h.symm

-- ---------------------------------------------------------------------------
-- Messages of all errors
-- ---------------------------------------------------------------------------

namespace Error

variable {d e : Error}

def fault? : Error → Option Fault
  | .eval (.output fault) => some fault
  | _ => none

theorem isSome_line?_of_fault? {e : EvalError} (h : (Error.eval e).fault? = none) :
    e.line?.isSome := by
  cases e with
  | output fault => cases h
  | _ => rfl

theorem message_inj (hd : d.fault? = none) (h : d.message = e.message) : d = e := by
  cases d with
  | lexical d =>
    cases e with
    | lexical e => exact congrArg Error.lexical (LexicalError.message_inj h)
    | grammar e => exact absurd h (d.message_ne_syntax e)
    | eval e => exact absurd h (d.message_ne_eval e)
  | grammar d =>
    cases e with
    | lexical e => exact absurd h.symm (e.message_ne_syntax d)
    | grammar e => exact congrArg Error.grammar (SyntaxError.message_inj h)
    | eval e => exact absurd h (d.message_ne_eval e)
  | eval d =>
    cases e with
    | lexical e => exact absurd h.symm (e.message_ne_eval d)
    | grammar e => exact absurd h.symm (e.message_ne_eval d)
    | eval e => exact congrArg Error.eval (EvalError.message_inj (isSome_line?_of_fault? hd) h)

/-- Two errors other than faults of the sink have the same message only if they are the same,
whatever texts they quote, and none has the message of a fault. Lists of alternatives of any
length, also with repetitions, are worded differently. -/
theorem message_unambiguous :
    (∀ d e : Error, d.fault? = none → e.fault? = none → (d.message = e.message ↔ d = e)) ∧
    (∀ (d : Error) (fault : Fault), d.fault? = none →
      d.message ≠ (Error.eval (.output fault)).message) ∧
    Function.Injective Kind.describeAll := by
  refine ⟨fun d e hd _ => ⟨message_inj hd, congrArg message⟩, fun d fault hd h => ?_,
    Kind.describeAll_injective⟩
  rw [message_inj hd h] at hd
  cases hd

/-- A quoted text that imitates the rest of a message does not make it another one. -/
theorem message_unambiguous_imitated :
    let d : Error := .grammar (.unexpected [.number] "x' (token 1" 2 1)
    let e : Error := .grammar (.unexpected [.number] "x" 1 1)
    (d.fault? = none ∧ e.fault? = none) ∧ d.message ≠ e.message ∧
      d.message ≠ (Error.eval (.output .nothingTaken)).message := by
  intro d e
  refine ⟨⟨rfl, rfl⟩, fun h => ?_, message_unambiguous.2.1 d _ rfl⟩
  have heq : d = e := (message_unambiguous.1 d e rfl rfl).mp h
  simp [d, e] at heq

end Error

end Abacus
