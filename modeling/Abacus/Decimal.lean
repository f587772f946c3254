/-!
# Decimal numerals

Naturals as decimal digits, most significant first. `digits` writes without
leading zeros; `read?` also takes leading zeros and refuses the empty text and
anything but the ten ASCII digits. Reading what was written gives the number
back (`read?_digits`).
-/

namespace Abacus.Decimal

def isDigit (c : Char) : Bool := '0' ≤ c && c ≤ '9'

def digitChar : Nat → Char
  | 0 => '0' | 1 => '1' | 2 => '2' | 3 => '3' | 4 => '4'
  | 5 => '5' | 6 => '6' | 7 => '7' | 8 => '8' | _ => '9'

def digitValue (c : Char) : Nat := c.toNat - '0'.toNat

def digits (n : Nat) : List Char :=
  if n < 10 then [digitChar n] else digits (n / 10) ++ [digitChar (n % 10)]

def render (n : Nat) : String := String.ofList (digits n)

/-- The number a list of digits stands for, in Horner form. -/
def value (ds : List Char) : Nat := ds.foldl (fun n d => 10 * n + digitValue d) 0

def read? (ds : List Char) : Option Nat :=
  if ds ≠ [] ∧ ds.all isDigit then some (value ds) else none

theorem isDigit_digitChar (n : Nat) : isDigit (digitChar n) = true := by
  unfold digitChar
  split <;> decide

theorem digitValue_digitChar {n : Nat} (h : n < 10) : digitValue (digitChar n) = n := by
  match n, h with
  | 0, _ | 1, _ | 2, _ | 3, _ | 4, _ | 5, _ | 6, _ | 7, _ | 8, _ | 9, _ => rfl

theorem digits_ne_nil (n : Nat) : digits n ≠ [] := by
  rw [digits]
  split <;> simp

theorem all_isDigit_digits (n : Nat) : (digits n).all isDigit = true := by
  fun_induction digits n with
  | case1 n h => simp [isDigit_digitChar]
  | case2 n h ih => simpa [isDigit_digitChar] using ih

@[simp] theorem value_append_singleton (ds : List Char) (d : Char) :
    value (ds ++ [d]) = 10 * value ds + digitValue d := by
  simp [value]

@[simp] theorem value_digits (n : Nat) : value (digits n) = n := by
  fun_induction digits n with
  | case1 n h => simp [value, digitValue_digitChar h]
  | case2 n h ih =>
    rw [value_append_singleton, ih, digitValue_digitChar (Nat.mod_lt n (by decide))]
    omega

@[simp] theorem read?_digits (n : Nat) : read? (digits n) = some n := by
  simp [read?, digits_ne_nil, all_isDigit_digits]

theorem digits_injective {m n : Nat} (h : digits m = digits n) : m = n := by
  rw [← value_digits m, h, value_digits]

end Abacus.Decimal
