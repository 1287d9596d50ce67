import UnicodeTables.Text.Basic

/-! # Numerals

Positional numerals in any base up to 16, most significant digit first. Letters stand for the digits
from ten on, in either case. -/

namespace UnicodeTables.Numeral

def digitValue? (c : Char) : Option Nat :=
  if '0' ≤ c ∧ c ≤ '9' then some (c.toNat - '0'.toNat)
  else if 'A' ≤ c ∧ c ≤ 'F' then some (c.toNat - 'A'.toNat + 10)
  else if 'a' ≤ c ∧ c ≤ 'f' then some (c.toNat - 'a'.toNat + 10)
  else none

def digits? (base : Nat) (s : Text) : Option (List Nat) :=
  s.mapM fun c => (digitValue? c).filter (· < base)

/-- The value of a list of digits. -/
def value (base : Nat) (digits : List Nat) : Nat := digits.foldl (fun v d => base * v + d) 0

def decimal (n : Nat) : Text := Nat.toDigits 10 n

/-- Upper-case hexadecimal, at least four digits. -/
def hex (n : Nat) : Text := ((Nat.toDigits 16 n).map Char.toUpper).leftpad 4 '0'

/-- The largest number that `unsigned?` reads. -/
def maxUnsigned : Nat := 0xFFFFFFFFFFFFFFFF

/-- Reads a decimal numeral of one digit or more, which one `+` may stand before. -/
def unsigned? (s : Text) : Option Nat :=
  let s := if s.head? = some '+' then s.tail else s
  if s = [] then none else ((digits? 10 s).map (value 10)).filter (· ≤ maxUnsigned)

end UnicodeTables.Numeral
