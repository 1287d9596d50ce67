import UnicodeTables.Fault

/-! # Code points

Main statement: what is read is at most `CodePoint.max` (`le_max_of_parse`). -/

namespace UnicodeTables

abbrev CodePoint := Nat

namespace CodePoint

/-- The largest code point. -/
def max : CodePoint := 0x10FFFF

/-- Reads four to six hexadecimal digits in either case. -/
def parse? (s : Text) : Option CodePoint :=
  match Numeral.digits? 16 s with
  | none => none
  | some ds =>
    if 4 ≤ ds.length ∧ ds.length ≤ 6 ∧ Numeral.value 16 ds ≤ max then some (Numeral.value 16 ds)
    else none

def parse (s : Text) : Except Fault CodePoint :=
  match parse? s with
  | some c => .ok c
  | none => .error (.invalidCodePoint s)

theorem le_max_of_parse {s : Text} {c : CodePoint} (h : parse s = .ok c) : c ≤ max := by
  rw [parse] at h
  split at h
  · rename_i hc
    cases h
    rw [parse?] at hc
    split at hc
    · cases hc
    · split at hc
      · rename_i hv
        cases hc
        exact hv.2.2
      · cases hc
  · cases h

end CodePoint

end UnicodeTables
