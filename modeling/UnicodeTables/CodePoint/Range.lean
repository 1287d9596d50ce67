import UnicodeTables.CodePoint.Basic

/-! # Ranges of code points

Main statement: a range is valid however it is made, from bounds (`ofBounds_eq_ok_iff`) or from text
(`valid_of_parse`). -/

namespace UnicodeTables

/-- The code points from `first` to `last`, both included. -/
structure CodePointRange where
  first : CodePoint
  last : CodePoint
deriving DecidableEq, Repr

/-- The parts of a text around each `..` in it. These are found from left to right and do not
overlap: in `...` the last dot is text. -/
def Text.splitDots : Text → List Text
  | [] => [[]]
  | '.' :: '.' :: s => [] :: splitDots s
  | c :: s => (splitDots s).modifyHead (c :: ·)

namespace CodePointRange

/-- Not reversed, and within the code points. -/
def Valid (r : CodePointRange) : Prop := r.first ≤ r.last ∧ r.last ≤ CodePoint.max

instance (r : CodePointRange) : Decidable r.Valid := instDecidableAnd

def single (c : CodePoint) : CodePointRange := ⟨c, c⟩

/-- Both bounds in hexadecimal. -/
def bounds (first last : CodePoint) : Text :=
  Numeral.hex first ++ "..".toList ++ Numeral.hex last

def ofBounds (first last : CodePoint) : Except Fault CodePointRange :=
  if first > last ∨ last > CodePoint.max then .error (.invalidRange (bounds first last))
  else .ok ⟨first, last⟩

/-- Reads `X`, short for `X..X`, or `X..Y`. The first part that is no code point is blamed; too many
parts or reversed bounds are the fault of the whole text. -/
def parse (s : Text) : Except Fault CodePointRange :=
  match s.splitDots with
  | [x] => do return single (← CodePoint.parse x)
  | [x, y] => do
    let first ← CodePoint.parse x
    let last ← CodePoint.parse y
    if first > last then .error (.invalidRange s) else return ⟨first, last⟩
  | _ => .error (.invalidRange s)

theorem ofBounds_eq_ok_iff {first last : CodePoint} {r : CodePointRange} :
    ofBounds first last = .ok r ↔ r = ⟨first, last⟩ ∧ r.Valid := by
  rw [ofBounds]
  split
  · rename_i h
    simp only [reduceCtorEq, false_iff, not_and]
    rintro rfl ⟨h₁, h₂⟩
    exact h.elim (Nat.not_lt_of_le h₁) (Nat.not_lt_of_le h₂)
  · rename_i h
    simp only [not_or, Nat.not_lt] at h
    constructor
    · intro he
      cases he
      exact ⟨rfl, h⟩
    · rintro ⟨rfl, _⟩
      rfl

theorem valid_of_parse {s : Text} {r : CodePointRange} (h : parse s = .ok r) : r.Valid := by
  rw [parse] at h
  split at h
  · rename_i x _
    cases hx : CodePoint.parse x with
    | error f => rw [hx] at h; cases h
    | ok c =>
      rw [hx] at h
      cases h
      exact ⟨Nat.le_refl c, CodePoint.le_max_of_parse hx⟩
  · rename_i x y _
    cases hx : CodePoint.parse x with
    | error f => rw [hx] at h; cases h
    | ok first =>
      cases hy : CodePoint.parse y with
      | error f => rw [hx, hy] at h; cases h
      | ok last =>
        rw [hx, hy] at h
        change (if first > last then Except.error _ else Except.ok _) = _ at h
        split at h
        · cases h
        · rename_i hle
          cases h
          exact ⟨Nat.le_of_not_lt hle, CodePoint.le_max_of_parse hy⟩
  · cases h

def isSingle (r : CodePointRange) : Bool := r.first == r.last

/-- The number of code points in the range. -/
def size (r : CodePointRange) : Nat := r.last - r.first + 1

instance : Membership CodePoint CodePointRange := ⟨fun r c => r.first ≤ c ∧ c ≤ r.last⟩

instance (c : CodePoint) (r : CodePointRange) : Decidable (c ∈ r) := instDecidableAnd

/-- The one code point of a single range, else both bounds. -/
def display (r : CodePointRange) : Text :=
  if r.isSingle then Numeral.hex r.first else bounds r.first r.last

/-- By the first code point, then by the last. -/
instance : Ord CodePointRange :=
  ⟨fun a b => (compare a.first b.first).then (compare a.last b.last)⟩

end CodePointRange

end UnicodeTables
