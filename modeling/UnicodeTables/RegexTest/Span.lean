import UnicodeTables.Fault
import UnicodeTables.Text.Blank

/-! # Expected submatches

The submatches of a test are written as groups `(start,stop)`, one after another. A group is found by
its `(`, the first `,` after it and the first `)` after that; text between groups is skipped. -/

namespace UnicodeTables

/-- Where a submatch starts and stops. -/
structure Span where
  start : Nat
  stop : Nat
deriving DecidableEq, Repr

namespace Span

/-- What one look at the text finds. -/
inductive Pass
  | done
  /-- No bracket closes the group, and what is left is looked at again. -/
  | retry (rest : Text)
  | group (start stop rest : Text)
deriving DecidableEq, Repr

def pass (s : Text) : Pass :=
  match s.cut '(' with
  | none => .done
  | some (_, inner) =>
    match inner.cut ',' with
    | none => .done
    | some (start, afterComma) =>
      match afterComma.cut ')' with
      | none => .retry inner
      | some (stop, rest) => .group start stop rest

theorem length_lt_of_cut {c : Char} {s a b : Text} (h : s.cut c = some (a, b)) :
    b.length < s.length := by
  rw [(Text.cut_eq_some h).1]
  simp
  omega

theorem length_lt_of_retry {s rest : Text} (h : pass s = .retry rest) : rest.length < s.length := by
  rw [pass] at h
  split at h
  · cases h
  · rename_i h₁
    split at h
    · cases h
    · split at h
      · cases h
        exact length_lt_of_cut h₁
      · cases h

theorem length_lt_of_group {s start stop rest : Text} (h : pass s = .group start stop rest) :
    rest.length < s.length := by
  rw [pass] at h
  split at h
  · cases h
  · rename_i h₁
    split at h
    · cases h
    · rename_i h₂
      split at h
      · cases h
      · rename_i h₃
        cases h
        exact Nat.lt_trans (length_lt_of_cut h₃) (Nat.lt_trans (length_lt_of_cut h₂) (length_lt_of_cut h₁))

/-- The two texts of each group. -/
def groups (s : Text) : List (Text × Text) :=
  match _h : pass s with
  | .done => []
  | .retry rest => groups rest
  | .group start stop rest => (start, stop) :: groups rest
termination_by s.length
decreasing_by
  · exact length_lt_of_retry _h
  · exact length_lt_of_group _h

/-- A group of two question marks took no part in the match; any other has two offsets. -/
def ofGroup? (g : Text × Text) : Option (Option Span) :=
  if g = (['?'], ['?']) then some none
  else do
    let start ← Numeral.unsigned? g.1.trim
    let stop ← Numeral.unsigned? g.2.trim
    return some ⟨start, stop⟩

/-- Reads a list of submatches. One bad group is a fault of the whole text. -/
def parseAll (s : Text) : Except Fault (List (Option Span)) :=
  match (groups s).mapM ofGroup? with
  | some spans => .ok spans
  | none => .error (.invalidTestLine ("invalid submatches ".toList ++ s))

end Span

end UnicodeTables
