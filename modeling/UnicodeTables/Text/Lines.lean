import UnicodeTables.Text.Basic

/-! # Lines

Bytes are cut into lines after each line feed; a last line may lack it. Main statement: the lines put
together are the data (`flatten_lines`). -/

namespace UnicodeTables

namespace Bytes

def lineFeed : UInt8 := 0x0A

/-- The lines of the data, each with the line feed that ends it. -/
def lines : Bytes → List Bytes
  | [] => []
  | b :: bs =>
    if b = lineFeed then [b] :: lines bs
    else
      match lines bs with
      | [] => [[b]]
      | l :: ls => (b :: l) :: ls

theorem flatten_lines (bs : Bytes) : (lines bs).flatten = bs := by
  induction bs with
  | nil => rfl
  | cons b bs ih =>
    rw [lines]
    split
    · simp [ih]
    · split
      · rename_i h
        rw [h] at ih
        simp [← ih]
      · rename_i h
        rw [h] at ih
        simp [← ih]

theorem lines_append (a b : Bytes) : lines (a ++ lineFeed :: b) = lines (a ++ [lineFeed]) ++ lines b := by
  induction a with
  | nil => simp [lines]
  | cons x a ih =>
    simp only [List.cons_append, lines]
    split
    · simp [ih]
    · rw [ih]
      cases h : lines (a ++ [lineFeed]) with
      | nil => simpa [h] using flatten_lines (a ++ [lineFeed])
      | cons l ls => rfl

end Bytes

namespace Text

/-- Takes away the line feed at the end and one carriage return right before it. A carriage return
that no line feed follows stays. -/
def chomp : Text → Text
  | [] => []
  | ['\n'] => []
  | ['\r', '\n'] => []
  | c :: s => c :: chomp s

end Text

end UnicodeTables
