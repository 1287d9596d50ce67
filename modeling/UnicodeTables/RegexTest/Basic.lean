import UnicodeTables.LineReader
import UnicodeTables.RegexTest.Span

/-! # Conformance tests for regular expressions

A test is a line of four columns with tabs between them: flags, pattern, haystack and expected
submatches. The pattern `SAME` stands for the one before. Only tests for extended regular expressions
are kept, but the others are what `SAME` may refer to. -/

namespace UnicodeTables

structure RegexTest where
  line : Nat
  flags : Text
  pattern : Text
  haystack : Text
  /-- The whole match and each group; empty if nothing matches. -/
  submatches : List (Option Span)
deriving DecidableEq, Repr

namespace RegexTest

def isMatch (t : RegexTest) : Bool := !t.submatches.isEmpty

structure Columns where
  flags : Text
  pattern : Text
  haystack : Text
  submatches : Text
deriving DecidableEq, Repr

/-- The columns of a line that is a test. Between two columns there may be more than one tab. -/
def columns? (line : Text) : Option Columns :=
  if line.head? = some '#' then none
  else
    match (((line.splitOn '\t').filter (· ≠ [])).take 4).map Text.trim with
    | [flags, pattern, haystack, submatches] => some ⟨flags, pattern, haystack, submatches⟩
    | _ => none

/-- The pattern that a column stands for, after the given one. -/
def resolve (previous : Option Text) (column : Text) : Except Fault Text :=
  if column = "SAME".toList then
    match previous with
    | some p => .ok p
    | none => .error (.invalidTestLine "SAME without a previous pattern".toList)
  else .ok column

def expected (column : Text) : Except Fault (List (Option Span)) :=
  if column = "NOMATCH".toList then .ok [] else Span.parseAll column

def readColumns (previous : Option Text) (n : Nat) (c : Columns) :
    Except Fault (Option RegexTest × Option Text) := do
  let pattern ← resolve previous c.pattern
  if 'E' ∈ c.flags then
    let submatches ← expected c.submatches
    return (some ⟨n, c.flags, pattern, c.haystack, submatches⟩, some pattern)
  else return (none, some pattern)

def readLine (previous : Option Text) (n : Nat) (line : Text) :
    Except Fault (Option RegexTest × Option Text) :=
  match columns? line with
  | none => .ok (none, previous)
  | some c => readColumns previous n c

/-- Files of tests. The state is the pattern of the last line that is a test. -/
def format : LineFormat (Option Text) RegexTest := ⟨none, readLine, fun _ => none⟩

/-- Reads all tests of the data. -/
def tests (source : Text) (data : Bytes) : Except Fault (List RegexTest) :=
  (format.run source data).toExcept

end RegexTest

end UnicodeTables
