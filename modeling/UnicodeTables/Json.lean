import UnicodeTables.PropertyTable
import UnicodeTables.RegexTest.Basic
import UnicodeTables.Text.Json

/-! # Ranges, tables and tests as JSON -/

namespace UnicodeTables

def CodePointRange.toJson (r : CodePointRange) : Json := .array [.number r.first, .number r.last]

def PropertyTable.toJson (t : PropertyTable) : Json :=
  .object (t.entries.map fun (value, ranges) => (value, .array (ranges.map CodePointRange.toJson)))

def Span.toJson (s : Span) : Json :=
  .object [("start".toList, .number s.start), ("end".toList, .number s.stop)]

def RegexTest.toJson (t : RegexTest) : Json :=
  .object [
    ("line_number".toList, .number t.line),
    ("flags".toList, .string t.flags),
    ("pattern".toList, .string t.pattern),
    ("haystack".toList, .string t.haystack),
    ("submatches".toList, .array (t.submatches.map fun s => (s.map Span.toJson).getD .null))]

end UnicodeTables
