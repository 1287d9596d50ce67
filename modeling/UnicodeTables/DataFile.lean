import UnicodeTables.LineReader
import UnicodeTables.Log
import UnicodeTables.Text.Blank

/-! # Data files

Each line of a data file gives one record: a range of code points and then values, with `;` between
the fields. What follows a `#` is a comment, and lines without fields are skipped. A First line and its
Last line give one record together. -/

namespace UnicodeTables

structure Record where
  /-- The line that the record is on; of two lines, the Last line. -/
  line : Nat
  range : CodePointRange
  /-- The fields after the range. -/
  fields : List Text
deriving DecidableEq, Repr

/-- The first field after the range, which is the value of the property in most files. -/
def Record.value? (r : Record) : Option Text := r.fields.head?

/-- A record, and the pair of lines that it was read from if it was a pair. -/
structure Entry where
  record : Record
  closing : Option Closing
deriving DecidableEq, Repr

def Entry.events (e : Entry) : List LogEvent := e.closing.toList.map .closed

/-- What reading the entries logs, up to the fault if there is one. -/
def Run.events (r : Run Entry) : List LogEvent := r.items.flatMap Entry.events

namespace DataFile

/-- What counts in a line: the text before the first `#`, without blanks around it. -/
def content (line : Text) : Text := Text.trim (line.takeWhile (· ≠ '#'))

def fields (line : Text) : List Text := ((content line).splitOn ';').map Text.trim

/-- Reads a line that has the right number of fields. The record of a closed pair has the bare name in
its first field. -/
def readEntry (p : Pairing) (n : Nat) (code value : Text) (values : List Text) :
    Except Fault (Option Entry × Pairing) := do
  let range ← CodePointRange.parse code
  let name := EntryName.parse value
  match p.feed range name n with
  | (.error f, _) => .error f
  | (.ok .opened, p) => .ok (none, p)
  | (.ok (.emit range none), p) => .ok (some ⟨⟨n, range, value :: values⟩, none⟩, p)
  | (.ok (.emit range (some c)), p) => .ok (some ⟨⟨n, range, name.name :: values⟩, some c⟩, p)

def readLine (fieldCount : Nat) (p : Pairing) (n : Nat) (line : Text) :
    Except Fault (Option Entry × Pairing) :=
  if content line = [] then .ok (none, p)
  else
    match fields line with
    | code :: value :: values =>
      if values.length + 2 = fieldCount then readEntry p n code value values
      else .error (.fieldCount fieldCount (values.length + 2))
    | fs => .error (.fieldCount fieldCount fs.length)

/-- Data files with the given number of fields in each line. -/
def format (fieldCount : Nat) : LineFormat Pairing Entry := ⟨.idle, readLine fieldCount, Pairing.finish⟩

/-- A record needs a range and a value, so there is no format with fewer than two fields. -/
def format? (fieldCount : Nat) : Except Fault (LineFormat Pairing Entry) :=
  if fieldCount < 2 then .error (.unsupported "expected field count below 2".toList)
  else .ok (format fieldCount)

/-- Reads all records of the data. -/
def records (fieldCount : Nat) (source : Text) (data : Bytes) : Logged (Except Fault (List Record)) :=
  match format? fieldCount with
  | .error f => ⟨.error f, []⟩
  | .ok fmt =>
    let run := fmt.run source data
    ⟨(run.map Entry.record).toExcept, run.events⟩

end DataFile

end UnicodeTables
