import UnicodeTables.OpenFile
import UnicodeTables.PropertyTable

/-! # The Unicode Character Database

Builders that read a property out of a file, or out of the directory with the files of the database. -/

namespace UnicodeTables

def DataFile.openFile (t : FileTree) (path : Text) (fieldCount : Nat) :
    Except Fault (OpenFile Pairing Entry) := do
  let node ← t.openNode path
  let format ← DataFile.format? fieldCount
  return ⟨path, node, format⟩

namespace Database

def emojiData : Text := "emoji/emoji-data.txt".toList

def graphemeBreakProperty : Text := "auxiliary/GraphemeBreakProperty.txt".toList

def wordBreakProperty : Text := "auxiliary/WordBreakProperty.txt".toList

/-- Reads a file of ranges and values. -/
def readPairs (t : FileTree) (path : Text) : Run Entry :=
  OpenFile.runOpened (DataFile.openFile t path 2)

/-- The ranges of the records with the given value. No record after a fault is looked at. -/
def select (value : Text) : List (Except Fault Record) → Except RecordFault (List CodePointRange)
  | [] => .ok []
  | .error f :: _ => .error (.fault f)
  | .ok r :: records => do
    let v ← r.value
    let ranges ← select value records
    return if v = value then r.range :: ranges else ranges

/-- The ranges with the given value, in the order of the file. -/
def collectProperty (t : FileTree) (path value : Text) :
    Logged (Except RecordFault (List CodePointRange)) :=
  let run := readPairs t path
  .conclude run.events (select value (run.map Entry.record).results) fun ranges =>
    .collectedRanges ranges.length value path

/-- All ranges of a file by their values. -/
def propertyTable (t : FileTree) (path : Text) : Logged (Except RecordFault PropertyTable) :=
  let run := readPairs t path
  .conclude run.events (PropertyTable.ofRecords (run.map Entry.record).results) fun table =>
    .collectedValues table.size path

/-- The ranges of the property `Extended_Pictographic`. -/
def extendedPictographic (t : FileTree) (directory : Text) :
    Logged (Except RecordFault (List CodePointRange)) :=
  collectProperty t (FileTree.join directory emojiData) "Extended_Pictographic".toList

/-- The ranges of each value of `Grapheme_Cluster_Break`. -/
def graphemeClusterBreak (t : FileTree) (directory : Text) : Logged (Except RecordFault PropertyTable) :=
  propertyTable t (FileTree.join directory graphemeBreakProperty)

/-- The ranges of each value of `Word_Break`. -/
def wordBreak (t : FileTree) (directory : Text) : Logged (Except RecordFault PropertyTable) :=
  propertyTable t (FileTree.join directory wordBreakProperty)

end Database

end UnicodeTables
