import UnicodeTables.Log
import UnicodeTables.OpenFile
import UnicodeTables.RegexTest.Basic

/-! # Files of conformance tests -/

namespace UnicodeTables.RegexTest

def openFile (t : FileTree) (path : Text) : Except Fault (OpenFile (Option Text) RegexTest) := do
  let node ← t.openNode path
  return ⟨path, node, format⟩

def readTests (t : FileTree) (path : Text) : Logged (Except Fault (List RegexTest)) :=
  .conclude [] (OpenFile.runOpened (openFile t path)).toExcept fun tests =>
    .readTests tests.length path

end UnicodeTables.RegexTest
