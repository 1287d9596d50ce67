import UnicodeTables.FileTree
import UnicodeTables.LineReader

/-! # Reading files

A file that cannot be opened is blamed at line 0. A directory opens, and is blamed at line 1 when it
is read. -/

namespace UnicodeTables

/-- A file or directory that was opened to be read with a format. -/
structure OpenFile (σ α : Type) where
  source : Text
  node : FileNode
  format : LineFormat σ α

def FileTree.openNode (t : FileTree) (path : Text) : Except Fault FileNode :=
  match t.find path with
  | .ok node => .ok node
  | .error f => .error (.located path 0 (.io f))

namespace OpenFile
variable {σ α : Type}

def run (f : OpenFile σ α) : Run α :=
  match f.node with
  | .file data => f.format.run f.source data
  | .directory => ⟨[], some (.located f.source 1 (.io .isADirectory))⟩

/-- Reads all of a file that may not have opened. -/
def runOpened : Except Fault (OpenFile σ α) → Run α
  | .ok f => f.run
  | .error f => ⟨[], some f⟩

end OpenFile

end UnicodeTables
