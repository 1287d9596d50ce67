import UnicodeTables.Fault

/-! # A tree of files

Paths are relative to the root of the tree, with `/` between the names. Of what lies outside the tree
only the directories above the root are known. -/

namespace UnicodeTables

/-- What a path leads to. -/
inductive FileNode
  | file (data : Bytes)
  | directory
deriving DecidableEq, Repr

/-- The nodes of a tree by their names from the root down. The directories that a node is in need not be
listed. -/
structure FileTree where
  nodes : List (List Text × FileNode)
deriving DecidableEq, Repr

namespace FileTree

def names (path : Text) : List Text := path.splitOn '/'

def up : Text := "..".toList

/-- The node at a place, which is a list of names, with as many `..` before them as the place is above
the root. -/
def node? (t : FileTree) (place : List Text) : Option FileNode :=
  if ∀ name ∈ place, name = up then some .directory
  else
    match t.nodes.lookup place with
    | some node => some node
    | none => if t.nodes.any fun (names, _) => place.isPrefixOf names then some .directory else none

/-- Where a name leads from a place. An empty name and `.` stay there. -/
def step (place : List Text) (name : Text) : List Text :=
  if name = [] ∨ name = ['.'] then place
  else if name = up ∧ ∀ name ∈ place, name = up then up :: place
  else if name = up then place.dropLast
  else place ++ [name]

/-- Adds a file or a directory, with the directories that it is in. -/
def add (t : FileTree) (path : Text) (node : FileNode) : FileTree :=
  ⟨((names path).foldl step [], node) :: t.nodes⟩

/-- Follows names from a place. All but the last node must be directories. -/
def follow (t : FileTree) (place : List Text) : List Text → Except IoFault FileNode
  | [] =>
    match t.node? place with
    | some node => .ok node
    | none => .error .notFound
  | name :: names =>
    match t.node? place with
    | some .directory => t.follow (step place name) names
    | some (.file _) => .error .notADirectory
    | none => .error .notFound

/-- What the path leads to. An empty path leads nowhere. -/
def find (t : FileTree) (path : Text) : Except IoFault FileNode :=
  match path with
  | [] => .error .notFound
  | '/' :: path => t.follow [up] (names path)
  | path => t.follow [] (names path)

/-- A path below a directory. -/
def join (directory path : Text) : Text :=
  if directory = [] ∨ directory.getLast? = some '/' then directory ++ path
  else directory ++ '/' :: path

end FileTree

end UnicodeTables
