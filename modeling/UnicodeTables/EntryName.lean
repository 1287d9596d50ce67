import UnicodeTables.Text.Basic

/-! # Names of entries

Where a large range is given by two lines, their names are `<NAME, First>` and `<NAME, Last>`. Only the
beginning of the text has to be of that form, and of two marks the later one counts. -/

namespace UnicodeTables

/-- Which end of a range of two lines an entry stands for. -/
inductive Marker
  | first
  | last
deriving DecidableEq, Repr

structure EntryName where
  name : Text
  marker : Option Marker
deriving DecidableEq, Repr

/-- What stands between the name and the end of the mark. -/
def Marker.mark : Marker → Text
  | first => ", First>".toList
  | last => ", Last>".toList

/-- The marker whose mark the text begins with. -/
def Marker.atStart? (s : Text) : Option Marker :=
  if first.mark.isPrefixOf s then some first
  else if last.mark.isPrefixOf s then some last
  else none

namespace EntryName

/-- The text before the last mark in `s`, with its marker. -/
def beforeLastMark? : Text → Option (Text × Marker)
  | [] => none
  | c :: s =>
    match beforeLastMark? s with
    | some (name, m) => some (c :: name, m)
    | none => (Marker.atStart? (c :: s)).map ([], ·)

def parse (s : Text) : EntryName :=
  match s with
  | '<' :: rest =>
    match beforeLastMark? rest with
    | some (name, m) => ⟨name, some m⟩
    | none => ⟨s, none⟩
  | _ => ⟨s, none⟩

/-- The marked form of a name. -/
def write (name : Text) (m : Marker) : Text := '<' :: name ++ m.mark

end EntryName

end UnicodeTables
