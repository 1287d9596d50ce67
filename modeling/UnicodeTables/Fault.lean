import UnicodeTables.Text.Numeral

/-! # What can be wrong

A fault says what is wrong and nothing about where; `located` adds a source and a line to any fault.
Main statement: places come before the message of a fault and hide nothing of it (`message_locate`,
`root_locate`). -/

namespace UnicodeTables

/-- Why bytes could not be had. -/
inductive IoFault
  | notFound
  | notADirectory
  | isADirectory
  | invalidData
deriving DecidableEq, Repr

def IoFault.message : IoFault → Text
  | notFound => "No such file or directory (os error 2)".toList
  | notADirectory => "Not a directory (os error 20)".toList
  | isADirectory => "Is a directory (os error 21)".toList
  | invalidData => "stream did not contain valid UTF-8".toList

inductive Fault
  | invalidCodePoint (text : Text)
  | invalidRange (text : Text)
  | fieldCount (expected actual : Nat)
  | invalidFirstLine
  | invalidLastLine
  /-- A First line that no Last line follows. -/
  | unclosedFirst (name : Text)
  | invalidTestLine (text : Text)
  | unsupported (what : Text)
  | io (fault : IoFault)
  | located (source : Text) (line : Nat) (fault : Fault)
deriving DecidableEq, Repr

namespace Fault

/-- The text before the message of a fault in line `line` of `source`. -/
def place (source : Text) (line : Nat) : Text :=
  source ++ ':' :: Numeral.decimal line ++ ": ".toList

def message : Fault → Text
  | invalidCodePoint s => "invalid code point ".toList ++ s
  | invalidRange s => "invalid code point range ".toList ++ s
  | fieldCount expected actual =>
    "invalid number of fields ".toList ++ Numeral.decimal actual ++ " (expected ".toList ++
      Numeral.decimal expected ++ [')']
  | invalidFirstLine => "invalid First line".toList
  | invalidLastLine => "invalid Last line".toList
  | unclosedFirst name =>
    '<' :: name ++ ", First> is not closed by a matching Last line".toList
  | invalidTestLine s => "invalid test line: ".toList ++ s
  | unsupported what => what ++ " is not supported".toList
  | io f => f.message
  | located source line f => place source line ++ f.message

/-- The fault without its places. -/
def root : Fault → Fault
  | located _ _ f => f.root
  | f => f

/-- The line of the outermost place. -/
def line? : Fault → Option Nat
  | located _ line _ => some line
  | _ => none

/-- Puts a fault at each of the places, the first of them outermost. -/
def locate (places : List (Text × Nat)) (f : Fault) : Fault :=
  places.foldr (fun p f => located p.1 p.2 f) f

theorem root_locate (places : List (Text × Nat)) (f : Fault) : (locate places f).root = f.root := by
  induction places with
  | nil => rfl
  | cons p places ih => exact ih

theorem message_locate (places : List (Text × Nat)) (f : Fault) :
    (locate places f).message = places.flatMap (fun p => place p.1 p.2) ++ f.message := by
  induction places with
  | nil => rfl
  | cons p places ih =>
    show place p.1 p.2 ++ (locate places f).message = _
    rw [ih, List.flatMap_cons, List.append_assoc]

theorem root_root (f : Fault) : f.root.root = f.root := by
  induction f with
  | located _ _ _ ih => exact ih
  | _ => rfl

end Fault

end UnicodeTables
