import UnicodeTables.Pairing

/-! # What is logged

Events are values: what a function logs is part of its answer, in the order it happened. -/

namespace UnicodeTables

inductive LogEvent
  /-- A pair of lines was closed. -/
  | closed (closing : Closing)
  | collectedRanges (count : Nat) (value path : Text)
  | collectedValues (count : Nat) (path : Text)
  | readTests (count : Nat) (path : Text)
deriving DecidableEq, Repr

inductive LogLevel
  | debug
  | trace
deriving DecidableEq, Repr

namespace LogEvent

def level : LogEvent → LogLevel
  | closed _ => .trace
  | _ => .debug

def message : LogEvent → Text
  | closed c =>
    '<' :: c.opening.name ++ ", First> on line ".toList ++ Numeral.decimal c.opening.line ++
      " closed at ".toList ++ Numeral.hex c.last
  | collectedRanges n value path =>
    "collected ".toList ++ Numeral.decimal n ++ ' ' :: value ++ " ranges from ".toList ++ path
  | collectedValues n path =>
    "collected ".toList ++ Numeral.decimal n ++ " property values from ".toList ++ path
  | readTests n path => "read ".toList ++ Numeral.decimal n ++ " tests from ".toList ++ path

end LogEvent

structure Logged (α : Type) where
  answer : α
  log : List LogEvent
deriving DecidableEq, Repr

/-- An answer after the events before it. Only success is logged. -/
def Logged.conclude {ε α : Type} (log : List LogEvent) (answer : Except ε α) (success : α → LogEvent) :
    Logged (Except ε α) :=
  match answer with
  | .ok a => ⟨.ok a, log ++ [success a]⟩
  | .error e => ⟨.error e, log⟩

/-- What a line logs that turned into this. -/
def Pairing.Step.events : Pairing.Step → List LogEvent
  | .opened => []
  | .emit _ closing => closing.toList.map .closed

end UnicodeTables
