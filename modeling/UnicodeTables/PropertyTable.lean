import UnicodeTables.DataFile

/-! # Ranges by value

A table holds the ranges of each value in the order they came, and the values in code point order. -/

namespace UnicodeTables

/-- Why a series of records could not be gone through. -/
inductive RecordFault
  | fault (fault : Fault)
  /-- A record without a value. -/
  | noValue
deriving DecidableEq, Repr

def Record.value (r : Record) : Except RecordFault Text :=
  match r.value? with
  | some v => .ok v
  | none => .error .noValue

structure PropertyTable where
  entries : List (Text × List CodePointRange)
deriving DecidableEq, Repr

namespace PropertyTable

def empty : PropertyTable := ⟨[]⟩

/-- Puts a range behind those of its value. -/
def insert (value : Text) (range : CodePointRange) :
    List (Text × List CodePointRange) → List (Text × List CodePointRange)
  | [] => [(value, [range])]
  | (v, ranges) :: entries =>
    if v = value then (v, ranges ++ [range]) :: entries
    else if value < v then (value, [range]) :: (v, ranges) :: entries
    else (v, ranges) :: insert value range entries

def push (t : PropertyTable) (value : Text) (range : CodePointRange) : PropertyTable :=
  ⟨insert value range t.entries⟩

def get? (t : PropertyTable) (value : Text) : Option (List CodePointRange) := t.entries.lookup value

def keys (t : PropertyTable) : List Text := t.entries.map Prod.fst

/-- The number of values. -/
def size (t : PropertyTable) : Nat := t.entries.length

def isEmpty (t : PropertyTable) : Bool := t.entries.isEmpty

/-- Pushes the records one by one and looks at none after the first that is a fault or has no value. -/
def pushAll (t : PropertyTable) : List (Except Fault Record) → Except RecordFault PropertyTable
  | [] => .ok t
  | .error f :: _ => .error (.fault f)
  | .ok r :: records => do (t.push (← r.value) r.range).pushAll records

def ofRecords (records : List (Except Fault Record)) : Except RecordFault PropertyTable :=
  empty.pushAll records

end PropertyTable

end UnicodeTables
