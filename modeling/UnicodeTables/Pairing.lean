import UnicodeTables.CodePoint.Range
import UnicodeTables.EntryName

/-! # First and Last lines

A First line opens a range that the next line has to close. Main statement: a range is pending after a
line exactly if the line opened it, whatever was pending before and whether or not the line was right
(`isPending_feed`). Closing a range does not fail (`feed_pending_of_closes`). -/

namespace UnicodeTables

/-- The First line that waits for its Last line. -/
structure Opening where
  name : Text
  first : CodePoint
  line : Nat
deriving DecidableEq, Repr

/-- A First line and the code point of the Last line that closed it. -/
structure Closing where
  opening : Opening
  last : CodePoint
deriving DecidableEq, Repr

inductive Pairing
  | idle
  | pending (opening : Opening)
deriving DecidableEq, Repr

namespace Pairing

/-- What a line turned into: part of a range, or a whole one. -/
inductive Step
  | opened
  | emit (range : CodePointRange) (closing : Option Closing)
deriving DecidableEq, Repr

def isPending : Pairing → Bool
  | idle => false
  | pending _ => true

/-- A line that may close the range: a Last line of the same name with one code point, which is not
before the first. -/
def Closes (o : Opening) (range : CodePointRange) (name : EntryName) : Prop :=
  name.marker = some .last ∧ name.name = o.name ∧ range.isSingle ∧ o.first ≤ range.first

instance (o : Opening) (range : CodePointRange) (name : EntryName) : Decidable (Closes o range name) :=
  instDecidableAnd

/-- Takes one line, and gives what it turned into and the state after it. -/
def feed (range : CodePointRange) (name : EntryName) (line : Nat) :
    Pairing → Except Fault Step × Pairing
  | idle =>
    match name.marker with
    | none => (.ok (.emit range none), idle)
    | some .first =>
      if range.isSingle then (.ok .opened, pending ⟨name.name, range.first, line⟩)
      else (.error .invalidFirstLine, idle)
    | some .last => (.error .invalidLastLine, idle)
  | pending o =>
    if Closes o range name then
      match CodePointRange.ofBounds o.first range.last with
      | .ok whole => (.ok (.emit whole (some ⟨o, range.last⟩)), idle)
      | .error f => (.error f, idle)
    else (.error .invalidLastLine, idle)

theorem isPending_feed (p : Pairing) (range : CodePointRange) (name : EntryName) (line : Nat) :
    (p.feed range name line).2.isPending ↔ (p.feed range name line).1 = .ok .opened := by
  cases p with
  | idle =>
    rw [feed]
    rcases name.marker with _ | _ | _
    · simp [isPending]
    · dsimp only
      split <;> simp [isPending]
    · simp [isPending]
  | pending o =>
    rw [feed]
    split
    · split <;> simp [isPending]
    · simp [isPending]

/-- A line that did not open a range leaves the machine as it was at the start. -/
theorem feed_eq_idle {p : Pairing} {range : CodePointRange} {name : EntryName} {line : Nat}
    (h : (p.feed range name line).1 ≠ .ok .opened) : (p.feed range name line).2 = idle := by
  have := mt (isPending_feed p range name line).1 h
  cases hp : (p.feed range name line).2 with
  | idle => rfl
  | pending o => rw [hp] at this; exact absurd rfl this

/-- A whole range is valid if its Last line is. -/
theorem valid_of_closes {o : Opening} {range : CodePointRange} {name : EntryName} (hr : range.Valid)
    (h : Closes o range name) : CodePointRange.Valid ⟨o.first, range.last⟩ :=
  ⟨Nat.le_trans h.2.2.2 hr.1, hr.2⟩

/-- So closing a range never fails. -/
theorem feed_pending_of_closes {o : Opening} {range : CodePointRange} {name : EntryName} {line : Nat}
    (hr : range.Valid) (h : Closes o range name) :
    (pending o).feed range name line = (.ok (.emit ⟨o.first, range.last⟩ (some ⟨o, range.last⟩)), idle) := by
  rw [feed, if_pos h, CodePointRange.ofBounds_eq_ok_iff.2 ⟨rfl, valid_of_closes hr h⟩]

/-- At the end nothing may be pending; else the fault is at the First line. -/
def finish : Pairing → Option (Fault × Nat)
  | idle => none
  | pending o => some (.unclosedFirst o.name, o.line)

end Pairing

end UnicodeTables
