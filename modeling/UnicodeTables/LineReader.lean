import UnicodeTables.Fault
import UnicodeTables.Text.Lines
import UnicodeTables.Text.Utf8

/-! # Reading a format line by line

A format says what one line means in a state that the lines before it left. A reader goes through the
data with a format, looks at no line before it has to, and stops for good at the first fault. Main
statements: reading item by item gives the items of the whole run one after another (`rest_eq_of_item`,
`rest_eq_of_fault`, `rest_eq_of_end`), and what is left is what follows the lines that were read
(`exists_read`). -/

namespace UnicodeTables

structure LineFormat (σ α : Type) where
  initial : σ
  /-- What line `n` means: an item or none, and the state for the next line. -/
  line : σ → Nat → Text → Except Fault (Option α × σ)
  /-- What is wrong with data that ends here, and in which line. -/
  finish : σ → Option (Fault × Nat)

/-- What reading all that is left gives: the items, and the fault that ended it. -/
structure Run (α : Type) where
  items : List α
  fault : Option Fault
deriving DecidableEq, Repr

structure Reader (σ : Type) where
  source : Text
  /-- The number of lines read. -/
  line : Nat
  /-- The lines not read yet. -/
  pending : List Bytes
  /-- None once the reader has stopped. -/
  state : Option σ
deriving DecidableEq, Repr

namespace Run
variable {α β : Type}

/-- All items, if there was no fault. -/
def toExcept (r : Run α) : Except Fault (List α) :=
  match r.fault with
  | none => .ok r.items
  | some f => .error f

/-- The items one by one, then the fault. -/
def results (r : Run α) : List (Except Fault α) :=
  r.items.map .ok ++ r.fault.toList.map .error

def map (f : α → β) (r : Run α) : Run β := ⟨r.items.map f, r.fault⟩

def cons (a : α) (r : Run α) : Run α := ⟨a :: r.items, r.fault⟩

end Run

/-- The bytes not read yet. -/
def Reader.unread {σ : Type} (r : Reader σ) : Bytes := r.pending.flatten

namespace LineFormat
variable {σ α : Type}

/-- Reads one line as it stands in the data. -/
def read (fmt : LineFormat σ α) (s : σ) (n : Nat) (raw : Bytes) : Except Fault (Option α × σ) :=
  match Utf8.decode? raw with
  | none => .error (.io .invalidData)
  | some text => fmt.line s n text.chomp

theorem read_encode (fmt : LineFormat σ α) (s : σ) (n : Nat) (text : Text) :
    fmt.read s n (Utf8.encode text) = fmt.line s n text.chomp := by
  rw [read, Utf8.decode?_encode]

theorem read_of_not_text {raw : Bytes} (h : ∀ text, raw ≠ Utf8.encode text) (fmt : LineFormat σ α) (s : σ)
    (n : Nat) : fmt.read s n raw = .error (.io .invalidData) := by
  rw [read]
  cases hd : Utf8.decode? raw with
  | none => rfl
  | some text => exact absurd (Utf8.decode?_eq_some_iff.1 hd) (h text)

def start (fmt : LineFormat σ α) (source : Text) (data : Bytes) : Reader σ :=
  ⟨source, 0, data.lines, some fmt.initial⟩

/-- Reads on after `n` lines until there is an item, a fault or no line. -/
def advance (fmt : LineFormat σ α) (source : Text) :
    Nat → σ → List Bytes → Option (Except Fault α) × Reader σ
  | n, s, [] =>
    ((fmt.finish s).map fun (f, k) => .error (.located source k f), ⟨source, n, [], none⟩)
  | n, s, raw :: pending =>
    match fmt.read s (n + 1) raw with
    | .error f => (some (.error (.located source (n + 1) f)), ⟨source, n + 1, pending, none⟩)
    | .ok (some a, s) => (some (.ok a), ⟨source, n + 1, pending, some s⟩)
    | .ok (none, s) => advance fmt source (n + 1) s pending

/-- The next item or the fault; none for ever once the reader has stopped. -/
def next (fmt : LineFormat σ α) (r : Reader σ) : Option (Except Fault α) × Reader σ :=
  match r.state with
  | none => (none, r)
  | some s => fmt.advance r.source r.line s r.pending

/-- Reads all lines after the first `n`. -/
def runFrom (fmt : LineFormat σ α) (source : Text) : Nat → σ → List Bytes → Run α
  | _, s, [] => ⟨[], (fmt.finish s).map fun (f, k) => .located source k f⟩
  | n, s, raw :: pending =>
    match fmt.read s (n + 1) raw with
    | .error f => ⟨[], some (.located source (n + 1) f)⟩
    | .ok (some a, s) => (runFrom fmt source (n + 1) s pending).cons a
    | .ok (none, s) => runFrom fmt source (n + 1) s pending

/-- Reads all that is left. -/
def rest (fmt : LineFormat σ α) (r : Reader σ) : Run α :=
  match r.state with
  | none => ⟨[], none⟩
  | some s => fmt.runFrom r.source r.line s r.pending

def run (fmt : LineFormat σ α) (source : Text) (data : Bytes) : Run α :=
  fmt.rest (fmt.start source data)

theorem advance_rest (fmt : LineFormat σ α) (source : Text) (n : Nat) (s : σ) (pending : List Bytes) :
    match fmt.advance source n s pending with
    | (some (.ok a), r) => fmt.runFrom source n s pending = (fmt.rest r).cons a
    | (some (.error f), r) => fmt.runFrom source n s pending = ⟨[], some f⟩ ∧ r.state = none
    | (none, r) => fmt.runFrom source n s pending = ⟨[], none⟩ ∧ r.state = none := by
  induction pending generalizing n s with
  | nil => rw [advance, runFrom]; cases fmt.finish s <;> simp
  | cons raw pending ih =>
    rw [advance, runFrom]
    rcases fmt.read s (n + 1) raw with f | ⟨_ | a, s'⟩
    · simp
    · exact ih (n + 1) s'
    · rfl

theorem rest_eq_of_item {fmt : LineFormat σ α} {r r' : Reader σ} {a : α}
    (h : fmt.next r = (some (.ok a), r')) : fmt.rest r = (fmt.rest r').cons a := by
  rw [next] at h
  split at h
  · cases h
  · rename_i s hs
    have := advance_rest fmt r.source r.line s r.pending
    rw [h] at this
    rw [rest, hs]
    exact this

theorem rest_eq_of_fault {fmt : LineFormat σ α} {r r' : Reader σ} {f : Fault}
    (h : fmt.next r = (some (.error f), r')) : fmt.rest r = ⟨[], some f⟩ ∧ r'.state = none := by
  rw [next] at h
  split at h
  · cases h
  · rename_i s hs
    have := advance_rest fmt r.source r.line s r.pending
    rw [h] at this
    rw [rest, hs]
    exact this

theorem rest_eq_of_end {fmt : LineFormat σ α} {r r' : Reader σ} (h : fmt.next r = (none, r')) :
    fmt.rest r = ⟨[], none⟩ ∧ r'.state = none := by
  rw [next] at h
  split at h
  · rename_i hs
    cases h
    exact ⟨by rw [rest, hs], hs⟩
  · rename_i s hs
    have := advance_rest fmt r.source r.line s r.pending
    rw [h] at this
    rw [rest, hs]
    exact this

theorem advance_read (fmt : LineFormat σ α) (source : Text) (n : Nat) (s : σ) (pending : List Bytes) :
    ∃ read, pending = read ++ (fmt.advance source n s pending).2.pending ∧
      (fmt.advance source n s pending).2.line = n + read.length := by
  induction pending generalizing n s with
  | nil => exact ⟨[], rfl, rfl⟩
  | cons raw pending ih =>
    rw [advance]
    rcases fmt.read s (n + 1) raw with f | ⟨_ | a, s'⟩
    · exact ⟨[raw], rfl, rfl⟩
    · obtain ⟨read, h, hn⟩ := ih (n + 1) s'
      refine ⟨raw :: read, by rw [List.cons_append, ← h], ?_⟩
      rw [List.length_cons, hn]
      omega
    · exact ⟨[raw], rfl, rfl⟩

theorem exists_read (fmt : LineFormat σ α) (r : Reader σ) :
    ∃ read, r.pending = read ++ (fmt.next r).2.pending ∧ (fmt.next r).2.line = r.line + read.length := by
  rw [next]
  split
  · exact ⟨[], rfl, rfl⟩
  · exact advance_read ..

theorem unread_start (fmt : LineFormat σ α) (source : Text) (data : Bytes) :
    (fmt.start source data).unread = data :=
  Bytes.flatten_lines data

end LineFormat

end UnicodeTables
