import UnicodeTables.Proofs.Runs

/-! # Reading call by call

A call either stops at a line, with an item or a fault of this line, or takes all lines that are left and
ends (`next_cases`). A call that stops at a line has not looked any further (`Stops.next_eq`), and if what
it gives tells which line that is, so it goes through any number of calls (`Numbered.exists_read`). Main
statement: such a format is read to the byte (`Numbered.readsToLine`). -/

namespace UnicodeTables

namespace Bytes

/-- What comes after the first `n` line feeds, which is nothing if there are fewer. -/
def afterLines : Nat → Bytes → Bytes
  | 0, bs => bs
  | _ + 1, [] => []
  | n + 1, b :: bs => if b = lineFeed then afterLines n bs else afterLines (n + 1) bs

theorem afterLines_eq (n : Nat) (bs : Bytes) : afterLines n bs = ((lines bs).drop n).flatten := by
  induction bs generalizing n with
  | nil => cases n <;> rfl
  | cons b bs ih =>
    cases n with
    | zero => exact (flatten_lines (b :: bs)).symm
    | succ n =>
      rw [afterLines, lines]
      split
      · rw [ih, List.drop_succ_cons]
      · rw [ih]
        cases lines bs <;> simp

end Bytes

namespace LineFormat
variable {σ α : Type} {fmt : LineFormat σ α} {source : Text} {n k : Nat} {s s' : σ} {r : Reader σ}
  {x : Except Fault α}

/-- The reader after `k` calls. -/
def after (fmt : LineFormat σ α) : Nat → Reader σ → Reader σ
  | 0, r => r
  | k + 1, r => fmt.after k (fmt.next r).2

/-- What the call after `k` calls gives. -/
def call (fmt : LineFormat σ α) (k : Nat) (r : Reader σ) : Option (Except Fault α) :=
  (fmt.next (fmt.after k r)).1

theorem call_zero (fmt : LineFormat σ α) (r : Reader σ) : fmt.call 0 r = (fmt.next r).1 := rfl

theorem call_succ (fmt : LineFormat σ α) (k : Nat) (r : Reader σ) :
    fmt.call (k + 1) r = fmt.call k (fmt.next r).2 := rfl

theorem after_add (fmt : LineFormat σ α) (j k : Nat) (r : Reader σ) :
    fmt.after (k + j) r = fmt.after j (fmt.after k r) := by
  induction k generalizing r with
  | zero => rw [Nat.zero_add, after]
  | succ k ih => rw [Nat.add_right_comm, after, after, ih]

theorem call_add (fmt : LineFormat σ α) (j k : Nat) (r : Reader σ) :
    fmt.call (k + j) r = fmt.call j (fmt.after k r) := by
  rw [call, after_add, call]

theorem after_of_stopped (h : r.state = none) (k : Nat) : fmt.after k r = r := by
  have hn : fmt.next r = (none, r) := by
    rw [next, h]
  induction k with
  | zero => rfl
  | succ k ih => rw [after, hn, ih]

theorem call_of_stopped (h : r.state = none) (k : Nat) : fmt.call k r = none := by
  rw [call, after_of_stopped h, next, h]

/-- The calls give the results of reading all that is left, one by one. -/
theorem call_eq_getElem?_results (k : Nat) (r : Reader σ) : fmt.call k r = (fmt.rest r).results[k]? := by
  induction k generalizing r with
  | zero =>
    rw [call_zero]
    rcases h : fmt.next r with ⟨_ | f | a, r'⟩
    · rw [(rest_eq_of_end h).1]
      rfl
    · rw [(rest_eq_of_fault h).1]
      rfl
    · rw [rest_eq_of_item h]
      rfl
  | succ k ih =>
    rw [call_succ]
    rcases h : fmt.next r with ⟨_ | f | a, r'⟩
    · obtain ⟨hr, hs⟩ := rest_eq_of_end h
      rw [hr, call_of_stopped hs]
      rfl
    · obtain ⟨hr, hs⟩ := rest_eq_of_fault h
      rw [hr, call_of_stopped hs]
      rfl
    · rw [rest_eq_of_item h]
      exact ih r'

/-- The calls give the items of reading all that is left, and none but these. -/
theorem exists_call_eq_ok_iff {a : α} : (∃ k, fmt.call k r = some (.ok a)) ↔ a ∈ (fmt.rest r).items := by
  rw [← Run.ok_mem_results_iff, List.mem_iff_getElem?]
  simp only [call_eq_getElem?_results]

theorem mem_rest_of_mem_rest_after {a : α} (h : a ∈ (fmt.rest (fmt.after k r)).items) :
    a ∈ (fmt.rest r).items := by
  obtain ⟨j, hj⟩ := exists_call_eq_ok_iff.2 h
  exact exists_call_eq_ok_iff.1 ⟨k + j, by rw [call_add, hj]⟩

theorem fault_of_call {f : Fault} (h : fmt.call k r = some (.error f)) : (fmt.rest r).fault = some f := by
  rw [call_eq_getElem?_results] at h
  exact Run.error_mem_results_iff.1 (List.mem_of_getElem? h)

theorem call_congr {r r' : Reader σ} (h : fmt.rest r = fmt.rest r') (k : Nat) :
    fmt.call k r = fmt.call k r' := by
  rw [call_eq_getElem?_results, call_eq_getElem?_results, h]

/-- Lines that give nothing are passed over. -/
theorem Reads.advance_append {skipped : List Bytes} {items : List α} (h : Reads fmt n s skipped items s')
    (hi : items = []) (pending : List Bytes) :
    fmt.advance source n s (skipped ++ pending) =
      fmt.advance source (n + skipped.length) s' pending := by
  induction h with
  | nil => rfl
  | @cons n s s' s'' raw raws item items h t ih =>
    obtain ⟨hn, hi⟩ := List.append_eq_nil_iff.1 hi
    obtain rfl : item = none := by simpa using hn
    rw [List.cons_append, advance, h, List.length_cons, Nat.add_comm raws.length, ← Nat.add_assoc]
    exact ih hi

/-- A call reads exactly the lines `read`, gives `x` and leaves a state, or none if `x` is a fault. -/
inductive Stops (fmt : LineFormat σ α) (source : Text) (n : Nat) (s : σ) :
    List Bytes → Except Fault α → Option σ → Prop
  | item {skipped : List Bytes} {raw : Bytes} {s₁ s' : σ} {a : α} (h : Reads fmt n s skipped [] s₁)
      (hr : fmt.read s₁ (n + skipped.length + 1) raw = .ok (some a, s')) :
      Stops fmt source n s (skipped ++ [raw]) (.ok a) (some s')
  | fault {skipped : List Bytes} {raw : Bytes} {s₁ : σ} {f : Fault} (h : Reads fmt n s skipped [] s₁)
      (hr : fmt.read s₁ (n + skipped.length + 1) raw = .error f) :
      Stops fmt source n s (skipped ++ [raw]) (.error (.located source (n + skipped.length + 1) f)) none

theorem Stops.advance_eq {read : List Bytes} {o : Option σ} (h : Stops fmt source n s read x o)
    (left : List Bytes) :
    fmt.advance source n s (read ++ left) = (some x, ⟨source, n + read.length, left, o⟩) := by
  cases h with
  | item h hr =>
    rw [List.append_assoc, h.advance_append rfl, List.singleton_append, advance, hr, List.length_append]
    rfl
  | fault h hr =>
    rw [List.append_assoc, h.advance_append rfl, List.singleton_append, advance, hr, List.length_append]
    rfl

/-- A line that gives nothing may come first. -/
theorem Stops.cons {raw : Bytes} {read : List Bytes} {o : Option σ}
    (hr : fmt.read s (n + 1) raw = .ok (none, s')) (h : Stops fmt source (n + 1) s' read x o) :
    Stops fmt source n s (raw :: read) x o := by
  have hs : Reads fmt n s [raw] [] s' := .cons hr (.nil ..)
  have hl : ∀ skipped : List Bytes, n + 1 + skipped.length = n + (raw :: skipped).length := by
    intro skipped
    rw [List.length_cons]
    omega
  cases h with
  | item h hr' =>
    rw [hl] at hr'
    exact .item (hs.append h) hr'
  | fault h hr' =>
    rw [hl] at hr' ⊢
    exact .fault (hs.append h) hr'

theorem stops_or_reads (fmt : LineFormat σ α) (source : Text) (n : Nat) (s : σ) (pending : List Bytes) :
    (∃ read left x o, pending = read ++ left ∧ Stops fmt source n s read x o) ∨
      ∃ s', Reads fmt n s pending [] s' := by
  induction pending generalizing n s with
  | nil => exact .inr ⟨s, .nil n s⟩
  | cons raw pending ih =>
    rcases hr : fmt.read s (n + 1) raw with f | ⟨_ | a, s'⟩
    · exact .inl ⟨[raw], pending, _, _, rfl, .fault (.nil n s) hr⟩
    · rcases ih (n + 1) s' with ⟨read, left, x, o, rfl, h⟩ | ⟨s'', h⟩
      · exact .inl ⟨raw :: read, left, x, o, rfl, h.cons hr⟩
      · exact .inr ⟨s'', .cons hr h⟩
    · exact .inl ⟨[raw], pending, _, _, rfl, .item (.nil n s) hr⟩

theorem Stops.next_eq {read : List Bytes} {o : Option σ} (hs : r.state = some s)
    (h : Stops fmt r.source r.line s read x o) (left : List Bytes) :
    fmt.next { r with pending := read ++ left } =
      (some x, ⟨r.source, r.line + read.length, left, o⟩) := by
  rw [next]
  dsimp only
  rw [hs]
  exact h.advance_eq left

/-- All that a call can do: nothing once the reader has stopped, stop at a line, or reach the end. -/
theorem next_cases (fmt : LineFormat σ α) (r : Reader σ) :
    (r.state = none ∧ fmt.next r = (none, r)) ∨
      ∃ s, r.state = some s ∧
        ((∃ read left x o, r.pending = read ++ left ∧ Stops fmt r.source r.line s read x o ∧
            fmt.next r = (some x, ⟨r.source, r.line + read.length, left, o⟩)) ∨
          ∃ s', Reads fmt r.line s r.pending [] s' ∧
            fmt.next r = ((fmt.finish s').map fun (f, k) => .error (.located r.source k f),
              ⟨r.source, r.line + r.pending.length, [], none⟩)) := by
  cases hs : r.state with
  | none => exact .inl ⟨rfl, by rw [next, hs]⟩
  | some s =>
    refine .inr ⟨s, rfl, ?_⟩
    rcases stops_or_reads fmt r.source r.line s r.pending with ⟨read, left, x, o, hp, h⟩ | ⟨s', h⟩
    · have hn := h.next_eq hs left
      rw [← hp] at hn
      exact .inl ⟨read, left, x, o, hp, h, hn⟩
    · have ha : fmt.advance r.source r.line s (r.pending ++ []) = _ := h.advance_append rfl []
      rw [List.append_nil] at ha
      exact .inr ⟨s', h, by rw [next, hs]; exact ha⟩

/-! ### Formats whose items tell their lines -/

/-- Items have the number of their line, and only the end of the data blames a First line that is left
open. -/
structure Numbered (fmt : LineFormat σ α) (number : α → Nat) : Prop where
  item : ∀ {s n raw a s'}, fmt.read s n raw = .ok (some a, s') → number a = n
  fault : ∀ {s n raw f}, fmt.read s n raw = .error f → ∀ name, f.root ≠ .unclosedFirst name
  finish : ∀ {s f n}, fmt.finish s = some (f, n) → ∃ name, f.root = .unclosedFirst name

/-- A call gives an item of line `n`, or a fault at this line that is not the one of the end. -/
def AtLine (number : α → Nat) (n : Nat) : Except Fault α → Prop
  | .ok a => number a = n
  | .error f => f.line? = some n ∧ ∀ name, f.root ≠ .unclosedFirst name

/-- Data are read no further than what a call gives makes necessary. -/
structure ReadsToLine (fmt : LineFormat σ α) (number : α → Nat) : Prop where
  /-- A call that stops at a line has read this line and nothing after it. -/
  unread : ∀ source data k x n, fmt.call k (fmt.start source data) = some x → AtLine number n x →
    (fmt.after (k + 1) (fmt.start source data)).unread = data.afterLines n
  /-- A First line is left open only if all is read. -/
  unclosed : ∀ source data k f name, fmt.call k (fmt.start source data) = some (.error f) →
    f.root = .unclosedFirst name → (fmt.after (k + 1) (fmt.start source data)).unread = []
  /-- So is the end reached, if no fault was met before. -/
  ended : ∀ source data k, fmt.call k (fmt.start source data) = none →
    (∀ j < k, ∀ f, fmt.call j (fmt.start source data) ≠ some (.error f)) →
      (fmt.after (k + 1) (fmt.start source data)).unread = []
  /-- What comes after the line does not matter to the calls so far. -/
  same : ∀ source data other k x n, fmt.call k (fmt.start source data) = some x → AtLine number n x →
    other.lines.take n = data.lines.take n →
      ∀ j ≤ k, fmt.call j (fmt.start source other) = fmt.call j (fmt.start source data)

namespace Numbered
variable {number : α → Nat}

theorem atLine_of_stops (hf : Numbered fmt number) {read : List Bytes} {o : Option σ}
    (h : Stops fmt source n s read x o) : AtLine number (n + read.length) x := by
  cases h with
  | item _ hr =>
    rw [List.length_append, List.length_singleton, ← Nat.add_assoc]
    exact hf.item hr
  | fault _ hr =>
    rw [List.length_append, List.length_singleton, ← Nat.add_assoc]
    have hu := hf.fault hr
    exact ⟨rfl, hu⟩

theorem not_atLine_of_finish (hf : Numbered fmt number) {f : Fault} (h : fmt.finish s = some (f, k)) :
    ¬ AtLine number n (.error (.located source k f)) := by
  rintro ⟨-, hu⟩
  obtain ⟨name, hr⟩ := hf.finish h
  exact hu name hr

/-- If call `k` stops at a line, then the calls so far have read the lines up to this one, and give the same
whatever lines are left. -/
theorem exists_read (hf : Numbered fmt number) (h : fmt.call k r = some x) (hx : AtLine number n x) :
    ∃ read left, r.pending = read ++ left ∧ (fmt.after (k + 1) r).pending = left ∧
      n = r.line + read.length ∧
        ∀ left', ∀ j ≤ k, fmt.call j { r with pending := read ++ left' } = fmt.call j r := by
  -- If the first call does not stop at a line, then neither does any after it.
  induction k generalizing r with
  | zero =>
    rw [call_zero] at h
    show ∃ read left, _ ∧ (fmt.next r).2.pending = _ ∧ _
    rcases next_cases fmt r with ⟨-, hn⟩ | ⟨s, hs, ⟨read, left, y, o, hp, hst, hn⟩ | ⟨s', -, hn⟩⟩
    · rw [hn] at h
      cases h
    · rw [hn] at h ⊢
      cases h
      have hl := hf.atLine_of_stops hst
      have hnl : n = r.line + read.length := by
        cases x with
        | ok a => exact hx.symm.trans hl
        | error f => exact Option.some.inj (hx.1.symm.trans hl.1)
      refine ⟨read, left, hp, rfl, hnl, fun left' j hj => ?_⟩
      obtain rfl := Nat.le_zero.1 hj
      rw [call_zero, call_zero, hst.next_eq hs left', hn]
    · rw [hn] at h
      obtain ⟨⟨f, m⟩, hfin, rfl⟩ := Option.map_eq_some_iff.1 h
      exact absurd hx (hf.not_atLine_of_finish hfin)
  | succ k ih =>
    rw [call_succ] at h
    show ∃ read left, _ ∧ (fmt.after (k + 1) (fmt.next r).2).pending = _ ∧ _
    rcases next_cases fmt r with ⟨hs, hn⟩ | ⟨s, hs, ⟨read, left, y, o, hp, hst, hn⟩ | ⟨s', -, hn⟩⟩
    · rw [hn, call_of_stopped hs] at h
      cases h
    · rw [hn] at h ⊢
      obtain ⟨read', left', hp', ha, hl, hsame⟩ := ih h
      dsimp only at hp' hl hsame
      refine ⟨read ++ read', left', ?_, ha, ?_, fun left'' j hj => ?_⟩
      · rw [hp, hp', List.append_assoc]
      · rw [hl, List.length_append, Nat.add_assoc]
      · have hn' := hst.next_eq hs (read' ++ left'')
        rw [← List.append_assoc] at hn'
        cases j with
        | zero => rw [call_zero, call_zero, hn', hn]
        | succ j =>
          rw [call_succ, call_succ, hn', hn]
          exact hsame left'' j (Nat.le_of_succ_le_succ hj)
    · rw [hn, call_of_stopped rfl] at h
      cases h

theorem pending_of_unclosed (hf : Numbered fmt number) {f : Fault} {name : Text}
    (h : fmt.call k r = some (.error f)) (hr : f.root = .unclosedFirst name) :
    (fmt.after (k + 1) r).pending = [] := by
  induction k generalizing r with
  | zero =>
    rw [call_zero] at h
    show (fmt.next r).2.pending = _
    rcases next_cases fmt r with ⟨-, hn⟩ | ⟨s, hs, ⟨read, left, y, o, hp, hst, hn⟩ | ⟨s', -, hn⟩⟩
    · rw [hn] at h
      cases h
    · rw [hn] at h
      cases h
      exact absurd hr ((hf.atLine_of_stops hst).2 name)
    · rw [hn]
  | succ k ih => exact ih h

theorem pending_of_ended {s : σ} (hs : r.state = some s) (h : fmt.call k r = none)
    (hok : ∀ j < k, ∀ f, fmt.call j r ≠ some (.error f)) : (fmt.after (k + 1) r).pending = [] := by
  induction k generalizing r s with
  | zero =>
    rw [call_zero] at h
    show (fmt.next r).2.pending = _
    rcases next_cases fmt r with ⟨hs', -⟩ | ⟨s, hs, ⟨read, left, y, o, hp, hst, hn⟩ | ⟨s', -, hn⟩⟩
    · rw [hs] at hs'
      cases hs'
    · rw [hn] at h
      cases h
    · rw [hn]
  | succ k ih =>
    rw [call_succ] at h
    show (fmt.after (k + 1) (fmt.next r).2).pending = _
    rcases next_cases fmt r with ⟨hs', -⟩ | ⟨s, hs, ⟨read, left, y, o, hp, hst, hn⟩ | ⟨s', -, hn⟩⟩
    · rw [hs] at hs'
      cases hs'
    · rw [hn] at h ⊢
      have hok' : ∀ j < k, ∀ f, fmt.call j (fmt.next r).2 ≠ some (.error f) := by
        intro j hj
        exact hok (j + 1) (Nat.succ_lt_succ hj)
      rw [hn] at hok'
      cases hst with
      | item _ _ => exact ih rfl h hok'
      | fault _ _ =>
        have h₀ := hok 0 (Nat.zero_lt_succ k)
        rw [call_zero, hn] at h₀
        exact absurd rfl (h₀ _)
    · rw [hn, after_of_stopped rfl]

/-- From the start, the number of a line is the number of lines that were read. -/
theorem exists_read_start (hf : Numbered fmt number) {data : Bytes}
    (h : fmt.call k (fmt.start source data) = some x) (hx : AtLine number n x) :
    ∃ read left, data.lines = read ++ left ∧ (fmt.after (k + 1) (fmt.start source data)).pending = left ∧
      n = read.length ∧ ∀ other left', other.lines = read ++ left' →
        ∀ j ≤ k, fmt.call j (fmt.start source other) = fmt.call j (fmt.start source data) := by
  obtain ⟨read, left, hp, ha, hl, hsame⟩ := hf.exists_read h hx
  change n = 0 + read.length at hl
  rw [Nat.zero_add] at hl
  refine ⟨read, left, hp, ha, hl, fun other left' ho j hj => ?_⟩
  rw [← hsame left' j hj, ← ho]
  rfl

theorem readsToLine (hf : Numbered fmt number) : ReadsToLine fmt number := by
  refine ⟨fun source data k x n h hx => ?_, fun source data k f name h hr => ?_,
    fun source data k h hok => ?_, fun source data other k x n h hx ho j hj => ?_⟩
  · obtain ⟨read, left, hp, ha, rfl, -⟩ := hf.exists_read_start h hx
    rw [Reader.unread, ha, Bytes.afterLines_eq, hp, List.drop_left]
  · rw [Reader.unread, hf.pending_of_unclosed h hr, List.flatten_nil]
  · rw [Reader.unread, pending_of_ended rfl h hok, List.flatten_nil]
  · obtain ⟨read, left, hp, -, rfl, hsame⟩ := hf.exists_read_start h hx
    rw [hp, List.take_left] at ho
    have hd : read ++ other.lines.drop read.length = other.lines := by
      conv => rhs; rw [← List.take_append_drop read.length other.lines, ho]
    exact hsame other _ hd.symm j hj

end Numbered

end LineFormat

end UnicodeTables
