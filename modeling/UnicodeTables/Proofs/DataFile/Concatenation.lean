import UnicodeTables.Proofs.DataFile.Written
import UnicodeTables.Proofs.PropertyTables

/-! # Data files one after another

After lines that are read without a fault and leave no First line open, a data file is read as if it stood
alone, but for the numbers of its lines (`run_append`). A file that fails at one of its lines fails in the
same way whatever comes after it (`run_append_of_fault`). -/

namespace UnicodeTables

def Opening.renumber (g : Nat → Nat) (o : Opening) : Opening := { o with line := g o.line }

def Closing.renumber (g : Nat → Nat) (c : Closing) : Closing := { c with opening := c.opening.renumber g }

def Record.renumber (g : Nat → Nat) (r : Record) : Record := { r with line := g r.line }

def Entry.renumber (g : Nat → Nat) (e : Entry) : Entry :=
  ⟨e.record.renumber g, e.closing.map (Closing.renumber g)⟩

namespace Pairing

def renumber (g : Nat → Nat) : Pairing → Pairing
  | idle => idle
  | pending o => pending (o.renumber g)

def Step.renumber (g : Nat → Nat) : Step → Step
  | opened => opened
  | emit range closing => emit range (closing.map (Closing.renumber g))

variable (g : Nat → Nat) (p : Pairing) (range : CodePointRange) (name : EntryName) (k : Nat)

theorem feed_renumber :
    (p.renumber g).feed range name (g k) =
      ((p.feed range name k).1.map (Step.renumber g), (p.feed range name k).2.renumber g) := by
  cases p with
  | idle =>
    rw [renumber, feed, feed]
    rcases name.marker with _ | _ | _
    · rfl
    · dsimp only
      split <;> rfl
    · rfl
  | pending o =>
    have hc : Closes (o.renumber g) range name ↔ Closes o range name := Iff.rfl
    rw [renumber, feed, feed]
    by_cases h : Closes o range name
    · have ho : (o.renumber g).first = o.first := rfl
      rw [if_pos (hc.2 h), if_pos h, ho]
      cases CodePointRange.ofBounds o.first range.last <;> rfl
    · rw [if_neg (mt hc.1 h), if_neg h]
      rfl

end Pairing

namespace DataFile
variable {n : Nat} {source : Text} {a b : Bytes}

theorem readEntry_renumber (g : Nat → Nat) (p : Pairing) (k : Nat) (code value : Text)
    (values : List Text) :
    readEntry (p.renumber g) (g k) code value values =
      (readEntry p k code value values).map
        (Prod.map (Option.map (Entry.renumber g)) (Pairing.renumber g)) := by
  unfold readEntry
  cases CodePointRange.parse code with
  | error f => rfl
  | ok range =>
    dsimp only [bind, Except.bind]
    rw [Pairing.feed_renumber]
    rcases p.feed range (EntryName.parse value) k with ⟨f | _ | ⟨range, _ | c⟩, p'⟩ <;> rfl

theorem renumbers (n : Nat) (g : Nat → Nat) :
    (format n).Renumbers g (Pairing.renumber g) (Entry.renumber g) := by
  refine ⟨fun p k text => ?_, ?_⟩
  · show readLine n (p.renumber g) (g k) text = (readLine n p k text).map _
    unfold readLine
    split
    · rfl
    · split
      · split
        · exact readEntry_renumber g p k _ _ _
        · rfl
      · rfl
  · rintro (_ | o) <;> rfl

theorem run_append (ha : a = [] ∨ a.getLast? = some Bytes.lineFeed) {items : List Entry}
    (h : (format n).run source a = ⟨items, none⟩) (b : Bytes) :
    (format n).run source (a ++ b) =
      ⟨items ++ ((format n).run source b).items.map (Entry.renumber (· + a.lines.length)),
        ((format n).run source b).fault.map (Fault.renumber (· + a.lines.length))⟩ := by
  change (format n).runFrom source 0 .idle a.lines = _ at h
  show (format n).runFrom source 0 .idle (a ++ b).lines = _
  rcases LineFormat.runFrom_eq_iff.1 h with ⟨p, hr, hf⟩ | ⟨_, _, _, _, _, _, _, _, hf⟩
  · -- a First line that is open would be a fault at the end of `a`
    have hp : p = Pairing.renumber (· + a.lines.length) .idle := by
      cases p with
      | idle => rfl
      | pending o => cases hf
    have hg : ∀ j, (fun k => k + a.lines.length) (0 + 1 + j) = 0 + a.lines.length + 1 + j := by
      intro j
      dsimp only
      omega
    rw [Bytes.lines_append_of_ends ha, hr.runFrom_append, hp,
      LineFormat.runFrom_renumber (renumbers n (· + a.lines.length)) hg]
    rfl
  · cases hf

/-- A fault at a line is met before what comes after it is read. -/
theorem run_append_of_fault (ha : a = [] ∨ a.getLast? = some Bytes.lineFeed) {items : List Entry}
    {f : Fault} (h : (format n).run source a = ⟨items, some f⟩)
    (hu : ∀ name, f.root ≠ .unclosedFirst name) (b : Bytes) :
    (format n).run source (a ++ b) = ⟨items, some f⟩ := by
  change (format n).runFrom source 0 .idle a.lines = _ at h
  show (format n).runFrom source 0 .idle (a ++ b).lines = _
  rcases LineFormat.runFrom_eq_iff.1 h with ⟨p, hr, hf⟩ | ⟨read, raw, left, p, g, hd, hr, hg, hf⟩
  · cases p with
    | idle => cases hf
    | pending o =>
      cases hf
      exact absurd rfl (hu o.name)
  · rw [Bytes.lines_append_of_ends ha, hd, List.append_assoc, List.cons_append, hr.runFrom_eq_of_fault hg]
    exact congrArg (Run.mk items) hf.symm

/-- Every fault of a run has one place. -/
theorem exists_located_of_run (hn : 2 ≤ n) {items : List Entry} {f : Fault}
    (h : (format n).run source a = ⟨items, some f⟩) :
    ∃ line root, f = .located source line root ∧ f.root = root := by
  rcases (run_eq_iff hn).1 h with ⟨_, _, opened, _, _, _, hf⟩ | ⟨_, _, _, _, _, g, _, _, hl, _, hf⟩
  · obtain ⟨o, -, rfl⟩ := Option.map_eq_some_iff.1 hf.symm
    exact ⟨_, _, rfl, rfl⟩
  · cases hf
    exact ⟨_, g, rfl, root_of_lineFault hl⟩

/-! ### Tables -/

/-- The ranges of each value in the data. -/
def table (fieldCount : Nat) (source : Text) (data : Bytes) : Except RecordFault PropertyTable :=
  PropertyTable.ofRecords (((format fieldCount).run source data).map Entry.record).results

theorem rangesOf_renumber (g : Nat → Nat) (v : Text) (rs : List Record) :
    PropertyTable.rangesOf v (rs.map (Record.renumber g)) = PropertyTable.rangesOf v rs := by
  unfold PropertyTable.rangesOf
  rw [List.filter_map, List.map_map]
  rfl

theorem table_eq (hn : 2 ≤ n) {rs : List Record} (h : (records n source a).answer = .ok rs) :
    ∃ t, table n source a = .ok t ∧ ∀ v, t.ranges v = PropertyTable.rangesOf v rs := by
  have hv : ∀ r ∈ rs, r.value? ≠ none := by
    intro r hr
    exact (writable_of_records hn h hr).value?_ne_none hn
  obtain ⟨t, ht, -, hg⟩ := PropertyTable.ofRecords_eq hv
  obtain ⟨items, hr, hi⟩ := (answer_eq_ok_iff hn).1 h
  refine ⟨t, ?_, hg⟩
  rw [table, hr, ← ht, ← hi]
  exact congrArg _ (List.append_nil _)

theorem records_append_ok (hn : 2 ≤ n) (ha : a = [] ∨ a.getLast? = some Bytes.lineFeed)
    {ra rb : List Record} (hra : (records n source a).answer = .ok ra)
    (hrb : (records n source b).answer = .ok rb) :
    (records n source (a ++ b)).answer = .ok (ra ++ rb.map (Record.renumber (· + a.lines.length))) := by
  obtain ⟨ia, hia, rfl⟩ := (answer_eq_ok_iff hn).1 hra
  obtain ⟨ib, hib, rfl⟩ := (answer_eq_ok_iff hn).1 hrb
  have hr := run_append ha hia b
  rw [hib] at hr
  refine (answer_eq_ok_iff hn).2 ⟨_, hr, ?_⟩
  rw [List.map_append, List.map_map, List.map_map]
  rfl

theorem records_append_error (hn : 2 ≤ n) (ha : a = [] ∨ a.getLast? = some Bytes.lineFeed)
    {ra : List Record} {f : Fault} (hra : (records n source a).answer = .ok ra)
    (hf : (records n source b).answer = .error f) :
    ∃ line root, f = .located source line root ∧ f.root = root ∧
      (records n source (a ++ b)).answer = .error (.located source (line + a.lines.length) root) := by
  obtain ⟨ia, hia, -⟩ := (answer_eq_ok_iff hn).1 hra
  obtain ⟨ib, hib⟩ := (answer_eq_error_iff hn).1 hf
  obtain ⟨line, root, rfl, hroot⟩ := exists_located_of_run hn hib
  have hr := run_append ha hia b
  rw [hib] at hr
  exact ⟨line, root, rfl, hroot, (answer_eq_error_iff hn).2 ⟨_, hr⟩⟩

/-- Reading whole lines and then more data gives the records of both, on lines that are numbered on, and
the ranges of both for each value. A fault of the second part is met in its line, numbered on, and a fault
of the first part hides the second, unless it is a First line left open at the end of the first part. -/
theorem records_append (hn : 2 ≤ n) (source : Text) (ha : a = [] ∨ a.getLast? = some Bytes.lineFeed)
    (b : Bytes) :
    (∀ ra, (records n source a).answer = .ok ra →
      (∀ rb, (records n source b).answer = .ok rb →
        (records n source (a ++ b)).answer = .ok (ra ++ rb.map (Record.renumber (· + a.lines.length))) ∧
        ∃ ta tb t, table n source a = .ok ta ∧ table n source b = .ok tb ∧ table n source (a ++ b) = .ok t ∧
          ∀ v, (t.get? v).getD [] = (ta.get? v).getD [] ++ (tb.get? v).getD []) ∧
      ∀ f, (records n source b).answer = .error f →
        ∃ line root, f = .located source line root ∧ f.root = root ∧
          (records n source (a ++ b)).answer = .error (.located source (line + a.lines.length) root)) ∧
    ∀ f, (records n source a).answer = .error f → (∀ name, f.root ≠ .unclosedFirst name) →
      (records n source (a ++ b)).answer = .error f := by
  refine ⟨fun ra hra => ⟨?_, ?_⟩, ?_⟩
  · intro rb hrb
    have hr := records_append_ok hn ha hra hrb
    obtain ⟨ta, hta, hga⟩ := table_eq hn hra
    obtain ⟨tb, htb, hgb⟩ := table_eq hn hrb
    obtain ⟨t, ht, hg⟩ := table_eq hn hr
    refine ⟨hr, ta, tb, t, hta, htb, ht, ?_⟩
    intro v
    show t.ranges v = ta.ranges v ++ tb.ranges v
    rw [hg, hga, hgb, PropertyTable.rangesOf_append, rangesOf_renumber]
  · intro f hf
    exact records_append_error hn ha hra hf
  · intro f hf hu
    obtain ⟨items, h⟩ := (answer_eq_error_iff hn).1 hf
    exact (answer_eq_error_iff hn).2 ⟨items, run_append_of_fault ha h hu b⟩

/-- The second part has one value of the first part and a First line that is left open. -/
theorem records_append_unclosed :
    2 ≤ 2 ∧ (records 2 "t".toList (Utf8.encode "0041;A\n".toList)).answer =
        .ok [⟨1, ⟨0x41, 0x41⟩, ["A".toList]⟩] ∧
      (records 2 "t".toList (Utf8.encode "0042;A\n3400;<X, First>".toList)).answer =
        .error (.located "t".toList 2 (.unclosedFirst "X".toList)) ∧
      (records 2 "t".toList
        (Utf8.encode "0041;A\n".toList ++ Utf8.encode "0042;A\n3400;<X, First>".toList)).answer =
          .error (.located "t".toList 3 (.unclosedFirst "X".toList)) := by
  have hn : 2 ≤ 2 := Nat.le_refl 2
  have ha : (records 2 "t".toList (Utf8.encode "0041;A\n".toList)).answer =
    .ok [⟨1, ⟨0x41, 0x41⟩, ["A".toList]⟩] := rfl
  have hb : (records 2 "t".toList (Utf8.encode "0042;A\n3400;<X, First>".toList)).answer =
    .error (.located "t".toList 2 (.unclosedFirst "X".toList)) := rfl
  obtain ⟨line, root, hf, -, h⟩ :=
    ((records_append hn "t".toList (.inr rfl) _).1 _ ha).2 _ hb
  cases hf
  exact ⟨hn, ha, hb, h⟩

end DataFile

end UnicodeTables
