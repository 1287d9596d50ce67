import UnicodeTables.Proofs.DataFile.Concatenation
import UnicodeTables.Proofs.RegexTest.Lines

/-! # Lines that are skipped

A line that gives nothing and leaves the state alone moves what comes after it by one line. What was read
before it has lower numbers and is not moved (`Reads.map_eq_of_fixed`), be it an item, a fault or the First
line in the state. So putting in such a line only moves numbers, wherever it is put (`run_insert`), which holds
of comments and short lines of both formats (`skipped_line_moves`). -/

namespace UnicodeTables

/-- The number of line `k` once a line was put in after the first `m` lines. -/
def moved (m k : Nat) : Nat := if m < k then k + 1 else k

theorem moved_of_lt {m k : Nat} (h : m < k) : moved m k = k + 1 := if_pos h

theorem moved_of_le {m k : Nat} (h : k ≤ m) : moved m k = k := if_neg (Nat.not_lt.2 h)

/-- The same run with its items and the place of its fault numbered by `ψ` and `g`. -/
def Run.renumber {α : Type} (g : Nat → Nat) (ψ : α → α) (r : Run α) : Run α :=
  ⟨r.items.map ψ, r.fault.map (Fault.renumber g)⟩

/-- The same answer for items and a fault that are numbered by `ψ` and `g`. -/
def renumberAnswer {α : Type} (g : Nat → Nat) (ψ : α → α) (answer : Except Fault (List α)) :
    Except Fault (List α) :=
  (answer.map (List.map ψ)).mapError (Fault.renumber g)

theorem Run.toExcept_renumber {α : Type} (g : Nat → Nat) (ψ : α → α) (r : Run α) :
    (r.renumber g ψ).toExcept = renumberAnswer g ψ r.toExcept := by
  obtain ⟨items, fault⟩ := r
  cases fault <;> rfl

theorem Run.renumber_prepend {α : Type} (g : Nat → Nat) (ψ : α → α) (items : List α) (r : Run α) :
    (r.prepend items).renumber g ψ = (r.renumber g ψ).prepend (items.map ψ) := by
  rw [renumber, prepend, prepend, renumber, List.map_append]

namespace LineFormat
variable {σ α : Type} {fmt : LineFormat σ α} {source : Text} {n : Nat} {s s' : σ} {g : Nat → Nat}
  {φ : σ → σ} {ψ : α → α}

/-- If the numbers of these lines stay as they are, then so does all that is read on them. -/
theorem Reads.map_eq_of_fixed (hf : fmt.Renumbers g φ ψ) {raws : List Bytes} {items : List α}
    (h : Reads fmt n s raws items s') (hs : φ s = s) (hg : ∀ k ≤ n + raws.length, g k = k) :
    items.map ψ = items ∧ φ s' = s' := by
  induction h with
  | nil => exact ⟨rfl, hs⟩
  | @cons n s s₁ s' raw raws item items h t ih =>
    have hn : g (n + 1) = n + 1 := by
      refine hg _ ?_
      rw [List.length_cons]
      omega
    have hr := hf.read s (n + 1) raw
    rw [hs, hn, h] at hr
    have hp : (item, s₁) = (item.map ψ, φ s₁) := Except.ok.inj hr
    have hi : item.map ψ = item := (congrArg Prod.fst hp).symm
    have hs₁ : φ s₁ = s₁ := (congrArg Prod.snd hp).symm
    have ht : ∀ k ≤ n + 1 + raws.length, g k = k := by
      intro k hk
      refine hg k ?_
      rw [List.length_cons]
      omega
    obtain ⟨his, hs'⟩ := ih hs₁ ht
    have hl : item.toList.map ψ = item.toList := by
      rw [← Option.toList_map, hi]
    exact ⟨by rw [List.map_append, hl, his], hs'⟩

/-- A line that gives nothing and leaves the state alone moves what comes after it by one line. -/
theorem runFrom_insert {before : List Bytes} (hf : fmt.Renumbers (moved before.length) φ ψ) (hs : φ s = s)
    {raw : Bytes} (hr : ∀ s k, fmt.read s k raw = .ok (none, s)) (after : List Bytes) :
    fmt.runFrom source 0 s (before ++ raw :: after) =
      (fmt.runFrom source 0 s (before ++ after)).renumber (moved before.length) ψ := by
  have hg : ∀ k ≤ before.length, moved before.length k = k := fun k hk => moved_of_le hk
  rcases fmt.exists_reads 0 s before with ⟨items, s', h⟩ | ⟨read, fault, left, items, s', f, rfl, h, hl⟩
  · -- what the lines before leave is kept, and the lines after are read from there one line later
    obtain ⟨hi, hs'⟩ := h.map_eq_of_fixed hf hs (by simpa using hg)
    have hj : ∀ j, moved before.length (0 + before.length + 1 + j) = 0 + before.length + 1 + 1 + j := by
      intro j
      rw [moved_of_lt (by omega)]
      omega
    have ha : fmt.runFrom source _ _ after = _ := runFrom_renumber hf hj s' after
    rw [hs'] at ha
    rw [h.runFrom_append, h.runFrom_append, Run.renumber_prepend, hi, runFrom, hr]
    exact congrArg (Run.prepend items) ha
  · -- neither run comes as far as the new line
    have hlen : read.length + 1 ≤ (read ++ fault :: left).length := by
      rw [List.length_append, List.length_cons]
      omega
    obtain ⟨hi, -⟩ := h.map_eq_of_fixed hf hs fun k hk => hg k (by omega)
    have hk := hg (0 + read.length + 1) (by omega)
    rw [List.append_assoc, List.append_assoc, List.cons_append, List.cons_append,
      h.runFrom_eq_of_fault hl, h.runFrom_eq_of_fault hl, Run.renumber, hi, Option.map_some, Fault.renumber,
      hk]

theorem run_insert (source : Text) {a : Bytes} (ha : a = [] ∨ a.getLast? = some Bytes.lineFeed)
    (hf : fmt.Renumbers (moved a.lines.length) φ ψ) (hs : φ fmt.initial = fmt.initial) {line : Text}
    (hl : '\n' ∉ line) (hr : ∀ s k, fmt.line s k (line ++ ['\n']).chomp = .ok (none, s)) (b : Bytes) :
    fmt.run source (a ++ Utf8.encode (line ++ ['\n']) ++ b) =
      (fmt.run source (a ++ b)).renumber (moved a.lines.length) ψ := by
  have hlines : (a ++ Utf8.encode (line ++ ['\n']) ++ b).lines =
      a.lines ++ Utf8.encode (line ++ ['\n']) :: b.lines := by
    rw [List.append_assoc, Bytes.lines_append_of_ends ha, Utf8.lines_encode_append hl]
  have hread : ∀ s k, fmt.read s k (Utf8.encode (line ++ ['\n'])) = .ok (none, s) := by
    intro s k
    rw [read_encode, hr]
  show fmt.runFrom source 0 fmt.initial (Bytes.lines _) =
    (fmt.runFrom source 0 fmt.initial (Bytes.lines _)).renumber _ _
  rw [hlines, Bytes.lines_append_of_ends ha]
  exact runFrom_insert hf hs hread b.lines

end LineFormat

/-! ### Tests -/

namespace RegexTest

def renumber (g : Nat → Nat) (t : RegexTest) : RegexTest := { t with line := g t.line }

theorem readColumns_renumber (g : Nat → Nat) (previous : Option Text) (k : Nat) (c : Columns) :
    readColumns previous (g k) c =
      (readColumns previous k c).map (Prod.map (Option.map (renumber g)) id) := by
  unfold readColumns
  cases resolve previous c.pattern with
  | error f => rfl
  | ok pattern =>
    dsimp only [bind, Except.bind]
    split
    · cases expected c.submatches <;> rfl
    · rfl

theorem renumbers (g : Nat → Nat) : format.Renumbers g id (renumber g) := by
  refine ⟨fun previous k text => ?_, fun _ => rfl⟩
  show readLine previous (g k) text = (readLine previous k text).map _
  unfold readLine
  split
  · rfl
  · exact readColumns_renumber g previous k _

end RegexTest

/-! ### Both formats -/

namespace DataFile
variable {a b : Bytes} {line : Text} {n : Nat} {source : Text} {g : Nat → Nat}

theorem readLine_of_skipped (hs : significant line = false) (p : Pairing) (k : Nat) :
    readLine n p k (line ++ ['\n']).chomp = .ok (none, p) := by
  refine readLine_of_not_significant (content_eq_nil_iff.1 ?_)
  rw [content_chomp, content_append_newline, content_eq_nil_iff, hs]

theorem map_record_renumber (g : Nat → Nat) (r : Run Entry) :
    (r.renumber g (Entry.renumber g)).map Entry.record =
      (r.map Entry.record).renumber g (Record.renumber g) := by
  rw [Run.map, Run.renumber, Run.map, Run.renumber, List.map_map, List.map_map]
  rfl

/-- The records are numbered as the run is; a format without records gives none for any data. -/
theorem answer_renumber
    (h : (format n).run source b = ((format n).run source a).renumber g (Entry.renumber g)) :
    (records n source b).answer = renumberAnswer g (Record.renumber g) (records n source a).answer := by
  rcases Nat.lt_or_ge n 2 with hn | hn
  · rw [records_of_lt hn, records_of_lt hn]
    rfl
  · rw [records_eq hn, records_eq hn, h, map_record_renumber, Run.toExcept_renumber]

end DataFile

theorem RegexTest.readLine_of_skipped {line : Text} (he : effective line = false) (previous : Option Text)
    (k : Nat) : readLine previous k line = .ok (none, previous) := by
  rw [readLine, columns?_eq_none he]

section
variable {a : Bytes} {line : Text}

/-- A line that is skipped can be put in before any line, or at the end, and only moves the numbers of the
lines from there on: in the items, and in the fault, which may be that of an earlier line. -/
theorem skipped_line_moves (source : Text) (ha : a = [] ∨ a.getLast? = some Bytes.lineFeed)
    (hl : '\n' ∉ line) (b : Bytes) :
    (DataFile.significant line = false → ∀ n,
      (DataFile.format n).run source (a ++ Utf8.encode (line ++ ['\n']) ++ b) =
        ((DataFile.format n).run source (a ++ b)).renumber (moved a.lines.length)
          (Entry.renumber (moved a.lines.length)) ∧
      (DataFile.records n source (a ++ Utf8.encode (line ++ ['\n']) ++ b)).answer =
        renumberAnswer (moved a.lines.length) (Record.renumber (moved a.lines.length))
          (DataFile.records n source (a ++ b)).answer) ∧
    (RegexTest.effective (line ++ ['\n']).chomp = false →
      RegexTest.format.run source (a ++ Utf8.encode (line ++ ['\n']) ++ b) =
        (RegexTest.format.run source (a ++ b)).renumber (moved a.lines.length)
          (RegexTest.renumber (moved a.lines.length)) ∧
      RegexTest.tests source (a ++ Utf8.encode (line ++ ['\n']) ++ b) =
        renumberAnswer (moved a.lines.length) (RegexTest.renumber (moved a.lines.length))
          (RegexTest.tests source (a ++ b))) := by
  refine ⟨fun hs n => ?_, fun he => ?_⟩
  · have hr := LineFormat.run_insert source ha (DataFile.renumbers n _) rfl hl
      (fun p k => DataFile.readLine_of_skipped hs p k) b
    exact ⟨hr, DataFile.answer_renumber hr⟩
  · have hr := LineFormat.run_insert source ha (RegexTest.renumbers _) rfl hl
      (fun p k => RegexTest.readLine_of_skipped he p k) b
    refine ⟨hr, ?_⟩
    rw [RegexTest.tests, RegexTest.tests, hr, Run.toExcept_renumber]

end

/-- A comment is put in between a First line and its Last line, and between a pattern and its `SAME`. -/
theorem comment_moves_last_and_same :
    '\n' ∉ "# c".toList ∧ DataFile.significant "# c".toList = false ∧
      RegexTest.effective (Text.chomp ("# c".toList ++ ['\n'])) = false ∧
      (DataFile.records 2 "t".toList (Utf8.encode "3400;<X, First>\n".toList ++
        Utf8.encode ("# c".toList ++ ['\n']) ++ Utf8.encode "4DBF;<X, Last>".toList)).answer =
          .ok [⟨3, ⟨0x3400, 0x4DBF⟩, ["X".toList]⟩] ∧
      RegexTest.tests "t".toList (Utf8.encode "E\ta*\ta\t(0,1)\n".toList ++
        Utf8.encode ("# c".toList ++ ['\n']) ++ Utf8.encode "E\tSAME\tb\tNOMATCH".toList) =
          .ok [⟨1, "E".toList, "a*".toList, "a".toList, [some ⟨0, 1⟩]⟩,
            ⟨3, "E".toList, "a*".toList, "b".toList, []⟩] := by
  have hl : '\n' ∉ "# c".toList := by decide
  have hs : DataFile.significant "# c".toList = false := rfl
  have he : RegexTest.effective (Text.chomp ("# c".toList ++ ['\n'])) = false := rfl
  have hd := (skipped_line_moves (a := Utf8.encode "3400;<X, First>\n".toList) "t".toList (.inr rfl) hl
    (Utf8.encode "4DBF;<X, Last>".toList)).1 hs 2
  have ht := (skipped_line_moves (a := Utf8.encode "E\ta*\ta\t(0,1)\n".toList) "t".toList (.inr rfl) hl
    (Utf8.encode "E\tSAME\tb\tNOMATCH".toList)).2 he
  exact ⟨hl, hs, he, hd.2.trans rfl, ht.2.trans (by decide +kernel)⟩

end UnicodeTables
