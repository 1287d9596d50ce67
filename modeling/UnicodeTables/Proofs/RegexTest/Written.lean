import UnicodeTables.Proofs.RegexTest.Spans
import UnicodeTables.Proofs.RegexTest.Tests

/-! # Writing a file of tests

A test is written on one line, with any number of tabs between its columns, and `SAME` may stand for the
pattern of the test before. However the lines are laid out, reading what was written gives the tests back
(`tests_write`). -/

namespace UnicodeTables

/-- Text that can stand in a column. -/
structure ColumnText (s : Text) : Prop where
  nonempty : s ≠ []
  trimmed : Text.Trimmed s
  tab : '\t' ∉ s
  newline : '\n' ∉ s

instance (s : Text) : Decidable (ColumnText s) :=
  decidable_of_iff (s ≠ [] ∧ Text.Trimmed s ∧ '\t' ∉ s ∧ '\n' ∉ s)
    ⟨fun ⟨h, h', h'', h'''⟩ => ⟨h, h', h'', h'''⟩, fun ⟨h, h', h'', h'''⟩ => ⟨h, h', h'', h'''⟩⟩

namespace RegexTest

/-- A test that can stand on a line that is kept. -/
structure Writable (t : RegexTest) : Prop where
  flags : ColumnText t.flags
  pattern : ColumnText t.pattern
  haystack : ColumnText t.haystack
  extended : 'E' ∈ t.flags
  noComment : t.flags.head? ≠ some '#'
  notSame : t.pattern ≠ same
  submatches : ∀ span ∈ t.submatches, Span.Writable span

instance (t : RegexTest) : Decidable t.Writable :=
  decidable_of_iff (ColumnText t.flags ∧ ColumnText t.pattern ∧ ColumnText t.haystack ∧ 'E' ∈ t.flags ∧
      t.flags.head? ≠ some '#' ∧ t.pattern ≠ same ∧ ∀ span ∈ t.submatches, Span.Writable span)
    ⟨fun ⟨hf, hp, hh, he, hc, hs, hx⟩ => ⟨hf, hp, hh, he, hc, hs, hx⟩,
      fun ⟨hf, hp, hh, he, hc, hs, hx⟩ => ⟨hf, hp, hh, he, hc, hs, hx⟩⟩

/-- How a test is written. -/
structure Layout where
  /-- The numbers of tabs after the flags, the pattern and the haystack, besides the one that is needed. -/
  flags : Nat
  pattern : Nat
  haystack : Nat
  /-- Whether `SAME` stands for the pattern. -/
  abbreviated : Bool
deriving DecidableEq, Repr

def gap (n : Nat) : Text := List.replicate (n + 1) '\t'

def writeSubmatches (spans : List (Option Span)) : Text :=
  if spans = [] then noMatch else Span.writeAll spans

def Layout.writePattern (layout : Layout) (pattern : Text) : Text :=
  if layout.abbreviated then same else pattern

def writeLine (t : RegexTest) (layout : Layout) : Text :=
  t.flags ++ gap layout.flags ++ layout.writePattern t.pattern ++ gap layout.pattern ++ t.haystack ++
    gap layout.haystack ++ writeSubmatches t.submatches

def write (ts : List (RegexTest × Layout)) : Bytes :=
  Utf8.encode ((ts.map fun (t, layout) => writeLine t layout).flatMap (· ++ ['\n']))

/-- `SAME` stands only for the pattern of the test before, which is `previous` for the first of these. -/
def Fits (previous : Option Text) : List (RegexTest × Layout) → Prop
  | [] => True
  | (t, layout) :: ts => (layout.abbreviated → previous = some t.pattern) ∧ Fits (some t.pattern) ts

instance : (previous : Option Text) → (ts : List (RegexTest × Layout)) → Decidable (Fits previous ts)
  | _, [] => isTrue trivial
  | previous, (t, layout) :: ts =>
    have : Decidable (Fits (some t.pattern) ts) := instDecidableFits (some t.pattern) ts
    inferInstanceAs (Decidable ((layout.abbreviated → previous = some t.pattern) ∧ Fits (some t.pattern) ts))

/-- The tests with the lines they are on if they are written from line `k` on. -/
def place (k : Nat) (ts : List RegexTest) : List RegexTest :=
  (ts.zipIdx k).map fun (t, i) => { t with line := i }

variable {s a b : Text} {c : Char} {t : RegexTest} {layout : Layout} {ts : List (RegexTest × Layout)}
  {previous : Option Text} {k n : Nat}

/-! ### Pieces -/

theorem pieces_append_tab (a b : Text) : pieces (a ++ '\t' :: b) = pieces a ++ pieces b := by
  unfold pieces
  rw [List.splitOn_eq_splitOnP, List.splitOn_eq_splitOnP, List.splitOn_eq_splitOnP,
    List.splitOnP_append_cons a b (by simp), List.filter_append]

theorem pieces_tabs_append (n : Nat) (s : Text) : pieces (List.replicate n '\t' ++ s) = pieces s := by
  induction n with
  | zero => rfl
  | succ n ih =>
    rw [List.replicate_succ, List.cons_append, ← ih]
    exact pieces_append_tab [] _

theorem pieces_eq_singleton (ha : a ≠ []) (ht : '\t' ∉ a) : pieces a = [a] := by
  rw [pieces, List.splitOn_eq_singleton ht]
  simp [ha]

/-- A column with tabs after it is one piece. -/
theorem pieces_column_append (ha : a ≠ []) (ht : '\t' ∉ a) (n : Nat) (s : Text) :
    pieces (a ++ gap n ++ s) = a :: pieces s := by
  have hg : a ++ gap n ++ s = a ++ '\t' :: (List.replicate n '\t' ++ s) := by
    simp [gap, List.replicate_succ]
  rw [hg, pieces_append_tab, pieces_eq_singleton ha ht, pieces_tabs_append, List.singleton_append]

theorem columnText_writeSubmatches (spans : List (Option Span)) : ColumnText (writeSubmatches spans) := by
  unfold writeSubmatches
  split
  · decide
  · rename_i h
    have ht : '\t' ∉ Span.writeAll spans := Span.not_mem_writeAll (by simp)
    have hn : '\n' ∉ Span.writeAll spans := Span.not_mem_writeAll (by simp)
    obtain ⟨s, hs⟩ := Span.exists_writeAll_eq h
    rw [hs] at ht hn ⊢
    exact ⟨by simp, Text.trimmed_cons_concat rfl rfl, ht, hn⟩

theorem columnText_writePattern (layout : Layout) (h : ColumnText s) : ColumnText (layout.writePattern s) := by
  unfold Layout.writePattern
  split
  · decide
  · exact h

theorem pieces_writeLine (hw : t.Writable) (layout : Layout) :
    pieces (writeLine t layout) =
      [t.flags, layout.writePattern t.pattern, t.haystack, writeSubmatches t.submatches] := by
  have hp := columnText_writePattern layout hw.pattern
  have hs := columnText_writeSubmatches t.submatches
  have hl : writeLine t layout = t.flags ++ gap layout.flags ++ (layout.writePattern t.pattern ++
      gap layout.pattern ++ (t.haystack ++ gap layout.haystack ++ writeSubmatches t.submatches)) := by
    simp only [writeLine, List.append_assoc]
  rw [hl, pieces_column_append hw.flags.nonempty hw.flags.tab, pieces_column_append hp.nonempty hp.tab,
    pieces_column_append hw.haystack.nonempty hw.haystack.tab, pieces_eq_singleton hs.nonempty hs.tab]

/-! ### Written lines -/

theorem newline_not_mem_writeLine (hw : t.Writable) (layout : Layout) : '\n' ∉ writeLine t layout := by
  have hp := columnText_writePattern layout hw.pattern
  have hs := columnText_writeSubmatches t.submatches
  have hg : ∀ n, '\n' ∉ gap n := by
    intro n h
    exact absurd (List.eq_of_mem_replicate h) (by decide)
  simp only [writeLine, List.mem_append, not_or]
  exact ⟨⟨⟨⟨⟨⟨hw.flags.newline, hg _⟩, hp.newline⟩, hg _⟩, hw.haystack.newline⟩, hg _⟩, hs.newline⟩

/-- A written line is read as it was written. -/
theorem chomp_writeLine (t : RegexTest) (layout : Layout) :
    (writeLine t layout ++ ['\n']).chomp = writeLine t layout := by
  have hs := columnText_writeSubmatches t.submatches
  refine Text.chomp_concat_newline fun h => ?_
  rw [writeLine, List.getLast?_append_of_ne_nil _ hs.nonempty] at h
  have := hs.trimmed.2 '\r' h
  simp [isBlank] at this

theorem effective_writeLine (hw : t.Writable) (layout : Layout) : effective (writeLine t layout) := by
  rw [effective_iff, pieces_writeLine hw]
  refine ⟨?_, by simp⟩
  simp only [writeLine, List.append_assoc]
  rw [List.head?_append_of_ne_nil _ hw.flags.nonempty]
  exact hw.noComment

theorem expects_writeSubmatches {l : TestLine} {spans : List (Option Span)}
    (hl : l.columns.submatches = writeSubmatches spans) (h : ∀ span ∈ spans, Span.Writable span) :
    l.Expects spans := by
  unfold TestLine.Expects
  rw [hl, writeSubmatches]
  by_cases hn : spans = []
  · rw [if_pos hn]
    exact .inl ⟨rfl, hn⟩
  · rw [if_neg hn]
    refine .inr ⟨?_, Span.parseAll_writeAll h⟩
    obtain ⟨s, hs⟩ := Span.exists_writeAll_eq hn
    rw [hs]
    intro hc
    have hh : some '(' = noMatch.head? := congrArg List.head? hc
    exact absurd hh (by decide)

/-- A line that is written is taken, and gives its test. -/
theorem accepts_writeLine (hw : t.Writable) (hf : layout.abbreviated → previous = some t.pattern) (k : Nat) :
    ∃ l, Accepts k (Utf8.encode (writeLine t layout ++ ['\n'])) previous (some l)
      (some { t with line := k }) (some t.pattern) := by
  let l : TestLine :=
    ⟨k, t.flags, layout.writePattern t.pattern, t.haystack, writeSubmatches t.submatches⟩
  have hp := columnText_writePattern layout hw.pattern
  have hs := columnText_writeSubmatches t.submatches
  have hl : l.OnLine ((writeLine t layout ++ ['\n']).chomp, k) := by
    refine ⟨rfl, t.flags, layout.writePattern t.pattern, t.haystack, writeSubmatches t.submatches, [], ?_, ?_⟩
    · rw [chomp_writeLine]
      exact pieces_writeLine hw layout
    · rw [Text.trim_eq_self hw.flags.trimmed, Text.trim_eq_self hp.trimmed,
        Text.trim_eq_self hw.haystack.trimmed, Text.trim_eq_self hs.trimmed]
  have he : effective (writeLine t layout ++ ['\n']).chomp := by
    rw [chomp_writeLine]
    exact effective_writeLine hw layout
  have hr : l.Resolves previous t.pattern := by
    show layout.writePattern t.pattern = same ∧ _ ∨ layout.writePattern t.pattern ≠ same ∧ _
    unfold Layout.writePattern
    by_cases ha : layout.abbreviated
    · rw [if_pos ha]
      exact .inl ⟨rfl, hf ha⟩
    · rw [if_neg ha]
      exact .inr ⟨hw.notSame, if_neg ha |>.symm⟩
  exact ⟨l, .test rfl he hl hr hw.extended
    ⟨rfl, rfl, rfl, rfl, expects_writeSubmatches rfl hw.submatches⟩⟩

/-- Reading goes through the tests one by one. -/
theorem reads_write (hw : ∀ e ∈ ts, e.1.Writable) (hf : Fits previous ts) (n : Nat) :
    ∃ p, format.Reads n previous (ts.map fun e => Utf8.encode (writeLine e.1 e.2 ++ ['\n']))
      (place (n + 1) (ts.map Prod.fst)) p := by
  induction ts generalizing previous n with
  | nil => exact ⟨previous, .nil n previous⟩
  | cons e ts ih =>
    obtain ⟨t, layout⟩ := e
    obtain ⟨ha, hf⟩ := hf
    obtain ⟨l, hl⟩ := accepts_writeLine (hw (t, layout) (by simp)) ha (n + 1)
    obtain ⟨p, hp⟩ := ih (fun e' h' => hw e' (by simp [h'])) hf (n + 1)
    exact ⟨p, .cons hl.read_eq hp⟩

/-- Tests that are written are read again, each on its own line, however the lines are laid out. -/
theorem tests_write (source : Text) (hw : ∀ e ∈ ts, e.1.Writable) (hf : Fits none ts) :
    tests source (write ts) = .ok (place 1 (ts.map Prod.fst)) := by
  have hl : ∀ l ∈ ts.map fun (t, layout) => writeLine t layout, '\n' ∉ l := by
    intro l hl
    obtain ⟨e, he, rfl⟩ := List.mem_map.1 hl
    exact newline_not_mem_writeLine (hw e he) e.2
  obtain ⟨p, hp⟩ := reads_write hw hf 0
  rw [tests_eq_ok_iff_reads, write, Utf8.lines_encode hl, List.map_map]
  exact ⟨p, hp⟩

/-- The second test takes its pattern from the first, and the `SAME` in its haystack is text. -/
theorem tests_write_same :
    let ts : List (RegexTest × Layout) :=
      [(⟨0, ['E'], "a(b)?".toList, "xay".toList, [some ⟨1, 2⟩, none]⟩, ⟨0, 1, 0, false⟩),
        (⟨0, "BE".toList, "a(b)?".toList, "# SAME".toList, []⟩, ⟨1, 0, 0, true⟩)]
    (∀ e ∈ ts, e.1.Writable) ∧ Fits none ts ∧
      write ts = Utf8.encode "E\ta(b)?\t\txay\t(1,2)(?,?)\nBE\t\tSAME\t# SAME\tNOMATCH\n".toList ∧
        tests "t".toList (write ts) =
          .ok [⟨1, ['E'], "a(b)?".toList, "xay".toList, [some ⟨1, 2⟩, none]⟩,
            ⟨2, "BE".toList, "a(b)?".toList, "# SAME".toList, []⟩] := by
  intro ts
  have hw : ∀ e ∈ ts, e.1.Writable := by decide
  have hf : Fits none ts := by decide
  exact ⟨hw, hf, by decide +kernel, tests_write "t".toList hw hf⟩

end RegexTest

end UnicodeTables
