import UnicodeTables.RegexTest.Basic

/-! # Lines of a file of tests

An effective line has its columns and resolves its pattern, and becomes a test if it is for extended
regular expressions. `Accepts` says what a line makes of the pattern remembered before it, and `LineFault`
why it cannot be taken. Exactly one of the two holds of every line, and reading the line tells which
(`read_eq_ok_iff`, `read_eq_error_iff`). -/

namespace UnicodeTables

namespace RegexTest

/-- The text for the pattern before. -/
def same : Text := "SAME".toList

/-- The text for no submatches. -/
def noMatch : Text := "NOMATCH".toList

/-- The pieces of a line between tabs that are not empty. -/
def pieces (line : Text) : List Text := (line.splitOn '\t').filter (· ≠ [])

/-- No comment, and long enough for a test. -/
def effective (line : Text) : Bool := line.head? ≠ some '#' && 4 ≤ (pieces line).length

end RegexTest

/-- An effective line. -/
structure TestLine where
  number : Nat
  columns : RegexTest.Columns
deriving DecidableEq, Repr

namespace TestLine
open RegexTest

/-- What the text says, which is the line of the given number. -/
structure OnLine (l : TestLine) (line : Text × Nat) : Prop where
  number : l.number = line.2
  columns : ∃ flags pattern haystack submatches rest,
    pieces line.1 = flags :: pattern :: haystack :: submatches :: rest ∧
      l.columns = ⟨flags.trim, pattern.trim, haystack.trim, submatches.trim⟩

/-- Lines for extended regular expressions are kept. -/
def Kept (l : TestLine) : Prop := 'E' ∈ l.columns.flags

instance (l : TestLine) : Decidable l.Kept := inferInstanceAs (Decidable ('E' ∈ _))

/-- The submatches that a line expects. -/
def Expects (l : TestLine) (submatches : List (Option Span)) : Prop :=
  l.columns.submatches = noMatch ∧ submatches = [] ∨
    l.columns.submatches ≠ noMatch ∧ Span.parseAll l.columns.submatches = .ok submatches

/-- The pattern column stands for `pattern` if `previous` is the pattern before. -/
def Resolves (l : TestLine) (previous : Option Text) (pattern : Text) : Prop :=
  l.columns.pattern = same ∧ previous = some pattern ∨
    l.columns.pattern ≠ same ∧ pattern = l.columns.pattern

/-- The test that a line is if its column stands for `pattern`. -/
structure Gives (l : TestLine) (pattern : Text) (t : RegexTest) : Prop where
  line : t.line = l.number
  flags : t.flags = l.columns.flags
  pattern : t.pattern = pattern
  haystack : t.haystack = l.columns.haystack
  submatches : l.Expects t.submatches

end TestLine

theorem Span.fault_of_parseAll {s : Text} {f : Fault} (h : parseAll s = .error f) :
    ∃ what, f = .invalidTestLine what := by
  rw [parseAll] at h
  split at h
  · cases h
  · cases h
    exact ⟨_, rfl⟩

namespace RegexTest
variable {line : Text} {c : Columns} {k : Nat} {raw : Bytes} {l : TestLine} {previous next : Option Text}
  {test : Option RegexTest} {l? : Option TestLine} {f : Fault}

/-- Line `k` is taken when `previous` is the pattern before it: it may be a test, and leaves a pattern. -/
inductive Accepts (k : Nat) (raw : Bytes) (previous : Option Text) :
    Option TestLine → Option RegexTest → Option Text → Prop
  | skip {text : Text} (hr : raw = Utf8.encode text) (he : effective text.chomp = false) :
      Accepts k raw previous none none previous
  | other {text pattern : Text} {l : TestLine} (hr : raw = Utf8.encode text) (he : effective text.chomp)
      (hl : l.OnLine (text.chomp, k)) (hp : l.Resolves previous pattern) (hk : ¬ l.Kept) :
      Accepts k raw previous (some l) none (some pattern)
  | test {text pattern : Text} {l : TestLine} {t : RegexTest} (hr : raw = Utf8.encode text)
      (he : effective text.chomp) (hl : l.OnLine (text.chomp, k)) (hp : l.Resolves previous pattern)
      (hk : l.Kept) (ht : l.Gives pattern t) : Accepts k raw previous (some l) (some t) (some pattern)

/-- Line `k` cannot be taken when `previous` is the pattern before it. -/
inductive LineFault (k : Nat) (raw : Bytes) (previous : Option Text) : Fault → Prop
  | notText (hr : ∀ text, raw ≠ Utf8.encode text) : LineFault k raw previous (.io .invalidData)
  | same {text : Text} {l : TestLine} (hr : raw = Utf8.encode text) (he : effective text.chomp)
      (hl : l.OnLine (text.chomp, k)) (hp : l.columns.pattern = same) (hn : previous = none) :
      LineFault k raw previous (.invalidTestLine "SAME without a previous pattern".toList)
  | submatches {text pattern : Text} {l : TestLine} {f : Fault} (hr : raw = Utf8.encode text)
      (he : effective text.chomp) (hl : l.OnLine (text.chomp, k)) (hp : l.Resolves previous pattern)
      (hk : l.Kept) (hm : l.columns.submatches ≠ noMatch)
      (hf : Span.parseAll l.columns.submatches = .error f) : LineFault k raw previous f

/-! ### Columns -/

theorem columns?_of_pieces {flags pattern haystack submatches : Text} {rest : List Text}
    (hh : line.head? ≠ some '#')
    (h : pieces line = flags :: pattern :: haystack :: submatches :: rest) :
    columns? line = some ⟨flags.trim, pattern.trim, haystack.trim, submatches.trim⟩ := by
  rw [columns?, if_neg hh, ← pieces, h]
  rfl

theorem effective_iff : effective line ↔ line.head? ≠ some '#' ∧ 4 ≤ (pieces line).length := by
  rw [effective, Bool.and_eq_true, decide_eq_true_eq, decide_eq_true_eq]

theorem columns?_eq_none (h : effective line = false) : columns? line = none := by
  rw [columns?, ← pieces]
  split
  · rfl
  · rename_i hh
    have hl : (pieces line).length < 4 := by
      rw [← Nat.not_le]
      intro hl
      rw [effective_iff.2 ⟨hh, hl⟩] at h
      cases h
    split
    · rename_i hp
      have := congrArg List.length hp
      rw [List.length_map, List.length_take] at this
      simp only [List.length_cons, List.length_nil] at this
      omega
    · rfl

theorem exists_onLine (h : effective line) (k : Nat) : ∃ l : TestLine, l.OnLine (line, k) := by
  obtain ⟨-, hl⟩ := effective_iff.1 h
  match hp : pieces line with
  | [] | [_] | [_, _] | [_, _, _] =>
    rw [hp] at hl
    simp at hl
  | a :: b :: c :: d :: rest =>
    exact ⟨⟨k, a.trim, b.trim, c.trim, d.trim⟩, rfl, a, b, c, d, rest, hp, rfl⟩

theorem columns?_of_onLine (he : effective line) (h : l.OnLine (line, k)) :
    columns? line = some l.columns := by
  obtain ⟨a, b, c, d, rest, hp, hc⟩ := h.columns
  rw [columns?_of_pieces (effective_iff.1 he).1 hp, hc]

/-! ### Reading one line -/

theorem resolve_of_ne {column : Text} (h : column ≠ same) : resolve previous column = .ok column := if_neg h

theorem resolve_same_some (pattern : Text) : resolve (some pattern) same = .ok pattern := rfl

theorem resolve_same_none :
    resolve none same = .error (.invalidTestLine "SAME without a previous pattern".toList) := rfl

theorem resolve_eq_ok_iff {pattern : Text} :
    resolve previous l.columns.pattern = .ok pattern ↔ l.Resolves previous pattern := by
  unfold TestLine.Resolves
  by_cases h : l.columns.pattern = same
  · rw [h]
    cases previous with
    | none => simp [resolve_same_none]
    | some p => simp [resolve_same_some]
  · rw [resolve_of_ne h]
    simp [h, eq_comm]

theorem expected_noMatch : expected noMatch = .ok [] := rfl

theorem expected_of_ne {column : Text} (h : column ≠ noMatch) : expected column = Span.parseAll column :=
  if_neg h

theorem expected_eq_ok_iff {spans : List (Option Span)} :
    expected l.columns.submatches = .ok spans ↔ l.Expects spans := by
  unfold TestLine.Expects
  by_cases h : l.columns.submatches = noMatch
  · rw [h, expected_noMatch]
    simp [eq_comm]
  · rw [expected_of_ne h]
    simp [h]

/-- Only `SAME` without a pattern before stands for nothing. -/
theorem exists_resolves_iff (l : TestLine) (previous : Option Text) :
    (∃ pattern, l.Resolves previous pattern) ↔ (l.columns.pattern = same → previous ≠ none) := by
  constructor
  · rintro ⟨pattern, ⟨-, hq⟩ | ⟨hs, -⟩⟩ h
    · simp [hq]
    · exact absurd h hs
  · intro h
    by_cases hs : l.columns.pattern = same
    · obtain ⟨pattern, hp⟩ := Option.ne_none_iff_exists'.1 (h hs)
      exact ⟨pattern, .inl ⟨hs, hp⟩⟩
    · exact ⟨_, .inr ⟨hs, rfl⟩⟩

theorem exists_expects_iff (l : TestLine) :
    (∃ spans, l.Expects spans) ↔
      (l.columns.submatches ≠ noMatch → ∃ spans, Span.parseAll l.columns.submatches = .ok spans) := by
  constructor
  · rintro ⟨spans, ⟨hm, -⟩ | ⟨-, hs⟩⟩ h
    · exact absurd hm h
    · exact ⟨spans, hs⟩
  · intro h
    by_cases hm : l.columns.submatches = noMatch
    · exact ⟨[], .inl ⟨hm, rfl⟩⟩
    · obtain ⟨spans, hs⟩ := h hm
      exact ⟨spans, .inr ⟨hm, hs⟩⟩

theorem read_encode (previous : Option Text) (k : Nat) (text : Text) :
    format.read previous k (Utf8.encode text) = readLine previous k text.chomp :=
  format.read_encode previous k text

theorem readLine_of_onLine (he : effective line) (hl : l.OnLine (line, k)) :
    readLine previous k line = readColumns previous k l.columns := by
  rw [readLine, columns?_of_onLine he hl]

theorem readColumns_of_other {pattern : Text} (hp : l.Resolves previous pattern) (hk : ¬ l.Kept) :
    readColumns previous k l.columns = .ok (none, some pattern) := by
  rw [readColumns, resolve_eq_ok_iff.2 hp]
  show (if l.Kept then _ else _) = _
  rw [if_neg hk]
  rfl

theorem readColumns_of_kept {pattern : Text} (hp : l.Resolves previous pattern) (hk : l.Kept) :
    readColumns previous k l.columns =
      (expected l.columns.submatches).map fun spans =>
        (some ⟨k, l.columns.flags, pattern, l.columns.haystack, spans⟩, some pattern) := by
  rw [readColumns, resolve_eq_ok_iff.2 hp]
  show (if l.Kept then _ else _) = _
  rw [if_pos hk]
  cases expected l.columns.submatches <;> rfl

theorem Accepts.exists_text (h : Accepts k raw previous l? test next) : ∃ text, raw = Utf8.encode text := by
  cases h with
  | skip hr | other hr | test hr => exact ⟨_, hr⟩

theorem Accepts.read_eq (h : Accepts k raw previous l? test next) :
    format.read previous k raw = .ok (test, next) := by
  cases h with
  | skip hr he => rw [hr, read_encode, readLine, columns?_eq_none he]
  | other hr he hl hp hk => rw [hr, read_encode, readLine_of_onLine he hl, readColumns_of_other hp hk]
  | @test text pattern l t hr he hl hp hk ht =>
    have hk' : l.number = k := hl.number
    obtain ⟨line, flags, pattern', haystack, spans⟩ := t
    obtain ⟨rfl, rfl, rfl, rfl, hs⟩ := ht
    rw [hr, read_encode, readLine_of_onLine he hl, readColumns_of_kept hp hk, expected_eq_ok_iff.2 hs, hk']
    rfl

theorem LineFault.read_eq (h : LineFault k raw previous f) : format.read previous k raw = .error f := by
  cases h with
  | notText hr => exact LineFormat.read_of_not_text hr ..
  | same hr he hl hp hn =>
    rw [hr, read_encode, readLine_of_onLine he hl, readColumns, hp, hn]
    rfl
  | submatches hr he hl hp hk hm hf =>
    rw [hr, read_encode, readLine_of_onLine he hl, readColumns_of_kept hp hk, expected_of_ne hm, hf]
    rfl

/-- A line with columns is a fault only by what these say. -/
theorem accepts_or_lineFault_of_onLine {text : Text} (hr : raw = Utf8.encode text)
    (he : effective text.chomp) (hl : l.OnLine (text.chomp, k)) (previous : Option Text) :
    (∃ l? test next, Accepts k raw previous l? test next) ∨ ∃ f, LineFault k raw previous f := by
  by_cases hp : ∃ pattern, l.Resolves previous pattern
  · obtain ⟨pattern, hp⟩ := hp
    by_cases hk : l.Kept
    · by_cases hs : ∃ spans, l.Expects spans
      · obtain ⟨spans, hs⟩ := hs
        let t : RegexTest := ⟨l.number, l.columns.flags, pattern, l.columns.haystack, spans⟩
        exact .inl ⟨_, _, _, .test (t := t) hr he hl hp hk ⟨rfl, rfl, rfl, rfl, hs⟩⟩
      · rw [exists_expects_iff, Classical.not_imp] at hs
        obtain ⟨hm, hs⟩ := hs
        cases hx : Span.parseAll l.columns.submatches with
        | error f => exact .inr ⟨f, .submatches hr he hl hp hk hm hx⟩
        | ok spans => exact absurd ⟨spans, hx⟩ hs
    · exact .inl ⟨_, _, _, .other hr he hl hp hk⟩
  · rw [exists_resolves_iff, Classical.not_imp, Classical.not_not] at hp
    exact .inr ⟨_, .same hr he hl hp.1 hp.2⟩

/-- Every line is taken or is a fault. -/
theorem accepts_or_lineFault (k : Nat) (raw : Bytes) (previous : Option Text) :
    (∃ l? test next, Accepts k raw previous l? test next) ∨ ∃ f, LineFault k raw previous f := by
  by_cases hr : ∃ text, raw = Utf8.encode text
  · obtain ⟨text, hr⟩ := hr
    by_cases he : effective text.chomp
    · obtain ⟨l, hl⟩ := exists_onLine he k
      exact accepts_or_lineFault_of_onLine hr he hl previous
    · exact .inl ⟨_, _, _, .skip hr (by simpa using he)⟩
  · refine .inr ⟨_, .notText fun text ht => ?_⟩
    exact hr ⟨text, ht⟩

theorem read_eq_ok_iff :
    format.read previous k raw = .ok (test, next) ↔ ∃ l?, Accepts k raw previous l? test next := by
  constructor
  · intro h
    rcases accepts_or_lineFault k raw previous with ⟨l?, test', next', ha⟩ | ⟨f, hf⟩
    · rw [ha.read_eq] at h
      cases h
      exact ⟨l?, ha⟩
    · rw [hf.read_eq] at h
      cases h
  · rintro ⟨l?, ha⟩
    exact ha.read_eq

theorem read_eq_error_iff : format.read previous k raw = .error f ↔ LineFault k raw previous f := by
  constructor
  · intro h
    rcases accepts_or_lineFault k raw previous with ⟨l?, test, next, ha⟩ | ⟨f', hf⟩
    · rw [ha.read_eq] at h
      cases h
    · rw [hf.read_eq] at h
      cases h
      exact hf
  · exact LineFault.read_eq

/-- A line of tests is blamed for not being text or for what its columns say. -/
theorem LineFault.cases_fault (h : LineFault k raw previous f) :
    f = .io .invalidData ∨ ∃ what, f = .invalidTestLine what := by
  cases h with
  | notText _ => exact .inl rfl
  | same _ _ _ _ _ => exact .inr ⟨_, rfl⟩
  | submatches _ _ _ _ _ _ hf => exact .inr (Span.fault_of_parseAll hf)

end RegexTest

end UnicodeTables
