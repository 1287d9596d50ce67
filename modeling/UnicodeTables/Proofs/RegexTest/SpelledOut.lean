import UnicodeTables.Proofs.RegexTest.PatternColumn
import UnicodeTables.Proofs.Text.IllFormed

/-! # Writing patterns out instead of `SAME`

`SAME` is short for the pattern column of the nearest effective line that has a pattern of its own
(`Nearest`). `SpelledOut earlier lines lines'`: after the lines `earlier`, some of the lines have that
column written out. The two readers remember the same pattern after every line (`Remembers.concat`), so
they give the same tests or the same fault (`tests_spelledOut`). -/

namespace UnicodeTables.RegexTest
variable {line line' before column after p : Text} {earlier lines lines' : List Text}
  {previous next : Option Text} {test : Option RegexTest} {data : Bytes} {source : Text} {k n : Nat}

/-- The pattern column of the last effective line that has a pattern of its own. -/
inductive Nearest (earlier : List Text) : Text → Prop
  | mk {before between : List Text} {m left column right : Text} (he : earlier = before ++ m :: between)
      (hm : effective m.chomp) (hp : PatternAt m left column right) (hs : column.trim ≠ same)
      (hb : ∀ b ∈ between, effective b.chomp → Abbreviates b) : Nearest earlier column

/-- The line after `earlier` with the pattern in place of `SAME`. -/
inductive SpellsOut (earlier : List Text) (line : Text) : Text → Prop
  | mk {before column after p : Text} (he : effective line.chomp) (hl : PatternAt line before column after)
      (hs : column.trim = same) (hp : Nearest earlier p) :
      SpellsOut earlier line (before ++ '\t' :: (p ++ '\t' :: after))

/-- Any of the lines may be spelled out, and any may stay. -/
inductive SpelledOut : List Text → List Text → List Text → Prop
  | nil (earlier : List Text) : SpelledOut earlier [] []
  | kept {earlier lines lines' : List Text} (line : Text) (h : SpelledOut (earlier ++ [line]) lines lines') :
      SpelledOut earlier (line :: lines) (line :: lines')
  | spelled {earlier lines lines' : List Text} {line line' : Text} (hl : SpellsOut earlier line line')
      (h : SpelledOut (earlier ++ [line]) lines lines') : SpelledOut earlier (line :: lines) (line' :: lines')

/-- What is wrong with a `SAME` that stands for nothing. -/
def withoutPattern : Fault := .invalidTestLine "SAME without a previous pattern".toList

/-! ### The nearest pattern -/

/-- One more line hides the patterns before it, unless it has none of its own. -/
theorem nearest_concat_iff :
    Nearest (earlier ++ [line]) p ↔
      (effective line.chomp ∧ p.trim ≠ same ∧ ∃ before after, PatternAt line before p after) ∨
        (effective line.chomp → Abbreviates line) ∧ Nearest earlier p := by
  constructor
  · rintro ⟨he, hm, hp, hs, hb⟩
    rcases concat_eq_append_cons_iff.1 he with ⟨-, -, rfl⟩ | ⟨between, rfl, rfl⟩
    · exact .inl ⟨hm, hs, _, _, hp⟩
    · exact .inr ⟨hb line (by simp), rfl, hm, hp, hs, fun b h => hb b (by simp [h])⟩
  · rintro (⟨hm, hs, before, after, hp⟩ | ⟨hl, rfl, hm, hp, hs, hb⟩)
    · exact ⟨rfl, hm, hp, hs, by simp⟩
    · refine ⟨by rw [List.append_assoc, List.cons_append], hm, hp, hs, fun b h => ?_⟩
      rcases List.mem_append.1 h with h | h
      · exact hb b h
      · rw [List.mem_singleton.1 h]
        exact hl

theorem exists_nearest (h : ∃ m ∈ earlier, effective m.chomp ∧ ¬ Abbreviates m) : ∃ p, Nearest earlier p := by
  induction earlier using List.reverseRecOn with
  | nil => simp at h
  | append_singleton earlier line ih =>
    by_cases hl : effective line.chomp → Abbreviates line
    · obtain ⟨m, hm, he, hn⟩ := h
      rcases List.mem_append.1 hm with hm | hm
      · obtain ⟨p, hp⟩ := ih ⟨m, hm, he, hn⟩
        exact ⟨p, nearest_concat_iff.2 (.inr ⟨hl, hp⟩)⟩
      · rw [List.mem_singleton.1 hm] at he hn
        exact absurd (hl he) hn
    · obtain ⟨he, hn⟩ := Classical.not_imp.1 hl
      obtain ⟨before, column, after, hp⟩ := exists_patternAt he
      refine ⟨column, nearest_concat_iff.2 (.inl ⟨he, fun hs => ?_, before, after, hp⟩)⟩
      exact hn ((abbreviates_iff hp).2 ⟨he, hs⟩)

theorem Nearest.trim_ne (h : Nearest earlier p) : p.trim ≠ same := by
  cases h with
  | mk _ _ _ hs _ => exact hs

theorem Nearest.patternAt (hp : Nearest earlier p) (h : PatternAt line before column after) :
    PatternAt (before ++ '\t' :: (p ++ '\t' :: after)) before p after := by
  obtain ⟨-, -, hp, -, -⟩ := hp
  exact ⟨rfl, h.before, hp.nonempty, hp.tab⟩

/-- The reader has the nearest pattern, if there is one. -/
def Remembers (earlier : List Text) (previous : Option Text) : Prop :=
  ∀ p, Nearest earlier p → previous = some p.trim

theorem remembers_nil (previous : Option Text) : Remembers [] previous := by
  rintro p ⟨he, -⟩
  simp at he

theorem exists_resolve_of_readColumns {c : Columns} (h : readColumns previous k c = .ok (test, next)) :
    ∃ q, resolve previous c.pattern = .ok q ∧ next = some q := by
  rw [readColumns] at h
  cases hq : resolve previous c.pattern with
  | error f =>
    rw [hq] at h
    cases h
  | ok q =>
    rw [hq] at h
    refine ⟨q, rfl, ?_⟩
    change (if 'E' ∈ c.flags then (expected c.submatches >>= _) else _) = _ at h
    split at h
    · cases hx : expected c.submatches with
      | error f =>
        rw [hx] at h
        cases h
      | ok spans =>
        rw [hx] at h
        cases h
        rfl
    · cases h
      rfl

/-- What is remembered after one more line. -/
theorem Remembers.concat (h : Remembers earlier previous)
    (hr : format.read previous k (Utf8.encode line) = .ok (test, next)) :
    Remembers (earlier ++ [line]) next := by
  rw [read_encode, readLine] at hr
  intro p hp
  by_cases he : effective line.chomp
  · obtain ⟨before, column, after, hl⟩ := exists_patternAt he
    obtain ⟨c, hc, hcp⟩ := hl.columns he
    rw [hc] at hr
    obtain ⟨q, hq, rfl⟩ := exists_resolve_of_readColumns hr
    rw [hcp] at hq
    rcases nearest_concat_iff.1 hp with ⟨-, hs, before', after', hl'⟩ | ⟨ha, hp⟩
    · rw [hl.unique hl', resolve_of_ne hs] at hq
      cases hq
      rfl
    · rw [((abbreviates_iff hl).1 (ha he)).2, h p hp, resolve_same_some] at hq
      cases hq
      rfl
  · rw [columns?_eq_none (by simpa using he)] at hr
    cases hr
    rcases nearest_concat_iff.1 hp with ⟨hl, -⟩ | ⟨-, hp⟩
    · exact absurd hl he
    · exact h p hp

/-! ### Reading what is spelled out -/

theorem readColumns_same {q : Text} (hq : q ≠ same) (k : Nat) (flags haystack submatches : Text) :
    readColumns (some q) k ⟨flags, same, haystack, submatches⟩ =
      readColumns (some q) k ⟨flags, q, haystack, submatches⟩ := by
  rw [readColumns, readColumns, resolve_same_some, resolve_of_ne hq]

theorem SpellsOut.read_eq (h : SpellsOut earlier line line') (hr : Remembers earlier previous) (k : Nat) :
    format.read previous k (Utf8.encode line) = format.read previous k (Utf8.encode line') := by
  obtain @⟨before, column, after, p, he, hl, hs, hp⟩ := h
  obtain ⟨flags, haystack, submatches, hc⟩ := hl.exists_columns he
  rw [read_encode, read_encode, readLine, readLine, hc hl, hc (hp.patternAt hl), hs, hr p hp]
  exact readColumns_same hp.trim_ne k flags haystack submatches

theorem SpelledOut.runFrom_eq (h : SpelledOut earlier lines lines') (hr : Remembers earlier previous) (n : Nat) :
    format.runFrom source n previous (lines.map Utf8.encode) =
      format.runFrom source n previous (lines'.map Utf8.encode) := by
  induction h generalizing n previous with
  | nil => rfl
  | kept line h ih => exact LineFormat.runFrom_cons_eq rfl fun _ _ hx => ih (hr.concat hx) (n + 1)
  | spelled hl h ih =>
    exact LineFormat.runFrom_cons_eq (hl.read_eq hr (n + 1)) fun _ _ hx => ih (hr.concat hx) (n + 1)

theorem SpelledOut.eq_nil (h : SpelledOut earlier lines lines') (hn : lines.map Utf8.encode = []) :
    lines'.map Utf8.encode = [] := by
  obtain rfl := List.map_eq_nil_iff.1 hn
  cases h
  rfl

/-- The new lines are what the new data are cut into. -/
theorem SpelledOut.laid (h : SpelledOut earlier lines lines')
    (hd : ∀ m ∈ earlier ++ lines, Utf8.encode m ∈ data.lines) (hl : Bytes.Laid (lines.map Utf8.encode)) :
    Bytes.Laid (lines'.map Utf8.encode) := by
  induction h with
  | nil => exact hl
  | @kept earlier lines lines' line h ih =>
    rw [← List.append_cons] at ih
    have ht := ih hd hl.tail
    exact hl.replace (a := []) (d := []) hl.head_ne_nil List.not_mem_nil h.eq_nil ht
  | @spelled earlier lines lines' line line' hl' h ih =>
    rw [← List.append_cons] at ih
    have ht := ih hd hl.tail
    obtain @⟨before, column, after, p, he, hl', hs, @⟨_, _, m, _, _, _, rfl, _, hp, _, _⟩⟩ := hl'
    have hb := hl'.newline_not_mem (hd line (by simp))
    have hc := hp.newline_not_mem (hd m (by simp))
    have hsplit : ∀ c, Utf8.encode (before ++ '\t' :: (c ++ '\t' :: after)) =
        Utf8.encode (before ++ '\t' :: c) ++ Utf8.encode ('\t' :: after) := by
      intro c
      rw [← Utf8.encode_append, List.append_assoc, List.cons_append]
    rw [List.map_cons, hl'.line, hsplit] at hl
    rw [List.map_cons, hsplit]
    refine hl.replace ?_ ?_ h.eq_nil ht
    · rw [Ne, Utf8.encode_eq_nil_iff]
      exact List.cons_ne_nil '\t' after
    · rw [Utf8.lineFeed_mem_encode_iff]
      simp only [List.mem_append, List.mem_cons, not_or] at hb hc ⊢
      exact ⟨hb.1, hb.2.1, hc.2.2⟩

theorem tests_eq_of_spelledOut (hd : data.lines = lines.map Utf8.encode) (h : SpelledOut [] lines lines') :
    tests source (Utf8.encode lines'.flatten) = tests source data := by
  have hm : ∀ m ∈ [] ++ lines, Utf8.encode m ∈ data.lines := by
    intro m hm
    rw [hd]
    exact List.mem_map_of_mem hm
  have hl := h.laid hm (hd ▸ Bytes.laid_lines data)
  have hr : format.runFrom source 0 format.initial (lines.map Utf8.encode) = _ :=
    h.runFrom_eq (remembers_nil format.initial) 0
  rw [← hd, ← hl.lines_flatten, Utf8.flatten_map_encode] at hr
  exact congrArg Run.toExcept hr.symm

/-! ### What can be spelled out -/

theorem SpelledOut.refl (earlier lines : List Text) : SpelledOut earlier lines lines := by
  induction lines generalizing earlier with
  | nil => exact .nil earlier
  | cons line lines ih => exact .kept line (ih (earlier ++ [line]))

theorem SpellsOut.one (earlier : List Text) {before after : List Text}
    (h : SpellsOut (earlier ++ before) line line') :
    SpelledOut earlier (before ++ line :: after) (before ++ line' :: after) := by
  induction before generalizing earlier with
  | nil =>
    rw [List.append_nil] at h
    exact .spelled h (.refl _ after)
  | cons b before ih =>
    rw [List.append_cons] at h
    exact .kept b (ih _ h)

theorem Abbreviates.exists_spellsOut (h : Abbreviates line) (hp : Nearest earlier p) :
    ∃ line', SpellsOut earlier line line' ∧ ¬ Abbreviates line' := by
  obtain ⟨he, before, column, after, hl, hs⟩ := h
  refine ⟨_, .mk he hl hs hp, fun ha => ?_⟩
  exact hp.trim_ne ((abbreviates_iff (hp.patternAt hl)).1 ha).2

/-- Nothing is left to spell out if every `SAME` has a pattern before it. -/
theorem exists_spelledOut (earlier lines : List Text)
    (h : ∀ before line after, lines = before ++ line :: after → Abbreviates line →
      ∃ p, Nearest (earlier ++ before) p) :
    ∃ lines', SpelledOut earlier lines lines' ∧ ∀ line ∈ lines', ¬ Abbreviates line := by
  induction lines generalizing earlier with
  | nil => exact ⟨[], .nil earlier, by simp⟩
  | cons line lines ih =>
    obtain ⟨lines', hl, hn⟩ := ih (earlier ++ [line]) fun before l after hs hl => by
      rw [← List.append_cons]
      exact h (line :: before) l after (by rw [hs, List.cons_append]) hl
    by_cases ha : Abbreviates line
    · obtain ⟨p, hp⟩ := h [] line lines rfl ha
      rw [List.append_nil] at hp
      obtain ⟨line', hs, hn'⟩ := ha.exists_spellsOut hp
      exact ⟨line' :: lines', .spelled hs hl, List.forall_mem_cons.2 ⟨hn', hn⟩⟩
    · exact ⟨line :: lines', .kept line hl, List.forall_mem_cons.2 ⟨ha, hn⟩⟩

/-! ### Without a pattern -/

theorem reads_of_not_effective (h : ∀ t ∈ lines, effective t.chomp = false) (n : Nat)
    (previous : Option Text) : format.Reads n previous (lines.map Utf8.encode) [] previous := by
  induction lines generalizing n with
  | nil => exact .nil n previous
  | cons t lines ih =>
    rw [List.forall_mem_cons] at h
    exact .cons (Accepts.skip rfl h.1).read_eq (ih h.2 (n + 1))

/-- Lines that leave no pattern are not effective. -/
theorem not_effective_of_reads {raws : List Bytes} {ts : List RegexTest}
    (h : format.Reads 0 none raws ts none) :
    ∃ lines : List Text, raws = lines.map Utf8.encode ∧ ∀ t ∈ lines, effective t.chomp = false := by
  obtain ⟨lines, ls, rfl, ht, hn⟩ := (@reads_iff []).1 h
  refine ⟨lines, rfl, ?_⟩
  cases ls with
  | nil => exact effectiveLines_eq_nil_iff.1 (List.forall₂_nil_left_iff.1 ht.onLine)
  | cons m ls =>
    have hm := means_iff_head.1 ht.means m (by simp)
    exact absurd hn.symm (remembered_cons_ne_none hm ls)

theorem parseAll_ne_withoutPattern (column : Text) : Span.parseAll column ≠ .error withoutPattern := by
  rw [Span.parseAll]
  cases (Span.groups column).mapM Span.ofGroup? with
  | some spans => exact fun h => by cases h
  | none =>
    intro h
    have hw := Fault.invalidTestLine.inj (Except.error.inj h)
    have hh := congrArg List.head? hw
    simp at hh

theorem LineFault.abbreviates {raw : Bytes} (h : LineFault k raw previous withoutPattern) :
    ∃ text, raw = Utf8.encode text ∧ Abbreviates text ∧ previous = none := by
  generalize hw : withoutPattern = f at h
  cases h with
  | notText _ => cases hw
  | same ht he hl hp hn => exact ⟨_, ht, (abbreviates_iff_of_onLine he hl).2 hp, hn⟩
  | submatches _ _ _ _ _ _ hm =>
    rw [← hw] at hm
    exact absurd hm (parseAll_ne_withoutPattern _)

theorem LineFault.root_eq {raw : Bytes} {f : Fault} (h : LineFault k raw previous f) : f.root = f := by
  rcases h.cases_fault with rfl | ⟨what, rfl⟩
  · rfl
  · rfl

/-- `SAME` stands for nothing in the first effective line and in no other. -/
theorem tests_withoutPattern_iff (hd : data.lines = lines.map Utf8.encode) {f : Fault} :
    tests source data = .error f ∧ f.root = withoutPattern ↔
      ∃ before line after, lines = before ++ line :: after ∧ (∀ b ∈ before, effective b.chomp = false) ∧
        Abbreviates line ∧ f = .located source (before.length + 1) withoutPattern := by
  have hrun : format.runFrom source 0 none (lines.map Utf8.encode) = format.run source data := by
    rw [← hd]
    rfl
  rw [tests, Run.toExcept_eq_error_iff]
  constructor
  · rintro ⟨h, hroot⟩
    rcases LineFormat.runFrom_eq_iff.1 hrun with ⟨s', -, hf⟩ | ⟨read, raw, left, s', g, hl, hr, hx, hf⟩
    · rw [h] at hf
      cases hf
    · rw [h, Option.some.injEq] at hf
      have hg := read_eq_error_iff.1 hx
      obtain rfl : g = withoutPattern := by
        rw [← hg.root_eq, ← hroot, hf]
        rfl
      obtain ⟨text, ht, ha, hn⟩ := hg.abbreviates
      rw [hn] at hr
      obtain ⟨before, rfl, hb⟩ := not_effective_of_reads hr
      obtain ⟨before', rest, rfl, hb', hrest⟩ := List.map_eq_append_iff.1 hl
      obtain ⟨line, after, rfl, hline, -⟩ := List.map_eq_cons_iff.1 hrest
      obtain rfl := List.map_injective_iff.2 (fun _ _ => Utf8.encode_inj.1) hb'
      obtain rfl := Utf8.encode_inj.1 (hline.trans ht)
      rw [List.length_map, Nat.zero_add] at hf
      exact ⟨before', line, after, rfl, hb, ha, hf⟩
  · rintro ⟨before, line, after, rfl, hb, ha, rfl⟩
    obtain ⟨l, hl⟩ := exists_onLine ha.1 (before.length + 1)
    have hp := (abbreviates_iff_of_onLine ha.1 hl).1 ha
    have hr := reads_of_not_effective hb 0 none
    have hf : format.read none (0 + (before.map Utf8.encode).length + 1) (Utf8.encode line) =
        .error withoutPattern := by
      rw [List.length_map, Nat.zero_add]
      exact (LineFault.same rfl ha.1 hl hp rfl).read_eq
    refine ⟨?_, rfl⟩
    rw [← hrun, List.map_append, List.map_cons, hr.runFrom_eq_of_fault hf, List.length_map, Nat.zero_add]

/-- Spelling out `SAME` in any of the lines changes neither the tests nor the fault. It can be done in each
line that has a pattern before it, and in all of them at once. Only a `SAME` in the first effective line
has none. -/
theorem tests_spelledOut (source : Text) (hd : data.lines = lines.map Utf8.encode) :
    (∀ lines', SpelledOut [] lines lines' →
      tests source (Utf8.encode lines'.flatten) = tests source data) ∧
    (∀ before line after, lines = before ++ line :: after → Abbreviates line →
      (∃ m ∈ before, effective m.chomp ∧ ¬ Abbreviates m) →
        ∃ line', SpellsOut before line line' ∧ SpelledOut [] lines (before ++ line' :: after)) ∧
    ((∀ before line after, lines = before ++ line :: after → Abbreviates line →
      ∃ m ∈ before, effective m.chomp ∧ ¬ Abbreviates m) →
        ∃ lines', SpelledOut [] lines lines' ∧ ∀ line ∈ lines', ¬ Abbreviates line) ∧
    ∀ f, tests source data = .error f ∧ f.root = withoutPattern ↔
      ∃ before line after, lines = before ++ line :: after ∧ (∀ b ∈ before, effective b.chomp = false) ∧
        Abbreviates line ∧ f = .located source (before.length + 1) withoutPattern := by
  refine ⟨fun lines' h => tests_eq_of_spelledOut hd h, ?_, ?_, fun f => tests_withoutPattern_iff hd⟩
  · rintro before line after rfl ha hm
    obtain ⟨p, hp⟩ := exists_nearest hm
    obtain ⟨line', hl, -⟩ := ha.exists_spellsOut hp
    exact ⟨line', hl, SpellsOut.one [] hl⟩
  · intro h
    exact exists_spelledOut [] lines fun before line after hl ha => exists_nearest (h before line after hl ha)

/-- A chain of two after a line that is no test and has blanks in its pattern, with a comment between. -/
theorem tests_spelledOut_chain :
    let lines : List Text := ["E\ta\txa\t(1,2)\n".toList, "B\t c+ \tx\tNOMATCH\n".toList,
      "E\t SAME\tcc\t(0,2)\r\n".toList, "# SAME\n".toList, "E\tSAME\t\ty\tNOMATCH".toList]
    let lines' : List Text := ["E\ta\txa\t(1,2)\n".toList, "B\t c+ \tx\tNOMATCH\n".toList,
      "E\t c+ \tcc\t(0,2)\r\n".toList, "# SAME\n".toList, "E\t c+ \t\ty\tNOMATCH".toList]
    let data := Utf8.encode lines.flatten
    data.lines = lines.map Utf8.encode ∧ SpelledOut [] lines lines' ∧
      tests "t".toList (Utf8.encode lines'.flatten) = tests "t".toList data ∧
        tests "t".toList data = .ok [⟨1, ['E'], ['a'], "xa".toList, [some ⟨1, 2⟩]⟩,
          ⟨3, ['E'], "c+".toList, "cc".toList, [some ⟨0, 2⟩]⟩, ⟨5, ['E'], "c+".toList, ['y'], []⟩] := by
  intro lines lines' data
  have hd : data.lines = lines.map Utf8.encode := by decide +kernel
  have hm : PatternAt "B\t c+ \tx\tNOMATCH\n".toList ['B'] " c+ ".toList "x\tNOMATCH\n".toList :=
    ⟨by decide, by decide, by decide, by decide⟩
  have h₁ : PatternAt "E\t SAME\tcc\t(0,2)\r\n".toList ['E'] " SAME".toList "cc\t(0,2)\r\n".toList :=
    ⟨by decide, by decide, by decide, by decide⟩
  have h₂ : PatternAt "E\tSAME\t\ty\tNOMATCH".toList ['E'] "SAME".toList "\ty\tNOMATCH".toList :=
    ⟨by decide, by decide, by decide, by decide⟩
  have hn₁ : Nearest ([lines[0]] ++ [lines[1]]) " c+ ".toList :=
    nearest_concat_iff.2 (.inl ⟨by decide, by decide, _, _, hm⟩)
  have hn₂ : Nearest ([lines[0]] ++ [lines[1]] ++ [lines[2]] ++ [lines[3]]) " c+ ".toList := by
    refine nearest_concat_iff.2 (.inr ⟨fun h => absurd h (by decide), ?_⟩)
    exact nearest_concat_iff.2 (.inr ⟨fun he => (abbreviates_iff h₁).2 ⟨he, by decide⟩, hn₁⟩)
  have hs₁ : SpellsOut _ lines[2] lines'[2] := .mk (by decide) h₁ (by decide) hn₁
  have hs₂ : SpellsOut _ lines[4] lines'[4] := .mk (by decide) h₂ (by decide) hn₂
  have hs : SpelledOut [] lines lines' := .kept _ (.kept _ (.spelled hs₁ (.kept _ (.spelled hs₂ (.nil _)))))
  exact ⟨hd, hs, (tests_spelledOut "t".toList hd).1 lines' hs, by decide +kernel⟩

end UnicodeTables.RegexTest
