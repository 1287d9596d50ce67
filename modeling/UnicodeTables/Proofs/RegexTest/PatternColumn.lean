import UnicodeTables.Proofs.RegexTest.Written

/-! # The pattern column of a line

`PatternAt line before column after`: the pattern column stands in the line with this text before and after
it. Every effective line has one (`exists_patternAt`), and lines that are the same around theirs differ in the
pattern only (`PatternAt.exists_columns`). -/

namespace UnicodeTables.RegexTest
variable {line line' before column after before' column' after' p s : Text} {data : Bytes} {k : Nat}

/-- The pattern column of a line as it stands there, blanks and all, and what is before and after it. -/
structure PatternAt (line before column after : Text) : Prop where
  line : line = before ++ '\t' :: (column ++ '\t' :: after)
  before : (pieces before).length = 1
  nonempty : column ≠ []
  tab : '\t' ∉ column

/-- An effective line with `SAME` for its pattern. -/
def Abbreviates (line : Text) : Prop :=
  effective line.chomp ∧ ∃ before column after, PatternAt line before column after ∧ column.trim = same

theorem pieces_append_tabs (s : Text) (n : Nat) : pieces (s ++ List.replicate n '\t') = pieces s := by
  cases n with
  | zero => rw [List.replicate_zero, List.append_nil]
  | succ n =>
    have hn := pieces_tabs_append n []
    rw [List.append_nil] at hn
    rw [List.replicate_succ, pieces_append_tab, hn]
    exact List.append_nil _

theorem exists_first_piece {q : Text} {ps : List Text} (h : pieces s = p :: q :: ps) :
    ∃ n rest, s = List.replicate n '\t' ++ (p ++ '\t' :: rest) ∧ p ≠ [] ∧ '\t' ∉ p ∧
      pieces rest = q :: ps := by
  induction hk : s.length using Nat.strongRecOn generalizing s with
  | _ k ih =>
    by_cases ht : '\t' ∈ s
    · obtain ⟨a, rest, rfl, ha⟩ := List.eq_append_cons_of_mem ht
      rw [pieces_append_tab] at h
      by_cases hn : a = []
      · subst hn
        have hl : rest.length < k := by
          rw [← hk, List.nil_append, List.length_cons]
          omega
        obtain ⟨n, rest', rfl, hp⟩ := ih _ hl h rfl
        exact ⟨n + 1, rest', rfl, hp⟩
      · rw [pieces_eq_singleton hn ha, List.singleton_append] at h
        obtain ⟨rfl, hr⟩ := List.cons.inj h
        exact ⟨0, rest, rfl, hn, ha, hr⟩
    · by_cases hn : s = []
      · subst hn
        cases h
      · rw [pieces_eq_singleton hn ht] at h
        cases h

namespace PatternAt

theorem pieces_eq (h : PatternAt line before column after) :
    ∃ flags, pieces before = [flags] ∧ pieces line = flags :: column :: pieces after := by
  obtain ⟨flags, hf⟩ := List.length_eq_one_iff.1 h.before
  refine ⟨flags, hf, ?_⟩
  rw [h.line, pieces_append_tab, pieces_append_tab, hf, pieces_eq_singleton h.nonempty h.tab]
  rfl

theorem unique (h : PatternAt line before column after) (h' : PatternAt line before' column' after') :
    column = column' := by
  obtain ⟨flags, -, hp⟩ := h.pieces_eq
  obtain ⟨flags', -, hp'⟩ := h'.pieces_eq
  rw [hp, List.cons.injEq, List.cons.injEq] at hp'
  exact hp'.2.1

theorem chomp (h : PatternAt line before column after) : PatternAt line.chomp before column after.chomp := by
  refine ⟨?_, h.before, h.nonempty, h.tab⟩
  rw [h.line, Text.chomp_append_tab, ← List.cons_append, Text.chomp_append_tab, List.cons_append]

theorem head?_eq (h : PatternAt line before column after) : line.head? = before.head? := by
  have hn : before ≠ [] := by
    rintro rfl
    exact absurd h.before (by decide)
  rw [h.line, List.head?_append_of_ne_nil _ hn]

/-- Lines with the same text around their pattern columns differ in these columns only. -/
theorem exists_columns (h : PatternAt line before column after) (he : effective line.chomp) :
    ∃ flags haystack submatches, ∀ {line' column'}, PatternAt line' before column' after →
      columns? line'.chomp = some ⟨flags, column'.trim, haystack, submatches⟩ := by
  obtain ⟨flags, hf, hp⟩ := h.chomp.pieces_eq
  obtain ⟨hh, hl⟩ := effective_iff.1 he
  rw [h.chomp.head?_eq] at hh
  rw [hp] at hl
  match ha : pieces after.chomp with
  | [] | [_] =>
    rw [ha] at hl
    simp at hl
  | haystack :: submatches :: rest =>
    refine ⟨flags.trim, haystack.trim, submatches.trim, fun {line' column'} h' => ?_⟩
    obtain ⟨flags', hf', hp'⟩ := h'.chomp.pieces_eq
    obtain rfl : flags = flags' := by
      rw [hf] at hf'
      exact List.singleton_inj.1 hf'
    rw [ha] at hp'
    refine columns?_of_pieces ?_ hp'
    rwa [h'.chomp.head?_eq]

theorem columns (h : PatternAt line before column after) (he : effective line.chomp) :
    ∃ c, columns? line.chomp = some c ∧ c.pattern = column.trim := by
  obtain ⟨flags, haystack, submatches, hc⟩ := h.exists_columns he
  exact ⟨_, hc h, rfl⟩

/-- The column ends before its line does. -/
theorem newline_not_mem (h : PatternAt line before column after) (hd : Utf8.encode line ∈ data.lines) :
    '\n' ∉ before ++ '\t' :: column := by
  rw [← Utf8.lineFeed_mem_encode_iff]
  rw [h.line, ← List.cons_append, ← List.append_assoc, Utf8.encode_append] at hd
  refine Bytes.not_mem_of_append_mem_lines hd ?_
  rw [Ne, Utf8.encode_eq_nil_iff]
  exact List.cons_ne_nil '\t' after

end PatternAt

theorem exists_patternAt (h : effective line.chomp) :
    ∃ before column after, PatternAt line before column after := by
  obtain ⟨b, -, hb⟩ := Text.exists_chomp line
  obtain ⟨-, hl⟩ := effective_iff.1 h
  match hp : pieces line.chomp with
  | [] | [_] | [_, _] =>
    rw [hp] at hl
    simp at hl
  | flags :: column :: q :: ps =>
    obtain ⟨i, rest, hi, hf, htf, hr⟩ := exists_first_piece hp
    obtain ⟨j, after, rfl, hc, htc, -⟩ := exists_first_piece hr
    refine ⟨List.replicate i '\t' ++ (flags ++ List.replicate j '\t'), column, after ++ b, ?_, ?_, hc, htc⟩
    · -- the tab after the flags is the last one before the column
      have hj : '\t' :: List.replicate j '\t' = List.replicate j '\t' ++ ['\t'] := by
        rw [← List.replicate_succ, List.replicate_succ']
      rw [hb, hi, ← List.cons_append, hj]
      simp only [List.append_assoc, List.cons_append, List.nil_append]
    · rw [pieces_tabs_append, pieces_append_tabs, pieces_eq_singleton hf htf]
      rfl

theorem abbreviates_iff (h : PatternAt line before column after) :
    Abbreviates line ↔ effective line.chomp ∧ column.trim = same := by
  constructor
  · rintro ⟨he, before', column', after', h', hs⟩
    rw [h.unique h']
    exact ⟨he, hs⟩
  · rintro ⟨he, hs⟩
    exact ⟨he, before, column, after, h, hs⟩

theorem abbreviates_iff_of_onLine {l : TestLine} (he : effective line.chomp) (hl : l.OnLine (line.chomp, k)) :
    Abbreviates line ↔ l.columns.pattern = same := by
  obtain ⟨before, column, after, h⟩ := exists_patternAt he
  obtain ⟨c, hc, hp⟩ := h.columns he
  rw [columns?_of_onLine he hl, Option.some.injEq] at hc
  rw [abbreviates_iff h, hc, hp]
  exact and_iff_right he

end UnicodeTables.RegexTest
