import UnicodeTables.Proofs.RegexTest.Spans
import UnicodeTables.Proofs.Text.Digits
import UnicodeTables.Proofs.Text.Scan

/-! # Submatches as matches of an expression

The groups that are found in a text are the matches of `\(([^,]*),([^)]*)\)` from left to right
(`groups_of_scan`), so these alone decide what the text is read as, and whether it can be read
(`parseAll_by_matches`). -/

namespace UnicodeTables

theorem Text.exists_cut (c : Char) (u v : Text) : ∃ x w, cut c (u ++ c :: v) = some (x, w ++ v) := by
  induction u with
  | nil => exact ⟨[], [], by simp [cut]⟩
  | cons d u ih =>
    by_cases hd : d = c
    · exact ⟨[], u ++ [c], by simp [cut, hd]⟩
    · obtain ⟨x, w, h⟩ := ih
      exact ⟨d :: x, w, by simp [cut, hd, h]⟩

namespace Span
variable {s a m b : Text} {gs : List Text} {g : Text × Text} {span : Option Span}

/-- The expression `\(([^,]*),([^)]*)\)`. -/
def groupPattern : Regex :=
  .seq (.char '(') (.seq (.group (.many (· ≠ ','))) (.seq (.char ',')
    (.seq (.group (.many (· ≠ ')'))) (.char ')'))))

theorem matches_groupPattern_iff :
    groupPattern.Matches m gs ↔ ∃ g, m = writeGroup g ∧ gs = [g.1, g.2] ∧ ',' ∉ g.1 ∧ ')' ∉ g.2 := by
  have hmany : ∀ {d : Char} {t : Text}, (∀ c ∈ t, c ≠ d) ↔ d ∉ t :=
    ⟨fun h hd => h _ hd rfl, fun h c hc he => h (he ▸ hc)⟩
  simp only [groupPattern, Regex.matches_seq_iff, Regex.matches_char_iff, Regex.matches_group_iff,
    Regex.matches_many_iff]
  constructor
  · rintro ⟨_, _, _, _, rfl, rfl, ⟨rfl, rfl⟩, start, _, _, _, rfl, rfl, ⟨_, rfl, hs, rfl⟩,
      _, _, _, _, rfl, rfl, ⟨rfl, rfl⟩, stop, _, _, _, rfl, rfl, ⟨_, rfl, ht, rfl⟩, rfl, rfl⟩
    exact ⟨(start, stop), by simp [writeGroup], rfl, hmany.1 hs, hmany.1 ht⟩
  · rintro ⟨⟨start, stop⟩, rfl, rfl, hs, ht⟩
    refine ⟨['('], start ++ ',' :: (stop ++ [')']), [], [start, stop], by simp [writeGroup], rfl, ⟨rfl, rfl⟩,
      start, ',' :: (stop ++ [')']), [start], [stop], rfl, rfl, ⟨[], rfl, hmany.2 hs, rfl⟩,
      [','], stop ++ [')'], [], [stop], rfl, rfl, ⟨rfl, rfl⟩,
      stop, [')'], [stop], [], rfl, rfl, ⟨[], rfl, hmany.2 ht, rfl⟩, rfl, rfl⟩

/-- A comma and a closing bracket after it are enough for a match to start at a bracket before them. -/
theorem exists_writeGroup_append (u v w : Text) :
    ∃ g rest, '(' :: (u ++ ',' :: (v ++ ')' :: w)) = writeGroup g ++ rest ∧ ',' ∉ g.1 ∧ ')' ∉ g.2 := by
  obtain ⟨start, v', h₁⟩ := Text.exists_cut ',' u (v ++ ')' :: w)
  rw [← List.append_assoc] at h₁
  obtain ⟨stop, w', h₂⟩ := Text.exists_cut ')' (v' ++ v) w
  obtain ⟨hu, hs⟩ := Text.cut_eq_some h₁
  obtain ⟨hv, ht⟩ := Text.cut_eq_some h₂
  exact ⟨(start, stop), w' ++ w, by rw [hu, hv]; simp [writeGroup], hs, ht⟩

/-- No bracket can stand before the first match, since the match would start there. -/
theorem pass_of_firstMatch (h : Text.FirstMatch groupPattern.Matches s a m b gs) :
    ∃ start stop, gs = [start, stop] ∧ pass s = .group start stop b := by
  obtain ⟨⟨start, stop⟩, rfl, rfl, hs, ht⟩ := matches_groupPattern_iff.1 h.isMatch
  refine ⟨start, stop, rfl, pass_eq_group_iff.2 ⟨a, h.eq, fun ha => ?_, hs, ht⟩⟩
  obtain ⟨p, q, rfl⟩ := List.append_of_mem ha
  obtain ⟨g, rest, hg, hs', ht'⟩ := exists_writeGroup_append (q ++ '(' :: start) stop b
  have heq : s = p ++ writeGroup g ++ rest := by
    rw [h.eq, List.append_assoc p (writeGroup g), ← hg]
    simp [writeGroup]
  have := h.first p (writeGroup g) rest _ heq (matches_groupPattern_iff.2 ⟨g, rfl, rfl, hs', ht'⟩)
  rw [List.length_append, List.length_cons] at this
  omega

/-- One look finds the first match and leaves what follows it. -/
theorem pass_eq_group_iff_firstMatch {start stop rest : Text} :
    pass s = .group start stop rest ↔
      ∃ a m, Text.FirstMatch groupPattern.Matches s a m rest [start, stop] := by
  constructor
  · intro h
    obtain ⟨a, he, ha, hs, ht⟩ := pass_eq_group_iff.1 h
    refine ⟨a, _, he, matches_groupPattern_iff.2 ⟨(start, stop), rfl, rfl, hs, ht⟩, ?_⟩
    intro a' m' b' gs he' hm
    obtain ⟨g, rfl, -⟩ := matches_groupPattern_iff.1 hm
    rw [he, writeGroup, List.append_assoc a, List.append_assoc a', List.append_assoc] at he'
    exact Text.length_le_of_not_mem he' ha
  · rintro ⟨a, m, h⟩
    obtain ⟨start', stop', hgs, hp⟩ := pass_of_firstMatch h
    cases hgs
    exact hp

/-- Looking again after a bracket that begins no group finds no match that is not in the text. -/
theorem groups_eq_nil (h : ∀ a m b gs, s = a ++ m ++ b → ¬ groupPattern.Matches m gs) : groups s = [] := by
  fun_induction groups s with
  | case1 s hp => rfl
  | case2 s rest hp ih =>
    refine ih fun a m b gs he hm => ?_
    obtain ⟨before, rfl⟩ := exists_of_retry hp
    exact h (before ++ '(' :: a) m b gs (by rw [he]; simp) hm
  | case3 s start stop rest hp _ =>
    obtain ⟨a, he, -, hs, ht⟩ := pass_eq_group_iff.1 hp
    exact absurd (matches_groupPattern_iff.2 ⟨(start, stop), rfl, rfl, hs, ht⟩) (h _ _ _ _ he)

/-- The groups that are found are those of the matches. -/
theorem groups_of_scan {found : List (Text × List Text)} {rest : Text}
    (h : Text.Scan groupPattern.Matches s found rest) :
    found.map Prod.snd = (groups s).map fun g => [g.1, g.2] := by
  induction h with
  | done h => rw [groups_eq_nil h]; rfl
  | next h _ ih =>
    obtain ⟨start, stop, rfl, hp⟩ := pass_of_firstMatch h
    rw [groups_of_group hp, List.map_cons, List.map_cons, ih]

theorem findsAll_iff {ms : List (List Text)} :
    groupPattern.FindsAll s ms ↔ ms = (groups s).map fun g => [g.1, g.2] := by
  have hne : ∀ m gs, groupPattern.Matches m gs → m ≠ [] := by
    intro m gs h
    obtain ⟨g, rfl, -⟩ := matches_groupPattern_iff.1 h
    exact List.cons_ne_nil _ _
  constructor
  · rintro ⟨found, rest, h, rfl⟩
    exact groups_of_scan h
  · rintro rfl
    obtain ⟨found, rest, h⟩ := Text.exists_scan hne s
    exact ⟨found, rest, h, (groups_of_scan h).symm⟩

/-- What a match means: a group that took no part, or two offsets. -/
inductive Denotes : List Text → Option Span → Prop
  | absent : Denotes [['?'], ['?']] none
  | offsets {a b : Text} {m n : Nat} (ha : Numeral.IsUnsigned a.trim m) (hb : Numeral.IsUnsigned b.trim n) :
      Denotes [a, b] (some ⟨m, n⟩)

theorem ofGroup?_eq_some_iff : ofGroup? g = some span ↔ Denotes [g.1, g.2] span := by
  obtain ⟨start, stop⟩ := g
  unfold ofGroup?
  constructor
  · intro h
    split at h
    · rename_i he
      cases he
      cases h
      exact .absent
    · simp only [Option.bind_eq_bind, Option.bind_eq_some_iff, Option.pure_def, Option.some.injEq,
        Numeral.unsigned?_eq_some_iff] at h
      obtain ⟨m, hm, n, hn, rfl⟩ := h
      exact .offsets hm hn
  · intro h
    cases h with
    | absent => rfl
    | offsets ha hb =>
      have hm := Numeral.unsigned?_eq_some_iff.2 ha
      rw [if_neg, hm, Numeral.unsigned?_eq_some_iff.2 hb]
      · rfl
      · intro he
        cases he
        cases hm.symm.trans (by decide : Numeral.unsigned? (Text.trim ['?']) = none)

theorem ofGroup?_eq_none_iff : ofGroup? g = none ↔ ∀ span, ¬ Denotes [g.1, g.2] span := by
  simp only [Option.eq_none_iff_forall_ne_some, ne_eq, ofGroup?_eq_some_iff]

theorem parseAll_eq_ok_iff {spans : List (Option Span)} :
    parseAll s = .ok spans ↔ ∃ ms, groupPattern.FindsAll s ms ∧ List.Forall₂ Denotes ms spans := by
  have hm : (groups s).mapM ofGroup? = some spans ↔
      List.Forall₂ Denotes ((groups s).map fun g => [g.1, g.2]) spans := by
    simp only [mapM_eq_some_iff, ofGroup?_eq_some_iff, List.forall₂_map_left_iff]
  simp only [findsAll_iff, exists_eq_left, ← hm]
  rw [parseAll]
  cases (groups s).mapM ofGroup? <;> simp

theorem parseAll_eq_error_iff {f : Fault} :
    parseAll s = .error f ↔ f = .invalidTestLine ("invalid submatches ".toList ++ s) ∧
      ∃ ms, groupPattern.FindsAll s ms ∧ ∃ m ∈ ms, ∀ span, ¬ Denotes m span := by
  have hm : (groups s).mapM ofGroup? = none ↔
      ∃ m ∈ (groups s).map fun g => [g.1, g.2], ∀ span, ¬ Denotes m span := by
    simp only [mapM_eq_none_iff, List.mem_map, exists_exists_and_eq_and, ofGroup?_eq_none_iff]
  simp only [findsAll_iff, exists_eq_left, ← hm]
  rw [parseAll]
  cases (groups s).mapM ofGroup? <;> simp [eq_comm]

/-- Each look at a text finds the first match in what is left, so all matches are found. The text can be read
if every match denotes a submatch, and it is read as what they denote; else the whole text is blamed. What is
around the matches does not matter. -/
theorem parseAll_by_matches (s : Text) :
    (∀ left start stop rest, pass left = .group start stop rest ↔
      ∃ a m, Text.FirstMatch groupPattern.Matches left a m rest [start, stop]) ∧
    (∀ ms, groupPattern.FindsAll s ms ↔ ms = (groups s).map fun g => [g.1, g.2]) ∧
    (∀ spans, parseAll s = .ok spans ↔
      ∃ ms, groupPattern.FindsAll s ms ∧ List.Forall₂ Denotes ms spans) ∧
    (∀ f, parseAll s = .error f ↔ f = .invalidTestLine ("invalid submatches ".toList ++ s) ∧
      ∃ ms, groupPattern.FindsAll s ms ∧ ∃ m ∈ ms, ∀ span, ¬ Denotes m span) ∧
    ∀ t ms, groupPattern.FindsAll s ms → groupPattern.FindsAll t ms →
      ∀ spans, parseAll s = .ok spans ↔ parseAll t = .ok spans := by
  refine ⟨fun _ _ _ _ => pass_eq_group_iff_firstMatch, fun ms => findsAll_iff, fun spans => parseAll_eq_ok_iff,
    fun f => parseAll_eq_error_iff, ?_⟩
  intro t ms hs ht spans
  have hall : ∀ ms', groupPattern.FindsAll s ms' ↔ groupPattern.FindsAll t ms' := by
    intro ms'
    rw [findsAll_iff, findsAll_iff, ← findsAll_iff.1 hs, ← findsAll_iff.1 ht]
  simp only [parseAll_eq_ok_iff, hall]

/-- Blanks and a sign in a group, other text between the groups and an unfinished group after them. -/
theorem parseAll_around_matches :
    let s := "a(0, +1 )b(?,?)(2,3".toList
    let t := "(0, +1 )(?,?)".toList
    let ms := [["0".toList, " +1 ".toList], ["?".toList, "?".toList]]
    groupPattern.FindsAll s ms ∧ groupPattern.FindsAll t ms ∧ parseAll t = .ok [some ⟨0, 1⟩, none] ∧
      parseAll s = .ok [some ⟨0, 1⟩, none] := by
  intro s t ms
  have hs : groupPattern.FindsAll s ms := findsAll_iff.2 (by decide +kernel)
  have ht : groupPattern.FindsAll t ms := findsAll_iff.2 (by decide +kernel)
  have ho : parseAll t = .ok [some ⟨0, 1⟩, none] := by decide +kernel
  exact ⟨hs, ht, ho, ((parseAll_by_matches s).2.2.2.2 t ms hs ht _).2 ho⟩

end Span

end UnicodeTables
