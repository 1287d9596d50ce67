import UnicodeTables.Text.Basic

/-! # Matches from left to right

A text is scanned for matches of some kind: the first match is found, then the first one in what follows
it, and so on, so matches never overlap (`Scan`). If no match is empty, every text has a scan
(`exists_scan`). What counts as a match may be said by a regular expression (`Regex.Matches`). -/

namespace UnicodeTables

namespace Text
variable {α : Type} {Match : Text → α → Prop} {s a m b : Text} {x : α}

/-- The text `m` between `a` and `b` is a match that gives `x`, and no match starts before it. -/
structure FirstMatch (Match : Text → α → Prop) (s a m b : Text) (x : α) : Prop where
  eq : s = a ++ m ++ b
  isMatch : Match m x
  first : ∀ a' m' b' x', s = a' ++ m' ++ b' → Match m' x' → a.length ≤ a'.length

/-- What the matches in a text give, from left to right, each with the text before it, and the text after
the last one. -/
inductive Scan (Match : Text → α → Prop) : Text → List (Text × α) → Text → Prop
  | done {s : Text} (h : ∀ a m b x, s = a ++ m ++ b → ¬ Match m x) : Scan Match s [] s
  | next {s a m b rest : Text} {x : α} {found : List (Text × α)} (h : FirstMatch Match s a m b x)
      (hs : Scan Match b found rest) : Scan Match s ((a, x) :: found) rest

theorem length_le_of_not_mem {a b t u : Text} {c : Char} (h : a ++ b = t ++ c :: u) (hc : c ∉ a) :
    a.length ≤ t.length := by
  refine Nat.not_lt.1 fun hlt => hc ?_
  rcases List.append_eq_append_iff.1 h with ⟨v, rfl, -⟩ | ⟨v, rfl, hv⟩
  · rw [List.length_append] at hlt
    omega
  · cases v with
    | nil => simp at hlt
    | cons d v =>
      rw [List.cons_append, List.cons.injEq] at hv
      simp [hv.1]

theorem exists_firstMatch (h : s = a ++ m ++ b) (hm : Match m x) :
    ∃ a m b x, FirstMatch Match s a m b x := by
  induction hn : a.length using Nat.strongRecOn generalizing a m b x with
  | ind n ih =>
    by_cases hf : ∃ a' m' b' x', s = a' ++ m' ++ b' ∧ Match m' x' ∧ a'.length < n
    · obtain ⟨a', m', b', x', h', hm', hlt⟩ := hf
      exact ih _ hlt h' hm' rfl
    · refine ⟨a, m, b, x, h, hm, fun a' m' b' x' h' hm' => ?_⟩
      rw [hn]
      exact Nat.not_lt.1 fun hlt => hf ⟨a', m', b', x', h', hm', hlt⟩

theorem exists_scan (hne : ∀ m x, Match m x → m ≠ []) (s : Text) :
    ∃ found rest, Scan Match s found rest := by
  induction hn : s.length using Nat.strongRecOn generalizing s with
  | ind n ih =>
    by_cases hs : ∃ a m b x, s = a ++ m ++ b ∧ Match m x
    · obtain ⟨a, m, b, x, h, hm⟩ := hs
      obtain ⟨a, m, b, x, hf⟩ := exists_firstMatch h hm
      have hlt : b.length < n := by
        have := List.length_pos_iff.2 (hne m x hf.isMatch)
        rw [← hn, hf.eq, List.length_append, List.length_append]
        omega
      obtain ⟨found, rest, hb⟩ := ih b.length hlt b rfl
      exact ⟨(a, x) :: found, rest, .next hf hb⟩
    · exact ⟨[], s, .done fun a m b x h hm => hs ⟨a, m, b, x, h, hm⟩⟩

end Text

/-- Regular expressions with groups. -/
inductive Regex
  | char (c : Char)
  /-- Any number of characters of a class. -/
  | many (p : Char → Prop)
  | seq (a b : Regex)
  | group (a : Regex)

namespace Regex
variable {a b : Regex} {p : Char → Prop} {c : Char} {s : Text} {gs : List Text}

/-- An expression matches a whole text, and its groups match the texts in the list. -/
inductive Matches : Regex → Text → List Text → Prop
  | char (c : Char) : Matches (char c) [c] []
  | many {p : Char → Prop} {s : Text} (h : ∀ c ∈ s, p c) : Matches (many p) s []
  | seq {a b : Regex} {s t : Text} {gs hs : List Text} (ha : Matches a s gs) (hb : Matches b t hs) :
      Matches (seq a b) (s ++ t) (gs ++ hs)
  | group {a : Regex} {s : Text} {gs : List Text} (h : Matches a s gs) : Matches (group a) s (s :: gs)

/-- The matches of an expression in a text from left to right, each as what its groups match. -/
def FindsAll (r : Regex) (s : Text) (ms : List (List Text)) : Prop :=
  ∃ found rest, Text.Scan r.Matches s found rest ∧ ms = found.map Prod.snd

theorem matches_char_iff : (char c).Matches s gs ↔ s = [c] ∧ gs = [] := by
  constructor
  · rintro ⟨⟩
    exact ⟨rfl, rfl⟩
  · rintro ⟨rfl, rfl⟩
    exact .char c

theorem matches_many_iff : (many p).Matches s gs ↔ (∀ c ∈ s, p c) ∧ gs = [] := by
  constructor
  · rintro ⟨⟩
    exact ⟨‹_›, rfl⟩
  · rintro ⟨h, rfl⟩
    exact .many h

theorem matches_seq_iff : (seq a b).Matches s gs ↔
    ∃ t u hs is, s = t ++ u ∧ gs = hs ++ is ∧ a.Matches t hs ∧ b.Matches u is := by
  constructor
  · rintro ⟨⟩
    exact ⟨_, _, _, _, rfl, rfl, ‹_›, ‹_›⟩
  · rintro ⟨t, u, hs, is, rfl, rfl, ha, hb⟩
    exact .seq ha hb

theorem matches_group_iff : (group a).Matches s gs ↔ ∃ hs, gs = s :: hs ∧ a.Matches s hs := by
  constructor
  · rintro ⟨⟩
    exact ⟨_, rfl, ‹_›⟩
  · rintro ⟨hs, rfl, h⟩
    exact .group h

end Regex

end UnicodeTables
