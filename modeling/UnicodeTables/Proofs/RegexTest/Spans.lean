import UnicodeTables.Proofs.Text.Numerals
import UnicodeTables.Proofs.Text.Split
import UnicodeTables.RegexTest.Span

/-! # Written submatches

A submatch is written as a group of two decimal offsets, or of two question marks. The groups of a text are
found one by one (`groups_writeGroup_append`), so reading written submatches gives them back
(`parseAll_writeAll`). -/

namespace UnicodeTables.Span

/-- Offsets that can be read. A submatch that took no part has none. -/
def Writable : Option Span → Prop
  | none => True
  | some s => s.start ≤ Numeral.maxUnsigned ∧ s.stop ≤ Numeral.maxUnsigned

instance : (span : Option Span) → Decidable (Writable span)
  | none => isTrue trivial
  | some _ => instDecidableAnd

/-- The two texts of the group of a submatch. -/
def texts : Option Span → Text × Text
  | none => (['?'], ['?'])
  | some s => (Numeral.decimal s.start, Numeral.decimal s.stop)

def writeGroup (g : Text × Text) : Text := '(' :: g.1 ++ ',' :: g.2 ++ [')']

def writeAll (spans : List (Option Span)) : Text := spans.flatMap fun span => writeGroup (texts span)

variable {g : Text × Text} {span : Option Span} {spans : List (Option Span)} {c : Char} {s : Text}

/-- A group begins at the first bracket. -/
theorem pass_eq_group_iff {start stop rest : Text} :
    pass s = .group start stop rest ↔
      ∃ a, s = a ++ writeGroup (start, stop) ++ rest ∧ '(' ∉ a ∧ ',' ∉ start ∧ ')' ∉ stop := by
  constructor
  · intro h
    rw [pass] at h
    split at h
    · cases h
    · rename_i a inner h₁
      split at h
      · cases h
      · rename_i start afterComma h₂
        split at h
        · cases h
        · rename_i stop rest h₃
          cases h
          obtain ⟨rfl, ha⟩ := Text.cut_eq_some h₁
          obtain ⟨rfl, hs⟩ := Text.cut_eq_some h₂
          obtain ⟨rfl, ht⟩ := Text.cut_eq_some h₃
          exact ⟨a, by simp [writeGroup], ha, hs, ht⟩
  · rintro ⟨a, rfl, ha, hs, ht⟩
    have hw : a ++ writeGroup (start, stop) ++ rest =
        a ++ '(' :: (start ++ ',' :: (stop ++ ')' :: rest)) := by
      simp [writeGroup]
    rw [pass, hw, Text.cut_append ha]
    dsimp only
    rw [Text.cut_append hs]
    dsimp only
    rw [Text.cut_append ht]

/-- The first opening bracket is before `rest` and a comma is after it, but no closing bracket is after the
first of these commas. -/
def Unclosed (s rest : Text) : Prop :=
  ∃ before start left, s = before ++ '(' :: rest ∧ rest = start ++ ',' :: left ∧
    '(' ∉ before ∧ ',' ∉ start ∧ ')' ∉ left

/-- Without a group the search goes on after the first bracket. -/
theorem pass_eq_retry_iff {rest : Text} : pass s = .retry rest ↔ Unclosed s rest := by
  constructor
  · intro h
    rw [pass] at h
    split at h
    · cases h
    · rename_i before inner h₁
      split at h
      · cases h
      · rename_i start left h₂
        split at h
        · rename_i h₃
          cases h
          obtain ⟨hs, hb⟩ := Text.cut_eq_some h₁
          obtain ⟨hr, hc⟩ := Text.cut_eq_some h₂
          exact ⟨before, start, left, hs, hr, hb, hc, Text.cut_eq_none_iff.1 h₃⟩
        · cases h
  · rintro ⟨before, start, left, rfl, rfl, hb, hc, hl⟩
    rw [pass, Text.cut_append hb]
    dsimp only
    rw [Text.cut_append hc]
    dsimp only
    rw [Text.cut_eq_none_iff.2 hl]

theorem exists_of_retry {rest : Text} (h : pass s = .retry rest) : ∃ a, s = a ++ '(' :: rest := by
  obtain ⟨before, -, -, hs, -⟩ := pass_eq_retry_iff.1 h
  exact ⟨before, hs⟩

theorem groups_of_done (h : pass s = .done) : groups s = [] := by
  rw [groups]
  split <;> simp_all

theorem groups_of_retry {rest : Text} (h : pass s = .retry rest) : groups s = groups rest := by
  rw [groups]
  split <;> simp_all

theorem groups_of_group {start stop rest : Text} (h : pass s = .group start stop rest) :
    groups s = (start, stop) :: groups rest := by
  rw [groups]
  split <;> simp_all

theorem groups_writeGroup_append (h₁ : ',' ∉ g.1) (h₂ : ')' ∉ g.2) (s : Text) :
    groups (writeGroup g ++ s) = g :: groups s :=
  groups_of_group (pass_eq_group_iff.2 ⟨[], rfl, List.not_mem_nil, h₁, h₂⟩)

theorem groups_nil : groups [] = [] := groups_of_done rfl

/-- What can stand inside a group. -/
def Inner (c : Char) : Prop := c = '?' ∨ ∃ d < 10, c = Numeral.digit d

theorem inner_of_mem_texts (h : c ∈ (texts span).1 ∨ c ∈ (texts span).2) : Inner c := by
  cases span with
  | none =>
    rcases h with h | h
    · exact .inl (List.mem_singleton.1 h)
    · exact .inl (List.mem_singleton.1 h)
  | some s =>
    rcases h with h | h
    · exact .inr (Numeral.exists_digit_of_mem_decimal h)
    · exact .inr (Numeral.exists_digit_of_mem_decimal h)

theorem ne_of_inner (h : Inner c) : c ∉ ['(', ',', ')', '\t', '\n'] := by
  rcases h with rfl | ⟨d, hd, rfl⟩
  · decide
  · exact (by decide : ∀ d < 10, Numeral.digit d ∉ ['(', ',', ')', '\t', '\n']) d hd

theorem groups_writeAll (spans : List (Option Span)) : groups (writeAll spans) = spans.map texts := by
  induction spans with
  | nil => exact groups_nil
  | cons span spans ih =>
    have h₁ : ',' ∉ (texts span).1 := by
      intro h
      exact ne_of_inner (inner_of_mem_texts (.inl h)) (by simp)
    have h₂ : ')' ∉ (texts span).2 := by
      intro h
      exact ne_of_inner (inner_of_mem_texts (.inr h)) (by simp)
    rw [writeAll, List.flatMap_cons, groups_writeGroup_append h₁ h₂, ← writeAll, ih, List.map_cons]

theorem ofGroup?_texts (h : Writable span) : ofGroup? (texts span) = some span := by
  cases span with
  | none => rfl
  | some s =>
    obtain ⟨h₁, h₂⟩ := h
    have hne : texts (some s) ≠ (['?'], ['?']) := by
      intro he
      have hm : '?' ∈ Numeral.decimal s.start := by
        rw [show Numeral.decimal s.start = ['?'] from congrArg Prod.fst he]
        simp
      obtain ⟨d, hd, hc⟩ := Numeral.exists_digit_of_mem_decimal hm
      exact (by decide : ∀ d < 10, '?' ≠ Numeral.digit d) d hd hc
    rw [ofGroup?, if_neg hne, texts]
    dsimp only
    rw [Numeral.trim_decimal, Numeral.trim_decimal, Numeral.unsigned?_decimal h₁,
      Numeral.unsigned?_decimal h₂]
    rfl

/-- Submatches that are written are read again. -/
theorem parseAll_writeAll (h : ∀ span ∈ spans, Writable span) : parseAll (writeAll spans) = .ok spans := by
  have hm : (spans.map texts).mapM ofGroup? = some spans := by
    induction spans with
    | nil => rfl
    | cons span spans ih =>
      rw [List.map_cons, List.mapM_cons, ofGroup?_texts (h span (by simp)),
        ih fun span' h' => h span' (by simp [h'])]
      rfl
  rw [parseAll, groups_writeAll, hm]

theorem not_mem_writeAll (hc : c ∈ ['\t', '\n']) : c ∉ writeAll spans := by
  intro h
  obtain ⟨span, -, h⟩ := List.mem_flatMap.1 h
  simp only [writeGroup, List.mem_append, List.mem_cons, List.not_mem_nil, or_false] at h
  rcases h with (((rfl | h) | rfl | h) | rfl)
  · simp at hc
  · exact ne_of_inner (inner_of_mem_texts (.inl h)) (by simp at hc ⊢; simp [hc])
  · simp at hc
  · exact ne_of_inner (inner_of_mem_texts (.inr h)) (by simp at hc ⊢; simp [hc])
  · simp at hc

/-- Written submatches have a bracket at each end. -/
theorem exists_writeAll_eq (h : spans ≠ []) : ∃ s, writeAll spans = '(' :: (s ++ [')']) := by
  induction spans with
  | nil => exact absurd rfl h
  | cons span spans ih =>
    rw [writeAll, List.flatMap_cons, ← writeAll]
    cases spans with
    | nil => exact ⟨(texts span).1 ++ ',' :: (texts span).2, by simp [writeAll, writeGroup]⟩
    | cons span' spans =>
      obtain ⟨s, hs⟩ := ih (by simp)
      exact ⟨(texts span).1 ++ ',' :: (texts span).2 ++ ')' :: '(' :: s, by rw [hs]; simp [writeGroup]⟩

end UnicodeTables.Span
