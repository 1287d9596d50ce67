import UnicodeTables.Proofs.CodePoint.Display

/-! # Canonical ranges

Among all texts that are read as a range, the one that is written can be told by itself: its numerals are
canonical, and there are two of them only if they differ (`Canonical`). Main statement: reading and writing
ranges undo each other as far as they can (`display_inverse`). -/

namespace UnicodeTables

theorem Numeral.Canonical.dot_not_mem {s : Text} (h : Canonical s) : '.' ∉ s := fun hd =>
  absurd (h.upper '.' hd) (by decide)

theorem CodePoint.hex_eq_iff {s : Text} {c : CodePoint} (h : parse s = .ok c) :
    Numeral.hex c = s ↔ Numeral.Canonical s := by
  obtain ⟨ds, hf, h4, -, rfl, -⟩ := parse_eq_ok_iff.1 h
  exact Numeral.hex_value_eq_iff hf h4

namespace CodePointRange
variable {a b x y s : Text} {r : CodePointRange}

/-- The texts that are written for ranges. -/
inductive Canonical : Text → Prop
  | single {x : Text} (hx : Numeral.Canonical x) : Canonical x
  | bounds {x y : Text} (hx : Numeral.Canonical x) (hy : Numeral.Canonical y)
      (hne : CodePoint.parse x ≠ CodePoint.parse y) : Canonical (x ++ "..".toList ++ y)

theorem append_dots_inj (ha : '.' ∉ a) (hx : '.' ∉ x) :
    a ++ "..".toList ++ b = x ++ "..".toList ++ y ↔ a = x ∧ b = y := by
  constructor
  · intro h
    have hc := Text.cut_append ha ('.' :: b)
    rw [List.append_assoc, List.append_assoc] at h
    rw [show a ++ '.' :: '.' :: b = x ++ '.' :: '.' :: y from h, Text.cut_append hx] at hc
    simpa [eq_comm] using hc
  · rintro ⟨rfl, rfl⟩
    rfl

theorem canonical_iff_of_not_mem (hx : '.' ∉ x) : Canonical x ↔ Numeral.Canonical x := by
  refine ⟨fun h => ?_, .single⟩
  cases h with
  | single h => exact h
  | bounds => simp at hx

theorem canonical_bounds_iff (hx : '.' ∉ x) : Canonical (x ++ "..".toList ++ y) ↔
    Numeral.Canonical x ∧ Numeral.Canonical y ∧ CodePoint.parse x ≠ CodePoint.parse y := by
  refine ⟨fun h => ?_, fun ⟨h₁, h₂, h₃⟩ => .bounds h₁ h₂ h₃⟩
  generalize he : x ++ "..".toList ++ y = s at h
  cases h with
  | single h => exact absurd (by simp [← he]) h.dot_not_mem
  | bounds h₁ h₂ hne =>
    obtain ⟨rfl, rfl⟩ := (append_dots_inj hx h₁.dot_not_mem).1 he
    exact ⟨h₁, h₂, hne⟩

theorem Spells.display_eq_iff (h : Spells s r) : r.display = s ↔ Canonical s := by
  cases h with
  | single hx =>
    rw [display_single, canonical_iff_of_not_mem (CodePoint.dot_not_mem_of_parse hx), CodePoint.hex_eq_iff hx]
  | @bounds x y a b hx hy hle =>
    have hdx := CodePoint.dot_not_mem_of_parse hx
    rw [canonical_bounds_iff hdx]
    by_cases hab : a = b
    · -- such a range is written as one code point
      subst hab
      rw [display_single, hx, hy]
      constructor
      · intro he
        have := Numeral.dot_not_mem_hex a
        rw [he] at this
        simp at this
      · rintro ⟨-, -, hne⟩
        exact absurd rfl hne
    · rw [display_of_ne hab, append_dots_inj (Numeral.dot_not_mem_hex a) hdx, CodePoint.hex_eq_iff hx,
        CodePoint.hex_eq_iff hy, hx, hy]
      simp [hab]

/-- A valid range is read from the text that is written for it, so no other range is written the same. Of the
texts that are read as a range, the canonical one is written for it. -/
theorem display_inverse :
    (∀ r : CodePointRange, r.Valid → parse r.display = .ok r) ∧
    (∀ s r, parse s = .ok r → parse r.display = .ok r ∧ (r.display = s ↔ Canonical s)) ∧
    ∀ r r' : CodePointRange, r.Valid → r'.Valid → r.display = r'.display → r = r' := by
  refine ⟨fun r => parse_display, fun s r h => ?_, fun r r' hr hr' h => ?_⟩
  · exact ⟨parse_display (valid_of_parse h), (parse_eq_ok_iff.1 h).display_eq_iff⟩
  · have := parse_display hr
    rw [h, parse_display hr', Except.ok.injEq] at this
    exact this.symm

/-- Bounds of five digits are written back, while lower case and a bound given twice are not. -/
theorem display_inverse_small_letters :
    let r : CodePointRange := ⟨0x1F1E6, 0x1F1FF⟩
    let s := "00ae..000AE".toList
    r.Valid ∧ parse r.display = .ok r ∧ parse s = .ok ⟨0xAE, 0xAE⟩ ∧ display ⟨0xAE, 0xAE⟩ ≠ s ∧
      ¬ Canonical s ∧ parse (display ⟨0xAE, 0xAE⟩) = .ok ⟨0xAE, 0xAE⟩ := by
  intro r s
  have hr : r.Valid := by decide
  have hs : parse s = .ok ⟨0xAE, 0xAE⟩ := by decide
  have hne : display ⟨0xAE, 0xAE⟩ ≠ s := by decide
  obtain ⟨hp, hc⟩ := display_inverse.2.1 s _ hs
  exact ⟨hr, display_inverse.1 r hr, hs, hne, mt hc.2 hne, hp⟩

end CodePointRange

end UnicodeTables
