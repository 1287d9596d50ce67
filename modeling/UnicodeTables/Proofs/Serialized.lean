import Mathlib.Data.List.Basic
import UnicodeTables.Json
import UnicodeTables.Proofs.Text.JsonText

/-! # What JSON texts tell

Ranges, tables and tests can be told from their JSON values, and these from their texts, so the texts of two
tables or of two tests are the same only if these are (`render_toJson_eq_iff`). -/

namespace UnicodeTables

theorem CodePointRange.toJson_injective : Function.Injective toJson := by
  rintro ⟨first, last⟩ ⟨first', last'⟩ h
  simpa [toJson] using h

theorem Span.toJson_injective : Function.Injective toJson := by
  rintro ⟨start, stop⟩ ⟨start', stop'⟩ h
  simpa [toJson] using h

/-- A group that took no part is told from any that did. -/
theorem Span.toJson_option_injective :
    Function.Injective fun s : Option Span => (s.map toJson).getD .null := by
  rintro (_ | s) (_ | s') h
  · rfl
  · cases h
  · cases h
  · exact congrArg some (Span.toJson_injective h)

theorem PropertyTable.toJson_injective : Function.Injective toJson := by
  have hr := List.map_injective_iff.2 CodePointRange.toJson_injective
  have he : Function.Injective fun (e : Text × List CodePointRange) =>
      (e.1, Json.array (e.2.map CodePointRange.toJson)) := by
    rintro ⟨v, ranges⟩ ⟨v', ranges'⟩ h
    obtain ⟨hv, hj⟩ := Prod.mk.inj h
    exact Prod.ext hv (hr (Json.array.inj hj))
  rintro ⟨entries⟩ ⟨entries'⟩ h
  exact congrArg mk (List.map_injective_iff.2 he (Json.object.inj h))

theorem RegexTest.toJson_injective : Function.Injective toJson := by
  rintro ⟨line, flags, pattern, haystack, submatches⟩ ⟨line', flags', pattern', haystack', submatches'⟩ h
  simp only [toJson, Json.object.injEq, List.cons.injEq, Prod.mk.injEq, Json.number.injEq, Json.string.injEq,
    Json.array.injEq, true_and, and_true] at h
  obtain ⟨rfl, rfl, rfl, rfl, hs⟩ := h
  rw [List.map_injective_iff.2 Span.toJson_option_injective hs]

/-- Nothing of a table or of a test is lost in its text. -/
theorem render_toJson_eq_iff :
    (∀ t t' : PropertyTable, t.toJson.render = t'.toJson.render ↔ t = t') ∧
      ∀ t t' : RegexTest, t.toJson.render = t'.toJson.render ↔
        t.line = t'.line ∧ t.flags = t'.flags ∧ t.pattern = t'.pattern ∧ t.haystack = t'.haystack ∧
          t.submatches = t'.submatches := by
  refine ⟨fun t t' => ?_, fun t t' => ?_⟩
  · rw [Json.render_inj, PropertyTable.toJson_injective.eq_iff]
  · rw [Json.render_inj, RegexTest.toJson_injective.eq_iff]
    obtain ⟨line, flags, pattern, haystack, submatches⟩ := t
    rw [RegexTest.mk.injEq]

end UnicodeTables
