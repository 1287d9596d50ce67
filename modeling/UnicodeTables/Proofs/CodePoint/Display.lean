import UnicodeTables.Proofs.CodePoint.Grammar

/-! # Reading written code points

Reading a written code point gives it back (`CodePoint.parse_hex`). So a valid range is what its written
form is read as (`CodePointRange.parse_display`). -/

namespace UnicodeTables

theorem CodePoint.parse_hex {n : CodePoint} (h : n ≤ max) : parse (Numeral.hex n) = .ok n := by
  obtain ⟨ds, hc, hlt, hv, hl⟩ := Numeral.exists_digits_hex n
  have hd : List.Forall₂ (Numeral.IsDigit 16) (Numeral.hex n) ds := by
    rw [hc]
    exact Numeral.digits?_eq_some_iff.1 (Numeral.digits?_map_digit (Nat.le_refl 16) hlt)
  have h6 : (Nat.toDigits 16 n).length ≤ 6 :=
    (Nat.length_toDigits_le_iff (by decide) (by decide)).2 (Nat.lt_of_le_of_lt h (by decide))
  refine parse_eq_ok_iff.2 ⟨ds, hd, ?_, ?_, hv.symm, h⟩
  · rw [hd.length_eq, hl]
    exact Nat.le_max_left ..
  · rw [hd.length_eq, hl]
    exact Nat.max_le.2 ⟨by decide, h6⟩

namespace CodePointRange
variable {r : CodePointRange} {c : Char}

theorem display_single (a : CodePoint) : display ⟨a, a⟩ = Numeral.hex a := if_pos (beq_self_eq_true a)

theorem display_of_ne {a b : CodePoint} (h : a ≠ b) :
    display ⟨a, b⟩ = Numeral.hex a ++ "..".toList ++ Numeral.hex b := if_neg (by simpa [isSingle] using h)

theorem spells_display (h : r.Valid) : Spells r.display r := by
  obtain ⟨a, b⟩ := r
  have hb : CodePoint.parse (Numeral.hex b) = .ok b := CodePoint.parse_hex h.2
  by_cases hab : a = b
  · subst hab
    rw [display_single]
    exact .single hb
  · rw [display_of_ne hab]
    exact .bounds (CodePoint.parse_hex (Nat.le_trans h.1 h.2)) hb h.1

theorem parse_display (h : r.Valid) : parse r.display = .ok r := (spells_display h).parse_eq

/-- A written range is made of digits and dots. -/
theorem mem_display (h : c ∈ r.display) : c = '.' ∨ ∃ d < 16, c = Numeral.digit d := by
  unfold display at h
  split at h
  · exact .inr (Numeral.exists_digit_of_mem_hex h)
  · simp only [bounds, List.mem_append] at h
    rcases h with (h | h) | h
    · exact .inr (Numeral.exists_digit_of_mem_hex h)
    · exact .inl (by simpa using h)
    · exact .inr (Numeral.exists_digit_of_mem_hex h)

theorem exists_cons_display (r : CodePointRange) : ∃ d < 16, ∃ s, r.display = Numeral.digit d :: s := by
  obtain ⟨d, hd, s, hs⟩ := Numeral.exists_cons_hex r.first
  unfold display
  split
  · exact ⟨d, hd, s, hs⟩
  · exact ⟨d, hd, s ++ "..".toList ++ Numeral.hex r.last, by rw [bounds, hs]; rfl⟩

end CodePointRange

end UnicodeTables
