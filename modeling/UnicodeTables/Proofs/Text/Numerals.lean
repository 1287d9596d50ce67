import UnicodeTables.Text.Blank
import UnicodeTables.Text.Numeral

/-! # Written numerals

A number is written in digits of its base, most significant first (`exists_digits`), hexadecimal in upper
case (`exists_digits_hex`). Reading a decimal numeral gives the number back if it is small enough
(`unsigned?_decimal`). -/

namespace UnicodeTables.Numeral
variable {base n : Nat} {c : Char} {ds : List Nat}

/-- The upper-case digit with the given value. -/
def digit (d : Nat) : Char := d.digitChar.toUpper

theorem digitValue?_digit : ∀ d < 16, digitValue? (digit d) = some d := by decide

theorem isBlank_digit : ∀ d < 16, isBlank (digit d) = false := by decide

theorem digits?_map_digit (hb : base ≤ 16) (h : ∀ d ∈ ds, d < base) :
    digits? base (ds.map digit) = some ds := by
  induction ds with
  | nil => rfl
  | cons d ds ih =>
    have hlt : d < base := h d (by simp)
    have hd : (digitValue? (digit d)).filter (· < base) = some d := by
      rw [digitValue?_digit d (Nat.lt_of_lt_of_le hlt hb)]
      simpa [Option.filter] using hlt
    have hds := ih fun e he => h e (by simp [he])
    unfold digits? at hds ⊢
    rw [List.map_cons, List.mapM_cons, hd, hds]
    rfl

theorem value_append (base : Nat) (ds : List Nat) (d : Nat) :
    value base (ds ++ [d]) = base * value base ds + d := by
  simp [value]

theorem value_zeros_append (base k : Nat) (ds : List Nat) :
    value base (List.replicate k 0 ++ ds) = value base ds := by
  induction k with
  | zero => rfl
  | succ k ih =>
    rw [List.replicate_succ, List.cons_append]
    unfold value at ih ⊢
    simpa using ih

theorem exists_digits (hb : 1 < base) (n : Nat) :
    ∃ ds, Nat.toDigits base n = ds.map Nat.digitChar ∧ (∀ d ∈ ds, d < base) ∧ value base ds = n := by
  induction n using Nat.strongRecOn with
  | ind n ih =>
    rw [Nat.toDigits_eq_if hb]
    split
    · rename_i h
      exact ⟨[n], rfl, by simpa using h, by simp [value]⟩
    · rename_i h
      obtain ⟨ds, hc, hlt, hv⟩ := ih (n / base) (Nat.div_lt_self (by omega) hb)
      refine ⟨ds ++ [n % base], by simp [hc], fun d hd => ?_, ?_⟩
      · rcases List.mem_append.1 hd with hd | hd
        · exact hlt d hd
        · rw [List.mem_singleton.1 hd]
          exact Nat.mod_lt n (Nat.lt_of_succ_lt hb)
      · rw [value_append, hv, Nat.div_add_mod]

/-! ### Hexadecimal -/

theorem exists_digits_hex (n : Nat) :
    ∃ ds, hex n = ds.map digit ∧ (∀ d ∈ ds, d < 16) ∧ value 16 ds = n ∧
      ds.length = Nat.max 4 (Nat.toDigits 16 n).length := by
  obtain ⟨ds, hc, hlt, hv⟩ := exists_digits (by decide : 1 < 16) n
  refine ⟨List.replicate (4 - ds.length) 0 ++ ds, ?_, fun d hd => ?_, ?_, ?_⟩
  · rw [hex, hc, List.leftpad, List.map_append, List.map_replicate, List.map_map, List.length_map]
    rfl
  · rcases List.mem_append.1 hd with hd | hd
    · rw [List.eq_of_mem_replicate hd]
      decide
    · exact hlt d hd
  · rw [value_zeros_append, hv]
  · rw [hc, List.length_append, List.length_replicate, List.length_map]
    show _ = max 4 _
    omega

theorem exists_digit_of_mem_hex (h : c ∈ hex n) : ∃ d < 16, c = digit d := by
  obtain ⟨ds, hc, hlt, -, -⟩ := exists_digits_hex n
  rw [hc] at h
  obtain ⟨d, hd, rfl⟩ := List.mem_map.1 h
  exact ⟨d, hlt d hd, rfl⟩

theorem exists_cons_hex (n : Nat) : ∃ d < 16, ∃ s, hex n = digit d :: s := by
  obtain ⟨ds, hc, hlt, -, hl⟩ := exists_digits_hex n
  cases ds with
  | nil =>
    rw [List.length_nil] at hl
    have : 4 ≤ 0 := hl ▸ Nat.le_max_left ..
    omega
  | cons d ds => exact ⟨d, hlt d (by simp), _, hc⟩

theorem dot_not_mem_hex (n : Nat) : '.' ∉ hex n := by
  intro h
  obtain ⟨d, hd, he⟩ := exists_digit_of_mem_hex h
  exact (by decide : ∀ d < 16, '.' ≠ digit d) d hd he

/-! ### Decimal -/

theorem exists_digits_decimal (n : Nat) :
    ∃ ds, decimal n = ds.map digit ∧ (∀ d ∈ ds, d < 10) ∧ value 10 ds = n := by
  obtain ⟨ds, hc, hlt, hv⟩ := exists_digits (by decide : 1 < 10) n
  have hd : ∀ d < 10, d.digitChar = digit d := by decide
  refine ⟨ds, ?_, hlt, hv⟩
  rw [decimal, hc]
  exact List.map_congr_left fun d h => hd d (hlt d h)

theorem exists_digit_of_mem_decimal (h : c ∈ decimal n) : ∃ d < 10, c = digit d := by
  obtain ⟨ds, hc, hlt, -⟩ := exists_digits_decimal n
  rw [hc] at h
  obtain ⟨d, hd, rfl⟩ := List.mem_map.1 h
  exact ⟨d, hlt d hd, rfl⟩

theorem isBlank_of_mem_decimal (h : c ∈ decimal n) : isBlank c = false := by
  obtain ⟨d, hd, rfl⟩ := exists_digit_of_mem_decimal h
  exact isBlank_digit d (by omega)

theorem trim_decimal (n : Nat) : (decimal n).trim = decimal n :=
  Text.trim_eq_self ⟨fun _ hc => isBlank_of_mem_decimal (List.mem_of_head? hc),
    fun _ hc => isBlank_of_mem_decimal (List.mem_of_getLast? hc)⟩

theorem unsigned?_decimal (h : n ≤ maxUnsigned) : unsigned? (decimal n) = some n := by
  obtain ⟨ds, hc, hlt, hv⟩ := exists_digits_decimal n
  have hne : decimal n ≠ [] := Nat.toDigits_ne_nil
  have hplus : (decimal n).head? ≠ some '+' := by
    intro hh
    obtain ⟨d, hd, he⟩ := exists_digit_of_mem_decimal (List.mem_of_head? hh)
    exact (by decide : ∀ d < 10, '+' ≠ digit d) d hd he
  unfold unsigned?
  dsimp only
  rw [if_neg hplus, if_neg hne, hc, digits?_map_digit (by decide) hlt, Option.map_some, hv]
  simpa [Option.filter] using h

end UnicodeTables.Numeral
