import Mathlib.Data.List.Induction
import Mathlib.Data.Nat.Digits.Defs
import UnicodeTables.Proofs.Itemwise
import UnicodeTables.Proofs.Text.Numerals

/-! # Which texts are numerals

A text of digits is read as the number that these stand for (`value_eq_ofDigits`). Main statements: which
decimal numerals are read (`unsigned?_eq_some_iff`), and which hexadecimal numeral of a number is the one
that is written (`hex_value_eq_iff`). -/

namespace UnicodeTables.Numeral
variable {base d n : Nat} {ds : List Nat} {c : Char} {s : Text}

/-- A character is a digit of the given value, below the base. -/
def IsDigit (base : Nat) (c : Char) (d : Nat) : Prop := digitValue? c = some d ∧ d < base

theorem digits?_eq_some_iff : digits? base s = some ds ↔ List.Forall₂ (IsDigit base) s ds := by
  unfold digits?
  simp only [mapM_eq_some_iff, Option.filter_eq_some_iff, decide_eq_true_eq]
  rfl

theorem lt_of_mem_digits (h : List.Forall₂ (IsDigit base) s ds) : ∀ d ∈ ds, d < base := by
  intro d hd
  obtain ⟨c, -, hc⟩ := exists_of_forall₂ h.flip hd
  exact hc.2

theorem toNat_lt_of_digitValue? (h : digitValue? c = some d) : c.toNat < 128 := by
  have hlt : ∀ {a b : Char}, b.toNat < 128 → a ≤ b → a.toNat < 128 := fun hb h =>
    Nat.lt_of_le_of_lt (UInt32.le_iff_toNat_le.1 h) hb
  unfold digitValue? at h
  split at h
  · rename_i hc
    exact hlt (by decide) hc.2
  · split at h
    · rename_i hc
      exact hlt (by decide) hc.2
    · split at h
      · rename_i hc
        exact hlt (by decide) hc.2
      · cases h

/-- A digit is written in lower case or in upper case. -/
theorem eq_of_digitValue? (h : digitValue? c = some d) : d < 16 ∧ (c = d.digitChar ∨ c = digit d) := by
  have ha : ∀ n < 128, ∀ e ∈ digitValue? (Char.ofNat n),
      e < 16 ∧ (Char.ofNat n = e.digitChar ∨ Char.ofNat n = digit e) := by decide
  have hc := ha c.toNat (toNat_lt_of_digitValue? h) d
  rw [Char.ofNat_toNat] at hc
  exact hc h

/-! ### The value of digits -/

theorem value_eq_ofDigits (base : Nat) (ds : List Nat) : value base ds = Nat.ofDigits base ds.reverse := by
  induction ds using List.reverseRecOn with
  | nil => rfl
  | append_singleton ds d ih =>
    rw [value_append, ih, List.reverse_concat, Nat.ofDigits_cons, Nat.add_comm]

theorem value_cons (base d : Nat) (ds : List Nat) :
    value base (d :: ds) = base ^ ds.length * d + value base ds := by
  rw [value_eq_ofDigits, value_eq_ofDigits, List.reverse_cons, Nat.ofDigits_append, List.length_reverse,
    Nat.ofDigits_singleton, Nat.add_comm]

theorem value_lt_pow (hb : 1 < base) (h : ∀ d ∈ ds, d < base) : value base ds < base ^ ds.length := by
  rw [value_eq_ofDigits, ← List.length_reverse]
  exact Nat.ofDigits_lt_base_pow_length hb fun d hd => h d (List.mem_reverse.1 hd)

/-- A number needs all its digits unless the first one is zero. -/
theorem value_cons_lt_pow_iff (hb : 1 < base) (h : ∀ e ∈ ds, e < base) :
    value base (d :: ds) < base ^ ds.length ↔ d = 0 := by
  have hlt := value_lt_pow hb h
  rw [value_cons]
  constructor
  · intro hd
    by_contra hne
    have : base ^ ds.length ≤ base ^ ds.length * d := Nat.le_mul_of_pos_right _ (Nat.pos_of_ne_zero hne)
    omega
  · rintro rfl
    rwa [Nat.mul_zero, Nat.zero_add]

theorem value_inj {es : List Nat} (hb : 1 < base) (hd : ∀ d ∈ ds, d < base) (he : ∀ e ∈ es, e < base)
    (hl : ds.length = es.length) (h : value base ds = value base es) : ds = es := by
  rw [value_eq_ofDigits, value_eq_ofDigits] at h
  refine List.reverse_injective (Nat.ofDigits_inj_of_len_eq hb ?_ ?_ ?_ h)
  · rw [List.length_reverse, List.length_reverse, hl]
  · exact fun d h => hd d (List.mem_reverse.1 h)
  · exact fun e h => he e (List.mem_reverse.1 h)

/-! ### Hexadecimal -/

/-- Upper-case digits, and no zero before the last four of them that could be left out. -/
structure Canonical (s : Text) : Prop where
  upper : ∀ c ∈ s, c.isDigit ∨ c.isUpper
  first : 4 < s.length → s.head? ≠ some '0'

theorem eq_map_digit_of_upper (h : List.Forall₂ (IsDigit 16) s ds) (hu : ∀ c ∈ s, c.isDigit ∨ c.isUpper) :
    s = ds.map digit := by
  have hd : ∀ d < 16, (d.digitChar.isDigit ∨ d.digitChar.isUpper) → d.digitChar = digit d := by decide
  induction h with
  | nil => rfl
  | @cons c d s ds hc _ ih =>
    rw [List.map_cons, ← ih fun e he => hu e (by simp [he])]
    obtain ⟨hlt, rfl | rfl⟩ := eq_of_digitValue? hc.1
    · rw [hd d hlt (hu _ (by simp))]
    · rfl

theorem length_toDigits_value_cons_le_iff (hb : 1 < base) (h : ∀ e ∈ ds, e < base) (hne : ds ≠ []) :
    (Nat.toDigits base (value base (d :: ds))).length ≤ ds.length ↔ d = 0 := by
  rw [Nat.length_toDigits_le_iff hb (List.length_pos_iff.2 hne)]
  exact value_cons_lt_pow_iff hb h

theorem Canonical.of_hex (n : Nat) : Canonical (hex n) := by
  obtain ⟨ds, hs, hlt, rfl, hl⟩ := exists_digits_hex n
  have hu : ∀ d < 16, (digit d).isDigit ∨ (digit d).isUpper := by decide
  have hz : ∀ d < 16, digit d = '0' → d = 0 := by decide
  rw [hs]
  refine ⟨fun c hc => ?_, fun h4 h0 => ?_⟩
  · obtain ⟨d, hd, rfl⟩ := List.mem_map.1 hc
    exact hu d (hlt d hd)
  · cases ds with
    | nil => simp at h0
    | cons d ds =>
      simp only [List.forall_mem_cons] at hlt
      rw [List.length_map, List.length_cons] at h4
      have hd : d = 0 := hz d hlt.1 (by simpa using h0)
      have := (length_toDigits_value_cons_le_iff (by decide) hlt.2 (by rintro rfl; simp at h4)).2 hd
      rw [List.length_cons] at hl
      change _ = max _ _ at hl
      omega

/-- No zero can be left out, so the digits are as many as are written. -/
theorem Canonical.length_eq (hw : Canonical s) (h : List.Forall₂ (IsDigit 16) s ds) (h4 : 4 ≤ s.length) :
    max 4 (Nat.toDigits 16 (value 16 ds)).length = s.length := by
  have hds := lt_of_mem_digits h
  have hl := h.length_eq
  cases ds with
  | nil =>
    rw [List.length_nil] at hl
    omega
  | cons d ds =>
    have hle : (Nat.toDigits 16 (value 16 (d :: ds))).length ≤ (d :: ds).length :=
      (Nat.length_toDigits_le_iff (by decide) (Nat.zero_lt_succ _)).2 (value_lt_pow (by decide) hds)
    simp only [List.forall_mem_cons] at hds
    rw [List.length_cons] at hl hle
    by_cases h5 : 4 < s.length
    · have hd : d ≠ 0 := by
        rintro rfl
        rw [eq_map_digit_of_upper h hw.upper] at hw
        exact hw.first (by simpa [hl] using h5) rfl
      have := mt (length_toDigits_value_cons_le_iff (by decide) hds.2 (by rintro rfl; simp at hl; omega)).1 hd
      omega
    · omega

/-- Of the hexadecimal numerals of a number with four digits or more, one is written. -/
theorem hex_value_eq_iff (h : List.Forall₂ (IsDigit 16) s ds) (h4 : 4 ≤ s.length) :
    hex (value 16 ds) = s ↔ Canonical s := by
  constructor
  · intro he
    exact he ▸ .of_hex _
  · intro hw
    obtain ⟨es, hx, hlt, hv, hl⟩ := exists_digits_hex (value 16 ds)
    have hds := lt_of_mem_digits h
    have hlen : es.length = ds.length := by
      rw [hl, ← h.length_eq]
      exact hw.length_eq h h4
    rw [hx, value_inj (by decide) hlt hds hlen hv]
    exact (eq_map_digit_of_upper h hw.upper).symm

/-! ### Decimal -/

/-- The number that decimal digits stand for. -/
def decimalValue (s : Text) : Nat := Nat.ofDigits 10 (s.reverse.map fun c => c.toNat - '0'.toNat)

/-- A text is digits, which one `+` may stand before, for a number that is not too large. -/
def IsUnsigned (s : Text) (n : Nat) : Prop :=
  ∃ t, (s = t ∨ s = '+' :: t) ∧ t ≠ [] ∧ (∀ c ∈ t, c.isDigit) ∧ n = decimalValue t ∧ n ≤ maxUnsigned

theorem isDigit_ten_iff : IsDigit 10 c d ↔ c.isDigit ∧ d = c.toNat - '0'.toNat := by
  constructor
  · rintro ⟨h, hlt⟩
    have hd : ∀ d < 10, digit d = d.digitChar ∧ d.digitChar.isDigit ∧ d = d.digitChar.toNat - '0'.toNat := by
      decide
    obtain ⟨-, rfl | rfl⟩ := eq_of_digitValue? h
    · exact (hd d hlt).2
    · rw [(hd d hlt).1]
      exact (hd d hlt).2
  · rintro ⟨hc, rfl⟩
    have hr : '0' ≤ c ∧ c ≤ '9' := by simpa [Char.isDigit, Char.le_def] using hc
    refine ⟨by rw [digitValue?, if_pos hr], ?_⟩
    have : c.toNat ≤ '9'.toNat := UInt32.le_iff_toNat_le.1 hr.2
    have h9 : '9'.toNat = 57 := rfl
    have h0 : '0'.toNat = 48 := rfl
    omega

theorem digits?_ten_eq_some_iff :
    digits? 10 s = some ds ↔ (∀ c ∈ s, c.isDigit) ∧ ds = s.map fun c => c.toNat - '0'.toNat := by
  rw [digits?_eq_some_iff]
  induction s generalizing ds with
  | nil => simp
  | cons c s ih =>
    simp only [List.forall₂_cons_left_iff, isDigit_ten_iff, ih, List.forall_mem_cons, List.map_cons]
    constructor
    · rintro ⟨d, ds', ⟨hc, rfl⟩, ⟨hs, rfl⟩, rfl⟩
      exact ⟨⟨hc, hs⟩, rfl⟩
    · rintro ⟨⟨hc, hs⟩, rfl⟩
      exact ⟨_, _, ⟨hc, rfl⟩, ⟨hs, rfl⟩, rfl⟩

theorem unsigned_digits_eq_some_iff :
    (if s = [] then none else ((digits? 10 s).map (value 10)).filter (· ≤ maxUnsigned)) = some n ↔
      s ≠ [] ∧ (∀ c ∈ s, c.isDigit) ∧ n = decimalValue s ∧ n ≤ maxUnsigned := by
  have hv : value 10 (s.map fun c => c.toNat - '0'.toNat) = decimalValue s := by
    rw [value_eq_ofDigits, decimalValue, List.map_reverse]
  simp only [Option.ite_none_left_eq_some, Option.filter_eq_some_iff, Option.map_eq_some_iff,
    digits?_ten_eq_some_iff, decide_eq_true_eq]
  constructor
  · rintro ⟨hne, ⟨ds, ⟨hs, rfl⟩, rfl⟩, hn⟩
    exact ⟨hne, hs, hv, hn⟩
  · rintro ⟨hne, hs, rfl, hn⟩
    exact ⟨hne, ⟨_, ⟨hs, rfl⟩, hv⟩, hn⟩

theorem unsigned?_eq_some_iff : unsigned? s = some n ↔ IsUnsigned s n := by
  unfold unsigned? IsUnsigned
  dsimp only
  rw [unsigned_digits_eq_some_iff]
  have hplus : ∀ t : Text, (∀ c ∈ t, c.isDigit) → t.head? ≠ some '+' := by
    intro t ht hh
    exact absurd (ht '+' (List.mem_of_head? hh)) (by decide)
  split
  · rename_i hs
    obtain ⟨t, rfl⟩ := List.head?_eq_some_iff.1 hs
    constructor
    · exact fun h => ⟨t, .inr rfl, h⟩
    · rintro ⟨t', rfl | ht, h⟩
      · exact absurd hs (hplus _ h.2.1)
      · rw [ht]
        exact h
  · rename_i hs
    constructor
    · exact fun h => ⟨s, .inl rfl, h⟩
    · rintro ⟨t, rfl | rfl, h⟩
      · exact h
      · exact absurd rfl hs

end UnicodeTables.Numeral
