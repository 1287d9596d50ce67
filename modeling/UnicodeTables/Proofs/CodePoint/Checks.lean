import UnicodeTables.Proofs.CodePoint.Grammar
import UnicodeTables.Proofs.Text.Utf8

/-! # Checking a code point byte by byte

A code point can be read by checks one after another: how many bytes there are, that each of them is a digit,
that the digits fit in a word of 32 bits, and that the number is not too large (`parseChecked`). Bytes that
are digits are characters, and six digits fit in a word, so the third check never fails after the first two
(`exists_word_of_passes`). Main statement: this reads exactly the numerals of four to six digits up to the
largest code point (`parse_by_digits`). -/

namespace UnicodeTables

namespace Numeral
variable {base d : Nat} {ds : List Nat} {c : Char} {s : Text}

/-- Puts a digit behind the number `v`, if the result fits in 32 bits. -/
def addDigit? (base : Nat) (v : UInt32) (c : Char) : Option UInt32 :=
  match (digitValue? c).filter (· < base) with
  | some d => if base * v.toNat + d < UInt32.size then some (.ofNat (base * v.toNat + d)) else none
  | none => none

/-- Reads a numeral of one digit or more, which one `+` may stand before, as a word of 32 bits. -/
def word? (base : Nat) (s : Text) : Option UInt32 :=
  let s := if s.head? = some '+' then s.tail else s
  if s = [] then none else s.foldlM (addDigit? base) 0

/-- The digits are added one after another, and no number on the way is larger than the last. -/
theorem foldlM_addDigit? (hb : 0 < base) (h : List.Forall₂ (IsDigit base) s ds)
    (hv : value base ds < UInt32.size) : s.foldlM (addDigit? base) 0 = some (.ofNat (value base ds)) := by
  induction ds using List.reverseRecOn generalizing s with
  | nil =>
    cases h
    rfl
  | append_singleton ds d ih =>
    obtain ⟨s, c, rfl, hs, hc, hd⟩ := forall₂_concat_iff.1 h
    rw [value_append] at hv ⊢
    have hle : value base ds ≤ base * value base ds := Nat.le_mul_of_pos_left _ hb
    have hlt : value base ds < UInt32.size := by omega
    have hw : (UInt32.ofNat (value base ds)).toNat = value base ds := UInt32.toNat_ofNat_of_lt hlt
    have hf : (digitValue? c).filter (· < base) = some d := by
      rw [hc]
      simpa [Option.filter] using hd
    rw [List.foldlM_append, ih hs hlt, Option.bind_eq_bind, Option.bind_some, List.foldlM_cons, addDigit?, hf]
    dsimp only
    rw [hw, if_pos hv]
    rfl

/-! ### Hexadecimal digits -/

def IsHexDigit (c : Char) : Prop := '0' ≤ c ∧ c ≤ '9' ∨ 'A' ≤ c ∧ c ≤ 'F' ∨ 'a' ≤ c ∧ c ≤ 'f'

instance (c : Char) : Decidable (IsHexDigit c) := instDecidableOr

/-- What a hexadecimal digit stands for, in either case. -/
def hexDigit (c : Char) : Nat :=
  if c.isDigit then c.toNat - '0'.toNat else c.toUpper.toNat - 'A'.toNat + 10

/-- The number that hexadecimal digits stand for. -/
def hexValue (s : Text) : Nat := Nat.ofDigits 16 (s.reverse.map hexDigit)

theorem toNat_lt_of_isHexDigit (h : IsHexDigit c) : c.toNat < 128 := by
  have hle : c ≤ 'f' := by
    rcases h with h | h | h
    · exact le_trans h.2 (by decide)
    · exact le_trans h.2 (by decide)
    · exact h.2
  exact Nat.lt_of_le_of_lt (UInt32.le_iff_toNat_le.1 hle) (by decide)

theorem isDigit_sixteen_iff : IsDigit 16 c d ↔ IsHexDigit c ∧ d = hexDigit c := by
  have ha : ∀ n < 128, ∀ d ∈ digitValue? (Char.ofNat n),
      IsHexDigit (Char.ofNat n) ∧ d = hexDigit (Char.ofNat n) := by decide
  have hx : ∀ n < 128, IsHexDigit (Char.ofNat n) →
      digitValue? (Char.ofNat n) = some (hexDigit (Char.ofNat n)) := by decide
  constructor
  · rintro ⟨h, -⟩
    have hc := ha c.toNat (toNat_lt_of_digitValue? h) d
    rw [Char.ofNat_toNat] at hc
    exact hc h
  · rintro ⟨h, rfl⟩
    have hc := hx c.toNat (toNat_lt_of_isHexDigit h)
    rw [Char.ofNat_toNat] at hc
    exact ⟨hc h, (eq_of_digitValue? (hc h)).1⟩

theorem forall₂_isDigit_sixteen_iff :
    List.Forall₂ (IsDigit 16) s ds ↔ (∀ c ∈ s, IsHexDigit c) ∧ ds = s.map hexDigit := by
  induction s generalizing ds with
  | nil => simp
  | cons c s ih =>
    simp only [List.forall₂_cons_left_iff, isDigit_sixteen_iff, ih, List.forall_mem_cons, List.map_cons]
    constructor
    · rintro ⟨d, ds', ⟨hc, rfl⟩, ⟨hs, rfl⟩, rfl⟩
      exact ⟨⟨hc, hs⟩, rfl⟩
    · rintro ⟨⟨hc, hs⟩, rfl⟩
      exact ⟨_, _, ⟨hc, rfl⟩, ⟨hs, rfl⟩, rfl⟩

theorem value_map_hexDigit (s : Text) : value 16 (s.map hexDigit) = hexValue s := by
  rw [value_eq_ofDigits, hexValue, List.map_reverse]

/-! ### Their bytes -/

def isHexByte (b : UInt8) : Bool :=
  0x30 ≤ b && b ≤ 0x39 || 0x41 ≤ b && b ≤ 0x46 || 0x61 ≤ b && b ≤ 0x66

/-- Every other character has a first byte that is no digit. -/
theorem all_isHexByte_utf8EncodeChar : (String.utf8EncodeChar c).all isHexByte ↔ IsHexDigit c := by
  rcases Nat.lt_or_ge c.toNat 128 with h | h
  · have hb : ∀ n < 128, isHexByte (UInt8.ofNat n) ↔ IsHexDigit (Char.ofNat n) := by decide
    have hc := hb c.toNat h
    rw [Char.ofNat_toNat] at hc
    rw [Utf8.utf8EncodeChar_of_lt h, ← hc]
    simp
  · obtain ⟨b, bs, he, hb⟩ := Utf8.exists_lead_of_le h
    have hx : isHexByte b = false := by
      have hn : 128 ≤ b.toNat := UInt8.le_iff_toNat_le.1 hb
      simp [isHexByte, UInt8.le_iff_toNat_le]
      omega
    rw [he, List.all_cons, hx, Bool.false_and]
    constructor
    · rintro ⟨⟩
    · exact fun hc => absurd (toNat_lt_of_isHexDigit hc) (Nat.not_lt.2 h)

theorem all_isHexByte_encode : (Utf8.encode s).all isHexByte ↔ ∀ c ∈ s, IsHexDigit c := by
  simp only [Utf8.encode, List.all_flatMap, List.all_eq_true (l := s), all_isHexByte_utf8EncodeChar]

end Numeral

namespace CodePoint
open Numeral
variable {s : Text} {c : CodePoint} {f : Fault}

/-- There are four to six bytes, and all of them are digits. -/
def passes (s : Text) : Bool :=
  let bytes := Utf8.encode s
  4 ≤ bytes.length && bytes.length ≤ 6 && bytes.all isHexByte

/-- Reads a code point by checks one after another. -/
def parseChecked (s : Text) : Except Fault CodePoint :=
  if passes s then
    match word? 16 s with
    | some w => if w.toNat ≤ max then .ok w.toNat else .error (.invalidCodePoint s)
    | none => .error (.invalidCodePoint s)
  else .error (.invalidCodePoint s)

/-- Four, five or six characters, and all of them are digits. -/
structure IsNumeral (s : Text) : Prop where
  length : s.length = 4 ∨ s.length = 5 ∨ s.length = 6
  digits : ∀ c ∈ s, IsHexDigit c

/-- Bytes may be counted for characters, since a text with other characters than digits does not pass. -/
theorem passes_iff : passes s ↔ IsNumeral s := by
  simp only [passes, Bool.and_eq_true, decide_eq_true_eq, all_isHexByte_encode]
  constructor
  · rintro ⟨hl, hd⟩
    rw [Utf8.length_encode_of_lt fun c hc => toNat_lt_of_isHexDigit (hd c hc)] at hl
    exact ⟨by omega, hd⟩
  · rintro ⟨hl, hd⟩
    rw [Utf8.length_encode_of_lt fun c hc => toNat_lt_of_isHexDigit (hd c hc)]
    exact ⟨by omega, hd⟩

theorem IsNumeral.forall₂ (h : IsNumeral s) : List.Forall₂ (IsDigit 16) s (s.map hexDigit) :=
  forall₂_isDigit_sixteen_iff.2 ⟨h.digits, rfl⟩

/-- Six digits need no more than 24 bits. -/
theorem IsNumeral.hexValue_lt (h : IsNumeral s) : hexValue s < UInt32.size := by
  have hv := value_lt_pow (by decide) (lt_of_mem_digits h.forall₂)
  have hp : 16 ^ (s.map hexDigit).length ≤ 16 ^ 6 := by
    refine Nat.pow_le_pow_right (by decide) ?_
    rw [List.length_map]
    have := h.length
    omega
  rw [value_map_hexDigit] at hv
  exact Nat.lt_of_lt_of_le hv (Nat.le_trans hp (by decide))

theorem IsNumeral.word?_eq (h : IsNumeral s) : word? 16 s = some (.ofNat (hexValue s)) := by
  have hplus : s.head? ≠ some '+' := fun hh =>
    absurd (h.digits '+' (List.mem_of_head? hh)) (by decide)
  have hne : s ≠ [] := by
    rintro rfl
    simpa using h.length
  have hlt := h.hexValue_lt
  rw [← value_map_hexDigit] at hlt ⊢
  unfold word?
  dsimp only
  rw [if_neg hplus, if_neg hne]
  exact foldlM_addDigit? (by decide) h.forall₂ hlt

theorem exists_word_of_passes (h : passes s) : ∃ w, word? 16 s = some w ∧ w.toNat = hexValue s := by
  have hn := passes_iff.1 h
  exact ⟨_, hn.word?_eq, UInt32.toNat_ofNat_of_lt hn.hexValue_lt⟩

theorem parse_eq_ok_iff_isNumeral : parse s = .ok c ↔ IsNumeral s ∧ hexValue s = c ∧ c ≤ 0x10FFFF := by
  rw [parse_eq_ok_iff]
  simp only [forall₂_isDigit_sixteen_iff]
  constructor
  · rintro ⟨ds, ⟨hd, rfl⟩, h4, h6, rfl, hm⟩
    exact ⟨⟨by omega, hd⟩, (value_map_hexDigit s).symm, hm⟩
  · rintro ⟨⟨hl, hd⟩, rfl, hm⟩
    exact ⟨_, ⟨hd, rfl⟩, by omega, by omega, (value_map_hexDigit s).symm, hm⟩

theorem parse_eq_error_iff_isNumeral :
    parse s = .error f ↔ f = .invalidCodePoint s ∧ ¬ (IsNumeral s ∧ hexValue s ≤ 0x10FFFF) := by
  constructor
  · intro h
    refine ⟨fault_of_parse h, fun ⟨hn, hm⟩ => ?_⟩
    cases h.symm.trans (parse_eq_ok_iff_isNumeral.2 ⟨hn, rfl, hm⟩)
  · rintro ⟨rfl, h⟩
    refine parse_eq_error fun c hc => h ?_
    obtain ⟨hn, rfl, hm⟩ := parse_eq_ok_iff_isNumeral.1 hc
    exact ⟨hn, hm⟩

/-- The checks one after another come to the same. -/
theorem parseChecked_eq (s : Text) : parseChecked s = parse s := by
  symm
  rw [parseChecked]
  split
  · rename_i hp
    obtain ⟨w, hw, hv⟩ := exists_word_of_passes hp
    have hn := passes_iff.1 hp
    rw [hw]
    dsimp only
    split
    · rename_i hm
      exact parse_eq_ok_iff_isNumeral.2 ⟨hn, hv.symm, hm⟩
    · rename_i hm
      refine parse_eq_error_iff_isNumeral.2 ⟨rfl, fun h => hm ?_⟩
      rw [hv]
      exact h.2
  · rename_i hp
    exact parse_eq_error_iff_isNumeral.2 ⟨rfl, fun h => hp (passes_iff.2 h.1)⟩

/-- The numerals of four to six hexadecimal digits up to the largest code point are read, each as its value,
and the fault of any other text is that it is no code point. It does not matter that bytes are counted and
not characters, and once a text has passed for its bytes, its digits always make a word. -/
theorem parse_by_digits (s : Text) :
    (∀ c, parse s = .ok c ↔ IsNumeral s ∧ hexValue s = c ∧ c ≤ 0x10FFFF) ∧
    (∀ f, parse s = .error f ↔ f = .invalidCodePoint s ∧ ¬ (IsNumeral s ∧ hexValue s ≤ 0x10FFFF)) ∧
    parse s = parseChecked s ∧ (passes s ↔ IsNumeral s) ∧
    (passes s → ∃ w, word? 16 s = some w ∧ w.toNat = hexValue s) :=
  ⟨fun _ => parse_eq_ok_iff_isNumeral, fun _ => parse_eq_error_iff_isNumeral, (parseChecked_eq s).symm,
    passes_iff, exists_word_of_passes⟩

/-- Six digits that are too large pass all checks but the last. -/
theorem parse_by_digits_too_large :
    let s := "fFFFff".toList
    passes s ∧ (∃ w, word? 16 s = some w ∧ w.toNat = hexValue s) ∧ hexValue s = 0xFFFFFF ∧
      parse s = .error (.invalidCodePoint s) := by
  intro s
  have hp : passes s := by decide
  have hv : hexValue s = 0xFFFFFF := by decide
  obtain ⟨-, hf, -, -, hw⟩ := parse_by_digits s
  refine ⟨hp, hw hp, hv, (hf _).2 ⟨rfl, fun h => ?_⟩⟩
  rw [hv] at h
  exact absurd h.2 (by decide)

/-- A sign is read in a word, but it is no digit. -/
example : word? 16 "+041".toList = some 0x41 ∧ passes "+041".toList = false := by decide

/-- Five bytes that are four characters. -/
example : (Utf8.encode "é041".toList).length = 5 ∧ passes "é041".toList = false := by decide

end CodePoint

end UnicodeTables
