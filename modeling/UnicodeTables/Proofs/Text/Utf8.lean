import Mathlib.Algebra.Group.Nat.Defs
import Mathlib.Data.Char
import Mathlib.Data.List.Lex
import UnicodeTables.Text.Utf8

/-! # The bytes of a text

The encoding of a character is a first byte that tells its length, and then the last digits of its number in
base 64 (`utf8EncodeChar_eq`). So the order of texts is the order of their bytes (`encode_lt_encode_iff`),
and no character ends in the bytes of another, so that a text can be taken away from the end of bytes
before they are decoded (`decode?_append_encode`). -/

namespace UnicodeTables.Utf8

/-! ### Order -/

section
variable {v w : Nat} {c d : Char} {a b : Text}

/-- The last `k` bytes of the encoding of the number `v`. -/
def tail : Nat → Nat → Bytes
  | 0, _ => []
  | k + 1, v => tail k (v / 64) ++ [UInt8.ofNat (v % 64 + 128)]

/-- The number of bytes after the first. -/
def tailLength (v : Nat) : Nat :=
  if v ≤ 0x7F then 0 else if v ≤ 0x7FF then 1 else if v ≤ 0xFFFF then 2 else 3

/-- The first byte. -/
def lead (v : Nat) : Nat :=
  (if v ≤ 0x7F then 0 else if v ≤ 0x7FF then 0xC0 else if v ≤ 0xFFFF then 0xE0 else 0xF0) +
    v / 64 ^ tailLength v

theorem val_le (c : Char) : c.val.toNat ≤ 0x10FFFF := by
  have h := c.valid
  rw [UInt32.isValidChar, Nat.isValidChar] at h
  omega

theorem utf8EncodeChar_eq (c : Char) :
    String.utf8EncodeChar c =
      UInt8.ofNat (lead c.val.toNat) :: tail (tailLength c.val.toNat) c.val.toNat := by
  have hv := val_le c
  unfold String.utf8EncodeChar lead tailLength
  dsimp only
  generalize c.val.toNat = v at hv ⊢
  split
  · simp [tail]
  · split
    · have h : v / 64 % 32 = v / 64 := by omega
      simp [tail, h, Nat.add_comm]
    · split
      · have h : v / 4096 % 16 = v / 4096 := by omega
        simp [tail, h, Nat.add_comm]
      · have h : v / 262144 % 8 = v / 262144 := by omega
        simp [tail, h, Nat.add_comm, Nat.div_div_eq_div_mul]

/-- Either the first bytes tell two numbers apart, or they have equally many bytes and the digits in the
first byte are the same. -/
theorem lead_cases (h : v < w) (hw : w ≤ 0x10FFFF) :
    lead v < lead w ∧ lead w < 256 ∨
      lead v = lead w ∧ tailLength v = tailLength w ∧ v / 64 ^ tailLength v = w / 64 ^ tailLength v := by
  unfold lead tailLength
  split_ifs <;> simp <;> omega

theorem ofNat_lt_ofNat (h : v < w) (hw : w < 256) : UInt8.ofNat v < UInt8.ofNat w := by
  rw [UInt8.lt_iff_toNat_lt, UInt8.toNat_ofNat', UInt8.toNat_ofNat']
  omega

theorem tail_append_lt (k : Nat) (h : v < w) (hk : v / 64 ^ k = w / 64 ^ k) (s t : Bytes) :
    tail k v ++ s < tail k w ++ t := by
  induction k generalizing v w s t with
  | zero =>
    rw [Nat.pow_zero, Nat.div_one, Nat.div_one] at hk
    omega
  | succ k ih =>
    rw [Nat.pow_succ', ← Nat.div_div_eq_div_mul, ← Nat.div_div_eq_div_mul] at hk
    rw [tail, tail, List.append_assoc, List.append_assoc]
    have hle : v / 64 ≤ w / 64 := Nat.div_le_div_right (Nat.le_of_lt h)
    rcases Nat.lt_or_eq_of_le hle with hq | hq
    · exact ih hq hk _ _
    · -- the last digit is the first that differs
      have hb : UInt8.ofNat (v % 64 + 128) < UInt8.ofNat (w % 64 + 128) :=
        ofNat_lt_ofNat (by omega) (by omega)
      rw [hq]
      exact List.append_left_lt (List.cons_lt_cons_iff.2 (.inl hb))

theorem utf8EncodeChar_append_lt (h : c < d) (s t : Bytes) :
    String.utf8EncodeChar c ++ s < String.utf8EncodeChar d ++ t := by
  have hv : c.val.toNat < d.val.toNat := h
  rw [utf8EncodeChar_eq, utf8EncodeChar_eq, List.cons_append, List.cons_append, List.cons_lt_cons_iff]
  rcases lead_cases hv (val_le d) with ⟨hl, hw⟩ | ⟨hl, ht, hk⟩
  · exact .inl (ofNat_lt_ofNat hl hw)
  · rw [hl, ← ht]
    exact .inr ⟨rfl, tail_append_lt _ hv hk s t⟩

/-- No character's bytes begin those of another. -/
theorem utf8EncodeChar_append_inj {s t : Bytes}
    (h : String.utf8EncodeChar c ++ s = String.utf8EncodeChar d ++ t) : c = d ∧ s = t := by
  rcases lt_trichotomy c d with hcd | rfl | hdc
  · have hlt := utf8EncodeChar_append_lt hcd s t
    rw [h] at hlt
    exact absurd hlt (List.lt_irrefl _)
  · exact ⟨rfl, List.append_cancel_left h⟩
  · have hlt := utf8EncodeChar_append_lt hdc t s
    rw [h] at hlt
    exact absurd hlt (List.lt_irrefl _)

theorem encode_cons (c : Char) (a : Text) : encode (c :: a) = String.utf8EncodeChar c ++ encode a := rfl

theorem encode_lt_encode (h : a < b) : encode a < encode b := by
  induction a generalizing b with
  | nil =>
    cases b with
    | nil => exact absurd h (List.lt_irrefl _)
    | cons d b =>
      rw [encode_cons, utf8EncodeChar_eq]
      exact List.nil_lt_cons ..
  | cons c a ih =>
    cases b with
    | nil => exact absurd h (List.not_lt_nil _)
    | cons d b =>
      rw [encode_cons, encode_cons]
      rcases List.cons_lt_cons_iff.1 h with hc | ⟨rfl, ha⟩
      · exact utf8EncodeChar_append_lt hc ..
      · exact List.append_left_lt (ih ha)

/-- Texts are in the order of their bytes. -/
theorem encode_lt_encode_iff : encode a < encode b ↔ a < b := by
  constructor
  · intro h
    rcases lt_trichotomy a b with hab | rfl | hba
    · exact hab
    · exact absurd h (List.lt_irrefl _)
    · exact absurd h (List.lt_asymm (encode_lt_encode hba))
  · exact encode_lt_encode

end

/-! ### Characters of one byte -/

section
variable {c : Char} {s : Text}

theorem utf8EncodeChar_of_lt (h : c.toNat < 128) : String.utf8EncodeChar c = [UInt8.ofNat c.toNat] := by
  have hv : c.val.toNat ≤ 0x7F := Nat.le_of_lt_succ h
  rw [utf8EncodeChar_eq, lead, tailLength, if_pos hv, if_pos hv, Nat.pow_zero, Nat.div_one, Nat.zero_add]
  rfl

/-- No other character begins with such a byte. -/
theorem exists_lead_of_le (h : 128 ≤ c.toNat) :
    ∃ b bs, String.utf8EncodeChar c = b :: bs ∧ 0x80 ≤ b := by
  refine ⟨_, _, utf8EncodeChar_eq c, ?_⟩
  have hv : 128 ≤ c.val.toNat := h
  have hm := val_le c
  rw [UInt8.le_iff_toNat_le, UInt8.toNat_ofNat']
  generalize c.val.toNat = v at hv hm
  unfold lead tailLength
  show 128 ≤ _
  split_ifs <;> simp <;> omega

theorem length_encode_of_lt (h : ∀ c ∈ s, c.toNat < 128) : (encode s).length = s.length := by
  induction s with
  | nil => rfl
  | cons c s ih =>
    obtain ⟨hc, hs⟩ := List.forall_mem_cons.1 h
    rw [encode_cons, utf8EncodeChar_of_lt hc, List.singleton_append, List.length_cons, ih hs, List.length_cons]

end

/-! ### Text after other bytes -/

section
variable {c d : Char} {a m : Bytes} {s : Text}

theorem length_utf8EncodeChar_pos (c : Char) : 0 < (String.utf8EncodeChar c).length := by
  rw [String.length_utf8EncodeChar]
  exact c.utf8Size_pos

/-- Only the first byte of a character can be a first byte, so no other character ends in its bytes. -/
theorem eq_nil_of_utf8EncodeChar_eq_append (h : String.utf8EncodeChar c = m ++ String.utf8EncodeChar d) :
    m = [] := by
  have hd := length_utf8EncodeChar_pos d
  have hi : m.length < (String.utf8EncodeChar c).length := by
    rw [h, List.length_append]
    omega
  have hg : (String.utf8EncodeChar c)[m.length] = (String.utf8EncodeChar d)[0] := by
    simp [h]
  have hf : (String.utf8EncodeChar c)[m.length].IsUTF8FirstByte := by
    rw [hg]
    exact UInt8.isUTF8FirstByte_getElem_zero_utf8EncodeChar
  exact List.length_eq_zero_iff.1 (UInt8.isUTF8FirstByte_getElem_utf8EncodeChar.1 hf)

theorem exists_encode_of_append_utf8EncodeChar (h : a ++ String.utf8EncodeChar c = encode s) :
    ∃ t, a = encode t := by
  rcases List.eq_nil_or_concat s with rfl | ⟨t, d, rfl⟩
  · have hc := length_utf8EncodeChar_pos c
    have hl := congrArg List.length h
    rw [List.length_append] at hl
    change _ = 0 at hl
    omega
  · have hd : encode [d] = String.utf8EncodeChar d := List.flatMap_singleton ..
    rw [List.concat_eq_append, encode_append, hd] at h
    rcases List.append_eq_append_iff.1 h with ⟨m, ht, hm⟩ | ⟨m, ha, hm⟩
    · obtain rfl := eq_nil_of_utf8EncodeChar_eq_append hm
      exact ⟨t, by rw [ht, List.append_nil]⟩
    · obtain rfl := eq_nil_of_utf8EncodeChar_eq_append hm
      exact ⟨t, by rw [ha, List.append_nil]⟩

theorem decode?_append_utf8EncodeChar (a : Bytes) (c : Char) :
    decode? (a ++ String.utf8EncodeChar c) = (decode? a).map (· ++ [c]) := by
  have hc : encode [c] = String.utf8EncodeChar c := List.flatMap_singleton ..
  cases ha : decode? a with
  | some t =>
    rw [decode?_eq_some_iff.1 ha, ← hc, ← encode_append, decode?_encode]
    rfl
  | none =>
    rw [Option.map_none, Option.eq_none_iff_forall_ne_some]
    intro s h
    obtain ⟨t, rfl⟩ := exists_encode_of_append_utf8EncodeChar (decode?_eq_some_iff.1 h)
    rw [decode?_encode] at ha
    cases ha

/-- Bytes before a text are decoded as they are without it. -/
theorem decode?_append_encode (a : Bytes) (t : Text) :
    decode? (a ++ encode t) = (decode? a).map (· ++ t) := by
  induction t generalizing a with
  | nil => simp [encode]
  | cons c t ih =>
    have hf : ((· ++ t) ∘ (· ++ [c]) : Text → Text) = (· ++ c :: t) := by
      funext s
      simp
    rw [encode_cons, ← List.append_assoc, ih, decode?_append_utf8EncodeChar, Option.map_map, hf]

end

end UnicodeTables.Utf8
