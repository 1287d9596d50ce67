import UnicodeTables.Text.Basic

/-! # UTF-8

Main statement: bytes decode to a text exactly if they are its encoding (`decode?_eq_some_iff`). -/

namespace UnicodeTables.Utf8

def encode (s : Text) : Bytes := s.flatMap String.utf8EncodeChar

/-- The text that the bytes are the encoding of. -/
def decode? (bs : Bytes) : Option Text := (String.fromUTF8? bs.toByteArray).map String.toList

theorem toByteArray_encode (s : Text) : (encode s).toByteArray = s.utf8Encode := rfl

theorem toByteArray_injective {a b : Bytes} (h : a.toByteArray = b.toByteArray) : a = b := by
  have := congrArg ByteArray.data h
  simpa using this

theorem decode?_eq_some_iff {bs : Bytes} {s : Text} : decode? bs = some s ↔ bs = encode s := by
  rw [decode?, String.fromUTF8?]
  constructor
  · intro h
    split at h
    · rename_i hv
      cases h
      refine toByteArray_injective ?_
      rw [toByteArray_encode, String.utf8Encode_toList]
      rfl
    · cases h
  · rintro rfl
    have hv : (encode s).toByteArray.IsValidUTF8 := ⟨s, rfl⟩
    have hs : String.fromUTF8 (encode s).toByteArray hv = String.ofList s := by
      rw [← String.toByteArray_inj, String.toByteArray_ofList]
      rfl
    simp [hv, hs]

theorem decode?_encode (s : Text) : decode? (encode s) = some s := decode?_eq_some_iff.2 rfl

theorem encode_append (s t : Text) : encode (s ++ t) = encode s ++ encode t := List.flatMap_append

end UnicodeTables.Utf8
