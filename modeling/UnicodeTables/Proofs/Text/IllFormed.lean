import UnicodeTables.Proofs.Text.Lines
import UnicodeTables.Proofs.Text.Utf8

/-! # Bytes that are no text

Bytes are text up to some place and from there on begin with no character, or they are text as a whole
(`exists_breaksAfter`). There is one such place (`BreaksAfter.unique`). A line feed is never part of an
ill-formed sequence, so the place is in the first line that is no text of its own
(`exists_first_line`), and data are text exactly if their lines are (`exists_encode_iff_lines`). -/

namespace UnicodeTables.Utf8
variable {before after before' after' bs raw : Bytes} {s t : Text}

/-- An ill-formed sequence follows the bytes `before`: these are text, and what comes `after` them does
not begin with a character. -/
structure BreaksAfter (before after : Bytes) : Prop where
  text : ∃ s, before = encode s
  nonempty : after ≠ []
  noChar : ∀ c rest, after ≠ String.utf8EncodeChar c ++ rest

theorem exists_breaksAfter (bs : Bytes) :
    (∃ s, bs = encode s) ∨ ∃ before after, bs = before ++ after ∧ BreaksAfter before after := by
  induction hk : bs.length using Nat.strongRecOn generalizing bs with
  | _ k ih =>
    by_cases hc : ∃ c rest, bs = String.utf8EncodeChar c ++ rest
    · obtain ⟨c, rest, rfl⟩ := hc
      have hlt : rest.length < k := by
        rw [← hk, List.length_append]
        have := length_utf8EncodeChar_pos c
        omega
      rcases ih _ hlt rest rfl with ⟨s, rfl⟩ | ⟨before, after, rfl, ⟨s, rfl⟩, hn, hc⟩
      · exact .inl ⟨c :: s, rfl⟩
      · exact .inr ⟨_, after, (List.append_assoc ..).symm, ⟨c :: s, rfl⟩, hn, hc⟩
    · by_cases hn : bs = []
      · exact .inl ⟨[], hn⟩
      · refine .inr ⟨[], bs, rfl, ⟨[], rfl⟩, hn, fun c rest h => ?_⟩
        exact hc ⟨c, rest, h⟩

/-- What two texts have in common is the same if no character follows it in either. -/
theorem encode_append_inj (h : encode s ++ after = encode t ++ after')
    (ha : ∀ c rest, after ≠ String.utf8EncodeChar c ++ rest)
    (ha' : ∀ c rest, after' ≠ String.utf8EncodeChar c ++ rest) : s = t ∧ after = after' := by
  induction s generalizing t with
  | nil =>
    cases t with
    | nil => exact ⟨rfl, h⟩
    | cons d t =>
      rw [encode_cons, List.append_assoc] at h
      exact absurd h (ha _ _)
  | cons c s ih =>
    cases t with
    | nil =>
      rw [encode_cons, List.append_assoc] at h
      exact absurd h.symm (ha' _ _)
    | cons d t =>
      rw [encode_cons, encode_cons, List.append_assoc, List.append_assoc] at h
      obtain ⟨rfl, ht⟩ := utf8EncodeChar_append_inj h
      obtain ⟨rfl, hr⟩ := ih ht
      exact ⟨rfl, hr⟩

theorem BreaksAfter.unique (h : BreaksAfter before after) (h' : BreaksAfter before' after')
    (he : before ++ after = before' ++ after') : before = before' := by
  obtain ⟨s, rfl⟩ := h.text
  obtain ⟨t, rfl⟩ := h'.text
  rw [(encode_append_inj he h.noChar h'.noChar).1]

theorem nil_ne_utf8EncodeChar_append (c : Char) (rest : Bytes) : [] ≠ String.utf8EncodeChar c ++ rest := by
  intro h
  have hl := congrArg List.length h
  rw [List.length_append, List.length_nil] at hl
  have := length_utf8EncodeChar_pos c
  omega

theorem BreaksAfter.ne_encode (h : BreaksAfter before after) (t : Text) : before ++ after ≠ encode t := by
  obtain ⟨s, rfl⟩ := h.text
  intro he
  rw [← List.append_nil (encode t)] at he
  exact h.nonempty (encode_append_inj he h.noChar nil_ne_utf8EncodeChar_append).2

/-- A character has at most four bytes. -/
theorem noChar_iff (hn : after ≠ []) :
    (∀ c rest, after ≠ String.utf8EncodeChar c ++ rest) ↔
      ∀ k ∈ [1, 2, 3, 4], decode? (after.take k) = none := by
  constructor
  · intro h k hk
    rw [Option.eq_none_iff_forall_ne_some]
    intro s hs
    have he := decode?_eq_some_iff.1 hs
    cases s with
    | nil =>
      change after.take k = [] at he
      rw [List.take_eq_nil_iff] at he
      rcases he with rfl | he
      · simp at hk
      · exact hn he
    | cons c s =>
      refine h c (encode s ++ after.drop k) ?_
      rw [← List.append_assoc, ← encode_cons, ← he, List.take_append_drop]
  · rintro h c rest rfl
    have hl : (String.utf8EncodeChar c).length ∈ [1, 2, 3, 4] := by
      rw [String.length_utf8EncodeChar]
      have := c.utf8Size_pos
      have := c.utf8Size_le_four
      simp only [List.mem_cons, List.not_mem_nil, or_false]
      omega
    have hc : String.utf8EncodeChar c = encode [c] := (List.flatMap_singleton ..).symm
    have hd := h _ hl
    rw [List.take_left, hc, decode?_encode] at hd
    cases hd

instance (before after : Bytes) : Decidable (BreaksAfter before after) :=
  decidable_of_iff ((decode? before).isSome ∧ after ≠ [] ∧
      ∀ k ∈ ([1, 2, 3, 4] : List Nat), (decode? (after.take k)).isNone) <| by
    simp only [Option.isSome_iff_exists, decode?_eq_some_iff, Option.isNone_iff_eq_none]
    exact ⟨fun ⟨ht, hn, hc⟩ => ⟨ht, hn, (noChar_iff hn).2 hc⟩,
      fun ⟨ht, hn, hc⟩ => ⟨ht, hn, (noChar_iff hn).1 hc⟩⟩

/-! ### Lines -/

theorem flatten_map_encode (texts : List Text) : (texts.map encode).flatten = encode texts.flatten := by
  induction texts with
  | nil => rfl
  | cons s texts ih => rw [List.map_cons, List.flatten_cons, List.flatten_cons, encode_append, ih]

theorem exists_first_not_text (raws : List Bytes) :
    (∃ texts : List Text, raws = texts.map encode) ∨
      ∃ (texts : List Text) (raw : Bytes) (left : List Bytes), raws = texts.map encode ++ raw :: left ∧
        ∀ t, raw ≠ encode t := by
  induction raws with
  | nil => exact .inl ⟨[], rfl⟩
  | cons raw raws ih =>
    by_cases hr : ∃ t, raw = encode t
    · obtain ⟨t, rfl⟩ := hr
      rcases ih with ⟨texts, rfl⟩ | ⟨texts, raw', left, rfl, hn⟩
      · exact .inl ⟨t :: texts, rfl⟩
      · exact .inr ⟨t :: texts, raw', left, rfl, hn⟩
    · exact .inr ⟨[], raw, raws, rfl, fun t ht => hr ⟨t, ht⟩⟩

/-- What a line that is no text has after its text does not begin with a character, whatever comes next. -/
theorem BreaksAfter.append_left {left : Bytes} (h : BreaksAfter before after)
    (hl : left = [] ∨ after.getLast? = some Bytes.lineFeed) : BreaksAfter before (after ++ left) := by
  refine ⟨h.text, by simp [h.nonempty], fun c rest he => ?_⟩
  rcases List.append_eq_append_iff.1 he with ⟨m, hc, -⟩ | ⟨m, ha, -⟩
  · rcases hl with rfl | hl
    · rw [List.append_nil] at he
      exact h.noChar c rest he
    -- The character would run over the line feed, so it is the line feed, and nothing is left to run over.
    · obtain ⟨a, rfl⟩ := List.getLast?_eq_some_iff.1 hl
      have hn : c = '\n' := lineFeed_mem_utf8EncodeChar_iff.1 (by simp [hc])
      have hlen := congrArg List.length hc
      rw [hn, List.length_append, List.length_append] at hlen
      change 1 = a.length + 1 + m.length at hlen
      obtain rfl : m = [] := List.length_eq_zero_iff.1 (by omega)
      rw [List.append_nil] at hc
      exact h.noChar c [] (by rw [hc, List.append_nil])
  · exact h.noChar c m ha

/-- The first line that is no text has the first ill-formed sequence of the data. -/
theorem exists_breaksAfter_of_lines {texts : List Text} {left : List Bytes}
    (h : Bytes.lines bs = texts.map encode ++ raw :: left) (hr : ∀ t, raw ≠ encode t) :
    ∃ before after, bs = before ++ after ∧ BreaksAfter before after ∧
      before.count Bytes.lineFeed = texts.length := by
  obtain ⟨t, ht⟩ | ⟨before, after, rfl, hb⟩ := exists_breaksAfter raw
  · exact absurd ht (hr t)
  · have hd : bs = encode texts.flatten ++ before ++ (after ++ left.flatten) := by
      rw [← Bytes.flatten_lines bs, h, List.flatten_append, flatten_map_encode]
      simp only [List.flatten_cons, List.append_assoc]
    have hl : left.flatten = [] ∨ after.getLast? = some Bytes.lineFeed := by
      cases left with
      | nil => exact .inl rfl
      | cons l left =>
        have h' : Bytes.lines bs = (texts.map encode ++ [before ++ after]) ++ l :: left := by
          rw [h, List.append_assoc, List.singleton_append]
        have hm : before ++ after ∈ texts.map encode ++ [before ++ after] :=
          List.mem_append_right _ (List.mem_singleton.2 rfl)
        obtain ⟨a, -, ha⟩ := Bytes.exists_of_mem_before h' hm
        refine .inr ?_
        rw [← List.getLast?_append_of_ne_nil before hb.nonempty, ha, List.getLast?_concat]
    have hc : before.count Bytes.lineFeed = 0 := by
      have hm : before ++ after ∈ Bytes.lines bs := by
        rw [h]
        exact List.mem_append_right _ List.mem_cons_self
      exact List.count_eq_zero.2 (Bytes.not_mem_of_append_mem_lines hm hb.nonempty)
    obtain ⟨s, hs⟩ := hb.text
    refine ⟨_, _, hd, ?_, ?_⟩
    · have hb' := hb.append_left hl
      exact ⟨⟨texts.flatten ++ s, by rw [hs, encode_append]⟩, hb'.nonempty, hb'.noChar⟩
    · rw [List.count_append, hc, ← flatten_map_encode, Bytes.count_flatten h, List.length_map, Nat.add_zero]

/-- Data are text exactly if each of their lines is. -/
theorem exists_encode_iff_lines :
    (∃ t, bs = encode t) ↔ ∃ texts : List Text, Bytes.lines bs = texts.map encode := by
  constructor
  · rintro ⟨t, ht⟩
    rcases exists_first_not_text (Bytes.lines bs) with hl | ⟨texts, raw, left, hl, hr⟩
    · exact hl
    · obtain ⟨before, after, hd, hb, -⟩ := exists_breaksAfter_of_lines hl hr
      exact absurd (hd.symm.trans ht) (hb.ne_encode t)
  · rintro ⟨texts, hl⟩
    exact ⟨texts.flatten, by rw [← Bytes.flatten_lines bs, hl, flatten_map_encode]⟩

/-- The first ill-formed sequence is in the first line that is no text, and the lines before it are told by
the line feeds before it. -/
theorem BreaksAfter.exists_first_line (h : BreaksAfter before after) :
    ∃ (texts : List Text) (raw : Bytes) (left : List Bytes),
      Bytes.lines (before ++ after) = texts.map encode ++ raw :: left ∧ (∀ t, raw ≠ encode t) ∧
        texts.length = before.count Bytes.lineFeed := by
  rcases exists_first_not_text (Bytes.lines (before ++ after)) with hl | ⟨texts, raw, left, hl, hr⟩
  · obtain ⟨t, ht⟩ := exists_encode_iff_lines.2 hl
    exact absurd ht (h.ne_encode t)
  · obtain ⟨before', after', hd, hb, hc⟩ := exists_breaksAfter_of_lines hl hr
    exact ⟨texts, raw, left, hl, hr, by rw [h.unique hb hd, hc]⟩

end UnicodeTables.Utf8
