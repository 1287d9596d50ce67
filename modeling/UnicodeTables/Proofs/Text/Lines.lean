import UnicodeTables.Text.Blank
import UnicodeTables.Text.Lines
import UnicodeTables.Text.Utf8

/-! # Lines of text

Cutting bytes into lines commutes with putting whole lines together (`Bytes.lines_append_of_ends`), and what
is laid out like lines is cut into these (`Bytes.Laid.lines_flatten`). A line feed is one byte that nothing
else has in its encoding (`Utf8.lineFeed_mem_encode_iff`), so lines that are written one after another are
the lines that are read (`Utf8.lines_encode`). -/

namespace UnicodeTables

namespace Bytes
variable {a b c d raw data : Bytes} {raws raws' : List Bytes}

theorem lines_append_of_ends (h : a = [] ∨ a.getLast? = some lineFeed) (b : Bytes) :
    lines (a ++ b) = lines a ++ lines b := by
  rcases h with rfl | h
  · rfl
  · obtain ⟨a', rfl⟩ := List.getLast?_eq_some_iff.1 h
    rw [List.append_assoc, List.singleton_append, lines_append]

theorem lines_append_lineFeed (h : lineFeed ∉ a) (b : Bytes) :
    lines (a ++ lineFeed :: b) = (a ++ [lineFeed]) :: lines b := by
  induction a with
  | nil => simp [lines]
  | cons x a ih =>
    simp only [List.mem_cons, not_or] at h
    rw [List.cons_append, lines, if_neg (Ne.symm h.1), ih h.2]
    rfl

theorem lines_of_not_mem (h : lineFeed ∉ a) (ha : a ≠ []) : lines a = [a] := by
  induction a with
  | nil => exact absurd rfl ha
  | cons x a ih =>
    simp only [List.mem_cons, not_or] at h
    rw [lines, if_neg (Ne.symm h.1)]
    cases a with
    | nil => rfl
    | cons y a => rw [ih h.2 (List.cons_ne_nil y a)]

/-- Lines as they can follow one another: each has the one line feed that ends it, but a last line may
lack it. -/
inductive Laid : List Bytes → Prop
  | nil : Laid []
  | last {a : Bytes} (ha : lineFeed ∉ a) (hn : a ≠ []) : Laid [a]
  | cons {a : Bytes} {raws : List Bytes} (ha : lineFeed ∉ a) (h : Laid raws) :
      Laid ((a ++ [lineFeed]) :: raws)

theorem laid_lines (data : Bytes) : Laid (lines data) := by
  induction data with
  | nil => exact .nil
  | cons x data ih =>
    rw [lines]
    split
    · rename_i hx
      rw [hx]
      exact .cons (a := []) List.not_mem_nil ih
    · rename_i hx
      have hc : ∀ {a : Bytes}, lineFeed ∉ a → lineFeed ∉ x :: a := by
        intro a ha hm
        rcases List.mem_cons.1 hm with rfl | hm
        · exact hx rfl
        · exact ha hm
      generalize lines data = raws at ih
      cases ih with
      | nil => exact .last (hc List.not_mem_nil) (List.cons_ne_nil x [])
      | last ha hn => exact .last (hc ha) (List.cons_ne_nil x _)
      | cons ha h => exact .cons (a := x :: _) (hc ha) h

theorem Laid.head_ne_nil (h : Laid (raw :: raws)) : raw ≠ [] := by
  cases h with
  | last ha hn => exact hn
  | cons ha h => simp

theorem Laid.exists_head (h : Laid (raw :: raws)) (hn : raws ≠ []) :
    ∃ a, lineFeed ∉ a ∧ raw = a ++ [lineFeed] := by
  cases h with
  | last ha _ => exact absurd rfl hn
  | @cons a _ ha h => exact ⟨a, ha, rfl⟩

theorem Laid.tail (h : Laid (raw :: raws)) : Laid raws := by
  cases h with
  | last ha hn => exact .nil
  | cons ha h => exact h

theorem Laid.lines_flatten (h : Laid raws) : lines raws.flatten = raws := by
  induction h with
  | nil => rfl
  | last ha hn => rw [List.flatten_cons, List.flatten_nil, List.append_nil, lines_of_not_mem ha hn]
  | cons ha h ih =>
    rw [List.flatten_cons, List.append_assoc, List.singleton_append, lines_append_lineFeed ha, ih]

/-- What comes before the end of a line can be anything without a line feed. -/
theorem Laid.replace (h : Laid ((a ++ c) :: raws)) (hc : c ≠ []) (hd : lineFeed ∉ d)
    (hn : raws = [] → raws' = []) (h' : Laid raws') : Laid ((d ++ c) :: raws') := by
  obtain ⟨e, x, rfl⟩ := (List.eq_nil_or_concat c).resolve_left hc
  rw [List.concat_eq_append, ← List.append_assoc] at h ⊢
  generalize hl : a ++ e ++ [x] = l at h
  cases h with
  | last ha _ =>
    subst hl
    rw [hn rfl]
    refine .last ?_ (by simp)
    simp only [List.mem_append, not_or] at ha ⊢
    exact ⟨⟨hd, ha.1.2⟩, ha.2⟩
  | cons ha h =>
    obtain ⟨rfl, hx⟩ := List.append_inj' hl rfl
    rw [hx]
    refine .cons ?_ h'
    simp only [List.mem_append, not_or] at ha ⊢
    exact ⟨hd, ha.2⟩

/-- A line has no line feed but the one that ends it. -/
theorem exists_of_mem_lines (h : raw ∈ lines data) :
    ∃ a, lineFeed ∉ a ∧ (raw = a ∨ raw = a ++ [lineFeed]) := by
  have hl := laid_lines data
  generalize lines data = raws at h hl
  induction hl with
  | nil => cases h
  | @last a ha hn => exact ⟨a, ha, .inl (List.mem_singleton.1 h)⟩
  | @cons a raws ha _ ih =>
    rcases List.mem_cons.1 h with rfl | h
    · exact ⟨a, ha, .inr rfl⟩
    · exact ih h

/-- Only the last byte of a line may be a line feed. -/
theorem not_mem_of_append_mem_lines (h : a ++ b ∈ lines data) (hb : b ≠ []) : lineFeed ∉ a := by
  obtain ⟨l, hl, he⟩ := exists_of_mem_lines h
  rcases he with rfl | he
  · exact fun hm => hl (List.mem_append_left b hm)
  · obtain ⟨b', x, rfl⟩ := (List.eq_nil_or_concat b).resolve_left hb
    rw [List.concat_eq_append, ← List.append_assoc] at he
    obtain ⟨rfl, -⟩ := List.append_inj' he rfl
    exact fun hm => hl (List.mem_append_left b' hm)

/-- A line that is not the last one ends with its line feed. -/
theorem exists_of_mem_before {before after : List Bytes} (h : lines data = before ++ raw :: after)
    {l : Bytes} (hl : l ∈ before) : ∃ a, lineFeed ∉ a ∧ l = a ++ [lineFeed] := by
  have hd := laid_lines data
  rw [h] at hd
  clear h
  induction before with
  | nil => cases hl
  | cons b before ih =>
    rcases List.mem_cons.1 hl with rfl | hl
    · exact hd.exists_head (by simp)
    · exact ih hl hd.tail

/-- As many line feeds come before a line as there are lines before it. -/
theorem count_flatten {before after : List Bytes} (h : lines data = before ++ raw :: after) :
    before.flatten.count lineFeed = before.length := by
  have hl : ∀ l ∈ before, l.count lineFeed = 1 := by
    intro l hl
    obtain ⟨a, ha, rfl⟩ := exists_of_mem_before h hl
    rw [List.count_append, List.count_eq_zero.2 ha]
    rfl
  rw [List.count_flatten, List.map_congr_left hl, List.map_const', List.sum_replicate_nat, Nat.mul_one]

/-- The data with a carriage return before each line feed. -/
def crlf (bs : Bytes) : Bytes := bs.flatMap fun b => if b = lineFeed then [0x0D, lineFeed] else [b]

theorem crlf_lineFeed_cons (bs : Bytes) : crlf (lineFeed :: bs) = 0x0D :: lineFeed :: crlf bs := rfl

theorem crlf_cons {x : UInt8} (h : x ≠ lineFeed) (bs : Bytes) : crlf (x :: bs) = x :: crlf bs := by
  rw [crlf, List.flatMap_cons, if_neg h]
  rfl

theorem crlf_append_of_not_mem (h : lineFeed ∉ a) (bs : Bytes) : crlf (a ++ bs) = a ++ crlf bs := by
  induction a with
  | nil => rfl
  | cons x a ih =>
    simp only [List.mem_cons, not_or] at h
    rw [List.cons_append, crlf_cons (Ne.symm h.1), ih h.2, List.cons_append]

/-- The lines are the same but for their ends. -/
theorem lines_crlf (data : Bytes) : lines (crlf data) = (lines data).map crlf := by
  induction data with
  | nil => rfl
  | cons x data ih =>
    by_cases hx : x = lineFeed
    · subst hx
      have hr : (0x0D : UInt8) ≠ lineFeed := by decide
      rw [crlf_lineFeed_cons, lines, if_neg hr, lines, if_pos rfl, lines, if_pos rfl, ih]
      rfl
    · rw [crlf_cons hx, lines, if_neg hx, lines, if_neg hx, ih]
      cases lines data with
      | nil => exact congrArg (fun l => [l]) (crlf_cons hx []).symm
      | cons l ls => exact congrArg (· :: ls.map crlf) (crlf_cons hx l).symm

end Bytes

namespace Text
variable {s : Text}

theorem chomp_cons {c : Char} (hs : s ≠ []) (h : c = '\r' → s ≠ ['\n']) :
    chomp (c :: s) = c :: chomp s := by
  rw [chomp]
  · rintro - rfl
    exact hs rfl
  · rintro rfl rfl
    exact h rfl rfl

theorem chomp_append_tab (a s : Text) : chomp (a ++ '\t' :: s) = a ++ '\t' :: chomp s := by
  induction a with
  | nil =>
    rw [List.nil_append, chomp]
    · rfl
    · simp
    · simp
  | cons c a ih =>
    rw [List.cons_append, chomp_cons (by simp), ih, List.cons_append]
    rintro - h
    cases a <;> simp at h

/-- What is taken away from the end of a line is blank. -/
theorem exists_chomp (s : Text) : ∃ b, (∀ c ∈ b, isBlank c) ∧ s = chomp s ++ b := by
  induction s with
  | nil => exact ⟨[], by simp, rfl⟩
  | cons c s ih =>
    rw [chomp.eq_def]
    split
    · rename_i h
      cases h
    · rename_i h
      cases h
      exact ⟨['\n'], by simp [isBlank], rfl⟩
    · rename_i h
      cases h
      exact ⟨['\r', '\n'], by simp [isBlank], rfl⟩
    · rename_i h
      cases h
      obtain ⟨b, hb, hs⟩ := ih
      exact ⟨b, hb, congrArg (c :: ·) hs⟩

/-- Only the line feed is taken away if no carriage return stands before it. -/
theorem chomp_concat_newline (h : s.getLast? ≠ some '\r') : chomp (s ++ ['\n']) = s := by
  induction s with
  | nil => rfl
  | cons c s ih =>
    rw [List.cons_append, chomp_cons (by simp)]
    · cases s with
      | nil => rfl
      | cons d s => rw [ih (by rwa [List.getLast?_cons_cons] at h)]
    · rintro rfl hs
      obtain rfl : s = [] := by simpa using hs
      exact h rfl

theorem newline_not_mem_chomp_concat (h : '\n' ∉ s) : '\n' ∉ chomp (s ++ ['\n']) := by
  induction s with
  | nil => decide
  | cons c s ih =>
    simp only [List.mem_cons, not_or] at h
    rw [List.cons_append]
    by_cases hc : c = '\r' ∧ s = []
    · obtain ⟨rfl, rfl⟩ := hc
      decide
    · rw [chomp_cons (by simp)]
      · simp only [List.mem_cons, not_or]
        exact ⟨h.1, ih h.2⟩
      · rintro rfl hs
        refine hc ⟨rfl, ?_⟩
        cases s with
        | nil => rfl
        | cons d s => simp at hs

end Text

namespace Utf8
variable {s : Text}

theorem lineFeed_mem_utf8EncodeChar_iff {c : Char} :
    Bytes.lineFeed ∈ String.utf8EncodeChar c ↔ c = '\n' := by
  have hc : c = '\n' ↔ c.val.toNat = 10 := by
    rw [← Char.val_inj, ← UInt32.toNat_inj]
    rfl
  have hb : ∀ k, Bytes.lineFeed = UInt8.ofNat k ↔ k % 256 = 10 := fun k => by
    rw [← UInt8.toNat_inj, UInt8.toNat_ofNat']
    exact eq_comm
  have hv := c.val.toNat_lt
  rw [hc]
  unfold String.utf8EncodeChar
  dsimp only
  -- all bytes but those of a character below 128 are at least 128
  split
  · simp only [List.mem_singleton, hb]
    omega
  · split
    · simp only [List.mem_cons, List.not_mem_nil, or_false, hb]
      omega
    · split
      · simp only [List.mem_cons, List.not_mem_nil, or_false, hb]
        omega
      · simp only [List.mem_cons, List.not_mem_nil, or_false, hb]
        omega

theorem lineFeed_mem_encode_iff : Bytes.lineFeed ∈ encode s ↔ '\n' ∈ s := by
  simp only [encode, List.mem_flatMap, lineFeed_mem_utf8EncodeChar_iff, exists_eq_right]

theorem encode_inj {t : Text} : encode s = encode t ↔ s = t := by
  constructor
  · intro h
    have := decode?_encode s
    rw [h, decode?_encode] at this
    exact (Option.some.inj this).symm
  · rintro rfl
    rfl

theorem encode_eq_nil_iff : encode s = [] ↔ s = [] := encode_inj (t := [])

theorem encode_newline_cons (s : Text) : encode ('\n' :: s) = Bytes.lineFeed :: encode s := rfl

/-- A line is read as it was written, whatever comes after it. -/
theorem lines_encode_append (h : '\n' ∉ s) (b : Bytes) :
    Bytes.lines (encode (s ++ ['\n']) ++ b) = encode (s ++ ['\n']) :: Bytes.lines b := by
  have hs : Bytes.lineFeed ∉ encode s := mt lineFeed_mem_encode_iff.1 h
  have he : encode (s ++ ['\n']) = encode s ++ [Bytes.lineFeed] := encode_append s ['\n']
  rw [he, List.append_assoc]
  exact Bytes.lines_append_lineFeed hs b

theorem lines_encode {lines : List Text} (h : ∀ l ∈ lines, '\n' ∉ l) :
    Bytes.lines (encode (lines.flatMap (· ++ ['\n']))) = lines.map fun l => encode (l ++ ['\n']) := by
  induction lines with
  | nil => rfl
  | cons l lines ih =>
    have hl : '\n' ∉ l := h l (by simp)
    rw [List.flatMap_cons, encode_append, lines_encode_append hl, ih fun l' h' => h l' (by simp [h']),
      List.map_cons]

/-- The text of a line has no line feed of its own. -/
theorem newline_not_mem_chomp {data : Bytes} (h : encode s ∈ data.lines) : '\n' ∉ s.chomp := by
  obtain ⟨a, ha, hs⟩ := Bytes.exists_of_mem_lines h
  by_cases hn : '\n' ∈ s
  · obtain ⟨s, t, rfl, hns⟩ := List.eq_append_cons_of_mem hn
    rw [encode_append, encode_newline_cons] at hs
    have ht : encode t = [] := by
      rcases List.eq_nil_or_concat (encode t) with ht | ⟨y, z, ht⟩
      · exact ht
      · rw [ht, List.concat_eq_append] at hs
        rcases hs with hs | hs
        · exact absurd (by rw [← hs]; simp) ha
        · rw [← List.cons_append, ← List.append_assoc] at hs
          exact absurd (by rw [← (List.append_inj' hs rfl).1]; simp) ha
    rw [encode_eq_nil_iff.1 ht]
    exact Text.newline_not_mem_chomp_concat hns
  · obtain ⟨b, -, hb⟩ := Text.exists_chomp s
    rw [hb] at hn
    exact fun hm => hn (List.mem_append_left b hm)

end Utf8

end UnicodeTables
