import UnicodeTables.Proofs.Calls
import UnicodeTables.Proofs.DataFile.Written
import UnicodeTables.Proofs.Text.Utf8

/-! # What matters of a line

A line of a data file is read by its fields alone (`readLine_congr`), so blanks at its end do not matter,
whether the bytes before them are text or not (`read_append_blanks`). A text can then be read by its pieces
between line feeds (`runFrom_encode`), of which normalizing keeps the fields (`fields_normalizeLine`). Main
statement: neither normalizing every line nor another way to end lines changes what is read
(`records_normalize`). -/

namespace UnicodeTables.DataFile
variable {n : Nat} {source line line' : Text} {a : Bytes} {b : Text} {c : Char}

/-- What counts in a line, with no blanks around its fields. -/
def normalizeLine (line : Text) : Text :=
  [';'].intercalate (((Text.trim (line.takeWhile (· ≠ '#'))).splitOn ';').map Text.trim)

/-- The text with each of its lines normalized. -/
def normalize (text : Text) : Text := ['\n'].intercalate ((text.splitOn '\n').map normalizeLine)

/-! ### Lines with the same fields -/

/-- A line counts exactly if it has more than one empty field. -/
theorem fields_eq_iff : fields line = [[]] ↔ content line = [] := by
  constructor
  · intro h
    obtain ⟨s, hs, ht⟩ := List.map_eq_singleton_iff.1 h
    have hc : [';'].intercalate ((content line).splitOn ';') = content line := List.intercalate_splitOn ';'
    rw [hs, List.intercalate_singleton] at hc
    rw [hc, content, Text.trim_trim] at ht
    exact ht
  · intro h
    rw [fields, h]
    rfl

theorem readLine_congr (h : fields line = fields line') (p : Pairing) (k : Nat) :
    readLine n p k line = readLine n p k line' := by
  have hc : content line = [] ↔ content line' = [] := by
    rw [← fields_eq_iff, ← fields_eq_iff, h]
  rw [readLine, readLine, h]
  by_cases hn : content line = []
  · rw [if_pos hn, if_pos (hc.1 hn)]
  · rw [if_neg hn, if_neg (mt hc.2 hn)]

theorem read_encode_congr (h : fields line = fields line') (p : Pairing) (k : Nat) :
    (format n).read p k (Utf8.encode line) = (format n).read p k (Utf8.encode line') := by
  rw [read_encode, read_encode]
  refine readLine_congr ?_ p k
  rw [fields_chomp, fields_chomp, h]

theorem fields_append_blank (hb : ∀ c ∈ b, isBlank c) (line : Text) : fields (line ++ b) = fields line := by
  rw [fields, content_append_blank hb, fields]

/-- Blanks at the end of a line do not matter, even if it is no text. -/
theorem read_append_blanks (hb : ∀ c ∈ b, isBlank c) (p : Pairing) (k : Nat) (a : Bytes) :
    (format n).read p k (a ++ Utf8.encode b) = (format n).read p k a := by
  cases ha : Utf8.decode? a with
  | none =>
    have hd := Utf8.decode?_append_encode a b
    rw [LineFormat.read, LineFormat.read, hd, ha]
    rfl
  | some line =>
    rw [Utf8.decode?_eq_some_iff.1 ha, ← Utf8.encode_append]
    exact read_encode_congr (fields_append_blank hb line) p k

/-! ### Pieces of a text -/

/-- A text is read by its pieces: line feeds do not matter, nor does an empty piece at the end. -/
theorem runFrom_encode_intercalate {pieces : List Text} (hp : pieces ≠ []) (hl : ∀ l ∈ pieces, '\n' ∉ l)
    (k : Nat) (p : Pairing) :
    (format n).runFrom source k p (Utf8.encode (['\n'].intercalate pieces)).lines =
      (format n).runFrom source k p (pieces.map Utf8.encode) := by
  induction pieces generalizing k p with
  | nil => exact absurd rfl hp
  | cons l pieces ih =>
    have hn : '\n' ∉ l := hl l List.mem_cons_self
    cases pieces with
    | nil =>
      rw [List.intercalate_singleton, List.map_singleton]
      cases l with
      | nil => rfl
      | cons c l =>
        have hne : Utf8.encode (c :: l) ≠ [] := mt Utf8.encode_eq_nil_iff.1 (List.cons_ne_nil c l)
        rw [Bytes.lines_of_not_mem (mt Utf8.lineFeed_mem_encode_iff.1 hn) hne]
    | cons l' pieces =>
      have ht := ih (List.cons_ne_nil l' pieces) fun m hm => hl m (List.mem_cons_of_mem l hm)
      rw [List.intercalate_cons_cons, Utf8.encode_append, Utf8.lines_encode_append hn]
      refine LineFormat.runFrom_cons_congr (fun p k => ?_) ht k p
      exact read_encode_congr (fields_append_blank (by simp [isBlank]) l) p k

theorem runFrom_encode (text : Text) (k : Nat) (p : Pairing) :
    (format n).runFrom source k p (Utf8.encode text).lines =
      (format n).runFrom source k p ((text.splitOn '\n').map Utf8.encode) := by
  have hs : ['\n'].intercalate (text.splitOn '\n') = text := List.intercalate_splitOn '\n'
  conv_lhs => rw [← hs]
  exact runFrom_encode_intercalate (List.splitOn_ne_nil '\n' text)
    (fun _ hl => Text.not_mem_of_mem_splitOn hl) k p

/-! ### Normalizing -/

theorem not_mem_of_mem_fields {f : Text} (h : f ∈ fields line) : ';' ∉ f := by
  obtain ⟨s, hs, rfl⟩ := List.mem_map.1 h
  exact fun hc => Text.not_mem_of_mem_splitOn hs (Text.mem_of_mem_trim hc)

theorem mem_of_mem_normalizeLine (h : c ∈ normalizeLine line) :
    c = ';' ∨ c ∈ line.takeWhile (· ≠ '#') := by
  rcases exists_of_mem_intercalate h with h | ⟨f, hf, h⟩
  · exact .inl h
  · obtain ⟨s, hs, rfl⟩ := List.mem_map.1 hf
    exact .inr (Text.mem_of_mem_trim (Text.mem_of_mem_splitOn hs (Text.mem_of_mem_trim h)))

theorem hash_not_mem_normalizeLine (line : Text) : '#' ∉ normalizeLine line := by
  intro h
  rcases mem_of_mem_normalizeLine h with h | h
  · exact absurd h (by decide)
  · exact absurd (List.mem_takeWhile_imp h) (by decide)

theorem newline_not_mem_normalizeLine (h : '\n' ∉ line) : '\n' ∉ normalizeLine line := by
  intro hm
  rcases mem_of_mem_normalizeLine hm with hm | hm
  · exact absurd hm (by decide)
  · exact h ((List.takeWhile_prefix _).subset hm)

theorem fields_normalizeLine (line : Text) : fields (normalizeLine line) = fields line := by
  have hne : fields line ≠ [] := mt List.map_eq_nil_iff.1 (List.splitOn_ne_nil _ _)
  have hs : (normalizeLine line).splitOn ';' = fields line :=
    List.splitOn_intercalate ';' (fun _ hf => not_mem_of_mem_fields hf) hne
  have ht : ∀ f ∈ fields line, f.trim = f := by
    intro f hf
    obtain ⟨s, -, rfl⟩ := List.mem_map.1 hf
    exact Text.trim_trim s
  rw [fields, content, takeWhile_of_not_mem (hash_not_mem_normalizeLine line),
    Text.map_trim_splitOn_trim rfl, hs]
  exact (List.map_congr_left ht).trans (List.map_id _)

theorem splitOn_normalize (text : Text) :
    (normalize text).splitOn '\n' = (text.splitOn '\n').map normalizeLine := by
  refine List.splitOn_intercalate '\n' (fun l hl => ?_) (mt List.map_eq_nil_iff.1 (List.splitOn_ne_nil _ _))
  obtain ⟨m, hm, rfl⟩ := List.mem_map.1 hl
  exact newline_not_mem_normalizeLine (Text.not_mem_of_mem_splitOn hm)

theorem run_normalize (source text : Text) :
    (format n).run source (Utf8.encode (normalize text)) = (format n).run source (Utf8.encode text) := by
  show (format n).runFrom source 0 .idle _ = (format n).runFrom source 0 .idle _
  rw [LineFormat.start, LineFormat.start, runFrom_encode, runFrom_encode, splitOn_normalize, List.map_map]
  refine LineFormat.runFrom_map_congr (fun l _ p k => ?_) 0 Pairing.idle
  exact read_encode_congr (fields_normalizeLine l) p k

/-! ### Line ends -/

theorem read_crlf {data raw : Bytes} (h : raw ∈ data.lines) (p : Pairing) (k : Nat) :
    (format n).read p k raw.crlf = (format n).read p k raw := by
  obtain ⟨a, ha, hr⟩ := Bytes.exists_of_mem_lines h
  rcases hr with rfl | rfl
  · have hc := Bytes.crlf_append_of_not_mem ha []
    rw [List.append_nil] at hc
    rw [hc]
    exact congrArg _ (List.append_nil raw)
  · have hlf := read_append_blanks (n := n) (b := ['\n']) (by simp [isBlank]) p k a
    have hcr := read_append_blanks (n := n) (b := ['\r', '\n']) (by simp [isBlank]) p k a
    rw [Bytes.crlf_append_of_not_mem ha]
    exact hcr.trans hlf.symm

theorem run_crlf (source : Text) (data : Bytes) :
    (format n).run source data.crlf = (format n).run source data := by
  have h : (format n).runFrom source 0 .idle (data.lines.map Bytes.crlf) =
      (format n).runFrom source 0 .idle (data.lines.map id) :=
    LineFormat.runFrom_map_congr (fun raw hr p k => read_crlf hr p k) 0 .idle
  rw [List.map_id, ← Bytes.lines_crlf] at h
  exact h

/-! ### What is read -/

theorem records_congr {data data' : Bytes} (h : (format n).run source data = (format n).run source data') :
    records n source data = records n source data' := by
  rcases Nat.lt_or_ge n 2 with hn | hn
  · rw [records_of_lt hn, records_of_lt hn]
  · rw [records_of_le hn, records_of_le hn, h]

/-- Normalizing every line of a text changes neither the records, nor a fault, nor what any call gives. If data
ends its lines with a carriage return and a line feed, be it text or not, the same is read as without the
carriage returns. -/
theorem records_normalize (n : Nat) (source : Text) :
    (∀ text : Text,
      records n source (Utf8.encode (normalize text)) = records n source (Utf8.encode text) ∧
      ∀ k, (format n).call k ((format n).start source (Utf8.encode (normalize text))) =
        (format n).call k ((format n).start source (Utf8.encode text))) ∧
    ∀ data : Bytes,
      records n source data.crlf = records n source data ∧
      ∀ k, (format n).call k ((format n).start source data.crlf) =
        (format n).call k ((format n).start source data) := by
  constructor
  · intro text
    have h := run_normalize (n := n) source text
    exact ⟨records_congr h, LineFormat.call_congr h⟩
  · intro data
    have h := run_crlf (n := n) source data
    exact ⟨records_congr h, LineFormat.call_congr h⟩

end UnicodeTables.DataFile
