import UnicodeTables.Proofs.CodePoint.Grammar
import UnicodeTables.Proofs.DataFile.Cuts

/-! # What reading a data file gives

Reading succeeds exactly if the significant lines can be cut into blocks, and gives the record of each
block (`records_eq_ok_iff`). If it fails, then at the first line that cannot be taken after the lines
before it, or, if there is none, at the First line that is left open (`records_eq_error_iff`). -/

namespace UnicodeTables

/-- A code point is blamed, or the range. -/
theorem CodePointRange.fault_of_parse {s : Text} {f : Fault} (h : parse s = .error f) :
    (∃ x, f = .invalidCodePoint x) ∨ f = .invalidRange s := by
  cases parse_eq_error_iff.1 h with
  | parts => exact .inr rfl
  | part => exact .inl ⟨_, rfl⟩
  | reversed => exact .inr rfl

namespace DataFile
variable {n : Nat} {source : Text} {data : Bytes} {texts : List Text} {blocks : List Block}
  {opened : Option DataLine}

/-- What is wrong with a line is blamed without a place. -/
theorem root_of_lineFault {k : Nat} {raw : Bytes} {f : Fault} (h : LineFault n k raw opened f) :
    f.root = f := by
  cases h with
  | range _ _ _ _ hp => rcases CodePointRange.fault_of_parse hp with ⟨x, rfl⟩ | rfl <;> rfl
  | _ => rfl

/-- No line is blamed for a First line that is left open. -/
theorem ne_unclosedFirst_of_lineFault {k : Nat} {raw : Bytes} {f : Fault}
    (h : LineFault n k raw opened f) (name : Text) : f ≠ .unclosedFirst name := by
  cases h with
  | range _ _ _ _ hp => rcases CodePointRange.fault_of_parse hp with ⟨x, rfl⟩ | rfl <;> simp
  | _ => simp

/-! ### Numbers of lines -/

theorem map_snd_significantLines_sublist (texts : List Text) :
    ((significantLines texts).map Prod.snd).Sublist (List.range' 1 texts.length) := by
  have h : (((texts.map Text.chomp).zipIdx 1).map Prod.snd) = List.range' 1 texts.length := by
    rw [List.zipIdx_map_snd, List.length_map]
  rw [← h]
  exact List.filter_sublist.map _

theorem Cut.map_number (h : Cut n texts blocks opened) :
    (blocks.flatMap Block.lines ++ opened.toList).map DataLine.number =
      (significantLines texts).map Prod.snd := by
  rw [← List.forall₂_eq_eq_eq, List.forall₂_map_left_iff, List.forall₂_map_right_iff]
  exact h.lines.imp fun l line hl => hl.number

theorem Cut.number_mem (h : Cut n texts blocks opened) {l : DataLine}
    (hl : l ∈ blocks.flatMap Block.lines ++ opened.toList) : l.number ∈ List.range' 1 texts.length := by
  refine (map_snd_significantLines_sublist texts).mem ?_
  rw [← h.map_number]
  exact List.mem_map_of_mem hl

theorem Cut.number_pos (h : Cut n texts blocks opened) {l : DataLine}
    (hl : l ∈ blocks.flatMap Block.lines ++ opened.toList) : 1 ≤ l.number :=
  (List.mem_range'_1.1 (h.number_mem hl)).1

theorem Cut.number_le (h : Cut n texts blocks opened) {l : DataLine}
    (hl : l ∈ blocks.flatMap Block.lines ++ opened.toList) : l.number ≤ texts.length := by
  have hm := List.mem_range'_1.1 (h.number_mem hl)
  omega

theorem run_eq_iff (hn : 2 ≤ n) {r : Run Entry} :
    (format n).run source data = r ↔
      (∃ texts blocks opened, data.lines = texts.map Utf8.encode ∧ Cut n texts blocks opened ∧
        r.items = blocks.map Block.entry ∧
        r.fault = opened.map fun o => .located source o.number (.unclosedFirst o.name.name)) ∨
      ∃ before raw after blocks opened f, data.lines = before.map Utf8.encode ++ raw :: after ∧
        Cut n before blocks opened ∧ LineFault n (before.length + 1) raw opened f ∧
        r.items = blocks.map Block.entry ∧ r.fault = some (.located source (before.length + 1) f) := by
  change (format n).runFrom source 0 .idle data.lines = r ↔ _
  rw [LineFormat.runFrom_eq_iff]
  refine or_congr ?_ ?_
  · constructor
    · rintro ⟨p, h, hr⟩
      obtain ⟨texts, blocks, opened, ht, hc, hi, rfl⟩ := (reads_iff hn).1 h
      refine ⟨texts, blocks, opened, ht, hc, hi, ?_⟩
      rw [hr]
      cases opened <;> rfl
    · rintro ⟨texts, blocks, opened, ht, hc, hi, hr⟩
      refine ⟨_, (reads_iff hn).2 ⟨texts, blocks, opened, ht, hc, hi, rfl⟩, ?_⟩
      rw [hr]
      cases opened <;> rfl
  · constructor
    · rintro ⟨read, raw, left, p, f, hd, h, hp, hr⟩
      obtain ⟨texts, blocks, opened, rfl, hc, hi, rfl⟩ := (reads_iff hn).1 h
      rw [List.length_map, Nat.zero_add] at hp hr
      exact ⟨texts, raw, left, blocks, opened, f, hd, hc, (read_eq_error_iff hn).1 hp, hi, hr⟩
    · rintro ⟨before, raw, after, blocks, opened, f, hd, hc, hl, hi, hr⟩
      refine ⟨_, raw, after, _, f, hd, (reads_iff hn).2 ⟨before, blocks, opened, rfl, hc, hi, rfl⟩, ?_, ?_⟩
      · rw [List.length_map, Nat.zero_add]
        exact hl.read_eq hn
      · rwa [List.length_map, Nat.zero_add]

theorem format?_of_lt (hn : n < 2) :
    format? n = .error (.unsupported "expected field count below 2".toList) := if_pos hn

theorem format?_of_le (hn : 2 ≤ n) : format? n = .ok (format n) := if_neg (Nat.not_lt.2 hn)

theorem records_of_lt (hn : n < 2) (source : Text) (data : Bytes) :
    records n source data = ⟨.error (.unsupported "expected field count below 2".toList), []⟩ := by
  rw [records, format?_of_lt hn]

theorem records_of_le (hn : 2 ≤ n) (source : Text) (data : Bytes) :
    records n source data =
      ⟨(((format n).run source data).map Entry.record).toExcept, ((format n).run source data).events⟩ := by
  rw [records, format?_of_le hn]

theorem records_eq (hn : 2 ≤ n) (source : Text) (data : Bytes) :
    (records n source data).answer = (((format n).run source data).map Entry.record).toExcept := by
  rw [records_of_le hn]

theorem answer_eq_ok_iff (hn : 2 ≤ n) {rs : List Record} :
    (records n source data).answer = .ok rs ↔
      ∃ items, (format n).run source data = ⟨items, none⟩ ∧ items.map Entry.record = rs := by
  rw [records_eq hn, Run.toExcept_eq_ok_iff]
  constructor
  · rintro ⟨hi, hf⟩
    exact ⟨_, congrArg (Run.mk _) hf, hi⟩
  · rintro ⟨items, h, hi⟩
    rw [h]
    exact ⟨hi, rfl⟩

theorem answer_eq_error_iff (hn : 2 ≤ n) {f : Fault} :
    (records n source data).answer = .error f ↔ ∃ items, (format n).run source data = ⟨items, some f⟩ := by
  rw [records_eq hn, Run.toExcept_eq_error_iff]
  constructor
  · exact fun hf => ⟨_, congrArg (Run.mk _) hf⟩
  · rintro ⟨items, h⟩
    rw [h]
    rfl

end DataFile

end UnicodeTables
