import Mathlib.Data.List.TakeWhile
import UnicodeTables.Proofs.CodePoint.Display
import UnicodeTables.Proofs.DataFile.Records

/-! # Writing a data file

A record can be written on a line of its own or as a First line and a Last line. Whatever form each
record has, reading what was written gives the records back, and every record that is read can be
written (`records_write`). -/

namespace UnicodeTables

/-- Text that can stand in a field. -/
structure FieldText (s : Text) : Prop where
  semicolon : ';' ∉ s
  hash : '#' ∉ s
  newline : '\n' ∉ s

instance (s : Text) : Decidable (FieldText s) :=
  decidable_of_iff (';' ∉ s ∧ '#' ∉ s ∧ '\n' ∉ s)
    ⟨fun ⟨h, h', h''⟩ => ⟨h, h', h''⟩, fun ⟨h, h', h''⟩ => ⟨h, h', h''⟩⟩

/-- A record of lines with the given number of fields. -/
structure Record.Writable (fieldCount : Nat) (r : Record) : Prop where
  range : r.range.Valid
  count : r.fields.length + 1 = fieldCount
  text : ∀ f ∈ r.fields, FieldText f
  trimmed : ∀ f ∈ r.fields.tail, Text.Trimmed f

instance (fieldCount : Nat) (r : Record) : Decidable (r.Writable fieldCount) :=
  decidable_of_iff (r.range.Valid ∧ r.fields.length + 1 = fieldCount ∧ (∀ f ∈ r.fields, FieldText f) ∧
      ∀ f ∈ r.fields.tail, Text.Trimmed f)
    ⟨fun ⟨hr, hc, ht, htr⟩ => ⟨hr, hc, ht, htr⟩, fun ⟨hr, hc, ht, htr⟩ => ⟨hr, hc, ht, htr⟩⟩

theorem Record.Writable.value?_ne_none {n : Nat} {r : Record} (hn : 2 ≤ n) (h : r.Writable n) :
    r.value? ≠ none := by
  intro hv
  have hc := h.count
  rw [value?, List.head?_eq_none_iff] at hv
  rw [hv, List.length_nil] at hc
  omega

/-- A line of its own, or a First line and a Last line. The First line has `fillers` after the name. -/
inductive Form
  | plain
  | paired (fillers : List Text)
deriving DecidableEq, Repr

namespace DataFile

def writeLine (range : CodePointRange) (fields : List Text) : Text :=
  [';'].intercalate (range.display :: fields)

end DataFile

namespace Form
open DataFile

/-- A record fits on its own line if its value says what it is. Every record fits two lines. -/
def Fits (fieldCount : Nat) (r : Record) : Form → Prop
  | plain => ∀ value, r.value? = some value →
    Text.Trimmed value ∧ (EntryName.parse value).marker = none
  | paired fillers => fillers.length + 2 = fieldCount ∧ ∀ f ∈ fillers, FieldText f

instance (fieldCount : Nat) (r : Record) : (form : Form) → Decidable (form.Fits fieldCount r)
  | plain => inferInstanceAs (Decidable (∀ value ∈ r.value?, _))
  | paired _ => instDecidableAnd

/-- The lines of a record. -/
def write (r : Record) : Form → List Text
  | plain => [writeLine r.range r.fields]
  | paired fillers => [
    writeLine (.single r.range.first) (EntryName.write (r.fields.headD []) .first :: fillers),
    writeLine (.single r.range.last) (EntryName.write (r.fields.headD []) .last :: r.fields.tail)]

end Form

namespace DataFile

def write (rs : List (Record × Form)) : Bytes :=
  Utf8.encode ((rs.flatMap fun (r, form) => form.write r).flatMap (· ++ ['\n']))

/-- The records with the lines they are on if they are written after `n` lines. -/
def place (n : Nat) : List (Record × Form) → List Record
  | [] => []
  | (r, form) :: rs =>
    { r with line := n + (form.write r).length } :: place (n + (form.write r).length) rs

/-! ### Written lines -/

section
variable {n k : Nat} {range : CodePointRange} {value : Text} {fields values : List Text} {c : Char}

theorem isBlank_of_mem_display (h : c ∈ range.display) : isBlank c = false := by
  rcases CodePointRange.mem_display h with rfl | ⟨d, hd, rfl⟩
  · rfl
  · exact Numeral.isBlank_digit d hd

theorem fieldText_display (range : CodePointRange) : FieldText range.display := by
  have hdigit : ∀ d < 16, Numeral.digit d ∉ [';', '#', '\n'] := by decide
  have h : ∀ c ∈ [';', '#', '\n'], c ∉ range.display := by
    intro c hc hm
    rcases CodePointRange.mem_display hm with rfl | ⟨d, hd, rfl⟩
    · simp at hc
    · exact hdigit d hd hc
  exact ⟨h _ (by simp), h _ (by simp), h _ (by simp)⟩

theorem trimmed_display (range : CodePointRange) : Text.Trimmed range.display :=
  ⟨fun _ hc => isBlank_of_mem_display (List.mem_of_head? hc),
    fun _ hc => isBlank_of_mem_display (List.mem_of_getLast? hc)⟩

theorem fieldText_write {m : Marker} (h : FieldText value) : FieldText (EntryName.write value m) := by
  have hm : FieldText (EntryName.write [] m) := by
    cases m <;> decide
  exact ⟨fun hc => (EntryName.mem_write hc).elim h.semicolon hm.semicolon,
    fun hc => (EntryName.mem_write hc).elim h.hash hm.hash,
    fun hc => (EntryName.mem_write hc).elim h.newline hm.newline⟩

theorem trimmed_write (value : Text) (m : Marker) : Text.Trimmed (EntryName.write value m) := by
  obtain ⟨s, hs⟩ := EntryName.exists_write_eq value m
  rw [hs]
  exact Text.trimmed_cons_concat rfl rfl

theorem exists_of_mem_intercalate {ts : List Text} (h : c ∈ [';'].intercalate ts) :
    c = ';' ∨ ∃ t ∈ ts, c ∈ t := by
  induction ts with
  | nil => simp at h
  | cons t ts ih =>
    cases ts with
    | nil => exact .inr ⟨t, by simp, by simpa using h⟩
    | cons u us =>
      rw [List.intercalate_cons_cons] at h
      simp only [List.mem_append, List.mem_singleton] at h
      rcases h with (h | h) | h
      · exact .inr ⟨t, by simp, h⟩
      · exact .inl h
      · rcases ih h with h | ⟨v, hv, hc⟩
        · exact .inl h
        · exact .inr ⟨v, by simp [hv], hc⟩

theorem not_mem_writeLine (hf : ∀ f ∈ fields, FieldText f) :
    '#' ∉ writeLine range fields ∧ '\n' ∉ writeLine range fields := by
  have h : ∀ c, c ≠ ';' → (∀ t, FieldText t → c ∉ t) → c ∉ writeLine range fields := by
    intro c hne hc hm
    rcases exists_of_mem_intercalate hm with hm | ⟨t, ht, hm⟩
    · exact hne hm
    · rcases List.mem_cons.1 ht with rfl | ht
      · exact hc _ (fieldText_display range) hm
      · exact hc t (hf t ht) hm
  exact ⟨h '#' (by decide) fun _ ht => ht.hash, h '\n' (by decide) fun _ ht => ht.newline⟩

theorem fields_writeLine (hf : ∀ f ∈ fields, FieldText f) :
    DataFile.fields (writeLine range fields) = range.display :: fields.map Text.trim := by
  have hs : ∀ t ∈ range.display :: fields, ';' ∉ t := by
    intro t ht
    rcases List.mem_cons.1 ht with rfl | ht
    · exact (fieldText_display range).semicolon
    · exact (hf t ht).semicolon
  rw [DataFile.fields, content, takeWhile_of_not_mem (not_mem_writeLine hf).1,
    Text.map_trim_splitOn_trim rfl, writeLine, List.splitOn_intercalate ';' hs (by simp), List.map_cons,
    Text.trim_eq_self (trimmed_display range)]

theorem content_append_newline (line : Text) : content (line ++ ['\n']) = content line :=
  content_append_blank (by simp [isBlank]) line

theorem significant_writeLine (hf : ∀ f ∈ fields, FieldText f) :
    significant (writeLine range fields ++ ['\n']).chomp := by
  obtain ⟨d, hd, s, hs⟩ := CodePointRange.exists_cons_display range
  have hm : Numeral.digit d ∈ writeLine range fields := by
    rw [writeLine]
    cases fields with
    | nil => simp [hs]
    | cons f fs => simp [List.intercalate_cons_cons, hs]
  rw [← Bool.not_eq_false, ← content_eq_nil_iff, content_chomp, content_append_newline, content,
    takeWhile_of_not_mem (not_mem_writeLine hf).1, Text.trim_eq_nil_iff]
  intro h
  have := h _ hm
  rw [Numeral.isBlank_digit d hd] at this
  cases this

theorem onLine_writeLine (hr : range.Valid) (hf : ∀ f ∈ value :: values, FieldText f)
    (hc : values.length + 2 = n) (k : Nat) :
    DataLine.OnLine n ⟨k, range, value.trim, values.map Text.trim⟩
      ((writeLine range (value :: values) ++ ['\n']).chomp, k) := by
  refine ⟨rfl, ⟨range.display, ?_, CodePointRange.parse_display hr⟩, by simpa using hc⟩
  rw [fields_chomp, fields, content_append_newline, ← fields, fields_writeLine hf, List.map_cons]

end

/-! ### Written records -/

section
variable {n : Nat} {r : Record} {form : Form} {rs : List (Record × Form)}

/-- The line as it stands in the data. -/
def encodeLine (line : Text) : Bytes := Utf8.encode (line ++ ['\n'])

theorem map_trim {fields : List Text} (h : ∀ f ∈ fields, Text.Trimmed f) :
    fields.map Text.trim = fields := by
  have ht : ∀ f ∈ fields, f.trim = f := by
    intro f hf
    exact Text.trim_eq_self (h f hf)
  rw [List.map_congr_left ht, List.map_id']

theorem reads_write_plain {range : CodePointRange} {value : Text} {values : List Text} (hr : range.Valid)
    (ht : ∀ f ∈ value :: values, FieldText f) (hc : values.length + 2 = n)
    (hv : ∀ f ∈ value :: values, Text.Trimmed f) (hm : (EntryName.parse value).marker = none) (k : Nat) :
    (format n).Reads k .idle [encodeLine (writeLine range (value :: values))]
      [⟨⟨k + 1, range, value :: values⟩, none⟩] .idle := by
  have hl := onLine_writeLine hr ht hc (k + 1)
  rw [Text.trim_eq_self (hv value (by simp)), map_trim fun f hf => hv f (by simp [hf])] at hl
  have ha : Accepts n (k + 1) _ none (some (.plain _)) none :=
    .plain rfl (significant_writeLine ht) hl hm
  exact .cons ha.read_eq (.nil ..)

theorem fieldText_marked {value : Text} {values : List Text} (hv : FieldText value)
    (ht : ∀ f ∈ values, FieldText f) (m : Marker) :
    ∀ f ∈ EntryName.write value m :: values, FieldText f := by
  intro f hf
  rcases List.mem_cons.1 hf with rfl | hf
  · exact fieldText_write hv
  · exact ht f hf

/-- A First line or a Last line. -/
theorem onLine_marked {c : CodePoint} {value : Text} {values : List Text} (h : c ≤ CodePoint.max)
    (hv : FieldText value) (ht : ∀ f ∈ values, FieldText f) (hc : values.length + 2 = n) (m : Marker)
    (k : Nat) :
    DataLine.OnLine n ⟨k, .single c, EntryName.write value m, values.map Text.trim⟩
      ((writeLine (.single c) (EntryName.write value m :: values) ++ ['\n']).chomp, k) := by
  have hr : (CodePointRange.single c).Valid := ⟨Nat.le_refl c, h⟩
  have hl := onLine_writeLine hr (fieldText_marked hv ht m) hc k
  rwa [Text.trim_eq_self (trimmed_write value m)] at hl

theorem isSingle_single (c : CodePoint) : (CodePointRange.single c).isSingle := beq_self_eq_true c

theorem reads_write_paired {range : CodePointRange} {value : Text} {values fillers : List Text}
    (hr : range.Valid) (hv : FieldText value) (ht : ∀ f ∈ values, FieldText f)
    (hc : values.length + 2 = n) (htr : ∀ f ∈ values, Text.Trimmed f) (hf : ∀ f ∈ fillers, FieldText f)
    (hn : fillers.length + 2 = n) (k : Nat) :
    ∃ e : Entry, (format n).Reads k .idle
      [encodeLine (writeLine (.single range.first) (EntryName.write value .first :: fillers)),
        encodeLine (writeLine (.single range.last) (EntryName.write value .last :: values))] [e] .idle ∧
      e.record = ⟨k + 2, range, value :: values⟩ := by
  let o : DataLine := ⟨k + 1, .single range.first, EntryName.write value .first, fillers.map Text.trim⟩
  let l : DataLine := ⟨k + 2, .single range.last, EntryName.write value .last, values.map Text.trim⟩
  have hon : o.name = ⟨value, some .first⟩ := EntryName.parse_write value .first
  have hln : l.name = ⟨value, some .last⟩ := EntryName.parse_write value .last
  have ho : o.Opens := ⟨by rw [hon], isSingle_single range.first⟩
  have hcl : o.Closes l := ⟨by rw [hln], by rw [hon, hln], isSingle_single range.last, hr.1⟩
  have hfirst : Accepts n (k + 1) _ none none (some o) :=
    .first rfl (significant_writeLine (fieldText_marked hv hf .first))
      (onLine_marked (Nat.le_trans hr.1 hr.2) hv hf hn .first (k + 1)) ho
  have hlast : Accepts n (k + 2) _ (some o) (some (.pair o l)) none :=
    .last rfl (significant_writeLine (fieldText_marked hv ht .last))
      (onLine_marked hr.2 hv ht hc .last (k + 2)) hcl
  refine ⟨_, .cons hfirst.read_eq (.cons hlast.read_eq (.nil ..)), ?_⟩
  show Record.mk (k + 2) range (l.name.name :: values.map Text.trim) = _
  rw [hln, map_trim htr]

theorem reads_write (hn : 2 ≤ n) (hw : r.Writable n) (hf : form.Fits n r) (k : Nat) :
    ∃ e : Entry, (format n).Reads k .idle ((form.write r).map encodeLine) [e] .idle ∧
      e.record = { r with line := k + (form.write r).length } := by
  obtain ⟨line, range, fields⟩ := r
  obtain ⟨hr, hc, ht, htr⟩ := hw
  dsimp only at hr hc ht htr
  obtain ⟨value, values, rfl⟩ : ∃ value values, fields = value :: values :=
    List.exists_cons_of_length_pos (by omega)
  cases form with
  | plain =>
    obtain ⟨hv, hm⟩ := hf value rfl
    have htr' : ∀ f ∈ value :: values, Text.Trimmed f := by
      intro f h
      rcases List.mem_cons.1 h with rfl | h
      · exact hv
      · exact htr f h
    exact ⟨_, reads_write_plain hr ht hc htr' hm k, rfl⟩
  | paired fillers =>
    exact reads_write_paired hr (ht value (by simp)) (fun f h => ht f (by simp [h])) hc htr hf.2 hf.1 k

/-- Reading goes through the records one by one. -/
theorem reads_flatMap_write (hn : 2 ≤ n) (h : ∀ e ∈ rs, e.1.Writable n ∧ e.2.Fits n e.1) (k : Nat) :
    ∃ entries : List Entry,
      (format n).Reads k .idle ((rs.flatMap fun (r, form) => form.write r).map encodeLine) entries .idle ∧
        entries.map Entry.record = place k rs := by
  induction rs generalizing k with
  | nil => exact ⟨[], .nil k Pairing.idle, rfl⟩
  | cons e rs ih =>
    obtain ⟨r, form⟩ := e
    obtain ⟨hw, hf⟩ := h (r, form) (by simp)
    obtain ⟨e, he, her⟩ := reads_write hn hw hf k
    obtain ⟨es, hes, hesr⟩ := ih (fun e' h' => h e' (by simp [h'])) (k + (form.write r).length)
    refine ⟨e :: es, ?_, ?_⟩
    · rw [List.flatMap_cons, List.map_append]
      refine he.append ?_
      rwa [List.length_map]
    · rw [List.map_cons, her, hesr, place]

theorem newline_not_mem_write {line : Text} (hw : r.Writable n) (hf : form.Fits n r)
    (hl : line ∈ form.write r) : '\n' ∉ line := by
  have hv : FieldText (r.fields.headD []) := by
    cases hr : r.fields with
    | nil => exact ⟨by simp, by simp, by simp⟩
    | cons value values => exact hw.text value (by simp [hr])
  cases form with
  | plain =>
    rw [Form.write, List.mem_singleton] at hl
    rw [hl]
    exact (not_mem_writeLine hw.text).2
  | paired fillers =>
    simp only [Form.write, List.mem_cons, List.not_mem_nil, or_false] at hl
    rcases hl with rfl | rfl
    · exact (not_mem_writeLine (fieldText_marked hv hf.2 .first)).2
    · have ht : ∀ f ∈ r.fields.tail, FieldText f := by
        intro f h
        exact hw.text f (List.mem_of_mem_tail h)
      exact (not_mem_writeLine (fieldText_marked hv ht .last)).2

theorem records_write_eq (hn : 2 ≤ n) (h : ∀ e ∈ rs, e.1.Writable n ∧ e.2.Fits n e.1) (source : Text) :
    (records n source (write rs)).answer = .ok (place 0 rs) := by
  have hl : ∀ l ∈ rs.flatMap fun (r, form) => form.write r, '\n' ∉ l := by
    intro l hl
    obtain ⟨e, he, hl⟩ := List.mem_flatMap.1 hl
    exact newline_not_mem_write (h e he).1 (h e he).2 hl
  obtain ⟨entries, hr, he⟩ := reads_flatMap_write hn h 0
  have hrun : (format n).run source (write rs) = ⟨entries, none⟩ := by
    show (format n).runFrom source 0 .idle (Bytes.lines (write rs)) = _
    rw [write, Utf8.lines_encode hl]
    exact hr.runFrom_eq
  exact (answer_eq_ok_iff hn).2 ⟨entries, hrun, he⟩

end

/-! ### Records that are read -/

section
variable {n : Nat} {line : Text} {l : DataLine}

theorem fieldText_of_mem_fields {f : Text} (hn : '\n' ∉ line) (h : f ∈ fields line) :
    FieldText f ∧ Text.Trimmed f := by
  obtain ⟨t, ht, rfl⟩ := List.mem_map.1 h
  have hm : ∀ c ∈ t.trim, c ∈ line.takeWhile (· ≠ '#') := fun c hc =>
    Text.mem_of_mem_trim (Text.mem_of_mem_splitOn ht (Text.mem_of_mem_trim hc))
  refine ⟨⟨fun hc => ?_, fun hc => ?_, fun hc => ?_⟩, Text.trimmed_trim t⟩
  · exact Text.not_mem_of_mem_splitOn ht (Text.mem_of_mem_trim hc)
  · simpa using List.mem_takeWhile_imp (hm _ hc)
  · exact hn ((List.takeWhile_sublist _).mem (hm _ hc))

theorem fieldText_of_onLine {k : Nat} (hn : '\n' ∉ line) (hl : l.OnLine n (line, k)) :
    ∀ f ∈ l.value :: l.values, FieldText f ∧ Text.Trimmed f := by
  obtain ⟨code, hf, -⟩ := hl.fields
  intro f h
  refine fieldText_of_mem_fields hn ?_
  rw [hf]
  exact List.mem_cons_of_mem code h

/-- The record of a line, with `name` for its value. -/
theorem writable_of_onLine {name : Text} {range : CodePointRange} {k : Nat} (hn : '\n' ∉ line)
    (hl : l.OnLine n (line, k)) (hr : range.Valid) (hname : ∀ c ∈ name, c ∈ l.value) :
    Record.Writable n ⟨l.number, range, name :: l.values⟩ := by
  have hm := fieldText_of_onLine hn hl
  have hv := (hm l.value (by simp)).1
  refine ⟨hr, hl.count, fun f h => ?_, fun f h => (hm f (by simpa using .inr h)).2⟩
  rcases List.mem_cons.1 h with rfl | h
  · exact ⟨fun h => hv.semicolon (hname _ h), fun h => hv.hash (hname _ h), fun h => hv.newline (hname _ h)⟩
  · exact (hm f (by simp [h])).1

/-- A record that a line completes can be written. -/
theorem Accepts.writable {k : Nat} {raw data : Bytes} {opened opened' : Option DataLine} {b : Block}
    (h : Accepts n k raw opened (some b) opened') (hr : raw ∈ data.lines) : b.record.Writable n := by
  cases h with
  | plain ht _ hl _ =>
    subst ht
    obtain ⟨code, -, hp⟩ := hl.fields
    have hv := CodePointRange.valid_of_parse hp
    exact writable_of_onLine (Utf8.newline_not_mem_chomp hr) hl hv fun c hc => hc
  | last ht _ hl hc =>
    subst ht
    obtain ⟨code, -, hp⟩ := hl.fields
    have hv := Pairing.valid_of_closes (CodePointRange.valid_of_parse hp) (DataLine.closes_iff.2 hc)
    exact writable_of_onLine (Utf8.newline_not_mem_chomp hr) hl hv fun c =>
      EntryName.mem_of_mem_name hc.marker

/-- What a run gives before it ends or fails is completed by one of the lines. -/
theorem exists_accepts_of_mem_run (hn : 2 ≤ n) {source : Text} {data : Bytes} {e : Entry}
    (he : e ∈ ((format n).run source data).items) :
    ∃ i raw opened b opened', data.lines[i]? = some raw ∧ Accepts n (i + 1) raw opened (some b) opened' ∧
      e = b.entry := by
  obtain ⟨p, i, raw, p', hi, hr⟩ := LineFormat.exists_read_of_mem_run he
  obtain ⟨opened, b, opened', ha, rfl⟩ := exists_accepts_of_read hn hr
  exact ⟨i, raw, opened, b, opened', hi, ha, rfl⟩

theorem writable_of_mem_run (hn : 2 ≤ n) {source : Text} {data : Bytes} {e : Entry}
    (he : e ∈ ((format n).run source data).items) : e.record.Writable n := by
  obtain ⟨i, raw, opened, b, opened', hi, ha, rfl⟩ := exists_accepts_of_mem_run hn he
  rw [b.record_entry]
  exact ha.writable (List.mem_of_getElem? hi)

end

section
variable {n : Nat}

theorem map_place (k : Nat) (rs : List (Record × Form)) :
    (place k rs).map (fun r => (r.range, r.fields)) =
      (rs.map Prod.fst).map fun r => (r.range, r.fields) := by
  induction rs generalizing k with
  | nil => rfl
  | cons e rs ih =>
    rw [place, List.map_cons, List.map_cons, List.map_cons, ih]

theorem writable_of_records (hn : 2 ≤ n) {source : Text} {data : Bytes} {rs : List Record} {r : Record}
    (h : (records n source data).answer = .ok rs) (hr : r ∈ rs) : r.Writable n := by
  obtain ⟨items, hi, rfl⟩ := (answer_eq_ok_iff hn).1 h
  obtain ⟨e, he, rfl⟩ := List.mem_map.1 hr
  have hm : e ∈ ((format n).run source data).items := by rwa [hi]
  exact writable_of_mem_run hn hm

/-- Records that are written are read again, in whatever form each of them is, and on the lines they
were written to. All records of a run can be written, so those that were read are read again. -/
theorem records_write (hn : 2 ≤ n) :
    (∀ source rs, (∀ e ∈ rs, e.1.Writable n ∧ e.2.Fits n e.1) →
      (records n source (write rs)).answer = .ok (place 0 rs)) ∧
    (∀ source data, ∀ e ∈ ((format n).run source data).items, e.record.Writable n) ∧
    ∀ source data rs, (records n source data).answer = .ok rs →
      ∀ ws : List (Record × Form), ws.map Prod.fst = rs → (∀ e ∈ ws, e.2.Fits n e.1) →
        ∀ source', ∃ rs', (records n source' (write ws)).answer = .ok rs' ∧
          rs'.map (fun r => (r.range, r.fields)) = rs.map fun r => (r.range, r.fields) := by
  refine ⟨?_, ?_, ?_⟩
  · intro source rs h
    exact records_write_eq hn h source
  · intro source data e he
    exact writable_of_mem_run hn he
  · intro source data rs h ws hws hf source'
    have hw : ∀ e ∈ ws, e.1.Writable n ∧ e.2.Fits n e.1 := by
      intro e he
      have hm : e.1 ∈ rs := by
        rw [← hws]
        exact List.mem_map_of_mem he
      exact ⟨writable_of_records hn h hm, hf e he⟩
    refine ⟨place 0 ws, records_write_eq hn hw source', ?_⟩
    rw [map_place, hws]

/-- A name that has a mark of its own can be written on two lines. -/
theorem records_write_marked_name :
    2 ≤ 3 ∧ (records 3 "t".toList (Utf8.encode
      "0041;A;Lu\n3400;<<X, First>, First>;\n4DBF;<<X, First>, Last>;Lo\n".toList)).answer =
        .ok [⟨1, ⟨0x41, 0x41⟩, ["A".toList, "Lu".toList]⟩,
          ⟨3, ⟨0x3400, 0x4DBF⟩, ["<X, First>".toList, "Lo".toList]⟩] := by
  let a : Record := ⟨0, ⟨0x41, 0x41⟩, ["A".toList, "Lu".toList]⟩
  let b : Record := ⟨0, ⟨0x3400, 0x4DBF⟩, ["<X, First>".toList, "Lo".toList]⟩
  have h : ∀ e ∈ [(a, Form.plain), (b, Form.paired [[]])], e.1.Writable 3 ∧ e.2.Fits 3 e.1 := by
    decide +kernel
  have hd : write [(a, .plain), (b, .paired [[]])] = Utf8.encode
      "0041;A;Lu\n3400;<<X, First>, First>;\n4DBF;<<X, First>, Last>;Lo\n".toList := by decide +kernel
  rw [← hd]
  have hn : 2 ≤ 3 := Nat.le_succ 2
  exact ⟨hn, (records_write hn).1 "t".toList _ h⟩

end

end DataFile

end UnicodeTables
