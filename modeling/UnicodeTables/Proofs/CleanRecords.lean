import UnicodeTables.Proofs.Builders
import UnicodeTables.Proofs.Calls

/-! # What a record that was read is like

A line that completes a record has the right number of fields, and cutting and trimming have left nothing in
them that could be read in another way (`Accepts.clean`). The name of a pair is taken out of a field and is not
trimmed again. So every record has a value, and nothing that goes through the records of a file stops for the
want of one (`records_clean`). -/

namespace UnicodeTables

/-- A record of lines with the given number of fields, as it is read from the data. -/
structure Entry.Clean (fieldCount : Nat) (data : Bytes) (e : Entry) : Prop where
  count : e.record.fields.length + 1 = fieldCount
  text : ∀ f ∈ e.record.fields, FieldText f
  value : e.record.value ≠ .error .noValue
  /-- On a line of its own every field is trimmed, and the value is not marked. -/
  plain : e.closing = none → (∀ f ∈ e.record.fields, Text.Trimmed f) ∧
    ∀ v, e.record.value = .ok v → (EntryName.parse v).marker = none
  /-- The value of a pair is the name as it stands in the Last line, with the blanks around it. -/
  pair : ∀ c, e.closing = some c → (∀ f ∈ e.record.fields.tail, Text.Trimmed f) ∧
    e.record.value = .ok c.opening.name ∧
      ∃ i text code marked, e.record.line = i + 1 ∧ data.lines[i]? = some (Utf8.encode text) ∧
        DataFile.fields text.chomp = code :: marked :: e.record.fields.tail ∧
          EntryName.parse marked = ⟨c.opening.name, some .last⟩

theorem Record.value_ne_noValue {r : Record} (h : r.value? ≠ none) : r.value ≠ .error .noValue := by
  obtain ⟨v, hv⟩ := Option.ne_none_iff_exists'.1 h
  rw [value, hv]
  simp

theorem PropertyTable.ofRecords_ne_noValue {records : List (Except Fault Record)}
    (h : ∀ r, .ok r ∈ records → r.value? ≠ none) : ofRecords records ≠ .error .noValue := by
  intro ht
  obtain ⟨f, hf⟩ := fault_of_pushAll h ht
  cases hf

namespace DataFile
variable {n i : Nat} {raw : Bytes} {opened opened' : Option DataLine} {b : Block} {source : Text}
  {data : Bytes} {e : Entry}

theorem Accepts.clean (hn : 2 ≤ n) (h : Accepts n (i + 1) raw opened (some b) opened')
    (hi : data.lines[i]? = some raw) : b.entry.Clean n data := by
  have hm : raw ∈ data.lines := List.mem_of_getElem? hi
  have hw := h.writable hm
  have hv := Record.value_ne_noValue (hw.value?_ne_none hn)
  cases h with
  | plain ht _ hl hb =>
    subst ht
    have hf := fieldText_of_onLine (Utf8.newline_not_mem_chomp hm) hl
    refine ⟨hw.count, hw.text, hv, fun _ => ⟨fun f h => (hf f h).2, ?_⟩, by rintro _ ⟨⟩⟩
    rintro _ ⟨⟩
    exact hb
  | @last text o l ht _ hl hc =>
    subst ht
    refine ⟨hw.count, hw.text, hv, by rintro ⟨⟩, ?_⟩
    rintro _ ⟨⟩
    -- The field was trimmed, but the name that is taken out of it is not.
    obtain ⟨code, hf, -⟩ := hl.fields
    have hname : EntryName.parse l.value = ⟨o.name.name, some .last⟩ := by
      rw [← hc.name, ← hc.marker]
      rfl
    exact ⟨hw.trimmed, congrArg Except.ok hc.name, i, text, code, l.value, hl.number, hi, hf, hname⟩

theorem clean_of_mem_run (hn : 2 ≤ n) (he : e ∈ ((format n).run source data).items) : e.Clean n data := by
  obtain ⟨i, raw, opened, b, opened', hi, ha, rfl⟩ := exists_accepts_of_mem_run hn he
  exact ha.clean hn hi

/-- Whatever was read before, what is left has values. -/
theorem value?_of_mem_rest (hn : 2 ≤ n) {r : Record}
    (h : .ok r ∈ (((format n).rest ((format n).after k ((format n).start source data))).map
      Entry.record).results) : r.value? ≠ none := by
  obtain ⟨e, he, rfl⟩ := List.mem_map.1 (Run.ok_mem_results_iff.1 h)
  have hm : e ∈ ((format n).run source data).items := LineFormat.mem_rest_of_mem_rest_after he
  exact (writable_of_mem_run hn hm).value?_ne_none hn

end DataFile

/-- No builder meets a record without a value. -/
structure Database.HasValues (t : FileTree) : Prop where
  collect : ∀ path value, (collectProperty t path value).answer ≠ .error .noValue
  table : ∀ path, (propertyTable t path).answer ≠ .error .noValue
  extendedPictographic : ∀ directory, (extendedPictographic t directory).answer ≠ .error .noValue
  graphemeClusterBreak : ∀ directory, (graphemeClusterBreak t directory).answer ≠ .error .noValue
  wordBreak : ∀ directory, (wordBreak t directory).answer ≠ .error .noValue

theorem Database.hasValues (t : FileTree) : HasValues t := by
  have hc : ∀ path value, (collectProperty t path value).answer ≠ .error .noValue := fun path value =>
    (collectProperty_agree t path value).hasValue.1
  have ht : ∀ path, (propertyTable t path).answer ≠ .error .noValue := fun path =>
    (collectProperty_agree t path []).hasValue.2
  exact ⟨hc, ht, fun _ => hc _ _, fun _ => ht _, fun _ => ht _⟩

/-- Every record that a call gives is clean, whatever comes after it. So a table can be made of what any
reader has left, and every builder goes through its file, without meeting a record that has no value. -/
theorem records_clean {n : Nat} (hn : 2 ≤ n) :
    (∀ source data k e, (DataFile.format n).call k ((DataFile.format n).start source data) = some (.ok e) →
      e.Clean n data) ∧
    (∀ source data k, PropertyTable.ofRecords (((DataFile.format n).rest
      ((DataFile.format n).after k ((DataFile.format n).start source data))).map Entry.record).results ≠
        .error .noValue) ∧
    ∀ t, Database.HasValues t := by
  refine ⟨fun source data k e h => ?_, fun source data k => ?_, Database.hasValues⟩
  · exact DataFile.clean_of_mem_run hn (LineFormat.exists_call_eq_ok_iff.1 ⟨k, h⟩)
  · exact PropertyTable.ofRecords_ne_noValue fun r => DataFile.value?_of_mem_rest hn

/-- A name with blanks around it, then a value that only begins like a marked one, then a fault. -/
theorem records_clean_blank_name :
    let data := Utf8.encode "3400;< X , First>\n4DBF;< X , Last>\n0041;<A, First\n0042;B;C".toList
    let tree := FileTree.add ⟨[]⟩ "f".toList (.file data)
    let reader := (DataFile.format 2).start "t".toList data
    let pair : Entry := ⟨⟨2, ⟨0x3400, 0x4DBF⟩, [" X ".toList]⟩, some ⟨⟨" X ".toList, 0x3400, 1⟩, 0x4DBF⟩⟩
    let plain : Entry := ⟨⟨3, .single 0x41, ["<A, First".toList]⟩, none⟩
    2 ≤ 2 ∧ (DataFile.format 2).call 0 reader = some (.ok pair) ∧ pair.Clean 2 data ∧
      (DataFile.format 2).call 1 reader = some (.ok plain) ∧ plain.Clean 2 data ∧
        PropertyTable.ofRecords (((DataFile.format 2).rest ((DataFile.format 2).after 1 reader)).map
          Entry.record).results ≠ .error .noValue ∧ Database.HasValues tree := by
  intro data tree reader pair plain
  have hn : 2 ≤ 2 := Nat.le_refl 2
  have h₀ : (DataFile.format 2).call 0 reader = some (.ok pair) := by decide +kernel
  have h₁ : (DataFile.format 2).call 1 reader = some (.ok plain) := by decide +kernel
  obtain ⟨hc, ht, hd⟩ := records_clean hn
  exact ⟨hn, h₀, hc _ _ 0 _ h₀, h₁, hc _ _ 1 _ h₁, ht _ _ 1, hd _⟩

end UnicodeTables
