import UnicodeTables.Database
import UnicodeTables.Proofs.DataFile.Written
import UnicodeTables.Proofs.Pushes

/-! # The builders of a property

One builder selects the ranges of a value, another puts the ranges of all values in a table. Going through
the same records, the first gives what the second adds to the table for this value, and both stop at the same
record (`select_eq`). So they agree on every file (`builders_agree`). -/

namespace UnicodeTables

theorem Logged.answer_conclude {ε α : Type} (log : List LogEvent) (answer : Except ε α)
    (success : α → LogEvent) : (Logged.conclude log answer success).answer = answer := by
  cases answer <;> rfl

namespace PropertyTable
variable {t t' : PropertyTable} {records : List (Except Fault Record)}

theorem WellFormed.pushAll (h : t.WellFormed) (ht : t.pushAll records = .ok t') : t'.WellFormed :=
  pushAll_induction h (fun _ v r _ h => h.push v r.range) ht

/-- If every record has a value, then going through the records fails only at a fault among them. -/
theorem fault_of_pushAll {e : RecordFault} (h : ∀ r, .ok r ∈ records → r.value? ≠ none)
    (ht : t.pushAll records = .error e) : ∃ f, e = .fault f := by
  induction records generalizing t with
  | nil => cases ht
  | cons x records ih =>
    rcases x with f | r
    · cases ht
      exact ⟨f, rfl⟩
    · obtain ⟨v, hv⟩ := Option.ne_none_iff_exists'.1 (h r List.mem_cons_self)
      have hr : r.value = .ok v := by rw [Record.value, hv]
      rw [pushAll, hr] at ht
      exact ih (fun r' hr' => h r' (List.mem_cons_of_mem _ hr')) ht

end PropertyTable

namespace Database

/-- What is collected for one value and a table of all values agree. -/
structure Agree (value : Text) (collected : Except RecordFault (List CodePointRange))
    (table : Except RecordFault PropertyTable) : Prop where
  /-- Both fail with the same fault or both succeed. -/
  fault : ∀ f, collected = .error (.fault f) ↔ table = .error (.fault f)
  /-- A record without a value is never met. -/
  hasValue : collected ≠ .error .noValue ∧ table ≠ .error .noValue
  /-- The ranges are those of the value in the table, none if it is not there. -/
  ranges : ∀ t, table = .ok t → collected = .ok ((t.get? value).getD [])
  mem_keys_iff : ∀ t, table = .ok t →
    (value ∈ t.keys ↔ ∃ ranges, collected = .ok ranges ∧ ranges ≠ [])

variable {value : Text} {records : List (Except Fault Record)}

/-- What is selected for a value is what the records add to its ranges in a table. -/
theorem select_eq {t : PropertyTable} (h : t.Sorted) (value : Text) (records : List (Except Fault Record)) :
    (t.pushAll records).map (fun t' => t'.ranges value) =
      (select value records).map (t.ranges value ++ ·) := by
  induction records generalizing t with
  | nil =>
    show Except.ok (t.ranges value) = .ok (t.ranges value ++ [])
    rw [List.append_nil]
  | cons x records ih =>
    rcases x with f | r
    · rfl
    · rw [PropertyTable.pushAll, select]
      cases hv : r.value with
      | error e => rfl
      | ok v =>
        have hp := ih (h.push v r.range)
        rw [h.ranges_push] at hp
        refine hp.trans ?_
        cases select value records with
        | error e => rfl
        | ok ranges =>
          by_cases hvv : v = value
          · simp [Except.map, bind, Except.bind, pure, Except.pure, hvv]
          · simp [Except.map, bind, Except.bind, pure, Except.pure, hvv]

theorem select_eq_map_ofRecords (value : Text) (records : List (Except Fault Record)) :
    select value records = (PropertyTable.ofRecords records).map fun t => t.ranges value := by
  rw [PropertyTable.ofRecords, select_eq PropertyTable.sorted_empty]
  show _ = (select value records).map fun ranges => [] ++ ranges
  cases select value records <;> rfl

theorem agree_of_records (hv : ∀ r, .ok r ∈ records → r.value? ≠ none) :
    Agree value (select value records) (PropertyTable.ofRecords records) := by
  rw [select_eq_map_ofRecords]
  cases ht : PropertyTable.ofRecords records with
  | error e =>
    obtain ⟨f, rfl⟩ := PropertyTable.fault_of_pushAll hv ht
    refine ⟨fun f' => by simp [Except.map], by simp [Except.map], ?_, ?_⟩
    · rintro _ ⟨⟩
    · rintro _ ⟨⟩
  | ok t =>
    have hw : t.WellFormed := PropertyTable.WellFormed.empty.pushAll ht
    refine ⟨fun f => by simp [Except.map], by simp [Except.map], ?_, ?_⟩
    · rintro _ ⟨⟩
      rfl
    · rintro _ ⟨⟩
      rw [hw.mem_keys_iff]
      simp [Except.map]

theorem exists_run_of_mem_readPairs {t : FileTree} {path : Text} {e : Entry}
    (h : e ∈ (readPairs t path).items) : ∃ data, e ∈ ((DataFile.format 2).run path data).items := by
  unfold readPairs DataFile.openFile at h
  cases ho : t.openNode path with
  | error f =>
    rw [ho] at h
    cases h
  | ok node =>
    rw [ho] at h
    cases node with
    | directory => cases h
    | file data => exact ⟨data, h⟩

theorem value?_of_mem_results {t : FileTree} {path : Text} (r : Record)
    (h : .ok r ∈ ((readPairs t path).map Entry.record).results) : r.value? ≠ none := by
  have hn : 2 ≤ 2 := Nat.le_refl 2
  obtain ⟨e, he, rfl⟩ := List.mem_map.1 (Run.ok_mem_results_iff.1 h)
  obtain ⟨data, hd⟩ := exists_run_of_mem_readPairs he
  exact (DataFile.writable_of_mem_run hn hd).value?_ne_none hn

theorem collectProperty_agree (t : FileTree) (path value : Text) :
    Agree value (collectProperty t path value).answer (propertyTable t path).answer := by
  rw [collectProperty, propertyTable, Logged.answer_conclude, Logged.answer_conclude]
  exact agree_of_records value?_of_mem_results

/-- Collecting the ranges of one value and making a table of all values agree on every file, whether or not it
can be read, and so does the builder of one property. -/
theorem builders_agree (t : FileTree) :
    (∀ path value,
      Agree value (collectProperty t path value).answer (propertyTable t path).answer) ∧
    ∀ directory, Agree "Extended_Pictographic".toList (extendedPictographic t directory).answer
      (propertyTable t (FileTree.join directory "emoji/emoji-data.txt".toList)).answer := by
  constructor
  · intro path value
    exact collectProperty_agree t path value
  · intro directory
    exact collectProperty_agree t _ _

end Database

end UnicodeTables
