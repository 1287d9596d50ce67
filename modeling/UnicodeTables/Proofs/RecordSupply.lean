import UnicodeTables.Proofs.CleanRecords

/-! # Tables from records that are made on demand

A table is built out of items that are made one by one, each when it is asked for. The first item that is a
fault or has no fields stops the building (`StopsBuilding`), and no item is asked for after it
(`builds_of_stops`). So what comes of it depends on the items up to this one and on nothing else, and a reader
that is asked for its records gives the same table or fault as all its records at once
(`building_by_first_stop`). -/

namespace UnicodeTables

/-- Asking for one item after another makes these items. -/
inductive Makes {σ α : Type} (next : σ → Option α × σ) : σ → List α → σ → Prop
  | nil (s : σ) : Makes next s [] s
  | cons {s s' s'' : σ} {a : α} {items : List α} (h : next s = (some a, s'))
      (t : Makes next s' items s'') : Makes next s (a :: items) s''

/-- A call, of whose item the part `ψ` is taken. -/
def LineFormat.nextAs {σ α β : Type} (fmt : LineFormat σ α) (ψ : α → β) (r : Reader σ) :
    Option (Except Fault β) × Reader σ :=
  ((fmt.next r).1.map (Except.map ψ), (fmt.next r).2)

/-- A reader that is asked until nothing comes any more makes the results of reading all that is left. -/
theorem LineFormat.exists_makes {σ α β : Type} (fmt : LineFormat σ α) (ψ : α → β) (r : Reader σ) :
    ∃ r' r'', Makes (fmt.nextAs ψ) r ((fmt.rest r).map ψ).results r' ∧ fmt.nextAs ψ r' = (none, r'') := by
  induction h : (fmt.rest r).items generalizing r with
  | nil =>
    rcases hn : fmt.next r with ⟨_ | f | a, r'⟩
    · rw [(rest_eq_of_end hn).1]
      exact ⟨r, r', .nil r, by rw [nextAs, hn]; rfl⟩
    · obtain ⟨hr, hs⟩ := rest_eq_of_fault hn
      have hs' : fmt.next r' = (none, r') := by rw [next, hs]
      rw [hr]
      exact ⟨r', r', .cons (by rw [nextAs, hn]; rfl) (.nil r'), by rw [nextAs, hs']; rfl⟩
    · rw [rest_eq_of_item hn] at h
      cases h
  | cons b items ih =>
    rcases hn : fmt.next r with ⟨_ | f | a, r'⟩
    · rw [(rest_eq_of_end hn).1] at h
      cases h
    · rw [(rest_eq_of_fault hn).1] at h
      cases h
    · rw [rest_eq_of_item hn] at h ⊢
      cases h
      obtain ⟨r₁, r₂, hm, he⟩ := ih r' rfl
      exact ⟨r₁, r₂, .cons (by rw [nextAs, hn]; rfl) hm, he⟩

namespace PropertyTable

/-- The items that stop the building of a table, and what comes of it then. -/
inductive StopsBuilding : Except Fault Record → RecordFault → Prop
  | fault (f : Fault) : StopsBuilding (.error f) (.fault f)
  | noFields {r : Record} (h : r.fields = []) : StopsBuilding (.ok r) .noValue

/-- Building a table further: what comes of it, and the state of what makes the items when it is over. -/
inductive Builds {σ : Type} (next : σ → Option (Except Fault Record) × σ) :
    PropertyTable → σ → Except RecordFault PropertyTable → σ → Prop
  | ended {t : PropertyTable} {s s' : σ} (h : next s = (none, s')) : Builds next t s (.ok t) s'
  | stopped {t : PropertyTable} {s s' : σ} {x : Except Fault Record} {e : RecordFault}
      (h : next s = (some x, s')) (hx : StopsBuilding x e) : Builds next t s (.error e) s'
  | pushed {t : PropertyTable} {s s' s'' : σ} {r : Record} {v : Text}
      {out : Except RecordFault PropertyTable} (h : next s = (some (.ok r), s'))
      (hv : r.fields.head? = some v) (hb : Builds next (t.push v r.range) s' out s'') : Builds next t s out s''

def HaveFields (rs : List Record) : Prop := ∀ r ∈ rs, r.fields ≠ []

/-- The first field of each record with its range. -/
def pushes (rs : List Record) : List (Text × CodePointRange) :=
  rs.filterMap fun r => r.fields.head?.map fun v => (v, r.range)

/-- The table of records that were collected before. -/
def ofCollected : Except Fault (List Record) → Except RecordFault PropertyTable
  | .ok rs => ofRecords (rs.map .ok)
  | .error f => .error (.fault f)

section
variable {t : PropertyTable} {rs : List Record} {r : Record} {x : Except Fault Record} {e : RecordFault}
  {v : Text} {items later : List (Except Fault Record)}

theorem haveFields_cons_iff : HaveFields (r :: rs) ↔ (∃ v, r.fields.head? = some v) ∧ HaveFields rs := by
  rw [HaveFields, List.forall_mem_cons, ← Option.ne_none_iff_exists', Ne, Ne, List.head?_eq_none_iff]
  rfl

theorem pushes_cons (hv : r.fields.head? = some v) : pushes (r :: rs) = (v, r.range) :: pushes rs := by
  rw [pushes, List.filterMap_cons, hv]
  rfl

/-! ### All items at once -/

theorem pushAll_cons (hv : r.fields.head? = some v) :
    t.pushAll (.ok r :: items) = (t.push v r.range).pushAll items := by
  rw [pushAll, Record.value, Record.value?, hv]
  rfl

theorem StopsBuilding.pushAll_eq (h : StopsBuilding x e) (t : PropertyTable)
    (later : List (Except Fault Record)) : t.pushAll (x :: later) = .error e := by
  cases h with
  | fault f => rfl
  | noFields h =>
    rw [pushAll, Record.value, Record.value?, h]
    rfl

theorem StopsBuilding.not_head? (h : StopsBuilding (.ok r) e) : r.fields.head? ≠ some v := by
  cases h with
  | noFields h => simp [h]

/-- Records with fields are all pushed before what comes after them is looked at. -/
theorem pushAll_append (h : HaveFields rs) (t : PropertyTable) (items : List (Except Fault Record)) :
    t.pushAll (rs.map .ok ++ items) = (t.pushEach (pushes rs)).pushAll items := by
  induction rs generalizing t with
  | nil => rfl
  | cons r rs ih =>
    obtain ⟨⟨v, hv⟩, hs⟩ := haveFields_cons_iff.1 h
    rw [List.map_cons, List.cons_append, pushAll_cons hv, ih hs, pushes_cons hv]
    rfl

theorem ofRecords_eq_ofPushes (h : HaveFields rs) : ofRecords (rs.map .ok) = .ok (ofPushes (pushes rs)) := by
  have := pushAll_append h empty []
  rwa [List.append_nil] at this

theorem ofRecords_append (h : HaveFields rs) (hx : StopsBuilding x e) (later : List (Except Fault Record)) :
    ofRecords (rs.map .ok ++ x :: later) = .error e := by
  rw [ofRecords, pushAll_append h, hx.pushAll_eq]

/-- An item stops the building, or it is pushed. -/
theorem stops_or_pushed (x : Except Fault Record) :
    (∃ e, StopsBuilding x e) ∨ ∃ r v, x = .ok r ∧ r.fields.head? = some v := by
  rcases x with f | r
  · exact .inl ⟨_, .fault f⟩
  · cases hv : r.fields.head? with
    | none => exact .inl ⟨_, .noFields (List.head?_eq_none_iff.1 hv)⟩
    | some v => exact .inr ⟨r, v, rfl, hv⟩

/-- There is a first item that stops the building, or there is none. -/
theorem exists_first_stop (items : List (Except Fault Record)) :
    (∃ rs, items = rs.map .ok ∧ HaveFields rs) ∨
      ∃ rs x e later, items = rs.map .ok ++ x :: later ∧ HaveFields rs ∧ StopsBuilding x e := by
  have hnil : HaveFields [] := List.forall_mem_nil _
  induction items with
  | nil => exact .inl ⟨[], rfl, hnil⟩
  | cons x items ih =>
    rcases stops_or_pushed x with ⟨e, hx⟩ | ⟨r, v, rfl, hv⟩
    · exact .inr ⟨[], x, e, items, rfl, hnil, hx⟩
    · rcases ih with ⟨rs, rfl, h⟩ | ⟨rs, x, e, later, rfl, h, hx⟩
      · exact .inl ⟨r :: rs, rfl, haveFields_cons_iff.2 ⟨⟨v, hv⟩, h⟩⟩
      · exact .inr ⟨r :: rs, x, e, later, rfl, haveFields_cons_iff.2 ⟨⟨v, hv⟩, h⟩, hx⟩

end

/-! ### One item after another -/

section
variable {σ : Type} {next : σ → Option (Except Fault Record) × σ} {t : PropertyTable} {s s' s'' left : σ}
  {rs : List Record} {r : Record} {x : Except Fault Record} {e : RecordFault} {v : Text}
  {items : List (Except Fault Record)} {out : Except RecordFault PropertyTable}

theorem builds_of_ended (h : next s = (none, s')) :
    Builds next t s out left ↔ out = .ok t ∧ left = s' := by
  constructor
  · intro hb
    cases hb with
    | ended h' | stopped h' _ | pushed h' _ _ => cases h.symm.trans h' <;> exact ⟨rfl, rfl⟩
  · rintro ⟨rfl, rfl⟩
    exact .ended h

theorem StopsBuilding.unique {e' : RecordFault} (h : StopsBuilding x e) (h' : StopsBuilding x e') : e = e' := by
  cases h <;> cases h' <;> rfl

/-- The item that stops the building is the last one that is made. -/
theorem builds_of_stops (h : next s = (some x, s')) (hx : StopsBuilding x e) :
    Builds next t s out left ↔ out = .error e ∧ left = s' := by
  constructor
  · intro hb
    cases hb with
    | ended h' => cases h.symm.trans h'
    | stopped h' hx' =>
      cases h.symm.trans h'
      exact ⟨by rw [hx'.unique hx], rfl⟩
    | pushed h' hv _ =>
      cases h.symm.trans h'
      exact absurd hv hx.not_head?
  · rintro ⟨rfl, rfl⟩
    exact .stopped h hx

theorem builds_of_record (h : next s = (some (.ok r), s')) (hv : r.fields.head? = some v) :
    Builds next t s out left ↔ Builds next (t.push v r.range) s' out left := by
  constructor
  · intro hb
    cases hb with
    | ended h' => cases h.symm.trans h'
    | stopped h' hx =>
      cases h.symm.trans h'
      exact absurd hv hx.not_head?
    | pushed h' hv' hb =>
      cases h.symm.trans h'
      cases hv.symm.trans hv'
      exact hb
  · exact .pushed h hv

theorem builds_of_makes (hm : Makes next s (rs.map .ok) s') (h : HaveFields rs) (t : PropertyTable) :
    Builds next t s out left ↔ Builds next (t.pushEach (pushes rs)) s' out left := by
  induction rs generalizing t s with
  | nil =>
    cases hm
    rfl
  | cons r rs ih =>
    obtain ⟨⟨v, hv⟩, hs⟩ := haveFields_cons_iff.1 h
    rcases hm with _ | ⟨hn, hm⟩
    rw [builds_of_record hn hv, ih hm hs, pushes_cons hv]
    rfl

/-- If the items come to an end, asking for them one by one is as good as having them all. -/
theorem exists_builds_iff (hm : Makes next s items s') (he : next s' = (none, s'')) :
    (∃ left, Builds next t s out left) ↔ t.pushAll items = out := by
  induction hm generalizing t with
  | nil s =>
    simp only [builds_of_ended he, exists_and_left, exists_eq, and_true]
    exact eq_comm
  | @cons s s₁ s' x items h hm ih =>
    rcases stops_or_pushed x with ⟨e, hx⟩ | ⟨r, v, rfl, hv⟩
    · simp only [builds_of_stops h hx, hx.pushAll_eq, exists_and_left, exists_eq, and_true]
      exact eq_comm
    · simp only [builds_of_record h hv, pushAll_cons hv]
      exact ih he

end

end PropertyTable

/-! ### Readers -/

namespace DataFile
open PropertyTable
variable {n : Nat} {source : Text} {data : Bytes} {out : Except RecordFault PropertyTable}

/-- What comes of building a table out of the records that a reader of the data is asked for. -/
inductive BuildsTable (n : Nat) (source : Text) (data : Bytes) : Except RecordFault PropertyTable → Prop
  | unsupported {f : Fault} (h : format? n = .error f) : BuildsTable n source data (.error (.fault f))
  | read {fmt : LineFormat Pairing Entry} {left : Reader Pairing} {out : Except RecordFault PropertyTable}
      (h : format? n = .ok fmt)
      (hb : Builds (fmt.nextAs Entry.record) empty (fmt.start source data) out left) :
      BuildsTable n source data out

/-- A fault comes after records that have fields, so it is met whether or not these are collected first. -/
theorem ofRecords_results (hn : 2 ≤ n) (source : Text) (data : Bytes) :
    ofRecords (((format n).run source data).map Entry.record).results =
      ofCollected (records n source data).answer := by
  have h : HaveFields (((format n).run source data).map Entry.record).items := by
    intro r hr
    obtain ⟨e, he, rfl⟩ := List.mem_map.1 hr
    exact mt List.head?_eq_none_iff.2 ((writable_of_mem_run hn he).value?_ne_none hn)
  rw [records_eq hn]
  generalize ((format n).run source data).map Entry.record = run at h
  obtain ⟨rs, _ | f⟩ := run
  · rw [Run.results, Option.toList_none, List.map_nil, List.append_nil]
    rfl
  · exact ofRecords_append h (.fault f) []

theorem buildsTable_iff : BuildsTable n source data out ↔ out = ofCollected (records n source data).answer := by
  rcases Nat.lt_or_ge n 2 with hn | hn
  · have hf := format?_of_lt hn
    rw [records_of_lt hn]
    constructor
    · intro h
      cases h with
      | unsupported h => cases hf.symm.trans h; rfl
      | read h _ => cases hf.symm.trans h
    · rintro rfl
      exact .unsupported hf
  · have hf := format?_of_le hn
    obtain ⟨r, r', hm, he⟩ := (format n).exists_makes Entry.record ((format n).start source data)
    rw [← ofRecords_results hn, eq_comm]
    refine Iff.trans ⟨fun h => ?_, fun ⟨left, h⟩ => .read hf h⟩ (exists_builds_iff hm he)
    cases h with
    | unsupported h => cases hf.symm.trans h
    | read h hb =>
      cases hf.symm.trans h
      exact ⟨_, hb⟩

end DataFile

namespace PropertyTable

/-- Records that all have fields are pushed one after another. Else the first item that is a fault or has no
fields decides, whatever comes after it: it is the last one that is made, and a fault is passed on as it
is. So it does not matter whether the records of a reader are collected before they are grouped. -/
theorem building_by_first_stop :
    (∀ rs : List Record, HaveFields rs → ofRecords (rs.map .ok) = .ok (ofPushes (pushes rs))) ∧
    (∀ rs x e, HaveFields rs → StopsBuilding x e →
      ∀ later, ofRecords (rs.map .ok ++ x :: later) = .error e) ∧
    (∀ items, (∃ rs, items = rs.map .ok ∧ HaveFields rs) ∨
      ∃ rs x e later, items = rs.map .ok ++ x :: later ∧ HaveFields rs ∧ StopsBuilding x e) ∧
    (∀ (σ : Type) (next : σ → Option (Except Fault Record) × σ) s rs s',
      Makes next s (rs.map .ok) s' → HaveFields rs →
        (∀ s'', next s' = (none, s'') →
          ∀ out left, Builds next empty s out left ↔ out = .ok (ofPushes (pushes rs)) ∧ left = s'') ∧
        ∀ x e s'', next s' = (some x, s'') → StopsBuilding x e →
          ∀ out left, Builds next empty s out left ↔ out = .error e ∧ left = s'') ∧
    (∀ (σ : Type) (next : σ → Option (Except Fault Record) × σ) s items s' s'',
      Makes next s items s' → next s' = (none, s'') →
        ∀ out, (∃ left, Builds next empty s out left) ↔ ofRecords items = out) ∧
    ∀ n source data out, DataFile.BuildsTable n source data out ↔
      out = ofCollected (DataFile.records n source data).answer := by
  refine ⟨fun rs => ofRecords_eq_ofPushes, fun rs x e h hx => ofRecords_append h hx, exists_first_stop,
    fun σ next s rs s' hm h => ⟨fun s'' he out left => ?_, fun x e s'' hn hx out left => ?_⟩,
    fun σ next s items s' s'' hm he out => exists_builds_iff hm he,
    fun n source data out => DataFile.buildsTable_iff⟩
  · rw [builds_of_makes hm h, builds_of_ended he]
    rfl
  · rw [builds_of_makes hm h, builds_of_stops hn hx]

/-- A fault that has two places already, before a record without fields. -/
theorem building_stopped_twice :
    let a : Record := ⟨1, .single 0x41, ["A".toList, "x".toList]⟩
    let bare : Record := ⟨3, .single 0x43, []⟩
    let f : Fault := .located "s".toList 7 (.located "t".toList 2 .invalidLastLine)
    let list : List (Except Fault Record) → Option (Except Fault Record) × List (Except Fault Record) :=
      fun items => (items.head?, items.tail)
    HaveFields [a] ∧ ofRecords ([a].map .ok) = .ok (ofPushes [("A".toList, .single 0x41)]) ∧
      StopsBuilding (.error f) (.fault f) ∧ StopsBuilding (.ok bare) .noValue ∧
      ofRecords [.ok a, .error f, .ok bare] = .error (.fault f) ∧
      ofRecords [.ok a, .ok bare, .error f] = .error .noValue ∧
      (∀ out left, Builds list empty [.ok a, .error f, .ok bare] out left ↔
        out = .error (.fault f) ∧ left = [.ok bare]) ∧
      ((∃ left, Builds list empty [.ok a] (.ok (ofPushes [("A".toList, .single 0x41)])) left) ↔
        ofRecords [.ok a] = .ok (ofPushes [("A".toList, .single 0x41)])) := by
  intro a bare f list
  have ha : HaveFields [a] := by simp [HaveFields, a]
  have hf : StopsBuilding (.error f) (.fault f) := .fault f
  have hb : StopsBuilding (.ok bare) .noValue := .noFields rfl
  obtain ⟨hall, hstop, -, hmake, hend, -⟩ := building_by_first_stop
  have hm : ∀ items, Makes list (.ok a :: items) [.ok a] items := fun items => .cons rfl (.nil items)
  refine ⟨ha, hall [a] ha, hf, hb, hstop [a] _ _ ha hf [.ok bare], hstop [a] _ _ ha hb [.error f],
    fun out left => ?_, ?_⟩
  · exact (hmake _ list _ [a] _ (hm _) ha).2 _ _ _ rfl hf out left
  · exact hend _ list _ _ _ [] (hm []) rfl _

end PropertyTable

end UnicodeTables
