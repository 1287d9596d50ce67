import Mathlib.Algebra.GroupWithZero.Nat
import Mathlib.Data.List.Dedup
import UnicodeTables.Proofs.PropertyTables
import UnicodeTables.Proofs.Text.Utf8

/-! # What is pushed onto a table

A push keeps a table well formed, with its values in order and no value without ranges
(`WellFormed.push`), and of such a table the ranges of each value say all (`WellFormed.mem_entries_iff`).
`Collects pushes t`: besides, the ranges of each value are those that were pushed under it, and no range is
lost. A table that was empty collects what is pushed onto it (`collects_ofPushes`), which settles how it groups
them (`grouping_ofPushes`). -/

namespace UnicodeTables.PropertyTable

/-- The table after pushes, which come one after another. -/
def pushEach (t : PropertyTable) (pushes : List (Text × CodePointRange)) : PropertyTable :=
  pushes.foldl (fun t p => t.push p.1 p.2) t

/-- The table that was empty before the pushes. -/
def ofPushes (pushes : List (Text × CodePointRange)) : PropertyTable := empty.pushEach pushes

/-- The ranges that were pushed under a value, in the order of the pushes. -/
def pushedUnder (value : Text) (pushes : List (Text × CodePointRange)) : List CodePointRange :=
  (pushes.filter fun p => p.1 = value).map Prod.snd

/-- How a table groups what was pushed onto it. -/
structure Grouping (pushes : List (Text × CodePointRange)) (t : PropertyTable) : Prop where
  /-- A value is not there exactly if nothing was pushed under it. -/
  get?_eq_none_iff : ∀ v, t.get? v = none ↔ v ∉ pushes.map Prod.fst
  /-- Else it has all ranges that were pushed under it, in this order. -/
  get?_eq_some : ∀ v ∈ pushes.map Prod.fst, t.get? v = some (pushedUnder v pushes)
  mem_keys_iff : ∀ v, v ∈ t.keys ↔ v ∈ pushes.map Prod.fst
  /-- The values ascend by their bytes, so none is listed twice. -/
  byteOrder : t.keys.Pairwise fun v w => Utf8.encode v < Utf8.encode w
  /-- They ascend by their code points. -/
  order : t.keys.Pairwise (· < ·)
  /-- Going through the table gives each value with its ranges. -/
  entries : t.entries = t.keys.map fun v => (v, pushedUnder v pushes)
  nonempty : ∀ e ∈ t.entries, e.2 ≠ []
  size : t.size = (pushes.map Prod.fst).dedup.length
  isEmpty_iff : t.isEmpty ↔ pushes = []
  /-- Each push is there once. -/
  total : (t.entries.map fun e => e.2.length).sum = pushes.length

/-! ### Well-formed tables -/

structure WellFormed (t : PropertyTable) : Prop where
  sorted : t.Sorted
  nonempty : ∀ e ∈ t.entries, e.2 ≠ []

section
variable {v : Text} {range : CodePointRange} {entries : List (Text × List CodePointRange)}
  {ranges : List CodePointRange}

/-- A push adds one range. -/
theorem sum_length_insert (v : Text) (range : CodePointRange)
    (entries : List (Text × List CodePointRange)) :
    ((insert v range entries).map fun e => e.2.length).sum =
      (entries.map fun e => e.2.length).sum + 1 := by
  induction entries with
  | nil => rfl
  | cons e entries ih =>
    obtain ⟨u, us⟩ := e
    rw [insert]
    split
    · simp only [List.map_cons, List.sum_cons, List.length_append, List.length_singleton]
      omega
    · split
      · simp only [List.map_cons, List.sum_cons, List.length_singleton]
        omega
      · simp only [List.map_cons, List.sum_cons, ih]
        omega

theorem lookup_eq_some_of_mem (hs : (entries.map Prod.fst).Pairwise (· < ·))
    (h : (v, ranges) ∈ entries) : entries.lookup v = some ranges := by
  induction entries with
  | nil => cases h
  | cons e entries ih =>
    rw [List.map_cons, List.pairwise_cons] at hs
    rcases List.mem_cons.1 h with rfl | h
    · exact List.lookup_cons_self
    · have hv : e.1 < v := hs.1 v (List.mem_map_of_mem h)
      have hne : (v == e.1) = false := by simpa using hv.ne'
      rw [List.lookup_cons, hne]
      exact ih hs.2 h

theorem mem_of_lookup_eq_some (h : entries.lookup v = some ranges) : (v, ranges) ∈ entries := by
  obtain ⟨before, after, rfl, -⟩ := List.lookup_eq_some_iff.1 h
  simp

end

namespace WellFormed
variable {t : PropertyTable} {v : Text} {ranges : List CodePointRange}

theorem empty : PropertyTable.empty.WellFormed := ⟨sorted_empty, by simp [PropertyTable.empty]⟩

theorem push (h : t.WellFormed) (v : Text) (range : CodePointRange) : (t.push v range).WellFormed :=
  ⟨h.sorted.push v range,
    forall_mem_insert (P := (· ≠ [])) (List.cons_ne_nil _ _) (fun _ _ => by simp) h.nonempty⟩

/-- A value has one entry. -/
theorem mem_entries_iff (h : t.WellFormed) : (v, ranges) ∈ t.entries ↔ t.get? v = some ranges :=
  ⟨lookup_eq_some_of_mem h.sorted, mem_of_lookup_eq_some⟩

theorem get?_eq (h : t.WellFormed) (v : Text) :
    t.get? v = if t.ranges v = [] then none else some (t.ranges v) := by
  unfold PropertyTable.ranges
  cases hv : t.get? v with
  | none => rfl
  | some ranges =>
    have hne : ranges ≠ [] := h.nonempty _ (h.mem_entries_iff.2 hv)
    exact (if_neg hne).symm

theorem mem_keys_iff (h : t.WellFormed) : v ∈ t.keys ↔ t.ranges v ≠ [] := by
  have hk : v ∈ t.keys ↔ t.get? v ≠ none := by
    rw [Option.ne_none_iff_exists', keys]
    constructor
    · intro hv
      obtain ⟨⟨v, ranges⟩, he, rfl⟩ := List.mem_map.1 hv
      exact ⟨ranges, h.mem_entries_iff.1 he⟩
    · rintro ⟨ranges, hv⟩
      exact List.mem_map_of_mem (h.mem_entries_iff.2 hv)
  rw [hk, h.get?_eq]
  split
  · rename_i hn
    simp [hn]
  · rename_i hn
    simp [hn]

theorem entries_eq (h : t.WellFormed) : t.entries = t.keys.map fun v => (v, t.ranges v) := by
  have he : ∀ e ∈ t.entries, (e.1, t.ranges e.1) = e := by
    rintro ⟨v, ranges⟩ he
    rw [PropertyTable.ranges, h.mem_entries_iff.1 he]
    rfl
  rw [keys, List.map_map]
  exact (List.map_id t.entries).symm.trans (List.map_congr_left fun e h => (he e h).symm)

end WellFormed

/-! ### Pushes -/

section
variable {t : PropertyTable} {pushes : List (Text × CodePointRange)} {v w : Text}

theorem pushedUnder_concat (v w : Text) (range : CodePointRange) (pushes : List (Text × CodePointRange)) :
    pushedUnder w (pushes ++ [(v, range)]) = pushedUnder w pushes ++ if v = w then [range] else [] := by
  rw [pushedUnder, List.filter_append, List.map_append, ← pushedUnder]
  by_cases h : v = w <;> simp [h]

theorem pushedUnder_eq_nil_iff : pushedUnder v pushes = [] ↔ v ∉ pushes.map Prod.fst := by
  rw [pushedUnder, List.map_eq_nil_iff, List.filter_eq_nil_iff]
  constructor
  · intro h hv
    obtain ⟨p, hp, rfl⟩ := List.mem_map.1 hv
    exact h p hp (decide_eq_true rfl)
  · intro h p hp hv
    exact h (List.mem_map.2 ⟨p, hp, of_decide_eq_true hv⟩)

structure Collects (pushes : List (Text × CodePointRange)) (t : PropertyTable) : Prop where
  wellFormed : t.WellFormed
  ranges : ∀ v, t.ranges v = pushedUnder v pushes
  total : (t.entries.map fun e => e.2.length).sum = pushes.length

theorem collects_empty : Collects [] empty := ⟨.empty, fun _ => rfl, rfl⟩

theorem Collects.push (h : Collects pushes t) (v : Text) (range : CodePointRange) :
    Collects (pushes ++ [(v, range)]) (t.push v range) := by
  refine ⟨h.wellFormed.push v range, fun w => ?_, ?_⟩
  · rw [h.wellFormed.sorted.ranges_push, h.ranges, pushedUnder_concat]
  · rw [List.length_append, List.length_singleton, ← h.total]
    exact sum_length_insert v range t.entries

theorem Collects.pushEach (h : Collects pushes t) (more : List (Text × CodePointRange)) :
    Collects (pushes ++ more) (t.pushEach more) := by
  induction more generalizing pushes t with
  | nil =>
    rw [List.append_nil]
    exact h
  | cons p more ih =>
    have hp := ih (h.push p.1 p.2)
    rwa [List.append_assoc] at hp

theorem collects_ofPushes (pushes : List (Text × CodePointRange)) : Collects pushes (ofPushes pushes) :=
  collects_empty.pushEach pushes

theorem Collects.mem_keys_iff (h : Collects pushes t) : v ∈ t.keys ↔ v ∈ pushes.map Prod.fst := by
  rw [h.wellFormed.mem_keys_iff, h.ranges, ne_eq, pushedUnder_eq_nil_iff, Decidable.not_not]

theorem Collects.size (h : Collects pushes t) : t.size = (pushes.map Prod.fst).dedup.length := by
  have hn : t.keys.Nodup := h.wellFormed.sorted.imp ne_of_lt
  have hm : ∀ v, v ∈ t.keys ↔ v ∈ (pushes.map Prod.fst).dedup := by
    intro v
    rw [h.mem_keys_iff, List.mem_dedup]
  have hp : t.keys.Perm (pushes.map Prod.fst).dedup :=
    (List.perm_ext_iff_of_nodup hn (List.nodup_dedup _)).2 hm
  rw [← hp.length_eq, keys, List.length_map]
  rfl

theorem Collects.isEmpty_iff (h : Collects pushes t) : t.isEmpty ↔ pushes = [] := by
  rw [isEmpty, List.isEmpty_iff]
  constructor
  · intro he
    have ht := h.total
    rw [he] at ht
    exact List.length_eq_zero_iff.1 ht.symm
  · rintro rfl
    rw [h.wellFormed.entries_eq, List.map_eq_nil_iff, List.eq_nil_iff_forall_not_mem]
    intro v hv
    simpa using h.mem_keys_iff.1 hv

/-- A table groups what is pushed onto it by values: nothing is lost, nothing is there twice, and the ranges
of each value keep their order. The values ascend, in the order of their bytes as in that of their code
points, since both are the same order. -/
theorem grouping_ofPushes (pushes : List (Text × CodePointRange)) :
    Grouping pushes (ofPushes pushes) ∧ ∀ v w : Text, Utf8.encode v < Utf8.encode w ↔ v < w := by
  have h := collects_ofPushes pushes
  have hw := h.wellFormed
  refine ⟨⟨fun v => ?_, fun v hv => ?_, fun v => h.mem_keys_iff, ?_, hw.sorted, ?_, hw.nonempty, h.size,
    h.isEmpty_iff, h.total⟩, fun v w => Utf8.encode_lt_encode_iff⟩
  · rw [hw.get?_eq, h.ranges, ← pushedUnder_eq_nil_iff]
    simp
  · have hne : pushedUnder v pushes ≠ [] := fun hn => pushedUnder_eq_nil_iff.1 hn hv
    rw [hw.get?_eq, h.ranges, if_neg hne]
  · exact hw.sorted.imp Utf8.encode_lt_encode
  · rw [hw.entries_eq]
    exact List.map_congr_left fun v _ => by rw [h.ranges]

end

end UnicodeTables.PropertyTable
