import Mathlib.Data.Char
import Mathlib.Data.List.Lex
import UnicodeTables.PropertyTable

/-! # What a table holds

A table made from records holds, for each value, the ranges of the records with this value in the order of
the records, and its values are in order (`ofRecords_eq`). -/

namespace UnicodeTables.PropertyTable

/-- The values are in order, and none is there twice. -/
def Sorted (t : PropertyTable) : Prop := t.keys.Pairwise (· < ·)

/-- The ranges of a value, none if the table does not have it. -/
def ranges (t : PropertyTable) (value : Text) : List CodePointRange := (t.get? value).getD []

/-- The ranges of the records with the given value. -/
def rangesOf (value : Text) (rs : List Record) : List CodePointRange :=
  (rs.filter fun r => r.value? = some value).map Record.range

theorem rangesOf_append (v : Text) (rs rs' : List Record) :
    rangesOf v (rs ++ rs') = rangesOf v rs ++ rangesOf v rs' := by
  rw [rangesOf, List.filter_append, List.map_append, rangesOf, rangesOf]

section
variable {v w : Text} {range : CodePointRange} {entries : List (Text × List CodePointRange)}

/-- What is added behind the ranges of a value, or as the first of them, is all that changes. -/
theorem forall_mem_insert {P : List CodePointRange → Prop} (hone : P [range])
    (hmore : ∀ ranges, P ranges → P (ranges ++ [range])) (h : ∀ e ∈ entries, P e.2) :
    ∀ e ∈ insert v range entries, P e.2 := by
  induction entries with
  | nil => simpa [insert] using hone
  | cons e entries ih =>
    obtain ⟨u, ranges⟩ := e
    obtain ⟨hu, ht⟩ := List.forall_mem_cons.1 h
    rw [insert]
    split
    · exact List.forall_mem_cons.2 ⟨hmore ranges hu, ht⟩
    · split
      · exact List.forall_mem_cons.2 ⟨hone, h⟩
      · exact List.forall_mem_cons.2 ⟨hu, ih ht⟩

theorem mem_keys_insert (h : w ∈ (insert v range entries).map Prod.fst) :
    w = v ∨ w ∈ entries.map Prod.fst := by
  induction entries with
  | nil => exact .inl (by simpa [insert] using h)
  | cons e entries ih =>
    obtain ⟨u, ranges⟩ := e
    rw [insert] at h
    split at h
    · exact .inr h
    · split at h
      · simpa using h
      · rw [List.map_cons, List.mem_cons] at h
        rcases h with rfl | h
        · exact .inr (by simp)
        · rcases ih h with h | h
          · exact .inl h
          · exact .inr (by simp [h])

theorem pairwise_insert (h : (entries.map Prod.fst).Pairwise (· < ·)) :
    ((insert v range entries).map Prod.fst).Pairwise (· < ·) := by
  induction entries with
  | nil => simp [insert]
  | cons e entries ih =>
    obtain ⟨u, ranges⟩ := e
    rw [List.map_cons, List.pairwise_cons] at h
    obtain ⟨hu, hs⟩ := h
    rw [insert]
    split
    · exact List.pairwise_cons.2 ⟨hu, hs⟩
    · rename_i hne
      split
      · rename_i hlt
        refine List.pairwise_cons.2 ⟨fun w hw => ?_, List.pairwise_cons.2 ⟨hu, hs⟩⟩
        rcases List.mem_cons.1 hw with rfl | hw
        · exact hlt
        · exact lt_trans hlt (hu w hw)
      · rename_i hle
        refine List.pairwise_cons.2 ⟨fun w hw => ?_, ih hs⟩
        rcases mem_keys_insert hw with rfl | hw
        · exact lt_of_le_of_ne (not_lt.1 hle) hne
        · exact hu w hw

theorem lookup_eq_none (h : ∀ w ∈ entries.map Prod.fst, v < w) : entries.lookup v = none := by
  rw [List.lookup_eq_none_iff]
  intro e he
  have := h e.1 (List.mem_map_of_mem he)
  simpa using this.ne

theorem lookup_insert_self (h : (entries.map Prod.fst).Pairwise (· < ·)) :
    (insert v range entries).lookup v = some ((entries.lookup v).getD [] ++ [range]) := by
  induction entries with
  | nil => simp [insert]
  | cons e entries ih =>
    obtain ⟨u, ranges⟩ := e
    rw [List.map_cons, List.pairwise_cons] at h
    obtain ⟨hu, hs⟩ := h
    rw [insert]
    split
    · rename_i he
      rw [he, List.lookup_cons_self, List.lookup_cons_self, Option.getD_some]
    · rename_i hne
      split
      · rename_i hlt
        have hn : ((u, ranges) :: entries).lookup v = none := by
          refine lookup_eq_none fun w hw => ?_
          rcases List.mem_cons.1 hw with rfl | hw
          · exact hlt
          · exact lt_trans hlt (hu w hw)
        rw [hn, List.lookup_cons_self, Option.getD_none, List.nil_append]
      · have hv : (v == u) = false := by simpa using Ne.symm hne
        rw [List.lookup_cons, hv, List.lookup_cons, hv]
        exact ih hs

theorem lookup_insert_of_ne (h : w ≠ v) : (insert v range entries).lookup w = entries.lookup w := by
  have hv : (w == v) = false := by simpa using h
  induction entries with
  | nil => rw [insert, List.lookup_cons, hv]
  | cons e entries ih =>
    obtain ⟨u, ranges⟩ := e
    rw [insert]
    split
    · rename_i he
      rw [he, List.lookup_cons, List.lookup_cons, hv]
    · split
      · rw [List.lookup_cons, hv]
      · rw [List.lookup_cons, List.lookup_cons, ih]

end

section
variable {t : PropertyTable} {rs : List Record}

/-- What every push of a record preserves is preserved by going through the records. -/
theorem pushAll_induction {P : PropertyTable → Prop} {t' : PropertyTable}
    {records : List (Except Fault Record)} (h : P t)
    (hp : ∀ t v r, .ok r ∈ records → P t → P (t.push v r.range)) (ht : t.pushAll records = .ok t') : P t' := by
  induction records generalizing t with
  | nil =>
    cases ht
    exact h
  | cons x records ih =>
    rcases x with f | r
    · cases ht
    · rw [pushAll] at ht
      cases hv : r.value with
      | error e =>
        rw [hv] at ht
        cases ht
      | ok v =>
        rw [hv] at ht
        refine ih (hp t v r List.mem_cons_self h) (fun t v r' hm => ?_) ht
        exact hp t v r' (List.mem_cons_of_mem _ hm)

theorem sorted_empty : empty.Sorted := .nil

theorem Sorted.push (h : t.Sorted) (v : Text) (range : CodePointRange) : (t.push v range).Sorted :=
  pairwise_insert h

theorem Sorted.ranges_push (h : t.Sorted) (v w : Text) (range : CodePointRange) :
    (t.push v range).ranges w = t.ranges w ++ if v = w then [range] else [] := by
  unfold ranges get? PropertyTable.push
  by_cases hw : v = w
  · rw [if_pos hw, ← hw, lookup_insert_self h, Option.getD_some]
  · rw [if_neg hw, lookup_insert_of_ne (Ne.symm hw), List.append_nil]

theorem Sorted.pushAll_eq (h : t.Sorted) (hv : ∀ r ∈ rs, r.value? ≠ none) :
    ∃ t', t.pushAll (rs.map .ok) = .ok t' ∧ t'.Sorted ∧ ∀ v, t'.ranges v = t.ranges v ++ rangesOf v rs := by
  induction rs generalizing t with
  | nil => exact ⟨t, rfl, h, fun v => (List.append_nil _).symm⟩
  | cons r rs ih =>
    obtain ⟨value, hr⟩ := Option.ne_none_iff_exists'.1 (hv r (by simp))
    obtain ⟨t', ht, hs, hg⟩ := ih (h.push value r.range) fun r' hr' => hv r' (by simp [hr'])
    refine ⟨t', ?_, hs, fun v => ?_⟩
    · rw [List.map_cons, pushAll, Record.value, hr]
      exact ht
    · rw [hg, h.ranges_push, List.append_assoc]
      congr 1
      by_cases hv : value = v
      · simp [rangesOf, hr, hv]
      · simp [rangesOf, hr, hv]

/-- There is a table of all records if each has a value. -/
theorem ofRecords_eq (hv : ∀ r ∈ rs, r.value? ≠ none) :
    ∃ t, ofRecords (rs.map .ok) = .ok t ∧ t.Sorted ∧ ∀ v, t.ranges v = rangesOf v rs :=
  sorted_empty.pushAll_eq hv

end

end UnicodeTables.PropertyTable
