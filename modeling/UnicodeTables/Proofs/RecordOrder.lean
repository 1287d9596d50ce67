import Mathlib.Data.List.Sort
import UnicodeTables.Proofs.Builders
import UnicodeTables.Proofs.Serialized

/-! # Which order of records a table keeps

Two well-formed tables that have the same ranges for every value are the same (`WellFormed.eq_iff`). So a table
tells of the order of its records only the order of those with the same value, and records can be interleaved
in any way that keeps this (`table_order`). -/

namespace UnicodeTables

/-- The lists put together in some way that keeps the order of each. -/
inductive Interleaves {α : Type} : List (List α) → List α → Prop
  | nil {parts : List (List α)} (h : ∀ part ∈ parts, part = []) : Interleaves parts []
  | cons {before after : List (List α)} {part whole : List α} {x : α}
      (h : Interleaves (before ++ part :: after) whole) :
      Interleaves (before ++ (x :: part) :: after) (x :: whole)

namespace Interleaves
variable {α : Type} {parts : List (List α)} {whole : List α} {p : α → Bool}

/-- Of the elements with a property, the order is known if they are all in one of the lists. -/
theorem filter_eq (h : Interleaves parts whole)
    (hp : parts.Pairwise fun a b => ∀ x ∈ a, ∀ y ∈ b, p x → p y → False) :
    whole.filter p = parts.flatten.filter p := by
  induction h with
  | nil h => rw [List.flatten_eq_nil_iff.2 h]
  | @cons before after part whole x h ih =>
    have ht : (before ++ part :: after).Pairwise fun a b => ∀ x ∈ a, ∀ y ∈ b, p x → p y → False := by
      rw [List.pairwise_append, List.pairwise_cons] at hp ⊢
      obtain ⟨hb, ⟨hx, ha⟩, hba⟩ := hp
      refine ⟨hb, ⟨fun b hb y hy => hx b hb y (List.mem_cons_of_mem x hy), ha⟩, fun a ha b hb y hy z hz => ?_⟩
      rcases List.mem_cons.1 hb with rfl | hb
      · exact hba a ha _ List.mem_cons_self y hy z (List.mem_cons_of_mem x hz)
      · exact hba a ha b (List.mem_cons_of_mem _ hb) y hy z hz
    simp only [List.filter_cons, ih ht, List.flatten_append, List.flatten_cons, List.filter_append,
      List.cons_append]
    by_cases hx : p x
    · -- what has the property and comes first in its list comes first of all
      have hb : before.flatten.filter p = [] := by
        rw [List.filter_eq_nil_iff]
        intro y hy hpy
        obtain ⟨a, ha, hya⟩ := List.mem_flatten.1 hy
        rw [List.pairwise_append] at hp
        exact hp.2.2 a ha _ List.mem_cons_self y hya x List.mem_cons_self hpy hx
      rw [if_pos hx, if_pos hx, hb]
      rfl
    · rw [if_neg hx, if_neg hx]

theorem mem_flatten {x : α} (h : Interleaves parts whole) (hx : x ∈ whole) : x ∈ parts.flatten := by
  induction h with
  | nil h => cases hx
  | cons h ih =>
    rw [List.flatten_append, List.flatten_cons] at ih ⊢
    simp only [List.mem_append, List.mem_cons] at ih hx ⊢
    rcases hx with rfl | hx
    · exact .inr (.inl (.inl rfl))
    · rcases ih hx with hx | hx | hx
      · exact .inl hx
      · exact .inr (.inl (.inr hx))
      · exact .inr (.inr hx)

end Interleaves

namespace PropertyTable
variable {t t' : PropertyTable} {rs rs' : List Record}

/-- Well-formed tables are told apart by the ranges of some value. -/
theorem WellFormed.eq_iff (h : t.WellFormed) (h' : t'.WellFormed) :
    t = t' ↔ ∀ v, t.ranges v = t'.ranges v := by
  constructor
  · rintro rfl v
    rfl
  · intro hr
    have hk : t.keys = t'.keys := by
      refine List.Pairwise.eq_of_mem_iff h.sorted h'.sorted fun v => ?_
      rw [h.mem_keys_iff, h'.mem_keys_iff, hr]
    have he : t.entries = t'.entries := by
      rw [h.entries_eq, h'.entries_eq, hk]
      exact List.map_congr_left fun v _ => by rw [hr]
    exact congrArg PropertyTable.mk he

theorem WellFormed.eq_iff_get? (h : t.WellFormed) (h' : t'.WellFormed) :
    t = t' ↔ ∀ v, t.get? v = t'.get? v := by
  rw [h.eq_iff h']
  constructor
  · intro hr v
    rw [h.get?_eq, h'.get?_eq, hr]
  · intro hg v
    rw [ranges, ranges, hg]

/-- The table of records that have fields. -/
theorem exists_ofRecords (h : ∀ r ∈ rs, r.fields ≠ []) :
    ∃ t, ofRecords (rs.map .ok) = .ok t ∧ t.WellFormed ∧ ∀ v, t.ranges v = rangesOf v rs := by
  have hv : ∀ r ∈ rs, r.value? ≠ none := by
    intro r hr
    rw [Record.value?, Ne, List.head?_eq_none_iff]
    exact h r hr
  obtain ⟨t, ht, -, hr⟩ := ofRecords_eq hv
  exact ⟨t, ht, WellFormed.empty.pushAll ht, hr⟩

theorem ofRecords_congr (h : ∀ r ∈ rs, r.fields ≠ []) (h' : ∀ r ∈ rs', r.fields ≠ [])
    (hr : ∀ v, rangesOf v rs = rangesOf v rs') : ofRecords (rs.map .ok) = ofRecords (rs'.map .ok) := by
  obtain ⟨t, ht, hw, hv⟩ := exists_ofRecords h
  obtain ⟨t', ht', hw', hv'⟩ := exists_ofRecords h'
  have he : t = t' := by
    rw [hw.eq_iff hw']
    intro v
    rw [hv, hv', hr]
  rw [ht, ht', he]

theorem rangesOf_of_interleaves {parts : List (List Record)} {whole : List Record}
    (h : Interleaves parts whole)
    (hp : parts.Pairwise fun a b => ∀ r ∈ a, ∀ s ∈ b, r.value? ≠ s.value?) (v : Text) :
    rangesOf v whole = rangesOf v parts.flatten := by
  rw [rangesOf, h.filter_eq, ← rangesOf]
  refine hp.imp fun hab r hr s hs hrv hsv => hab r hr s hs ?_
  rw [of_decide_eq_true hrv, of_decide_eq_true hsv]

/-- A table of records that have fields depends on the ranges of each value in their order and on nothing
else. Records whose values differ may come in any order, and tables are the same if every look-up in them is. -/
theorem table_order :
    (∀ rs rs' : List Record, (∀ r ∈ rs, r.fields ≠ []) → (∀ r ∈ rs', r.fields ≠ []) →
      ∃ t t', ofRecords (rs.map .ok) = .ok t ∧ ofRecords (rs'.map .ok) = .ok t' ∧
        (t = t' ↔ ∀ v, rangesOf v rs = rangesOf v rs') ∧
        (t.toJson.render = t'.toJson.render ↔ ∀ v, rangesOf v rs = rangesOf v rs')) ∧
    (∀ (parts : List (List Record)) whole, (∀ r ∈ parts.flatten, r.fields ≠ []) →
      (parts.Pairwise fun a b => ∀ r ∈ a, ∀ s ∈ b, r.value? ≠ s.value?) → Interleaves parts whole →
        ofRecords (whole.map .ok) = ofRecords (parts.flatten.map .ok)) ∧
    ∀ pushes pushes', ofPushes pushes = ofPushes pushes' ↔
      ∀ v, (ofPushes pushes).get? v = (ofPushes pushes').get? v := by
  refine ⟨fun rs rs' h h' => ?_, fun parts whole h hp hi => ?_, fun pushes pushes' => ?_⟩
  · obtain ⟨t, ht, hw, hv⟩ := exists_ofRecords h
    obtain ⟨t', ht', hw', hv'⟩ := exists_ofRecords h'
    have he : t = t' ↔ ∀ v, rangesOf v rs = rangesOf v rs' := by
      rw [hw.eq_iff hw']
      exact forall_congr' fun v => by rw [hv, hv']
    refine ⟨t, t', ht, ht', he, ?_⟩
    rw [Json.render_inj, toJson_injective.eq_iff, he]
  · refine ofRecords_congr (fun r hr => ?_) h (rangesOf_of_interleaves hi hp)
    exact h r (hi.mem_flatten hr)
  · exact (collects_ofPushes pushes).wellFormed.eq_iff_get? (collects_ofPushes pushes').wellFormed

/-- Records of one value in one order and in the other, with a record of another value between. -/
theorem table_order_around :
    let a : Record := ⟨1, .single 5, ["A".toList]⟩
    let b : Record := ⟨2, .single 3, ["B".toList]⟩
    let c : Record := ⟨3, .single 1, ["A".toList, "x".toList]⟩
    (∀ r ∈ [a, b, c], r.fields ≠ []) ∧ Interleaves [[a, c], [b]] [a, b, c] ∧
      ofRecords ([a, b, c].map .ok) = ofRecords ([a, c, b].map .ok) ∧
        ofRecords ([a, b, c].map .ok) ≠ ofRecords ([c, b, a].map .ok) := by
  intro a b c
  have h : ∀ r ∈ [a, b, c], r.fields ≠ [] := by decide
  have h' : ∀ r ∈ [c, b, a], r.fields ≠ [] := by decide
  have hi : Interleaves [[a, c], [b]] [a, b, c] :=
    @Interleaves.cons _ [] [[b]] [c] [b, c] a <| @Interleaves.cons _ [[c]] [] [] [c] b <|
      @Interleaves.cons _ [] [[]] [] [] c <| .nil (by decide)
  obtain ⟨hr, hp, -⟩ := table_order
  refine ⟨h, hi, hp [[a, c], [b]] [a, b, c] (by decide) (by decide) hi, fun he => ?_⟩
  obtain ⟨t, t', ht, ht', htt, -⟩ := hr [a, b, c] [c, b, a] h h'
  rw [ht, ht', Except.ok.injEq, htt] at he
  exact absurd (he "A".toList) (by decide)

end PropertyTable

end UnicodeTables
