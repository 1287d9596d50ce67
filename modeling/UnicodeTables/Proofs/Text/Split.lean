import UnicodeTables.Text.Blank

/-! # Trimming and splitting

Blanks at the ends of a text do not matter to what is trimmed (`trim_append_blanks`), not even to the
trimmed pieces of a text that is split at a character that is no blank (`map_trim_splitOn_trim`). -/

namespace UnicodeTables.Text
variable {s t a b : Text} {c d : Char}

instance (s : Text) : Decidable (Trimmed s) :=
  decidable_of_iff (s.head?.any isBlank = false ∧ s.getLast?.any isBlank = false) <| by
    simp [Trimmed, Option.any_eq_false]

theorem mem_of_mem_trim (h : c ∈ trim s) : c ∈ s := by
  obtain ⟨a, b, -, -, hs⟩ := exists_trim s
  rw [hs]
  simp [h]

/-- What is between blanks and has no blank at its ends is what trimming leaves. -/
theorem trim_append_blanks (ha : ∀ c ∈ a, isBlank c) (hb : ∀ c ∈ b, isBlank c) :
    trim (a ++ s ++ b) = trim s := by
  obtain ⟨a', b', ha', hb', hs⟩ := exists_trim s
  have h : a ++ s ++ b = (a ++ a') ++ trim s ++ (b' ++ b) := by
    conv => lhs; rw [hs]
    simp only [List.append_assoc]
  rw [h]
  refine trim_surround (fun c hc => ?_) (fun c hc => ?_) (trimmed_trim s)
  · exact (List.mem_append.1 hc).elim (ha c) (ha' c)
  · exact (List.mem_append.1 hc).elim (hb' c) (hb c)

theorem trim_append_blank (hb : ∀ c ∈ b, isBlank c) : trim (s ++ b) = trim s :=
  trim_append_blanks (a := []) (by simp) hb

theorem trim_blank_append (ha : ∀ c ∈ a, isBlank c) : trim (a ++ s) = trim s := by
  simpa using trim_append_blanks (b := []) ha (by simp)

theorem trim_eq_nil_iff : trim s = [] ↔ ∀ c ∈ s, isBlank c := by
  constructor
  · intro h
    obtain ⟨a, b, ha, hb, hs⟩ := exists_trim s
    rw [hs, h]
    intro c hc
    simp only [List.append_nil, List.mem_append] at hc
    exact hc.elim (ha c) (hb c)
  · intro h
    exact trim_append_blank (s := []) h

theorem trimmed_cons_concat (hc : isBlank c = false) (hd : isBlank d = false) :
    Trimmed (c :: (s ++ [d])) := by
  refine ⟨by simpa using hc, fun e he => ?_⟩
  rw [← List.cons_append, List.getLast?_concat, Option.mem_some_iff] at he
  rw [← he]
  exact hd

/-! ### Pieces -/

theorem not_mem_of_mem_splitOn (h : t ∈ s.splitOn c) : c ∉ t := by
  induction s generalizing t with
  | nil => simp_all
  | cons d s ih =>
    rw [List.splitOn_cons_eq_if_modifyHead] at h
    split at h
    · rcases List.mem_cons.1 h with rfl | h
      · simp
      · exact ih h
    · rename_i hd
      cases hs : s.splitOn c with
      | nil => exact absurd hs (List.splitOn_ne_nil c s)
      | cons u us =>
        rw [hs, List.modifyHead_cons] at h
        rcases List.mem_cons.1 h with rfl | h
        · have := ih (t := u) (by simp [hs])
          simp only [List.mem_cons, not_or]
          exact ⟨fun h => hd (by simp [h]), this⟩
        · exact ih (by simp [hs, h])

theorem mem_of_mem_splitOn (h : t ∈ s.splitOn c) (hd : d ∈ t) : d ∈ s := by
  have hs : [c].intercalate (s.splitOn c) = s := List.intercalate_splitOn c
  rw [← hs]
  generalize s.splitOn c = ts at h
  induction ts with
  | nil => simp at h
  | cons u us ih =>
    cases us with
    | nil =>
      rw [List.mem_singleton] at h
      simpa [h] using hd
    | cons v vs =>
      rw [List.intercalate_cons_cons]
      rcases List.mem_cons.1 h with rfl | h
      · simp [hd]
      · simp [ih h]

theorem length_splitOn (s : Text) (c : Char) : (s.splitOn c).length = s.count c + 1 := by
  induction s with
  | nil => rfl
  | cons d s ih =>
    rw [List.splitOn_cons_eq_if_modifyHead, List.count_cons]
    split
    · rw [List.length_cons, ih]
    · rw [List.length_modifyHead, ih]

/-- Text without the separator that stands after all lengthens the last piece. -/
theorem splitOn_append_of_not_mem (s : Text) (hb : c ∉ b) :
    ∃ init last, s.splitOn c = init ++ [last] ∧ (s ++ b).splitOn c = init ++ [last ++ b] := by
  induction s with
  | nil => exact ⟨[], [], List.splitOn_nil c, List.splitOn_eq_singleton hb⟩
  | cons d s ih =>
    obtain ⟨init, last, h, h'⟩ := ih
    rw [List.cons_append, List.splitOn_cons_eq_if_modifyHead, List.splitOn_cons_eq_if_modifyHead, h, h']
    split
    · exact ⟨[] :: init, last, rfl, rfl⟩
    · cases init with
      | nil => exact ⟨[], d :: last, rfl, rfl⟩
      | cons u us => exact ⟨(d :: u) :: us, last, rfl, rfl⟩

/-- Text without the separator that stands before all lengthens the first piece. -/
theorem splitOn_append_of_not_mem_left (s : Text) (ha : c ∉ a) :
    ∃ head tail, s.splitOn c = head :: tail ∧ (a ++ s).splitOn c = (a ++ head) :: tail := by
  induction a with
  | nil =>
    obtain ⟨head, tail, h⟩ := List.exists_cons_of_ne_nil (List.splitOn_ne_nil c s)
    exact ⟨head, tail, h, h⟩
  | cons d a ih =>
    simp only [List.mem_cons, not_or] at ha
    obtain ⟨head, tail, h, h'⟩ := ih ha.2
    refine ⟨head, tail, h, ?_⟩
    rw [List.cons_append, List.splitOn_cons_eq_if_modifyHead, h', if_neg (by simpa using Ne.symm ha.1)]
    rfl

theorem map_trim_splitOn_trim (hc : isBlank c = false) (s : Text) :
    ((trim s).splitOn c).map trim = (s.splitOn c).map trim := by
  obtain ⟨a, b, ha, hb, hs⟩ := exists_trim s
  have hca : c ∉ a := fun h => by simp [ha c h] at hc
  have hcb : c ∉ b := fun h => by simp [hb c h] at hc
  obtain ⟨init, last, h₁, h₂⟩ := splitOn_append_of_not_mem (a ++ trim s) hcb
  obtain ⟨head, tail, h₃, h₄⟩ := splitOn_append_of_not_mem_left (trim s) hca
  have hl : (s.splitOn c).map trim = ((a ++ trim s).splitOn c).map trim := by
    rw [h₁, show s.splitOn c = init ++ [last ++ b] by rw [← h₂, ← hs]]
    simp [trim_append_blank hb]
  rw [hl, h₃, h₄, List.map_cons, List.map_cons, trim_blank_append ha]

end UnicodeTables.Text
