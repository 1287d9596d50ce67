import UnicodeTables.EntryName

/-! # Marked names

Of all names that the text could be marked with, the longest is read (`EntryName.parse_by_longest`). So a
marked name is what its written form is read as, whatever marks the name itself has, and reading a marked
name takes the name out of the text (`EntryName.eq_append_of_parse`). -/

namespace UnicodeTables

namespace Marker
variable {s : Text} {m m' : Marker}

theorem eq_of_mark_isPrefix (h : m.mark <+: s) (h' : m'.mark <+: s) : m = m' := by
  have hm : ∀ {a b : Marker}, a.mark <+: b.mark → a = b := by
    intro a b
    cases a <;> cases b <;> decide
  rcases List.prefix_or_prefix_of_prefix h h' with h | h
  · exact hm h
  · exact (hm h).symm

theorem atStart?_eq_some_iff : atStart? s = some m ↔ m.mark <+: s := by
  unfold atStart?
  simp only [List.isPrefixOf_iff_prefix]
  constructor
  · intro h
    split at h
    · cases h
      assumption
    · split at h
      · cases h
        assumption
      · cases h
  · intro h
    split
    · rename_i hf
      rw [eq_of_mark_isPrefix hf h]
    · rename_i hf
      split
      · rename_i hl
        rw [eq_of_mark_isPrefix hl h]
      · rename_i hl
        cases m with
        | first => exact absurd h hf
        | last => exact absurd h hl

theorem atStart?_eq_none_iff : atStart? s = none ↔ ∀ m : Marker, ¬ m.mark <+: s := by
  simp only [Option.eq_none_iff_forall_ne_some, ne_eq, atStart?_eq_some_iff]

/-- A mark begins with a comma and has no other. -/
theorem exists_mark_eq (m : Marker) : ∃ k, m.mark = ',' :: k ∧ ',' ∉ k := by
  cases m with
  | first => exact ⟨" First>".toList, rfl, by decide⟩
  | last => exact ⟨" Last>".toList, rfl, by decide⟩

end Marker

namespace EntryName
variable {s t name : Text} {m : Marker}

/-- The text begins with the marked form of the name, and with that of no longer one. -/
structure Longest (s name : Text) (m : Marker) : Prop where
  starts : write name m <+: s
  longest : ∀ name' m', write name' m' <+: s → name'.length ≤ name.length

/-! ### The last mark -/

theorem beforeLastMark?_eq_none_iff : beforeLastMark? s = none ↔ ∀ m : Marker, ¬ m.mark <:+: s := by
  induction s with
  | nil =>
    refine iff_of_true rfl fun m h => ?_
    obtain ⟨k, hk, -⟩ := m.exists_mark_eq
    rw [hk] at h
    simp at h
  | cons c s ih =>
    rw [beforeLastMark?]
    simp only [List.infix_cons_iff, not_or, forall_and, ← Marker.atStart?_eq_none_iff, ← ih]
    cases beforeLastMark? s <;> simp

theorem isPrefix_of_beforeLastMark? (h : beforeLastMark? s = some (name, m)) : name ++ m.mark <+: s := by
  induction s generalizing name with
  | nil => cases h
  | cons c s ih =>
    rw [beforeLastMark?] at h
    split at h
    · rename_i name' m' h'
      cases h
      exact List.cons_prefix_cons.2 ⟨rfl, ih h'⟩
    · obtain ⟨m', h', he⟩ := Option.map_eq_some_iff.1 h
      cases he
      exact Marker.atStart?_eq_some_iff.1 h'

/-- No mark comes after the one that is found. -/
theorem length_le_of_beforeLastMark? (h : beforeLastMark? s = some (name, m)) {name' : Text} {m' : Marker}
    (h' : name' ++ m'.mark <+: s) : name'.length ≤ name.length := by
  induction s generalizing name name' with
  | nil => cases h
  | cons c s ih =>
    cases name' with
    | nil => exact Nat.zero_le _
    | cons d name' =>
      have hs : name' ++ m'.mark <+: s := (List.cons_prefix_cons.1 h').2
      rw [beforeLastMark?] at h
      split at h
      · rename_i name₁ m₁ h₁
        cases h
        exact Nat.succ_le_succ (ih h₁ hs)
      · rename_i hn
        obtain ⟨u, hu⟩ := hs
        exact absurd ⟨name', u, hu⟩ (beforeLastMark?_eq_none_iff.1 hn m')

theorem beforeLastMark?_append_of_not_mem {a : Text} (ha : ',' ∉ a) (h : beforeLastMark? t = none) :
    beforeLastMark? (a ++ t) = none := by
  induction a with
  | nil => exact h
  | cons c a ih =>
    simp only [List.mem_cons, not_or] at ha
    have hc : Marker.atStart? (c :: (a ++ t)) = none := by
      refine Marker.atStart?_eq_none_iff.2 fun m hm => ha.1 ?_
      obtain ⟨k, hk, -⟩ := m.exists_mark_eq
      rw [hk, List.cons_prefix_cons] at hm
      exact hm.1
    rw [List.cons_append, beforeLastMark?, ih ha.2, hc]
    rfl

theorem beforeLastMark?_append (name : Text) (m : Marker) (h : beforeLastMark? t = none) :
    beforeLastMark? (name ++ m.mark ++ t) = some (name, m) := by
  induction name with
  | nil =>
    obtain ⟨k, hk, hc⟩ := m.exists_mark_eq
    have hm : Marker.atStart? (',' :: (k ++ t)) = some m :=
      Marker.atStart?_eq_some_iff.2 ⟨t, by rw [hk]; rfl⟩
    rw [List.nil_append, hk, List.cons_append, beforeLastMark?, beforeLastMark?_append_of_not_mem hc h, hm]
    rfl
  | cons c name ih => rw [List.cons_append, List.cons_append, beforeLastMark?, ih]

/-! ### Names -/

theorem Longest.unique {name' : Text} {m' : Marker} (h : Longest s name m) (h' : Longest s name' m') :
    name = name' ∧ m = m' := by
  have hl : ('<' :: name).length = ('<' :: name').length :=
    congrArg Nat.succ (Nat.le_antisymm (h'.longest _ _ h.starts) (h.longest _ _ h'.starts))
  obtain ⟨t, ht⟩ := h.starts
  obtain ⟨t', ht'⟩ := h'.starts
  have he : '<' :: name ++ (m.mark ++ t) = '<' :: name' ++ (m'.mark ++ t') := by
    rw [← List.append_assoc, ← List.append_assoc]
    exact ht.trans ht'.symm
  obtain ⟨hn, hm⟩ := List.append_inj he hl
  exact ⟨List.tail_eq_of_cons_eq hn, Marker.eq_of_mark_isPrefix ⟨t, rfl⟩ ⟨t', hm.symm⟩⟩

/-- Either the text is its own name or it is marked with the longest name that it can be. -/
theorem parse_cases (s : Text) :
    (parse s = ⟨s, none⟩ ∧ ∀ name m, ¬ write name m <+: s) ∨
      ∃ name m, parse s = ⟨name, some m⟩ ∧ Longest s name m := by
  unfold parse
  split
  · rename_i rest
    have hw : ∀ name m, write name m <+: '<' :: rest ↔ name ++ m.mark <+: rest := fun name m => by
      rw [write, List.cons_append, List.cons_prefix_cons]
      exact and_iff_right rfl
    split
    · rename_i name m h
      refine .inr ⟨name, m, rfl, (hw _ _).2 (isPrefix_of_beforeLastMark? h), fun name' m' h' => ?_⟩
      exact length_le_of_beforeLastMark? h ((hw _ _).1 h')
    · rename_i h
      refine .inl ⟨rfl, fun name m h' => ?_⟩
      obtain ⟨u, hu⟩ := (hw _ _).1 h'
      exact beforeLastMark?_eq_none_iff.1 h m ⟨name, u, hu⟩
  · rename_i hs
    refine .inl ⟨rfl, fun name m h => ?_⟩
    obtain ⟨u, hu⟩ := h
    exact hs _ hu.symm

theorem parse_eq_some_iff : parse s = ⟨name, some m⟩ ↔ Longest s name m := by
  rcases parse_cases s with ⟨hp, hn⟩ | ⟨name', m', hp, hl⟩
  · rw [hp]
    refine ⟨fun h => (by cases h), fun h => absurd h.starts (hn _ _)⟩
  · rw [hp]
    constructor
    · intro h
      cases h
      exact hl
    · intro h
      obtain ⟨rfl, rfl⟩ := hl.unique h
      rfl

theorem parse_eq_none_iff : parse s = ⟨name, none⟩ ↔ name = s ∧ ∀ name' m, ¬ write name' m <+: s := by
  rcases parse_cases s with ⟨hp, hn⟩ | ⟨name', m', hp, hl⟩
  · rw [hp]
    constructor
    · intro h
      cases h
      exact ⟨rfl, hn⟩
    · rintro ⟨rfl, -⟩
      rfl
  · rw [hp]
    exact ⟨fun h => (by cases h), fun h => absurd hl.starts (h.2 _ _)⟩

theorem eq_append_of_parse (h : parse s = ⟨name, some m⟩) : ∃ t, s = write name m ++ t := by
  obtain ⟨t, ht⟩ := (parse_eq_some_iff.1 h).starts
  exact ⟨t, ht.symm⟩

theorem mem_of_mem_name {c : Char} (hm : (parse s).marker = some m) (h : c ∈ (parse s).name) : c ∈ s := by
  have hp : parse s = ⟨(parse s).name, some m⟩ := by rw [← hm]
  obtain ⟨t, ht⟩ := eq_append_of_parse hp
  rw [ht]
  simp [write, h]

/-- What comes after a marked name does not matter if there is no mark in it. -/
theorem parse_write_append (name : Text) (m : Marker) (h : ∀ m : Marker, ¬ m.mark <:+: t) :
    parse (write name m ++ t) = ⟨name, some m⟩ := by
  show parse ('<' :: (name ++ m.mark ++ t)) = _
  rw [parse, beforeLastMark?_append name m (beforeLastMark?_eq_none_iff.2 h)]

theorem parse_write (name : Text) (m : Marker) : parse (write name m) = ⟨name, some m⟩ := by
  have := parse_write_append name m (beforeLastMark?_eq_none_iff.1 (rfl : beforeLastMark? [] = none))
  rwa [List.append_nil] at this

/-- A written name has a bracket at each end. -/
theorem exists_write_eq (name : Text) (m : Marker) : ∃ s, write name m = '<' :: (s ++ ['>']) := by
  have h : m.mark = m.mark.dropLast ++ ['>'] := by cases m <;> decide
  exact ⟨name ++ m.mark.dropLast, by rw [write, h, List.dropLast_concat, List.append_assoc]; rfl⟩

theorem mem_write {c : Char} (h : c ∈ write name m) : c ∈ name ∨ c ∈ write [] m := by
  simp only [write, List.mem_append, List.mem_cons, List.not_mem_nil, or_false] at h ⊢
  rcases h with (h | h) | h
  · exact .inr (.inl h)
  · exact .inl h
  · exact .inr (.inr h)

/-- Of the marked names that a text begins with, the longest is read, and the text stands for itself if there
is none. So a name that is marked is read back, whatever is in it, unless a mark comes after it. -/
theorem parse_by_longest :
    (∀ s name m, parse s = ⟨name, some m⟩ ↔ write name m <+: s ∧
      ∀ name' m', write name' m' <+: s → name'.length ≤ name.length) ∧
    (∀ s name, parse s = ⟨name, none⟩ ↔ name = s ∧ ∀ name' m, ¬ write name' m <+: s) ∧
    ∀ name m t, (∀ m' : Marker, ¬ m'.mark <:+: t) → parse (write name m ++ t) = ⟨name, some m⟩ := by
  refine ⟨fun s name m => ?_, fun s name => parse_eq_none_iff, fun name m t => parse_write_append name m⟩
  rw [parse_eq_some_iff]
  exact ⟨fun h => ⟨h.starts, h.longest⟩, fun h => ⟨h.1, h.2⟩⟩

/-- A marked name with marks in it, and after it what is almost another mark. -/
theorem parse_marked_twice :
    let name := "a, First>, Last".toList
    let t := ", Last, First".toList
    (∀ m : Marker, ¬ m.mark <:+: t) ∧ parse (write name .first ++ t) = ⟨name, some .first⟩ := by
  intro name t
  have ht : ∀ m : Marker, ¬ m.mark <:+: t := beforeLastMark?_eq_none_iff.1 (by decide)
  exact ⟨ht, parse_by_longest.2.2 name .first t ht⟩

end EntryName

end UnicodeTables
