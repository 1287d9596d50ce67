import UnicodeTables.CodePoint.Range
import UnicodeTables.Proofs.Text.Digits
import UnicodeTables.Proofs.Text.Scan

/-! # Which texts are ranges

A range is one code point, or two in order with `..` between them (`Spells`). Main statements: exactly these
texts are read (`parse_eq_ok_iff`), and the fault of any other text is the first that applies of too many
parts, a part that is no code point, and parts in the wrong order (`parse_grammar`). -/

namespace UnicodeTables

namespace CodePoint
variable {s : Text} {c : CodePoint} {f : Fault}

theorem parse_eq_ok_iff : parse s = .ok c ↔
    ∃ ds, List.Forall₂ (Numeral.IsDigit 16) s ds ∧ 4 ≤ s.length ∧ s.length ≤ 6 ∧
      c = Numeral.value 16 ds ∧ c ≤ max := by
  have hp : parse s = .ok c ↔ parse? s = some c := by
    rw [parse]
    cases parse? s <;> simp
  rw [hp, parse?]
  constructor
  · intro h
    split at h
    · cases h
    · rename_i ds hds
      obtain ⟨⟨h4, h6, hm⟩, hc⟩ := Option.ite_none_right_eq_some.1 h
      have hf := Numeral.digits?_eq_some_iff.1 hds
      cases hc
      exact ⟨ds, hf, by rwa [hf.length_eq], by rwa [hf.length_eq], rfl, hm⟩
  · rintro ⟨ds, hf, h4, h6, rfl, hm⟩
    rw [hf.length_eq] at h4 h6
    rw [Numeral.digits?_eq_some_iff.2 hf]
    exact if_pos ⟨h4, h6, hm⟩

theorem fault_of_parse (h : parse s = .error f) : f = .invalidCodePoint s := by
  unfold parse at h
  split at h
  · cases h
  · cases h
    rfl

theorem parse_eq_error (h : ∀ c, parse s ≠ .ok c) : parse s = .error (.invalidCodePoint s) := by
  cases hp : parse s with
  | ok c => exact absurd hp (h c)
  | error f => rw [fault_of_parse hp]

theorem dot_not_mem_of_parse (h : parse s = .ok c) : '.' ∉ s := by
  obtain ⟨ds, hf, -⟩ := parse_eq_ok_iff.1 h
  intro hd
  obtain ⟨d, -, hd⟩ := exists_of_forall₂ hf hd
  cases hd.1

end CodePoint

namespace Text
variable {s a b rest : Text} {found : List (Text × Unit)}

/-- The text that stands between the bounds of a range. -/
def IsDots (m : Text) (_ : Unit) : Prop := m = "..".toList

theorem exists_scan_dots (s : Text) : ∃ found rest, Scan IsDots s found rest :=
  exists_scan (fun m _ h => by rw [h]; exact List.cons_ne_nil _ _) s

theorem splitDots_eq_singleton (h : ∀ a m b x, s = a ++ m ++ b → ¬ IsDots m x) : splitDots s = [s] := by
  induction s with
  | nil => rfl
  | cons c s ih =>
    rw [splitDots, ih]
    · rfl
    · exact fun a m b x he => h (c :: a) m b x (by rw [he]; rfl)
    · rintro t rfl rfl
      exact h [] _ t () rfl rfl

/-- The first part ends at the first two dots, though a dot may stand right after them. -/
theorem splitDots_append
    (h : ∀ a' b', a ++ "..".toList ++ b = a' ++ "..".toList ++ b' → a.length ≤ a'.length) :
    splitDots (a ++ "..".toList ++ b) = a :: splitDots b := by
  induction a with
  | nil => rfl
  | cons c a ih =>
    rw [List.cons_append, List.cons_append, splitDots, ih]
    · rfl
    · intro a' b' he
      have := h (c :: a') b' (by rw [List.cons_append, List.cons_append, he]; rfl)
      simpa using this
    · rintro t rfl ht
      have := h [] t (by rw [List.cons_append, List.cons_append, ht]; rfl)
      simp at this

theorem splitDots_of_scan (h : Scan IsDots s found rest) :
    splitDots s = found.map Prod.fst ++ [rest] := by
  induction h with
  | done h => exact splitDots_eq_singleton h
  | next h _ ih =>
    obtain ⟨rfl, rfl, hf⟩ := h
    rw [splitDots_append fun a' b' he => hf a' _ b' () he rfl, ih]
    rfl

theorem splitDots_of_not_mem (h : '.' ∉ s) : splitDots s = [s] := by
  refine splitDots_eq_singleton ?_
  rintro a m b x rfl rfl
  simp at h

theorem splitDots_of_two (ha : '.' ∉ a) (hb : '.' ∉ b) : splitDots (a ++ "..".toList ++ b) = [a, b] := by
  rw [splitDots_append, splitDots_of_not_mem hb]
  intro a' b' he
  rw [List.append_assoc, List.append_assoc] at he
  exact length_le_of_not_mem he ha

end Text

namespace CodePointRange
variable {s x y : Text} {r : CodePointRange} {f : Fault}

/-- How a range is written: one code point, or both bounds. -/
inductive Spells : Text → CodePointRange → Prop
  | single {x : Text} {c : CodePoint} (hx : CodePoint.parse x = .ok c) : Spells x ⟨c, c⟩
  | bounds {x y : Text} {a b : CodePoint} (hx : CodePoint.parse x = .ok a) (hy : CodePoint.parse y = .ok b)
      (hle : a ≤ b) : Spells (x ++ "..".toList ++ y) ⟨a, b⟩

/-- What is wrong with a text that is no range, where `..` is found from left to right. -/
inductive Refuses (s : Text) : Fault → Prop
  /-- There are two `..` or more, whatever the parts are. -/
  | parts {found : List (Text × Unit)} {rest : Text} (hs : s.Scan Text.IsDots found rest)
      (h : 2 ≤ found.length) : Refuses s (.invalidRange s)
  /-- A part is no code point, and those before it are. -/
  | part {found : List (Text × Unit)} {rest x : Text} {before after : List Text}
      (hs : s.Scan Text.IsDots found rest) (h : found.length < 2)
      (hp : found.map Prod.fst ++ [rest] = before ++ x :: after)
      (hb : ∀ p ∈ before, ∃ c, CodePoint.parse p = .ok c) (hx : ∀ c, CodePoint.parse x ≠ .ok c) :
      Refuses s (.invalidCodePoint x)
  /-- Both parts are code points, the second before the first. -/
  | reversed {x y : Text} {a b : CodePoint} (hs : s = x ++ "..".toList ++ y)
      (hx : CodePoint.parse x = .ok a) (hy : CodePoint.parse y = .ok b) (hlt : b < a) :
      Refuses s (.invalidRange s)

/-! ### What is read from the parts -/

theorem parse_single {c : CodePoint} (hx : CodePoint.parse x = .ok c) : parse x = .ok ⟨c, c⟩ := by
  rw [parse, Text.splitDots_of_not_mem (CodePoint.dot_not_mem_of_parse hx)]
  dsimp only
  rw [hx]
  rfl

theorem parse_bounds {a b : CodePoint} (hx : CodePoint.parse x = .ok a) (hy : CodePoint.parse y = .ok b) :
    parse (x ++ "..".toList ++ y) =
      if a > b then .error (.invalidRange (x ++ "..".toList ++ y)) else .ok ⟨a, b⟩ := by
  rw [parse, Text.splitDots_of_two (CodePoint.dot_not_mem_of_parse hx) (CodePoint.dot_not_mem_of_parse hy)]
  dsimp only
  rw [hx, hy]
  rfl

theorem parse_of_parts {p q : Text} {ps : List Text} (h : s.splitDots = p :: q :: ps) (hne : ps ≠ []) :
    parse s = .error (.invalidRange s) := by
  rw [parse, h]
  cases ps with
  | nil => exact absurd rfl hne
  | cons p ps => rfl

theorem parse_of_bad_first {ps : List Text} (h : s.splitDots = x :: ps) (hl : ps.length < 2)
    (hx : ∀ c, CodePoint.parse x ≠ .ok c) : parse s = .error (.invalidCodePoint x) := by
  rw [parse, h]
  obtain _ | ⟨y, _ | ⟨z, ps⟩⟩ := ps
  · dsimp only
    rw [CodePoint.parse_eq_error hx]
    rfl
  · dsimp only
    rw [CodePoint.parse_eq_error hx]
    rfl
  · simp only [List.length_cons] at hl
    omega

theorem parse_of_bad_second (h : s.splitDots = [x, y]) {a : CodePoint} (hx : CodePoint.parse x = .ok a)
    (hy : ∀ c, CodePoint.parse y ≠ .ok c) : parse s = .error (.invalidCodePoint y) := by
  rw [parse, h]
  dsimp only
  rw [hx, CodePoint.parse_eq_error hy]
  rfl

theorem Spells.parse_eq (h : Spells s r) : parse s = .ok r := by
  cases h with
  | single hx => exact parse_single hx
  | bounds hx hy hle => rw [parse_bounds hx hy, if_neg (Nat.not_lt.2 hle)]

theorem Refuses.parse_eq (h : Refuses s f) : parse s = .error f := by
  cases h with
  | parts hs h =>
    rename_i found rest
    have hp := Text.splitDots_of_scan hs
    obtain _ | ⟨p, _ | ⟨q, found⟩⟩ := found
    · simp at h
    · simp at h
    · exact parse_of_parts hp (by simp)
  | part hs h hp hb hx =>
    rename_i found rest before after
    have hl := congrArg List.length hp
    simp only [List.length_append, List.length_map, List.length_cons, List.length_nil] at hl
    rw [← Text.splitDots_of_scan hs] at hp
    obtain _ | ⟨p, _ | ⟨q, before⟩⟩ := before
    · exact parse_of_bad_first hp (by simp at hl; omega) hx
    · obtain ⟨c, hc⟩ := hb p (by simp)
      obtain rfl : after = [] := List.length_eq_zero_iff.1 (by simp at hl; omega)
      exact parse_of_bad_second hp hc hx
    · simp at hl
      omega
  | reversed hs hx hy hlt => rw [hs, parse_bounds hx hy, if_pos hlt]

/-- Every text is a range or breaks a rule. -/
theorem spells_or_refuses (s : Text) : (∃ r, Spells s r) ∨ ∃ f, Refuses s f := by
  obtain ⟨found, rest, hs⟩ := Text.exists_scan_dots s
  by_cases h : 2 ≤ found.length
  · exact .inr ⟨_, .parts hs h⟩
  rw [Nat.not_le] at h
  -- by the number of parts, and for each part whether it is a code point
  obtain _ | ⟨⟨x, u⟩, _ | ⟨q, found⟩⟩ := found
  · obtain rfl : s = rest := by
      cases hs
      rfl
    by_cases hx : ∃ c, CodePoint.parse s = .ok c
    · obtain ⟨c, hc⟩ := hx
      exact .inl ⟨_, .single hc⟩
    · exact .inr ⟨_, .part hs h (show [s] = [] ++ s :: [] from rfl) (by simp) fun c hc => hx ⟨c, hc⟩⟩
  · have he : s = x ++ "..".toList ++ rest := by
      cases hs with
      | next hf hs =>
        cases hs
        rw [hf.eq, hf.isMatch]
    by_cases hx : ∃ a, CodePoint.parse x = .ok a
    · by_cases hy : ∃ b, CodePoint.parse rest = .ok b
      · obtain ⟨a, ha⟩ := hx
        obtain ⟨b, hb⟩ := hy
        rcases Nat.lt_or_ge b a with hlt | hle
        · exact .inr ⟨_, .reversed he ha hb hlt⟩
        · exact .inl ⟨⟨a, b⟩, by rw [he]; exact .bounds ha hb hle⟩
      · exact .inr ⟨_, .part hs h (show [x, rest] = [x] ++ rest :: [] from rfl) (by simpa using hx)
          fun c hc => hy ⟨c, hc⟩⟩
    · exact .inr ⟨_, .part hs h (show [x, rest] = [] ++ x :: [rest] from rfl) (by simp)
        fun c hc => hx ⟨c, hc⟩⟩
  · simp only [List.length_cons] at h
    omega

theorem parse_eq_ok_iff : parse s = .ok r ↔ Spells s r := by
  refine ⟨fun h => ?_, Spells.parse_eq⟩
  rcases spells_or_refuses s with ⟨r', hr⟩ | ⟨f, hf⟩
  · cases h.symm.trans hr.parse_eq
    exact hr
  · cases h.symm.trans hf.parse_eq

theorem parse_eq_error_iff : parse s = .error f ↔ Refuses s f := by
  refine ⟨fun h => ?_, Refuses.parse_eq⟩
  rcases spells_or_refuses s with ⟨r, hr⟩ | ⟨f', hf⟩
  · cases h.symm.trans hr.parse_eq
  · cases h.symm.trans hf.parse_eq
    exact hf

/-- Exactly the texts of the two forms are ranges, and of any other text the first rule that it breaks is
blamed: it has at most two parts, these are code points, and they are in order. -/
theorem parse_grammar (s : Text) :
    (∀ a b, parse s = .ok ⟨a, b⟩ ↔ (CodePoint.parse s = .ok a ∧ a = b) ∨
      ∃ x y, s = x ++ "..".toList ++ y ∧ CodePoint.parse x = .ok a ∧ CodePoint.parse y = .ok b ∧ a ≤ b) ∧
    ∀ f, parse s = .error f ↔ Refuses s f := by
  refine ⟨fun a b => ?_, fun f => parse_eq_error_iff⟩
  rw [parse_eq_ok_iff]
  constructor
  · rintro (hx | ⟨hx, hy, hle⟩)
    · exact .inl ⟨hx, rfl⟩
    · exact .inr ⟨_, _, rfl, hx, hy, hle⟩
  · rintro (⟨hx, rfl⟩ | ⟨x, y, rfl, hx, hy, hle⟩)
    · exact .single hx
    · exact .bounds hx hy hle

example : parse "x....y".toList = .error (.invalidRange "x....y".toList) := by decide

example : parse "0041...0042".toList = .error (.invalidCodePoint ".0042".toList) := by decide

end CodePointRange

end UnicodeTables
