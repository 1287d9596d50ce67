import UnicodeTables.Text.Basic

/-! # Blanks and trimming

Main statements: `trim` takes blanks away at both ends and nothing else (`trim_surround`), what it
leaves has no blank at either end (`trimmed_trim`), and it leaves such a text alone
(`trim_eq_self`). -/

namespace UnicodeTables

/-- The 25 characters with the property `White_Space`. -/
def isBlank (c : Char) : Bool :=
  let n := c.toNat
  (0x09 ≤ n && n ≤ 0x0D) || n == 0x20 || n == 0x85 || n == 0xA0 || n == 0x1680 ||
    (0x2000 ≤ n && n ≤ 0x200A) || n == 0x2028 || n == 0x2029 || n == 0x202F || n == 0x205F ||
    n == 0x3000

namespace Text

def trimStart (s : Text) : Text := s.dropWhile isBlank

def trimEnd (s : Text) : Text := (trimStart s.reverse).reverse

def trim (s : Text) : Text := trimEnd (trimStart s)

/-- Neither end is a blank. -/
def Trimmed (s : Text) : Prop :=
  (∀ c ∈ s.head?, isBlank c = false) ∧ ∀ c ∈ s.getLast?, isBlank c = false

theorem exists_trimStart (s : Text) : ∃ a, (∀ c ∈ a, isBlank c) ∧ s = a ++ trimStart s :=
  ⟨s.takeWhile isBlank, List.all_eq_true.1 List.all_takeWhile, List.takeWhile_append_dropWhile.symm⟩

theorem head?_trimStart (s : Text) : ∀ c ∈ (trimStart s).head?, isBlank c = false := by
  intro c hc
  have := List.head?_dropWhile_not isBlank s
  rw [trimStart] at hc
  rw [hc] at this
  simpa using this

theorem trimStart_eq_self {s : Text} (h : ∀ c ∈ s.head?, isBlank c = false) : trimStart s = s := by
  cases s with
  | nil => rfl
  | cons c s => simp [trimStart, h c rfl]

theorem exists_trimEnd (s : Text) : ∃ b, (∀ c ∈ b, isBlank c) ∧ s = trimEnd s ++ b := by
  obtain ⟨a, ha, h⟩ := exists_trimStart s.reverse
  refine ⟨a.reverse, by simpa using ha, ?_⟩
  rw [trimEnd, ← List.reverse_append, ← h, List.reverse_reverse]

theorem trimEnd_eq_self {s : Text} (h : ∀ c ∈ s.getLast?, isBlank c = false) : trimEnd s = s := by
  rw [trimEnd, trimStart_eq_self (by simpa using h), List.reverse_reverse]

theorem getLast?_trimEnd (s : Text) : ∀ c ∈ (trimEnd s).getLast?, isBlank c = false := by
  simpa [trimEnd] using head?_trimStart s.reverse

theorem head?_trimEnd {s : Text} (h : ∀ c ∈ s.head?, isBlank c = false) :
    ∀ c ∈ (trimEnd s).head?, isBlank c = false := by
  obtain ⟨b, _, hs⟩ := exists_trimEnd s
  intro c hc
  refine h c ?_
  cases ht : trimEnd s with
  | nil => simp [ht] at hc
  | cons d t =>
    rw [ht] at hc hs
    rw [hs]
    exact hc

theorem trimmed_trim (s : Text) : Trimmed (trim s) :=
  ⟨head?_trimEnd (head?_trimStart s), getLast?_trimEnd _⟩

theorem trim_eq_self {s : Text} (h : Trimmed s) : trim s = s := by
  rw [trim, trimStart_eq_self h.1, trimEnd_eq_self h.2]

theorem trim_trim (s : Text) : trim (trim s) = trim s := trim_eq_self (trimmed_trim s)

theorem exists_trim (s : Text) :
    ∃ a b, (∀ c ∈ a, isBlank c) ∧ (∀ c ∈ b, isBlank c) ∧ s = a ++ trim s ++ b := by
  obtain ⟨a, ha, h₁⟩ := exists_trimStart s
  obtain ⟨b, hb, h₂⟩ := exists_trimEnd (trimStart s)
  exact ⟨a, b, ha, hb, by rw [trim, List.append_assoc, ← h₂, ← h₁]⟩

theorem trimStart_append {a : Text} (h : ∀ c ∈ a, isBlank c) (s : Text) :
    trimStart (a ++ s) = trimStart s := by
  rw [trimStart, List.dropWhile_append_of_pos h, trimStart]

theorem trim_surround {a s b : Text} (ha : ∀ c ∈ a, isBlank c) (hb : ∀ c ∈ b, isBlank c)
    (hs : Trimmed s) : trim (a ++ s ++ b) = s := by
  rw [trim, List.append_assoc, trimStart_append ha]
  cases s with
  | nil =>
    have h := trimStart_append hb []
    rw [List.append_nil] at h
    rw [List.nil_append, h]
    rfl
  | cons c s =>
    rw [trimStart_eq_self (s := c :: s ++ b) (fun d hd => hs.1 d hd), trimEnd, List.reverse_append,
      trimStart_append (by simpa using hb)]
    exact trimEnd_eq_self hs.2

end Text

end UnicodeTables
