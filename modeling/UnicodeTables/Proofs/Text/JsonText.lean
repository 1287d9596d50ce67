import UnicodeTables.Proofs.Text.Numerals
import UnicodeTables.Text.Json

/-! # JSON text can be read in one way only

No character is escaped to the beginning of what another one is escaped to (`prefixFree_escape`), so a string
ends at its closing quote. A value ends where its text ends, unless it is a number with a digit after it
(`render_append_inj`): the induction is on the first of the two values. Different values have different texts
(`render_inj`). -/

namespace UnicodeTables

namespace Numeral
variable {n m : Nat} {s t : Text}

theorem isDigit_of_mem_decimal {c : Char} (h : c ∈ decimal n) : c.isDigit := by
  obtain ⟨d, hd, rfl⟩ := exists_digit_of_mem_decimal h
  exact (by decide : ∀ d < 10, (digit d).isDigit) d hd

theorem decimal_inj (h : decimal n = decimal m) : n = m := by
  obtain ⟨ds, hc, hlt, rfl⟩ := exists_digits_decimal n
  obtain ⟨es, hc', hlt', rfl⟩ := exists_digits_decimal m
  have hd := digits?_map_digit (by decide) hlt
  rw [← hc, h, hc', digits?_map_digit (by decide) hlt', Option.some.injEq] at hd
  rw [hd]

/-- A numeral ends where its digits do. -/
theorem decimal_append_inj (h : decimal n ++ s = decimal m ++ t) (hs : s.head?.any Char.isDigit = false)
    (ht : t.head?.any Char.isDigit = false) : n = m ∧ s = t := by
  have hd : ∀ {k : Nat} {u : Text}, u.head?.any Char.isDigit = false →
      (decimal k ++ u).takeWhile Char.isDigit = decimal k := by
    intro k u hu
    rw [List.takeWhile_append_of_pos fun _ => isDigit_of_mem_decimal]
    cases u with
    | nil => rw [List.takeWhile_nil, List.append_nil]
    | cons c u =>
      rw [List.takeWhile_cons_of_neg (by simpa using hu), List.append_nil]
  have hn := congrArg (List.takeWhile Char.isDigit) h
  rw [hd hs, hd ht] at hn
  rw [hn] at h
  exact ⟨decimal_inj hn, List.append_cancel_left h⟩

end Numeral

namespace Json
variable {c d : Char} {s t x y : Text} {j j' : Json}

/-! ### Strings -/

/-- The characters that do not stand for themselves. -/
def escaped : Text := '"' :: '\\' :: (List.range 0x20).map Char.ofNat

theorem escape_eq_or_mem (c : Char) : escape c = [c] ∧ c ≠ '"' ∧ c ≠ '\\' ∨ c ∈ escaped := by
  by_cases hq : c = '"'
  · exact .inr (by simp [escaped, hq])
  · by_cases hb : c = '\\'
    · exact .inr (by simp [escaped, hb])
    · by_cases hlt : c < ' '
      · have hm : c ∈ (List.range 0x20).map Char.ofNat :=
          List.mem_map.2 ⟨c.toNat, List.mem_range.2 hlt, Char.ofNat_toNat c⟩
        exact .inr (List.mem_cons_of_mem _ (List.mem_cons_of_mem _ hm))
      · have hne : ∀ e < ' ', c ≠ e := by
          rintro e he rfl
          exact hlt he
        refine .inl ⟨?_, hq, hb⟩
        rw [escape, if_neg hq, if_neg hb, if_neg (hne _ (by decide)), if_neg (hne _ (by decide)),
          if_neg (hne _ (by decide)), if_neg (hne _ (by decide)), if_neg (hne _ (by decide)), if_neg hlt]

theorem head?_escape_of_mem (h : c ∈ escaped) : (escape c).head? = some '\\' := by
  have ha : escaped.all fun c => decide ((escape c).head? = some '\\') := by decide +kernel
  exact of_decide_eq_true (List.all_eq_true.1 ha c h)

theorem prefixFree_escaped (hc : c ∈ escaped) (hd : d ∈ escaped) (h : escape c <+: escape d) : c = d := by
  have ha : escaped.all fun c => escaped.all fun d => !(escape c).isPrefixOf (escape d) || decide (c = d) := by
    decide +kernel
  have hcd := List.all_eq_true.1 (List.all_eq_true.1 ha c hc) d hd
  rw [List.isPrefixOf_iff_prefix.2 h] at hcd
  exact of_decide_eq_true hcd

theorem prefixFree_escape (h : escape c <+: escape d) : c = d := by
  have hh : ∀ e, (escape c).head? = some e → (escape d).head? = some e := by
    obtain ⟨u, hu⟩ := h
    intro e he
    rw [← hu, List.head?_append, he, Option.some_or]
  rcases escape_eq_or_mem c with ⟨hc, -, hb⟩ | hc
  · rcases escape_eq_or_mem d with ⟨hd, -, -⟩ | hd
    · have hcd := hh c (by rw [hc, List.head?_cons])
      rw [hd, List.head?_cons, Option.some.injEq] at hcd
      exact hcd.symm
    · have hcd := hh c (by rw [hc, List.head?_cons])
      rw [head?_escape_of_mem hd, Option.some.injEq] at hcd
      exact absurd hcd.symm hb
  · rcases escape_eq_or_mem d with ⟨hd, -, hb⟩ | hd
    · have hcd := hh _ (head?_escape_of_mem hc)
      rw [hd, List.head?_cons, Option.some.injEq] at hcd
      exact absurd hcd hb
    · exact prefixFree_escaped hc hd h

theorem escape_append_inj (h : escape c ++ x = escape d ++ y) : c = d ∧ x = y := by
  have hcd : c = d := by
    rcases List.append_eq_append_iff.1 h with ⟨u, hd, -⟩ | ⟨u, hc, -⟩
    · exact prefixFree_escape ⟨u, hd.symm⟩
    · exact (prefixFree_escape ⟨u, hc.symm⟩).symm
  subst hcd
  exact ⟨rfl, List.append_cancel_left h⟩

theorem quote_ne_escape_append (c : Char) (x y : Text) : '"' :: x ≠ escape c ++ y := by
  intro h
  have hh := congrArg List.head? h
  rcases escape_eq_or_mem c with ⟨hc, hq, -⟩ | hc
  · rw [hc, List.singleton_append, List.head?_cons, List.head?_cons, Option.some.injEq] at hh
    exact hq hh.symm
  · rw [List.head?_append, head?_escape_of_mem hc, List.head?_cons, Option.some_or, Option.some.injEq] at hh
    exact absurd hh (by decide)

/-- The first quote that is not escaped ends a string. -/
theorem flatMap_escape_append_inj (h : s.flatMap escape ++ '"' :: x = t.flatMap escape ++ '"' :: y) :
    s = t ∧ x = y := by
  induction s generalizing t with
  | nil =>
    cases t with
    | nil => exact ⟨rfl, (List.cons.inj h).2⟩
    | cons d t =>
      rw [List.flatMap_cons, List.append_assoc] at h
      exact absurd h (quote_ne_escape_append d x _)
  | cons c s ih =>
    cases t with
    | nil =>
      rw [List.flatMap_cons, List.append_assoc] at h
      exact absurd h.symm (quote_ne_escape_append c y _)
    | cons d t =>
      rw [List.flatMap_cons, List.flatMap_cons, List.append_assoc, List.append_assoc] at h
      obtain ⟨rfl, ht⟩ := escape_append_inj h
      obtain ⟨rfl, hx⟩ := ih ht
      exact ⟨rfl, hx⟩

theorem quote_append (s x : Text) : quote s ++ x = '"' :: (s.flatMap escape ++ '"' :: x) := by
  rw [quote, List.cons_append, List.cons_append, List.append_assoc, List.singleton_append]

theorem quote_append_inj (h : quote s ++ x = quote t ++ y) : s = t ∧ x = y := by
  rw [quote_append, quote_append] at h
  exact flatMap_escape_append_inj (List.cons.inj h).2

/-! ### Values -/

/-- The character that the text of a value begins with, `0` for all digits. -/
def opening : Json → Char
  | null => 'n'
  | number _ => '0'
  | string _ => '"'
  | array _ => '['
  | object _ => '\x7b'

theorem head?_render_append (j : Json) (s : Text) :
    (j.render ++ s).head?.map (fun c => if c.isDigit then '0' else c) = some j.opening := by
  cases j with
  | null => rfl
  | number n =>
    rw [render]
    cases hn : Numeral.decimal n with
    | nil => exact absurd hn Nat.toDigits_ne_nil
    | cons c cs =>
      have hc : c.isDigit := Numeral.isDigit_of_mem_decimal (n := n) (by rw [hn]; exact List.mem_cons_self)
      rw [List.cons_append, List.head?_cons, Option.map_some, if_pos hc]
      rfl
  | string s => rfl
  | array js => rfl
  | object ms => rfl

theorem opening_eq (h : j.render ++ s = j'.render ++ t) : j.opening = j'.opening := by
  have ho := head?_render_append j s
  rw [h, head?_render_append, Option.some.injEq] at ho
  exact ho.symm

/-- What comes after an item if these follow it. -/
def afterItem : List Json → Text → Text
  | [], s => ']' :: s
  | j :: js, s => ',' :: (renderItems (j :: js) ++ ']' :: s)

/-- What comes after a member if these follow it. -/
def afterMember : List (Text × Json) → Text → Text
  | [], s => '\x7d' :: s
  | m :: ms, s => ',' :: (renderMembers (m :: ms) ++ '\x7d' :: s)

theorem renderItems_cons_append (j : Json) (js : List Json) (s : Text) :
    renderItems (j :: js) ++ ']' :: s = j.render ++ afterItem js s := by
  cases js with
  | nil => rw [renderItems, afterItem]
  | cons k js =>
    rw [renderItems, afterItem, List.append_assoc, List.cons_append]
    simp

theorem renderMembers_cons_append (k : Text) (j : Json) (ms : List (Text × Json)) (s : Text) :
    renderMembers ((k, j) :: ms) ++ '\x7d' :: s = quote k ++ ':' :: (j.render ++ afterMember ms s) := by
  cases ms with
  | nil => rw [renderMembers, afterMember, List.append_assoc, List.cons_append]
  | cons m ms =>
    rw [renderMembers, afterMember, List.append_assoc, List.append_assoc, List.cons_append, List.cons_append]
    simp

theorem head?_afterItem (js : List Json) (s : Text) : (afterItem js s).head?.any Char.isDigit = false := by
  cases js <;> rfl

theorem head?_afterMember (ms : List (Text × Json)) (s : Text) :
    (afterMember ms s).head?.any Char.isDigit = false := by
  cases ms <;> rfl

/-- No value begins like the end of a list. -/
theorem closing_ne_render_append (j : Json) (s t : Text) : ']' :: t ≠ j.render ++ s := by
  intro h
  have ho := head?_render_append j s
  rw [← h] at ho
  cases j <;> simp [opening] at ho

-- The recursion is on the first value. The second is of the same kind, since both texts begin alike.
mutual

theorem render_append_inj (j j' : Json) {s t : Text} (h : j.render ++ s = j'.render ++ t)
    (hs : s.head?.any Char.isDigit = false) (ht : t.head?.any Char.isDigit = false) : j = j' ∧ s = t := by
  have ho := opening_eq h
  cases j with
  | null =>
    cases j' with
    | null => exact ⟨rfl, List.append_cancel_left h⟩
    | _ => simp [opening] at ho
  | number n =>
    cases j' with
    | number m =>
      obtain ⟨rfl, hst⟩ := Numeral.decimal_append_inj h hs ht
      exact ⟨rfl, hst⟩
    | _ => simp [opening] at ho
  | string s =>
    cases j' with
    | string t =>
      obtain ⟨rfl, hst⟩ := quote_append_inj h
      exact ⟨rfl, hst⟩
    | _ => simp [opening] at ho
  | array js =>
    cases j' with
    | array js' =>
      rw [render, render, List.cons_append, List.cons_append, List.append_assoc, List.append_assoc] at h
      obtain ⟨rfl, hst⟩ := renderItems_append_inj js js' (List.cons.inj h).2
      exact ⟨rfl, hst⟩
    | _ => simp [opening] at ho
  | object ms =>
    cases j' with
    | object ms' =>
      rw [render, render, List.cons_append, List.cons_append, List.append_assoc, List.append_assoc] at h
      obtain ⟨rfl, hst⟩ := renderMembers_append_inj ms ms' (List.cons.inj h).2
      exact ⟨rfl, hst⟩
    | _ => simp [opening] at ho

theorem renderItems_append_inj (js js' : List Json) {s t : Text}
    (h : renderItems js ++ ']' :: s = renderItems js' ++ ']' :: t) : js = js' ∧ s = t := by
  cases js with
  | nil =>
    cases js' with
    | nil => exact ⟨rfl, (List.cons.inj h).2⟩
    | cons j' js' =>
      rw [renderItems_cons_append] at h
      exact absurd h (closing_ne_render_append j' _ s)
  | cons j js =>
    cases js' with
    | nil =>
      rw [renderItems_cons_append] at h
      exact absurd h.symm (closing_ne_render_append j _ t)
    | cons j' js' =>
      rw [renderItems_cons_append, renderItems_cons_append] at h
      obtain ⟨rfl, ha⟩ := render_append_inj j j' h (head?_afterItem js s) (head?_afterItem js' t)
      cases js with
      | nil =>
        cases js' with
        | nil => exact ⟨rfl, (List.cons.inj ha).2⟩
        | cons _ _ => cases ha
      | cons k js =>
        cases js' with
        | nil => cases ha
        | cons k' js' =>
          obtain ⟨hk, hst⟩ := renderItems_append_inj (k :: js) (k' :: js') (List.cons.inj ha).2
          rw [hk]
          exact ⟨rfl, hst⟩

theorem renderMembers_append_inj (ms ms' : List (Text × Json)) {s t : Text}
    (h : renderMembers ms ++ '\x7d' :: s = renderMembers ms' ++ '\x7d' :: t) : ms = ms' ∧ s = t := by
  cases ms with
  | nil =>
    cases ms' with
    | nil => exact ⟨rfl, (List.cons.inj h).2⟩
    | cons m' ms' =>
      obtain ⟨k', j'⟩ := m'
      rw [renderMembers_cons_append, quote_append] at h
      cases h
  | cons m ms =>
    obtain ⟨k, j⟩ := m
    cases ms' with
    | nil =>
      rw [renderMembers_cons_append, quote_append] at h
      cases h
    | cons m' ms' =>
      obtain ⟨k', j'⟩ := m'
      rw [renderMembers_cons_append, renderMembers_cons_append] at h
      obtain ⟨rfl, hv⟩ := quote_append_inj h
      obtain ⟨rfl, ha⟩ :=
        render_append_inj j j' (List.cons.inj hv).2 (head?_afterMember ms s) (head?_afterMember ms' t)
      cases ms with
      | nil =>
        cases ms' with
        | nil => exact ⟨rfl, (List.cons.inj ha).2⟩
        | cons _ _ => cases ha
      | cons n ms =>
        cases ms' with
        | nil => cases ha
        | cons n' ms' =>
          obtain ⟨hn, hst⟩ := renderMembers_append_inj (n :: ms) (n' :: ms') (List.cons.inj ha).2
          rw [hn]
          exact ⟨rfl, hst⟩

end

theorem render_inj : j.render = j'.render ↔ j = j' := by
  constructor
  · intro h
    rw [← List.append_nil j.render, ← List.append_nil j'.render] at h
    exact (render_append_inj j j' h rfl rfl).1
  · rintro rfl
    rfl

end Json

end UnicodeTables
