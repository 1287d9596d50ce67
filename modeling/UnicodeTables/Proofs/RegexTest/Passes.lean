import UnicodeTables.Proofs.RegexTest.Groups

/-! # The search for submatches, pass by pass

The search looks for a group in what is left of a text, again and again. Each pass leaves a suffix with
fewer opening brackets (`Consumes`), so there are no more passes than brackets. If a bracket has a comma after
it but no closing bracket after that comma, then no closing bracket follows any comma (`Groupless`), and this
passes on to every suffix: going on from there finds nothing (`search_progress`). -/

namespace UnicodeTables.Span
variable {goOn : Bool} {s t rest : Text} {k : Nat}

/-! ### What one look leaves -/

/-- What is left after some of `s`, at least one opening bracket among it, is taken off. -/
structure Consumes (s rest : Text) : Prop where
  isSuffix : rest <:+ s
  count_lt : rest.count '(' < s.count '('

theorem Consumes.length_lt (h : Consumes s rest) : rest.length < s.length := by
  refine Nat.lt_of_le_of_ne h.isSuffix.length_le fun hl => ?_
  have hc := h.count_lt
  rw [h.isSuffix.eq_of_length hl] at hc
  exact Nat.lt_irrefl _ hc

theorem consumes_append_bracket (u v rest : Text) : Consumes (u ++ '(' :: (v ++ rest)) rest := by
  refine ⟨⟨u ++ '(' :: v, by simp⟩, ?_⟩
  rw [List.count_append, List.count_cons_self, List.count_append]
  omega

theorem consumes_of_retry (h : pass s = .retry rest) : Consumes s rest := by
  obtain ⟨before, -, -, rfl, -⟩ := pass_eq_retry_iff.1 h
  exact consumes_append_bracket before [] rest

theorem consumes_of_group {start stop : Text} (h : pass s = .group start stop rest) : Consumes s rest := by
  obtain ⟨before, rfl, -⟩ := pass_eq_group_iff.1 h
  have hw : before ++ writeGroup (start, stop) ++ rest =
      before ++ '(' :: (start ++ ',' :: stop ++ [')'] ++ rest) := by
    simp [writeGroup]
  rw [hw]
  exact consumes_append_bracket before _ rest

/-! ### Texts without a group -/

/-- No closing bracket is after a comma. -/
def Groupless (s : Text) : Prop := ∀ u v, s = u ++ ',' :: v → ')' ∉ v

theorem Groupless.of_isSuffix (h : Groupless s) (ht : t <:+ s) : Groupless t := by
  obtain ⟨a, rfl⟩ := ht
  rintro u v rfl
  exact h (a ++ u) v (List.append_assoc ..).symm

theorem Groupless.ne_append_writeGroup (h : Groupless s) (before : Text) (g : Text × Text) (rest : Text) :
    s ≠ before ++ writeGroup g ++ rest := by
  rintro rfl
  refine h (before ++ '(' :: g.1) (g.2 ++ ')' :: rest) ?_ (by simp)
  simp [writeGroup]

theorem Groupless.pass_ne_group (h : Groupless s) (start stop rest : Text) :
    pass s ≠ .group start stop rest := by
  intro hp
  obtain ⟨before, he, -⟩ := pass_eq_group_iff.1 hp
  exact h.ne_append_writeGroup before (start, stop) rest he

theorem Groupless.groups_eq_nil (h : Groupless s) : groups s = [] := by
  refine Span.groups_eq_nil fun before m rest gs he hm => ?_
  obtain ⟨g, rfl, -⟩ := matches_groupPattern_iff.1 hm
  exact h.ne_append_writeGroup before g rest he

/-- If the first comma has no closing bracket after it, then no later one has. -/
theorem Unclosed.groupless (h : Unclosed s rest) : Groupless rest := by
  obtain ⟨-, start, left, -, rfl, -, hc, hl⟩ := h
  intro u v huv hv
  -- The comma before `v` cannot be in `start`, so `v` is the end of what is after the first comma.
  rcases List.append_eq_append_iff.1 huv with ⟨w, rfl, hw⟩ | ⟨w, rfl, hw⟩
  · refine hl ?_
    cases w with
    | nil =>
      cases hw
      exact hv
    | cons c w =>
      cases hw
      simp [hv]
  · cases w with
    | nil =>
      cases hw
      exact hl hv
    | cons c w =>
      cases hw
      exact hc (by simp)

/-! ### The loop -/

/-- Between two passes: the submatches found so far and the text that is left. -/
structure Search where
  found : List (Option Span)
  rest : Text
deriving DecidableEq

def Search.start (s : Text) : Search := ⟨[], s⟩

/-- After a pass the search goes on, or it is over. -/
inductive Turn
  | again (next : Search)
  | leave (outcome : Except Fault (List (Option Span)))
deriving DecidableEq

/-- One bad group is a fault of the whole text. -/
def invalid (s : Text) : Fault := .invalidTestLine ("invalid submatches ".toList ++ s)

/-- One pass over what is left of `s`. Where a group is not closed the search goes on only if `goOn`. -/
def turn (goOn : Bool) (s : Text) (x : Search) : Turn :=
  match pass x.rest with
  | .done => .leave (.ok x.found)
  | .retry rest => if goOn then .again ⟨x.found, rest⟩ else .leave (.ok x.found)
  | .group start stop rest =>
    match ofGroup? (start, stop) with
    | some span => .again ⟨x.found ++ [span], rest⟩
    | none => .leave (.error (invalid s))

variable {x y : Search} {outcome : Except Fault (List (Option Span))}

/-- The search goes on behind a group or behind a bracket. -/
theorem again_cases (h : turn goOn s x = .again y) :
    (goOn = true ∧ pass x.rest = .retry y.rest ∧ y.found = x.found) ∨
      ∃ start stop span, pass x.rest = .group start stop y.rest ∧ ofGroup? (start, stop) = some span ∧
        y.found = x.found ++ [span] := by
  rw [turn] at h
  split at h
  · cases h
  · rename_i rest hp
    split at h <;> cases h
    exact .inl ⟨‹_›, hp, rfl⟩
  · rename_i start stop rest hp
    split at h <;> cases h
    exact .inr ⟨start, stop, _, hp, ‹_›, rfl⟩

theorem leave_cases (h : turn goOn s x = .leave outcome) :
    (outcome = .ok x.found ∧ (pass x.rest = .done ∨ ∃ rest, pass x.rest = .retry rest)) ∨
      ∃ start stop rest, outcome = .error (invalid s) ∧ pass x.rest = .group start stop rest ∧
        ofGroup? (start, stop) = none := by
  rw [turn] at h
  split at h
  · rename_i hp
    cases h
    exact .inl ⟨rfl, .inl hp⟩
  · rename_i rest hp
    split at h <;> cases h
    exact .inl ⟨rfl, .inr ⟨rest, hp⟩⟩
  · rename_i start stop rest hp
    split at h <;> cases h
    exact .inr ⟨start, stop, rest, rfl, hp, ‹_›⟩

theorem consumes_of_again (h : turn goOn s x = .again y) : Consumes x.rest y.rest := by
  rcases again_cases h with ⟨-, hp, -⟩ | ⟨start, stop, -, hp, -⟩
  · exact consumes_of_retry hp
  · exact consumes_of_group hp

/-- The search from `x` to its end. -/
def search (goOn : Bool) (s : Text) (x : Search) : Except Fault (List (Option Span)) :=
  match _h : turn goOn s x with
  | .again y => search goOn s y
  | .leave outcome => outcome
termination_by x.rest.length
decreasing_by exact (consumes_of_again _h).length_lt

/-- What was found, and what the groups of the text that is left say. -/
def Search.reading (s : Text) (x : Search) : Except Fault (List (Option Span)) :=
  match (groups x.rest).mapM ofGroup? with
  | some spans => .ok (x.found ++ spans)
  | none => .error (invalid s)

theorem reading_start (s : Text) : (Search.start s).reading s = parseAll s := rfl

theorem reading_of_again (h : turn goOn s x = .again y) : y.reading s = x.reading s := by
  rw [Search.reading, Search.reading]
  rcases again_cases h with ⟨-, hp, hf⟩ | ⟨start, stop, span, hp, hg, hf⟩
  · rw [groups_of_retry hp, hf]
  · rw [groups_of_group hp, List.mapM_cons, hg, hf]
    cases (groups y.rest).mapM ofGroup? <;> simp

/-- It makes no difference if the search is left where a group is not closed, since there are no more
groups. -/
theorem reading_of_leave (h : turn goOn s x = .leave outcome) : outcome = x.reading s := by
  rw [Search.reading]
  rcases leave_cases h with ⟨rfl, hp | ⟨rest, hp⟩⟩ | ⟨start, stop, rest, rfl, hp, hg⟩
  · simp [groups_of_done hp]
  · have hg : groups rest = [] := (pass_eq_retry_iff.1 hp).groupless.groups_eq_nil
    simp [groups_of_retry hp, hg]
  · simp [groups_of_group hp, List.mapM_cons, hg]

theorem search_eq_reading (goOn : Bool) (s : Text) (x : Search) : search goOn s x = x.reading s := by
  fun_induction search goOn s x with
  | case1 x y h ih => rw [ih, reading_of_again h]
  | case2 x outcome h => exact reading_of_leave h

/-- `k` passes, none of which leaves the loop, lead from one state to another. -/
inductive Passes (goOn : Bool) (s : Text) : Nat → Search → Search → Prop
  | nil (x : Search) : Passes goOn s 0 x x
  | cons {k : Nat} {x y z : Search} (h : turn goOn s x = .again y) (hs : Passes goOn s k y z) :
    Passes goOn s (k + 1) x z

theorem Passes.isSuffix (h : Passes goOn s k x y) : y.rest <:+ x.rest := by
  induction h with
  | nil x => exact List.suffix_refl _
  | cons h _ ih => exact ih.trans (consumes_of_again h).isSuffix

/-- Each pass takes an opening bracket. -/
theorem Passes.add_count_le (h : Passes goOn s k x y) : k + y.rest.count '(' ≤ x.rest.count '(' := by
  induction h with
  | nil x => exact Nat.le_of_eq (Nat.zero_add _)
  | cons h _ ih =>
    have := (consumes_of_again h).count_lt
    omega

theorem Passes.reading_eq (h : Passes goOn s k x y) : y.reading s = x.reading s := by
  induction h with
  | nil x => rfl
  | cons h _ ih => rw [ih, reading_of_again h]

/-- Nothing is found in a text without a group. -/
theorem Passes.found_eq (h : Passes goOn s k x y) (hx : Groupless x.rest) : y.found = x.found := by
  induction h with
  | nil x => rfl
  | cons h _ ih =>
    rw [ih (hx.of_isSuffix (consumes_of_again h).isSuffix)]
    rcases again_cases h with ⟨-, -, hf⟩ | ⟨start, stop, -, hp, -⟩
    · exact hf
    · exact absurd hp (hx.pass_ne_group start stop _)

theorem exists_passes_leave (goOn : Bool) (s : Text) (x : Search) :
    ∃ k y outcome, Passes goOn s k x y ∧ turn goOn s y = .leave outcome := by
  fun_induction search goOn s x with
  | case1 x y h ih =>
    obtain ⟨k, z, outcome, hz, hl⟩ := ih
    exact ⟨k + 1, z, outcome, .cons h hz, hl⟩
  | case2 x outcome h => exact ⟨0, x, outcome, .nil x, h⟩

/-- The pass that leaves the loop, if there is a bracket where it can begin. -/
def Search.lastPass (x : Search) : Nat := if '(' ∈ x.rest then 1 else 0

theorem Search.lastPass_le (x : Search) : x.lastPass ≤ x.rest.count '(' := by
  rw [lastPass]
  split
  · rename_i h
    exact List.count_pos_iff.2 h
  · exact Nat.zero_le _

/-- A pass that does not leave the loop leaves a shorter suffix of the text to the next one, and the loop is
left with the submatches of the text after at most as many passes as the text has opening brackets. After
a bracket whose group is not closed no pass finds a group, so it makes no difference if the loop is left
there. -/
theorem search_progress (s : Text) :
    (∀ goOn k x y, Passes goOn s k (.start s) x → turn goOn s x = .again y →
      y.rest <:+ s ∧ y.rest <:+ x.rest ∧ y.rest.length < x.rest.length) ∧
    (∀ goOn, ∃ k x, Passes goOn s k (.start s) x ∧ turn goOn s x = .leave (parseAll s) ∧
      k + x.lastPass ≤ s.count '(') ∧
    (∀ k x rest, Passes true s k (.start s) x → Unclosed x.rest rest →
      turn true s x = .again ⟨x.found, rest⟩ ∧ turn false s x = .leave (.ok x.found) ∧
        ∀ j y, Passes true s j ⟨x.found, rest⟩ y →
          y.found = x.found ∧ ∀ start stop left, pass y.rest ≠ .group start stop left) ∧
    ∀ goOn, search goOn s (.start s) = parseAll s := by
  refine ⟨fun goOn k x y hx ht => ?_, fun goOn => ?_, fun k x rest hx hu => ?_,
    fun goOn => search_eq_reading goOn s _⟩
  · have hc := consumes_of_again ht
    exact ⟨hc.isSuffix.trans hx.isSuffix, hc.isSuffix, hc.length_lt⟩
  · obtain ⟨k, x, outcome, hx, ht⟩ := exists_passes_leave goOn s (.start s)
    have ho : outcome = parseAll s := by
      rw [reading_of_leave ht, hx.reading_eq, reading_start]
    have hk : k + x.rest.count '(' ≤ s.count '(' := hx.add_count_le
    have hp := x.lastPass_le
    exact ⟨k, x, hx, by rw [ht, ho], by omega⟩
  · have hp := pass_eq_retry_iff.2 hu
    refine ⟨by rw [turn, hp]; rfl, by rw [turn, hp]; rfl, fun j y hy => ⟨hy.found_eq hu.groupless, ?_⟩⟩
    exact (hu.groupless.of_isSuffix hy.isSuffix).pass_ne_group

/-- A group, a bracket in front of another that is not closed, and a pass for each of the three brackets. -/
theorem search_passes_unclosed :
    let s := "(0,1)((2,3".toList
    let x : Search := ⟨[some ⟨0, 1⟩], "((2,3".toList⟩
    let y : Search := ⟨[some ⟨0, 1⟩], "(2,3".toList⟩
    Passes true s 1 (.start s) x ∧ Unclosed x.rest y.rest ∧ turn true s x = .again y ∧
      y.rest.length < x.rest.length ∧
        (∃ k z, Passes true s k (.start s) z ∧ turn true s z = .leave (.ok [some ⟨0, 1⟩]) ∧
          k + z.lastPass ≤ 3) ∧
        ∀ j z, Passes true s j y z → z.found = [some ⟨0, 1⟩] := by
  intro s x y
  have hx : Passes true s 1 (.start s) x := .cons (by decide +kernel) (.nil x)
  have hu : Unclosed x.rest y.rest :=
    ⟨[], "(2".toList, "3".toList, by decide, by decide, by decide, by decide, by decide⟩
  obtain ⟨hshorter, hends, hnone, -⟩ := search_progress s
  obtain ⟨ht, -, hj⟩ := hnone 1 x y.rest hx hu
  obtain ⟨k, z, hz, hl, hk⟩ := hends true
  have hp : parseAll s = .ok [some ⟨0, 1⟩] := by decide +kernel
  rw [hp] at hl
  exact ⟨hx, hu, ht, (hshorter true 1 x y hx ht).2.2, ⟨k, z, hz, hl, hk⟩, fun j z hz => (hj j z hz).1⟩

end UnicodeTables.Span
