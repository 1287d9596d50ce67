import UnicodeTables.Pairing

/-! # Runs of the pairing of lines

What a run has shown so far tells what its next call gives: all that the machine knows is the First line
that the call before has opened, if it opened one (`snd_answer`). So every answer of a run is settled by
the call itself and the one right before it, also after calls that failed (`answers_by_history`). -/

namespace UnicodeTables

namespace CodePointRange

theorem isSingle_iff {r : CodePointRange} : r.isSingle ↔ ∃ c, r = single c := by
  constructor
  · intro h
    have hl : r.first = r.last := by simpa [isSingle] using h
    exact ⟨r.first, by rw [single]; conv => rhs; rhs; rw [hl]⟩
  · rintro ⟨c, rfl⟩
    exact beq_self_eq_true c

end CodePointRange

namespace Pairing

/-- A call on the machine. The end of the lines makes way for a new machine. -/
inductive Call
  | feed (range : CodePointRange) (name : EntryName) (line : Nat)
  | finish
deriving DecidableEq, Repr

def Call.Valid : Call → Prop
  | feed range _ _ => range.Valid
  | finish => True

inductive Answer
  | fed (result : Except Fault Step)
  /-- What is wrong at the end, and in which line. -/
  | finished (fault : Option (Fault × Nat))

/-- What a call gives, and the state after it. -/
def answer (p : Pairing) : Call → Answer × Pairing
  | .feed range name line => (.fed (p.feed range name line).1, (p.feed range name line).2)
  | .finish => (.finished p.finish, idle)

instance : (c : Call) → Decidable c.Valid
  | .feed range _ _ => inferInstanceAs (Decidable range.Valid)
  | .finish => isTrue trivial

/-- A call that was made, with all that can be seen of it. -/
structure Taken where
  call : Call
  answer : Answer
  /-- Whether a range is pending after the call. -/
  pending : Bool

/-- Makes the calls one after another. -/
def run (p : Pairing) : List Call → List Taken
  | [] => []
  | c :: cs => ⟨c, (p.answer c).1, (p.answer c).2.isPending⟩ :: (p.answer c).2.run cs

/-- The First line that a call has opened. -/
def Taken.opened? (t : Taken) : Option Opening :=
  match t.call, t.answer with
  | .feed range name line, .fed (.ok .opened) => some ⟨name.name, range.first, line⟩
  | _, _ => none

/-- The First line that the last of the calls has opened. -/
def lastOpened? (taken : List Taken) : Option Opening := taken.getLast?.bind Taken.opened?

/-- The result of feeding a line, in terms of the First line that the call before has opened. -/
structure FedAfter (before : Option Opening) (range : CodePointRange) (name : EntryName)
    (result : Except Fault Step) : Prop where
  opened : result = .ok .opened ↔
    before = none ∧ name.marker = some .first ∧ ∃ a, range = .single a
  closed : ∀ whole closing, result = .ok (.emit whole (some closing)) ↔
    ∃ o b, before = some o ∧ name = ⟨o.name, some .last⟩ ∧ range = .single b ∧ o.first ≤ b ∧
      whole = ⟨o.first, b⟩ ∧ closing = ⟨o, b⟩
  plain : ∀ whole, result = .ok (.emit whole none) ↔
    before = none ∧ name.marker = none ∧ whole = range
  invalidFirst : result = .error .invalidFirstLine ↔
    before = none ∧ name.marker = some .first ∧ ∀ a, range ≠ .single a
  invalidLast : result = .error .invalidLastLine ↔
    before = none ∧ name.marker = some .last ∨
      ∃ o, before = some o ∧
        ∀ b, ¬ (name = ⟨o.name, some .last⟩ ∧ range = .single b ∧ o.first ≤ b)

/-- The state that knows no more than the First line that is open. -/
def ofOpened : Option Opening → Pairing
  | none => idle
  | some o => pending o

section
variable {p : Pairing} {o : Opening} {range : CodePointRange} {name : EntryName} {line : Nat}

theorem closes_iff_exists :
    Closes o range name ↔ ∃ b, name = ⟨o.name, some .last⟩ ∧ range = .single b ∧ o.first ≤ b := by
  obtain ⟨text, marker⟩ := name
  constructor
  · rintro ⟨hm, hn, hs, hle⟩
    obtain ⟨b, rfl⟩ := CodePointRange.isSingle_iff.1 hs
    dsimp only at hm hn
    exact ⟨b, by rw [hm, hn], rfl, hle⟩
  · rintro ⟨b, hname, rfl, hle⟩
    cases hname
    exact ⟨rfl, rfl, CodePointRange.isSingle_iff.2 ⟨b, rfl⟩, hle⟩

theorem fedAfter_none : FedAfter none range name (idle.feed range name line).1 := by
  rw [feed]
  rcases hm : name.marker with _ | _ | _
  · exact ⟨by simp [hm], by simp, by simp [hm, eq_comm], by simp [hm], by simp [hm]⟩
  · dsimp only
    split
    · rename_i hs
      have ha := CodePointRange.isSingle_iff.1 hs
      exact ⟨by simp [hm, ha], by simp, by simp [hm], by simpa [hm] using ha, by simp [hm]⟩
    · rename_i hs
      have hne : ∀ a, range ≠ .single a := by
        intro a ha
        exact hs (CodePointRange.isSingle_iff.2 ⟨a, ha⟩)
      exact ⟨by simp [hne], by simp, by simp [hm], by simp [hm, hne], by simp [hm]⟩
  · exact ⟨by simp [hm], by simp, by simp [hm], by simp [hm], by simp [hm]⟩

theorem fedAfter_some (hr : range.Valid) :
    FedAfter (some o) range name ((pending o).feed range name line).1 := by
  by_cases hc : Closes o range name
  · obtain ⟨b, hname, hb, hle⟩ := closes_iff_exists.1 hc
    rw [feed_pending_of_closes hr hc, hname, hb]
    refine ⟨by simp, fun whole closing => ?_, by simp, by simp, ?_⟩
    · constructor
      · intro h
        cases h
        exact ⟨o, b, rfl, rfl, rfl, hle, rfl, rfl⟩
      · rintro ⟨o', b', ho, -, hb', -, rfl, rfl⟩
        cases ho
        cases hb'
        rfl
    · simp only [reduceCtorEq, false_and, false_or, false_iff]
      rintro ⟨o', ho, h⟩
      cases ho
      exact h b ⟨rfl, rfl, hle⟩
  · have hn : ∀ b, ¬ (name = ⟨o.name, some .last⟩ ∧ range = .single b ∧ o.first ≤ b) := by
      intro b hb
      exact hc (closes_iff_exists.2 ⟨b, hb⟩)
    rw [feed, if_neg hc]
    refine ⟨by simp, fun whole closing => ?_, by simp, by simp, ?_⟩
    · simp only [reduceCtorEq, false_iff]
      rintro ⟨o', b, ho, hname, hb, hle, -⟩
      cases ho
      exact hn b ⟨hname, hb, hle⟩
    · exact ⟨fun _ => .inr ⟨o, rfl, hn⟩, fun _ => rfl⟩

theorem fedAfter_feed (hr : range.Valid) (before : Option Opening) (line : Nat) :
    FedAfter before range name ((ofOpened before).feed range name line).1 := by
  cases before with
  | none => exact fedAfter_none
  | some o => exact fedAfter_some hr

theorem finish_ofOpened (before : Option Opening) :
    (ofOpened before).finish = before.map fun o => (.unclosedFirst o.name, o.line) := by
  cases before <;> rfl

/-- A line that is opened is all that is known after it. -/
theorem feed_eq_pending (h : (p.feed range name line).1 = .ok .opened) :
    (p.feed range name line).2 = pending ⟨name.name, range.first, line⟩ := by
  cases p with
  | idle =>
    obtain ⟨-, hm, hs⟩ := fedAfter_none.opened.1 h
    rw [feed, hm]
    dsimp only
    rw [if_pos (CodePointRange.isSingle_iff.2 hs)]
  | pending o =>
    rw [feed] at h
    split at h
    · split at h <;> cases h
    · cases h

end

section
variable {p : Pairing} {calls : List Call} {before later : List Taken} {t : Taken}

/-- The state after a call is what the call has shown. -/
theorem snd_answer (p : Pairing) (c : Call) (pending : Bool) :
    (p.answer c).2 = ofOpened (Taken.opened? ⟨c, (p.answer c).1, pending⟩) := by
  cases c with
  | finish => rfl
  | feed range name line =>
    cases h : (p.feed range name line).1 with
    | error f =>
      rw [answer, h]
      exact feed_eq_idle (by simp [h])
    | ok step =>
      cases step with
      | opened =>
        rw [answer, h]
        exact feed_eq_pending h
      | emit whole closing =>
        rw [answer, h]
        exact feed_eq_idle (by simp [h])

theorem isPending_snd_answer (p : Pairing) (c : Call) :
    (p.answer c).2.isPending ↔ (p.answer c).1 = .fed (.ok .opened) := by
  cases c with
  | finish => simp [answer, isPending]
  | feed range name line =>
    rw [answer, Answer.fed.injEq]
    exact isPending_feed p range name line

theorem map_call_run (p : Pairing) (calls : List Call) : (p.run calls).map Taken.call = calls := by
  induction calls generalizing p with
  | nil => rfl
  | cons c cs ih => rw [run, List.map_cons, ih]

/-- A call of a run is made in the state that the call before it has left. -/
theorem run_eq_append (h : p.run calls = before ++ t :: later) :
    ∃ q : Pairing, q = (before.getLast?.map fun u => ofOpened u.opened?).getD p ∧ t.call ∈ calls ∧
      t = ⟨t.call, (q.answer t.call).1, (q.answer t.call).2.isPending⟩ ∧
      later = (q.answer t.call).2.run (later.map Taken.call) := by
  induction before generalizing p calls with
  | nil =>
    cases calls with
    | nil => cases h
    | cons c cs =>
      obtain ⟨rfl, rfl⟩ := List.cons.inj h
      exact ⟨p, rfl, List.mem_cons_self, rfl, by rw [map_call_run]⟩
  | cons u before ih =>
    cases calls with
    | nil => cases h
    | cons c cs =>
      obtain ⟨rfl, ht⟩ := List.cons.inj h
      obtain ⟨q, hq, hm, ht, hl⟩ := ih ht
      refine ⟨q, ?_, List.mem_cons_of_mem c hm, ht, hl⟩
      rw [hq]
      cases before with
      | nil => exact snd_answer p c _
      | cons v before => rw [List.getLast?_cons_cons]; rfl

/-- Whatever was called before, and whether or not it was right: a range is pending after a call exactly
if the call has opened it, and after every other call the machine goes on as a new one does. What feeding a
line gives, and what the end gives, is told by what the call right before has opened. -/
theorem answers_by_history (hv : ∀ c ∈ calls, c.Valid) (h : run idle calls = before ++ t :: later) :
    (t.pending ↔ t.answer = .fed (.ok .opened)) ∧
    (t.answer ≠ .fed (.ok .opened) → later = run idle (later.map Taken.call)) ∧
    (∀ range name line, t.call = .feed range name line →
      ∃ result, t.answer = .fed result ∧ FedAfter (lastOpened? before) range name result) ∧
    (t.call = .finish →
      t.answer = .finished ((lastOpened? before).map fun o => (.unclosedFirst o.name, o.line))) := by
  obtain ⟨q, hq, hm, ht, hl⟩ := run_eq_append h
  have hq : q = ofOpened (lastOpened? before) := by
    rw [hq, lastOpened?]
    cases before.getLast? <;> rfl
  obtain ⟨call, answer, pending⟩ := t
  dsimp only at hm ht hl ⊢
  have ha : answer = (q.answer call).1 := congrArg Taken.answer ht
  have hp : pending = (q.answer call).2.isPending := congrArg Taken.pending ht
  refine ⟨?_, fun hn => ?_, ?_, ?_⟩
  · rw [hp, ha]
    exact isPending_snd_answer q call
  · have hi : (q.answer call).2 = idle := by
      have hs := mt (isPending_snd_answer q call).1 (ha ▸ hn)
      cases hq' : (q.answer call).2 with
      | idle => rfl
      | pending o => exact absurd (by rw [hq', isPending]) hs
    rw [hi] at hl
    exact hl
  · rintro range name line rfl
    refine ⟨_, ha, ?_⟩
    rw [hq]
    exact fedAfter_feed (hv _ hm) (lastOpened? before) line
  · rintro rfl
    rw [ha, hq]
    exact congrArg Answer.finished (finish_ofOpened _)

/-- A Last line of another name ends a pair, and the next pair is not touched by that. -/
theorem answers_after_wrong_name :
    let first : EntryName := ⟨"X".toList, some .first⟩
    let calls : List Call := [.feed (.single 0x41) first 1,
      .feed (.single 0x42) ⟨"Y".toList, some .last⟩ 2, .feed (.single 0x43) first 3,
      .feed (.single 0x5A) ⟨"X".toList, some .last⟩ 4, .finish]
    let closing : Answer := .fed (.ok (.emit ⟨0x43, 0x5A⟩ (some ⟨⟨"X".toList, 0x43, 3⟩, 0x5A⟩)))
    (∀ c ∈ calls, c.Valid) ∧
      ∃ before later, run idle calls = before ++ ⟨calls[3], closing, false⟩ :: later ∧
        later = run idle [.finish] ∧ ∃ result, closing = .fed result ∧
          FedAfter (some ⟨"X".toList, 0x43, 3⟩) (.single 0x5A) ⟨"X".toList, some .last⟩ result := by
  intro first calls closing
  have hv : ∀ c ∈ calls, c.Valid := by
    decide
  have h : run idle calls =
    (run idle calls).take 3 ++ ⟨calls[3], closing, false⟩ :: (run idle calls).drop 4 := rfl
  obtain ⟨-, hl, hf, -⟩ := answers_by_history hv h
  exact ⟨hv, _, _, h, hl (by simp [closing]), hf _ _ _ rfl⟩

end

end Pairing

end UnicodeTables
