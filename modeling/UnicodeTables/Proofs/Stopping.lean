import UnicodeTables.Proofs.Laziness

/-! # Stopping for good

A run gives at most one item for a line, in the order of the lines (`Reads.map_number_sublist`), and a call that
gives no item leaves a reader that has stopped (`state_of_call`), which does nothing any more. So the calls
give the items, the fault if there is one, and then nothing (`Numbered.stopsForGood`). Whether a reader
that has met the end counts as stopped cannot be seen: no lines are left (`call_of_nothing_left`). -/

namespace UnicodeTables

namespace LineFormat
variable {σ α : Type} {fmt : LineFormat σ α} {number : α → Nat} {source : Text} {n k : Nat} {s s' : σ}
  {r : Reader σ}

/-- The calls give items of ever later lines, then a fault or none, and then nothing for ever. -/
structure StopsForGood (fmt : LineFormat σ α) (number : α → Nat) : Prop where
  /-- At most one item comes from each line, and at most one fault after them. -/
  results : ∀ source data, ∃ (items : List α) (fault : Option Fault),
    (items.map number).Sublist (List.range' 1 data.lines.length) ∧
      ∀ k, fmt.call k (fmt.start source data) = (items.map .ok ++ fault.toList.map .error)[k]?
  /-- After a call that gives no item, every call gives nothing and reads nothing. -/
  silent : ∀ source data k, (∀ a, fmt.call k (fmt.start source data) ≠ some (.ok a)) → ∀ j,
    fmt.call (k + 1 + j) (fmt.start source data) = none ∧
      fmt.after (k + 1 + j) (fmt.start source data) = fmt.after (k + 1) (fmt.start source data)

/-- A fault and the end both stop the reader, wherever it is. -/
theorem state_of_call (h : ∀ a, fmt.call k r ≠ some (.ok a)) : (fmt.after (k + 1) r).state = none := by
  rw [after_add, after, after]
  rcases hn : fmt.next (fmt.after k r) with ⟨_ | f | a, r'⟩
  · exact (rest_eq_of_end hn).2
  · exact (rest_eq_of_fault hn).2
  · have hc : fmt.call k r = some (.ok a) := by
      rw [call, hn]
    exact absurd hc (h a)

/-- If the data may end here and no line is left, then there is nothing to stop for. -/
theorem call_of_nothing_left (hp : r.pending = []) (hs : ∀ s ∈ r.state, fmt.finish s = none) :
    fmt.call k r = none ∧ (fmt.after k r).pending = [] := by
  cases h : r.state with
  | none => exact ⟨call_of_stopped h k, by rw [after_of_stopped h, hp]⟩
  | some s =>
    have hn : fmt.next r = (none, ⟨r.source, r.line, [], none⟩) := by
      rw [next, h, hp]
      dsimp only
      rw [advance, hs s h]
      rfl
    cases k with
    | zero => exact ⟨by rw [call_zero, hn], hp⟩
    | succ k =>
      rw [call_succ, after, hn, call_of_stopped rfl, after_of_stopped rfl]
      exact ⟨rfl, rfl⟩

/-- The items are those of some of the lines, in the order of these. -/
theorem Reads.map_number_sublist (hf : Numbered fmt number) {raws : List Bytes} {items : List α}
    (h : Reads fmt n s raws items s') : (items.map number).Sublist (List.range' (n + 1) raws.length) := by
  induction h with
  | nil => exact List.Sublist.refl _
  | @cons n s s₁ s' raw raws item items h t ih =>
    rw [List.length_cons, List.range'_succ]
    cases item with
    | none => exact ih.cons _
    | some a =>
      show (number a :: items.map number).Sublist _
      rw [hf.item h]
      exact ih.cons_cons _

theorem map_number_run_sublist (hf : Numbered fmt number) (source : Text) (data : Bytes) :
    ((fmt.run source data).items.map number).Sublist (List.range' 1 data.lines.length) := by
  have hrun : fmt.runFrom source 0 fmt.initial data.lines = fmt.run source data := rfl
  rcases runFrom_eq_iff.1 hrun with ⟨s', hr, -⟩ | ⟨read, raw, left, s', f, hd, hr, -, -⟩
  · exact hr.map_number_sublist hf
  · refine (hr.map_number_sublist hf).trans (List.range'_sublist_right.2 ?_)
    rw [hd, List.length_append]
    exact Nat.le_add_right ..

theorem Numbered.stopsForGood (hf : Numbered fmt number) : StopsForGood fmt number where
  results source data :=
    ⟨_, _, map_number_run_sublist hf source data, fun k => call_eq_getElem?_results k _⟩
  silent source data k h j := by
    have hs := state_of_call h
    rw [call_add, after_add fmt j]
    exact ⟨call_of_stopped hs j, after_of_stopped hs j⟩

end LineFormat

/-- Both formats give items, at most one fault, and then nothing, and after the fault or the end they read
nothing. Test files may end anywhere, so once the end was met, a reader with no more lines left gives nothing
whether or not it has stopped. -/
theorem formats_stopForGood :
    (∀ n, 2 ≤ n → (DataFile.format n).StopsForGood fun e => e.record.line) ∧
      RegexTest.format.StopsForGood RegexTest.line ∧
      ∀ source data k, RegexTest.format.call k (RegexTest.format.start source data) = none →
        (∀ j < k, ∀ f, RegexTest.format.call j (RegexTest.format.start source data) ≠ some (.error f)) →
          ∀ r j, r.pending = (RegexTest.format.after (k + 1) (RegexTest.format.start source data)).pending →
            RegexTest.format.call j r = none ∧ (RegexTest.format.after j r).unread = [] := by
  refine ⟨fun n hn => ?_, RegexTest.numbered.stopsForGood, fun source data k h hok r j hr => ?_⟩
  · exact (DataFile.numbered hn).stopsForGood
  · have hp := LineFormat.Numbered.pending_of_ended rfl h hok
    have hs : ∀ s ∈ r.state, RegexTest.format.finish s = none := fun _ _ => rfl
    obtain ⟨hc, ha⟩ := LineFormat.call_of_nothing_left (k := j) (hr.trans hp) hs
    exact ⟨hc, by rw [Reader.unread, ha, List.flatten_nil]⟩

/-- A fault leaves a line unread for ever that is no text, a First line left open is blamed once, and a reader of
tests that has met the end may go on in the state it was in. -/
theorem stopForGood_before_invalid :
    let faulty := (DataFile.format 2).start "t".toList (Utf8.encode "0041;A;B\n".toList ++ [0xFF])
    let unclosed := (DataFile.format 2).start "t".toList (Utf8.encode "3400;<X, First>".toList)
    let tester := RegexTest.format.start "t".toList (Utf8.encode "E\ta\ta\t(0,1)\n".toList)
    let ended := { RegexTest.format.after 2 tester with state := some (some ['a']) }
    2 ≤ 2 ∧ (∀ e, (DataFile.format 2).call 0 faulty ≠ some (.ok e)) ∧
      (∀ j, (DataFile.format 2).call (0 + 1 + j) faulty = none ∧
        ((DataFile.format 2).after (0 + 1 + j) faulty).unread = [0xFF]) ∧
      (DataFile.format 2).call 0 unclosed =
        some (.error (.located "t".toList 1 (.unclosedFirst "X".toList))) ∧
      (∀ j, (DataFile.format 2).call (0 + 1 + j) unclosed = none) ∧
      RegexTest.format.call 1 tester = none ∧ ∀ j, RegexTest.format.call j ended = none := by
  intro faulty unclosed tester ended
  have hn : 2 ≤ 2 := Nat.le_refl 2
  have hf : (DataFile.format 2).call 0 faulty = some (.error (.located "t".toList 1 (.fieldCount 2 3))) := by
    decide +kernel
  have hu : (DataFile.format 2).call 0 unclosed =
    some (.error (.located "t".toList 1 (.unclosedFirst "X".toList))) := by decide +kernel
  have hl : ((DataFile.format 2).after (0 + 1) faulty).unread = [0xFF] := by decide +kernel
  have ht : RegexTest.format.call 1 tester = none := by decide +kernel
  have hok : ∀ j < 1, ∀ f, RegexTest.format.call j tester ≠ some (.error f) := by
    intro j hj f
    obtain rfl := Nat.lt_one_iff.1 hj
    have h₀ : RegexTest.format.call 0 tester =
      some (.ok ⟨1, ['E'], ['a'], ['a'], [some ⟨0, 1⟩]⟩) := by decide +kernel
    simp [h₀]
  obtain ⟨hd, -, hr⟩ := formats_stopForGood
  have hfe : ∀ e, (DataFile.format 2).call 0 faulty ≠ some (.ok e) := by simp [hf]
  have hue : ∀ e, (DataFile.format 2).call 0 unclosed ≠ some (.ok e) := by simp [hu]
  have hs := (hd 2 hn).silent
  refine ⟨hn, hfe, fun j => ?_, hu, fun j => (hs _ _ 0 hue j).1, ht, fun j => (hr _ _ 1 ht hok ended j rfl).1⟩
  obtain ⟨hc, ha⟩ := hs _ _ 0 hfe j
  exact ⟨hc, by rw [ha, hl]⟩

end UnicodeTables
