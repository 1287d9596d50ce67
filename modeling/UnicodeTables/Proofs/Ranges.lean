import UnicodeTables.Proofs.Builders
import UnicodeTables.Proofs.Calls
import UnicodeTables.Proofs.PairingRuns

/-! # Valid ranges

Not every range is made from bounds that are checked: reading a range and pairing two lines check them in
ways of their own. Pairing keeps valid what it is fed (`valid_of_feed`), so all ranges that arise are valid, and
so are those in tables (`ranges_valid`). A range that is valid settles more than itself: the bounds of a pair that
it closes need no check, whatever is pending, so feeding it fails only over the lines (`feedsSafely`). -/

namespace UnicodeTables

namespace Pairing

/-- What feeding a line logs. A pair is logged once it is found to be closed, before its range is made. -/
def logged (range : CodePointRange) (name : EntryName) : Pairing → List LogEvent
  | idle => []
  | pending o => if Closes o range name then [.closed ⟨o, range.last⟩] else []

/-- Feeding a line fails only over the First and Last lines, and not after it has logged anything. -/
structure FeedsSafely (p : Pairing) (range : CodePointRange) (name : EntryName) (line : Nat) : Prop where
  merged : ∀ o, p = pending o → Closes o range name →
    CodePointRange.ofBounds o.first range.last = .ok ⟨o.first, range.last⟩
  fault : ∀ f, (p.feed range name line).1 = .error f →
    (f = .invalidFirstLine ∨ f = .invalidLastLine) ∧ p.logged range name = []
  logged : ∀ step, (p.feed range name line).1 = .ok step → p.logged range name = step.events

variable {p : Pairing} {o : Opening} {range whole : CodePointRange} {name : EntryName} {line : Nat}
  {closing : Option Closing}

/-- What a line can turn into that no First line waits for. -/
theorem feed_idle (range : CodePointRange) (name : EntryName) (line : Nat) :
    (idle.feed range name line).1 = .ok (.emit range none) ∨ (idle.feed range name line).1 = .ok .opened ∨
      (idle.feed range name line).1 = .error .invalidFirstLine ∨
        (idle.feed range name line).1 = .error .invalidLastLine := by
  rw [feed]
  rcases name.marker with _ | _ | _
  · exact .inl rfl
  · dsimp only
    split
    · exact .inr (.inl rfl)
    · exact .inr (.inr (.inl rfl))
  · exact .inr (.inr (.inr rfl))

theorem feedsSafely (hr : range.Valid) (p : Pairing) (name : EntryName) (line : Nat) :
    p.FeedsSafely range name line := by
  cases p with
  | idle =>
    refine ⟨by rintro o ⟨⟩, fun f h => ⟨?_, rfl⟩, fun step h => ?_⟩
    · rcases feed_idle range name line with h' | h' | h' | h' <;> cases h'.symm.trans h
      · exact .inl rfl
      · exact .inr rfl
    · rcases feed_idle range name line with h' | h' | h' | h' <;> cases h'.symm.trans h <;> rfl
  | pending o =>
    by_cases hc : Closes o range name
    · have hf : ((pending o).feed range name line).1 =
        .ok (.emit ⟨o.first, range.last⟩ (some ⟨o, range.last⟩)) :=
        congrArg Prod.fst (feed_pending_of_closes hr hc)
      -- A line that closes has the larger bound, and this one was checked when its range was made.
      refine ⟨?_, fun f h => ?_, fun step h => ?_⟩
      · rintro _ ⟨⟩ -
        exact CodePointRange.ofBounds_eq_ok_iff.2 ⟨rfl, valid_of_closes hr hc⟩
      · cases hf.symm.trans h
      · cases hf.symm.trans h
        exact if_pos hc
    · have hf : ((pending o).feed range name line).1 = .error .invalidLastLine := by
        rw [feed, if_neg hc]
      refine ⟨?_, fun f h => ?_, fun step h => ?_⟩
      · rintro _ ⟨⟩ h
        exact absurd h hc
      · cases hf.symm.trans h
        exact ⟨.inr rfl, if_neg hc⟩
      · cases hf.symm.trans h

/-- What a line gives is its own range, or one that ends with it. -/
theorem valid_of_feed (hr : range.Valid) (h : (p.feed range name line).1 = .ok (.emit whole closing)) :
    whole.Valid := by
  cases p with
  | idle =>
    rcases feed_idle range name line with h' | h' | h' | h' <;> cases h'.symm.trans h
    exact hr
  | pending o =>
    by_cases hc : Closes o range name
    · rw [feed_pending_of_closes hr hc] at h
      cases h
      exact valid_of_closes hr hc
    · rw [feed, if_neg hc] at h
      cases h

theorem valid_of_mem_run {calls : List Call} {t : Taken} (hv : ∀ c ∈ calls, c.Valid) (ht : t ∈ p.run calls)
    (ha : t.answer = .fed (.ok (.emit whole closing))) : whole.Valid := by
  obtain ⟨before, later, h⟩ := List.append_of_mem ht
  obtain ⟨q, -, hm, hq, -⟩ := run_eq_append h
  have hc : (q.answer t.call).1 = .fed (.ok (.emit whole closing)) := by
    rw [← ha, hq]
  cases hcall : t.call with
  | finish =>
    rw [hcall] at hc
    cases hc
  | feed range name line =>
    rw [hcall] at hc hm
    exact valid_of_feed (hv _ hm) (Answer.fed.inj hc)

end Pairing

/-- The ranges that can be had: from bounds or from text, out of a machine that was fed with such ranges, and in
the records that a reader gives. -/
inductive CodePointRange.Arises : CodePointRange → Prop
  | ofBounds {first last : CodePoint} {r : CodePointRange} (h : ofBounds first last = .ok r) : Arises r
  | parse {s : Text} {r : CodePointRange} (h : parse s = .ok r) : Arises r
  | emitted {calls : List Pairing.Call} {t : Pairing.Taken} {whole : CodePointRange}
      {closing : Option Closing} (hc : ∀ range name line, .feed range name line ∈ calls → Arises range)
      (ht : t ∈ Pairing.idle.run calls) (ha : t.answer = .fed (.ok (.emit whole closing))) : Arises whole
  | record {n k : Nat} {source : Text} {data : Bytes} {e : Entry} (hn : 2 ≤ n)
      (h : (DataFile.format n).call k ((DataFile.format n).start source data) = some (.ok e)) :
      Arises e.record.range

theorem CodePointRange.Arises.valid {r : CodePointRange} (h : r.Arises) : r.Valid := by
  induction h with
  | ofBounds h => exact (ofBounds_eq_ok_iff.1 h).2
  | parse h => exact valid_of_parse h
  | @emitted calls t whole closing _ ht ha ih =>
    have hv : ∀ c ∈ calls, c.Valid := by
      rintro (⟨range, name, line⟩ | _) hm
      · exact ih range name line hm
      · trivial
    exact Pairing.valid_of_mem_run hv ht ha
  | record hn h =>
    have hm := LineFormat.exists_call_eq_ok_iff.1 ⟨_, h⟩
    exact (DataFile.writable_of_mem_run hn hm).range

namespace PropertyTable

/-- The tables that can be made with these ranges, be it by pushing them or from records. -/
inductive Built : PropertyTable → Prop
  | empty : Built empty
  | push {t : PropertyTable} {v : Text} {r : CodePointRange} (h : Built t) (hr : r.Arises) :
      Built (t.push v r)
  | ofRecords {records : List (Except Fault Record)} {t : PropertyTable}
      (hr : ∀ r, .ok r ∈ records → r.range.Arises) (h : ofRecords records = .ok t) : Built t

def RangesValid (t : PropertyTable) : Prop := ∀ e ∈ t.entries, ∀ r ∈ e.2, r.Valid

theorem RangesValid.push {t : PropertyTable} (h : t.RangesValid) (v : Text) {range : CodePointRange}
    (hr : range.Valid) : (t.push v range).RangesValid := by
  refine forall_mem_insert (P := fun ranges => ∀ r ∈ ranges, r.Valid) (by simpa using hr)
    (fun ranges hv r hm => ?_) h
  rcases List.mem_append.1 hm with hm | hm
  · exact hv r hm
  · rwa [List.mem_singleton.1 hm]

theorem RangesValid.ranges {t : PropertyTable} (h : t.RangesValid) (v : Text) : ∀ r ∈ t.ranges v, r.Valid := by
  rw [PropertyTable.ranges]
  cases hv : t.get? v with
  | none => simp
  | some ranges => exact h _ (mem_of_lookup_eq_some hv)

theorem rangesValid_empty : empty.RangesValid := by
  rintro _ ⟨⟩

theorem Built.rangesValid {t : PropertyTable} (h : t.Built) : t.RangesValid := by
  induction h with
  | empty => exact rangesValid_empty
  | push _ hr ih => exact ih.push _ hr.valid
  | ofRecords hr h =>
    exact pushAll_induction rangesValid_empty (fun t v r hm ht => ht.push v (hr r hm).valid) h

end PropertyTable

namespace Database
variable {tree : FileTree} {path value : Text}

theorem arises_of_mem_readPairs (r : Record)
    (h : .ok r ∈ ((readPairs tree path).map Entry.record).results) : r.range.Arises := by
  obtain ⟨e, he, rfl⟩ := List.mem_map.1 (Run.ok_mem_results_iff.1 h)
  obtain ⟨data, hd⟩ := exists_run_of_mem_readPairs he
  obtain ⟨k, hk⟩ := LineFormat.exists_call_eq_ok_iff.2 hd
  exact .record (Nat.le_refl 2) hk

theorem built_of_propertyTable {t : PropertyTable} (h : (propertyTable tree path).answer = .ok t) :
    t.Built := by
  rw [propertyTable, Logged.answer_conclude] at h
  exact .ofRecords arises_of_mem_readPairs h

theorem valid_of_collectProperty {ranges : List CodePointRange}
    (h : (collectProperty tree path value).answer = .ok ranges) : ∀ r ∈ ranges, r.Valid := by
  rw [collectProperty, Logged.answer_conclude, select_eq_map_ofRecords] at h
  cases ht : PropertyTable.ofRecords ((readPairs tree path).map Entry.record).results with
  | error e =>
    rw [ht] at h
    cases h
  | ok t =>
    rw [ht] at h
    cases h
    -- What is selected for a value is what a table of the same records has for it.
    exact (PropertyTable.Built.ofRecords arises_of_mem_readPairs ht).rangesValid.ranges value

end Database

/-- Every range that arises is valid, and so is every range in a table that is built of these, as the table of a
file is, and every range that is collected from a file. So the range of a pair is made once the pair is found
to be closed, whatever is pending, and a line that is at fault has logged nothing. -/
theorem ranges_valid :
    (∀ r : CodePointRange, r.Arises → r.Valid) ∧
    (∀ t : PropertyTable, t.Built → t.RangesValid) ∧
    (∀ tree path t, (Database.propertyTable tree path).answer = .ok t → t.Built) ∧
    (∀ tree path value ranges, (Database.collectProperty tree path value).answer = .ok ranges →
      ∀ r ∈ ranges, r.Valid) ∧
    ∀ (p : Pairing) range name line, range.Arises → p.FeedsSafely range name line := by
  refine ⟨fun r h => h.valid, fun t h => h.rangesValid, fun tree path t => ?_,
    fun tree path value ranges => ?_, fun p range name line h => ?_⟩
  · exact Database.built_of_propertyTable
  · exact Database.valid_of_collectProperty
  · exact Pairing.feedsSafely h.valid p name line

/-- A pair that ends with the last code point, in a table and in a file. -/
theorem ranges_valid_of_pair :
    let name : Text := "X".toList
    let calls : List Pairing.Call :=
      [.feed (.single 0x100000) ⟨name, some .first⟩ 1, .feed (.single 0x10FFFF) ⟨name, some .last⟩ 2]
    let whole : CodePointRange := ⟨0x100000, 0x10FFFF⟩
    let table := PropertyTable.empty.push name whole
    let tree := FileTree.add ⟨[]⟩ "f".toList
      (.file (Utf8.encode "100000;<X, First>\n10FFFF;<X, Last>".toList))
    (∀ range n line, .feed range n line ∈ calls → range.Arises) ∧ whole.Arises ∧ whole.Valid ∧
      table.Built ∧ table.RangesValid ∧
      (Database.propertyTable tree "f".toList).answer = .ok table ∧
      Pairing.FeedsSafely (.pending ⟨name, 0x100000, 1⟩) (.single 0x10FFFF) ⟨name, some .last⟩ 2 := by
  intro name calls whole table tree
  have hs : ∀ c, c ≤ CodePoint.max → (CodePointRange.single c).Arises := by
    intro c hc
    exact .ofBounds (CodePointRange.ofBounds_eq_ok_iff.2 ⟨rfl, Nat.le_refl c, hc⟩)
  have hc : ∀ range n line, .feed range n line ∈ calls → range.Arises := by
    intro range n line hm
    rcases List.mem_cons.1 hm with h | h
    · cases h
      exact hs _ (by decide)
    · cases List.mem_singleton.1 h
      exact hs _ (by decide)
  have hw : whole.Arises := .emitted hc (.tail _ (.head _)) rfl
  have ht : (Database.propertyTable tree "f".toList).answer = .ok table := by decide +kernel
  obtain ⟨hv, hr, hb, -, hf⟩ := ranges_valid
  have hbt := hb tree _ table ht
  exact ⟨hc, hw, hv whole hw, hbt, hr table hbt, ht, hf _ _ _ 2 (hs 0x10FFFF (by decide))⟩

end UnicodeTables
