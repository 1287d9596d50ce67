import UnicodeTables.Proofs.Calls
import UnicodeTables.Proofs.DataFile.Records
import UnicodeTables.Proofs.RegexTest.Lines

/-! # How far data files and test files are read

Both formats number what they give by lines, and no fault of a line is that of a First line left open, so
neither reads on after the line that it reports (`formats_readToLine`). -/

namespace UnicodeTables

namespace DataFile
variable {n k : Nat} {raw : Bytes} {opened opened' : Option DataLine} {b : Block}

/-- A record is on the line that completes its block. -/
theorem Accepts.line_record (h : Accepts n k raw opened (some b) opened') : b.record.line = k := by
  cases h with
  | plain _ _ hl _ => exact hl.number
  | last _ _ hl _ => exact hl.number

theorem numbered (hn : 2 ≤ n) : (format n).Numbered fun e => e.record.line where
  item := by
    intro p k raw e p' h
    obtain ⟨opened, b, opened', ha, rfl⟩ := exists_accepts_of_read hn h
    rw [b.record_entry]
    exact ha.line_record
  fault := by
    intro p k raw f h name
    obtain ⟨opened, hf⟩ := exists_lineFault_of_read hn h
    rw [root_of_lineFault hf]
    exact ne_unclosedFirst_of_lineFault hf name
  finish := by
    intro p f k h
    cases p with
    | idle => cases h
    | pending o =>
      cases h
      exact ⟨o.name, rfl⟩

end DataFile

namespace RegexTest
theorem numbered : format.Numbered RegexTest.line where
  item := by
    intro previous k raw t next h
    obtain ⟨l?, ha⟩ := read_eq_ok_iff.1 h
    cases ha with
    | test _ _ hl _ _ ht => rw [ht.line, hl.number]
  fault := by
    intro previous k raw f h name
    rcases (read_eq_error_iff.1 h).cases_fault with rfl | ⟨what, rfl⟩ <;> simp [Fault.root]
  finish := by
    intro previous f k h
    cases h

end RegexTest

/-- A call that gives a record or a test of a line, or a fault of it, leaves the bytes after this line
unread, and no other call leaves any. So the calls up to it are the same for all data that begin with the
same lines, whatever comes then. -/
theorem formats_readToLine :
    (∀ n, 2 ≤ n → (DataFile.format n).ReadsToLine fun e => e.record.line) ∧
      RegexTest.format.ReadsToLine RegexTest.line := by
  refine ⟨fun n hn => ?_, ?_⟩
  · exact (DataFile.numbered hn).readsToLine
  · exact RegexTest.numbered.readsToLine

/-- The first call stops before a line that is no text, and could not tell it from any other. -/
theorem readToLine_before_invalid :
    let data := Utf8.encode "# c\n0041;A\n".toList
    let reader (after : Bytes) := (DataFile.format 2).start "t".toList (data ++ after)
    let tests := Utf8.encode "# c\nE\ta\ta\t(0,1)\n".toList
    let tester (after : Bytes) := RegexTest.format.start "t".toList (tests ++ after)
    2 ≤ 2 ∧ ((DataFile.format 2).after 1 (reader [0xFF])).unread = [0xFF] ∧
      (DataFile.format 2).call 0 (reader [0x3B]) = (DataFile.format 2).call 0 (reader [0xFF]) ∧
      (RegexTest.format.after 1 (tester [0xFF])).unread = [0xFF] ∧
      RegexTest.format.call 0 (tester [0x3B]) = RegexTest.format.call 0 (tester [0xFF]) := by
  intro data reader tests tester
  have hn : 2 ≤ 2 := Nat.le_refl 2
  let e : Entry := ⟨⟨2, ⟨0x41, 0x41⟩, ["A".toList]⟩, none⟩
  let t : RegexTest := ⟨2, ['E'], ['a'], ['a'], [some ⟨0, 1⟩]⟩
  have he : (DataFile.format 2).call 0 (reader [0xFF]) = some (.ok e) := by decide +kernel
  have ht : RegexTest.format.call 0 (tester [0xFF]) = some (.ok t) := by decide +kernel
  have hd := formats_readToLine.1 2 hn
  have hr := formats_readToLine.2
  refine ⟨hn, ?_, ?_, ?_, ?_⟩
  · exact hd.unread _ _ 0 _ 2 he rfl
  · exact hd.same _ _ _ 0 _ 2 he rfl (by decide) 0 (Nat.le_refl 0)
  · exact hr.unread _ _ 0 _ 2 ht rfl
  · exact hr.same _ _ _ 0 _ 2 ht rfl (by decide) 0 (Nat.le_refl 0)

end UnicodeTables
