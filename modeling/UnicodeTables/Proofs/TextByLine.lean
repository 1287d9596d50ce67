import UnicodeTables.Proofs.Calls
import UnicodeTables.Proofs.DataFile.Records
import UnicodeTables.Proofs.RegexTest.Lines
import UnicodeTables.Proofs.Text.IllFormed

/-! # Text that is checked line by line

A reader decodes one line at a time and may stop long before the end, and what it skips it decodes too. If
no line that is text is blamed for its bytes (`BlamesContents`), then this is as good as decoding the data as a
whole: all is text if it was read, text is never blamed for its bytes, and bytes that are no text are
blamed on the line of the first ill-formed sequence, unless a line before it is at fault
(`BlamesContents.checksText`). -/

namespace UnicodeTables

namespace LineFormat
variable {σ α β : Type} {fmt : LineFormat σ α} {source : Text} {data : Bytes} {items : List α}

/-- A line that is text, and the end of the data, are blamed for what they say and not for their bytes. -/
structure BlamesContents (fmt : LineFormat σ α) : Prop where
  line : ∀ {s n text f}, fmt.read s n (Utf8.encode text) = .error f → ∀ io, f.root ≠ .io io
  finish : ∀ {s f n}, fmt.finish s = some (f, n) → ∀ io, f.root ≠ .io io

/-- Checking each line when it is read is the same as checking the data as a whole. -/
structure ChecksText (fmt : LineFormat σ α) (collect : Text → Bytes → Except Fault (List β)) : Prop where
  /-- All is text if all was read, what gave nothing included. -/
  text : ∀ source data items, collect source data = .ok items → ∃ t, data = Utf8.encode t
  /-- No call blames the bytes of a text. -/
  quiet : ∀ source t k f, fmt.call k (fmt.start source (Utf8.encode t)) = some (.error f) →
    ∀ io, f.root ≠ .io io
  /-- If an ill-formed sequence follows the bytes `before`, then its line is blamed for its bytes, or an
  earlier line for something else. -/
  illFormed : ∀ source before after, Utf8.BreaksAfter before after →
    ∃ line root, collect source (before ++ after) = .error (.located source line root) ∧
      (line = before.count Bytes.lineFeed + 1 ∧ root = .io .invalidData ∨
        line < before.count Bytes.lineFeed + 1 ∧ ∀ io, root.root ≠ .io io)

theorem Reads.exists_texts {n : Nat} {s s' : σ} {raws : List Bytes} (h : Reads fmt n s raws items s') :
    ∃ texts : List Text, raws = texts.map Utf8.encode := by
  induction h with
  | nil => exact ⟨[], rfl⟩
  | @cons n s s₁ s' raw raws item items h t ih =>
    obtain ⟨texts, rfl⟩ := ih
    by_cases hr : ∃ text, raw = Utf8.encode text
    · obtain ⟨text, rfl⟩ := hr
      exact ⟨text :: texts, rfl⟩
    · rw [read_of_not_text fun text ht => hr ⟨text, ht⟩] at h
      cases h

theorem exists_encode_of_run_ok (h : (fmt.run source data).fault = none) : ∃ t, data = Utf8.encode t := by
  have hok : (fmt.run source data).toExcept = .ok (fmt.run source data).items :=
    Run.toExcept_eq_ok_iff.2 ⟨rfl, h⟩
  obtain ⟨_, hr, -⟩ := toExcept_run_eq_ok_iff.1 hok
  exact Utf8.exists_encode_iff_lines.2 hr.exists_texts

namespace BlamesContents

theorem root_ne_io (hf : BlamesContents fmt) {t : Text} {f : Fault}
    (h : (fmt.run source (Utf8.encode t)).fault = some f) (io : IoFault) : f.root ≠ .io io := by
  obtain ⟨texts, hl⟩ := Utf8.exists_encode_iff_lines.1 ⟨t, rfl⟩
  have hrun : fmt.runFrom source 0 fmt.initial (Bytes.lines (Utf8.encode t)) =
    fmt.run source (Utf8.encode t) := rfl
  rcases runFrom_eq_iff.1 hrun with ⟨s, -, hr⟩ | ⟨read, raw, left, s, g, hd, -, hg, hr⟩
  · obtain ⟨⟨g, n⟩, hs, rfl⟩ := Option.map_eq_some_iff.1 (hr.symm.trans h)
    exact hf.finish hs io
  · have hm : raw ∈ texts.map Utf8.encode := by
      rw [← hl, hd]
      exact List.mem_append_right read List.mem_cons_self
    obtain ⟨text, -, rfl⟩ := List.mem_map.1 hm
    cases hr.symm.trans h
    exact hf.line hg io

/-- Either the lines before the first one that is no text are read, and then it is its turn, or one of them
is at fault. -/
theorem run_of_breaksAfter (hf : BlamesContents fmt) (source : Text) {before after : Bytes}
    (h : Utf8.BreaksAfter before after) :
    ∃ line root, (fmt.run source (before ++ after)).fault = some (.located source line root) ∧
      (line = before.count Bytes.lineFeed + 1 ∧ root = .io .invalidData ∨
        line < before.count Bytes.lineFeed + 1 ∧ ∀ io, root.root ≠ .io io) := by
  obtain ⟨texts, raw, left, hl, hr, hn⟩ := h.exists_first_line
  show ∃ line root, (fmt.runFrom source 0 fmt.initial (Bytes.lines (before ++ after))).fault = _ ∧ _
  rw [hl, ← hn]
  rcases fmt.exists_reads 0 fmt.initial (texts.map Utf8.encode) with
    ⟨items, s, hs⟩ | ⟨read, bad, rest, items, s, f, hd, hs, hbad⟩
  · have hraw := read_of_not_text hr fmt s (0 + (texts.map Utf8.encode).length + 1)
    rw [hs.runFrom_eq_of_fault hraw]
    refine ⟨_, _, rfl, .inl ⟨?_, rfl⟩⟩
    rw [List.length_map, Nat.zero_add]
  -- The lines before are text, so a fault of one of them is not about its bytes.
  · have hm : bad ∈ texts.map Utf8.encode := by
      rw [hd]
      exact List.mem_append_right read List.mem_cons_self
    obtain ⟨text, -, rfl⟩ := List.mem_map.1 hm
    have hlt : read.length < texts.length := by
      rw [← List.length_map Utf8.encode, hd, List.length_append, List.length_cons]
      omega
    rw [hd, List.append_assoc, List.cons_append, hs.runFrom_eq_of_fault hbad]
    exact ⟨_, _, rfl, .inr ⟨by omega, hf.line hbad⟩⟩

/-- Collecting may keep some part of each item. -/
theorem checksText (hf : BlamesContents fmt) (ψ : α → β) :
    ChecksText fmt fun source data => ((fmt.run source data).map ψ).toExcept := by
  refine ⟨fun source data items h => ?_, fun source t k f h => ?_, fun source before after h => ?_⟩
  · have hn : (fmt.run source data).fault = none := (Run.toExcept_eq_ok_iff.1 h).2
    exact exists_encode_of_run_ok hn
  · exact hf.root_ne_io (fault_of_call h)
  · obtain ⟨line, root, hr, hlr⟩ := hf.run_of_breaksAfter source h
    exact ⟨line, root, Run.toExcept_eq_error_iff.2 hr, hlr⟩

end BlamesContents

end LineFormat

namespace DataFile
variable {n k : Nat} {text : Text} {opened : Option DataLine} {f : Fault}

theorem ne_io_of_lineFault (h : LineFault n k (Utf8.encode text) opened f) (io : IoFault) : f ≠ .io io := by
  cases h with
  | notText hr => exact absurd rfl (hr text)
  | range _ _ _ _ hp => rcases CodePointRange.fault_of_parse hp with ⟨x, rfl⟩ | rfl <;> simp
  | _ => simp

theorem blamesContents (hn : 2 ≤ n) : (format n).BlamesContents where
  line := by
    intro p k text f h io
    obtain ⟨opened, hf⟩ := exists_lineFault_of_read hn h
    rw [root_of_lineFault hf]
    exact ne_io_of_lineFault hf io
  finish := by
    intro p f k h io
    cases p with
    | idle => cases h
    | pending o =>
      cases h
      simp [Fault.root]

end DataFile

theorem RegexTest.blamesContents : RegexTest.format.BlamesContents where
  line := by
    intro previous k text f h io
    cases read_eq_error_iff.1 h with
    | notText hr => exact absurd rfl (hr text)
    | same _ _ _ _ _ => simp [Fault.root]
    | submatches _ _ _ _ _ _ hf =>
      obtain ⟨what, rfl⟩ := Span.fault_of_parseAll hf
      simp [Fault.root]
  finish := by
    intro previous f k h
    cases h

/-- All bytes are text or there is a first ill-formed sequence in them. Both formats find out by decoding line by
line: what can be read is text, comments and all, text is not blamed for its bytes, and bytes that are no
text are blamed on the line where they stop being text, if no line before is at fault. -/
theorem text_checked_by_line :
    (∀ data, (∃ t, data = Utf8.encode t) ∨
      ∃ before after, data = before ++ after ∧ Utf8.BreaksAfter before after) ∧
    (∀ n, 2 ≤ n → (DataFile.format n).ChecksText fun source data =>
      (DataFile.records n source data).answer) ∧
    RegexTest.format.ChecksText RegexTest.tests := by
  refine ⟨Utf8.exists_breaksAfter, fun n hn => ?_, ?_⟩
  · have hc := (DataFile.blamesContents hn).checksText Entry.record
    simp only [← DataFile.records_eq hn] at hc
    exact hc
  · have hc := RegexTest.blamesContents.checksText id
    simp only [Run.map_id] at hc
    exact hc

/-- A sequence that the end of a line cuts short, in a comment of line 2. -/
theorem truncated_checked_by_line :
    let before := Utf8.encode "0041;A\n# ".toList
    let after : Bytes := [0xE2, 0x82, 0x0A]
    let read := fun data => (DataFile.records 2 "t".toList data).answer
    2 ≤ 2 ∧ Utf8.BreaksAfter before after ∧
      (∃ line root, read (before ++ after) = .error (.located "t".toList line root) ∧
        (line = 2 ∧ root = .io .invalidData ∨ line < 2 ∧ ∀ io, root.root ≠ .io io)) ∧
      (∃ line root, RegexTest.tests "t".toList (before ++ after) = .error (.located "t".toList line root) ∧
        (line = 2 ∧ root = .io .invalidData ∨ line < 2 ∧ ∀ io, root.root ≠ .io io)) ∧
      read before = .ok [⟨1, .single 0x41, ["A".toList]⟩] ∧ ∃ t, before = Utf8.encode t := by
  intro before after read
  have hn : 2 ≤ 2 := Nat.le_refl 2
  have hb : Utf8.BreaksAfter before after := by decide +kernel
  have hc : before.count Bytes.lineFeed + 1 = 2 := by decide +kernel
  have hr : read before = .ok [⟨1, .single 0x41, ["A".toList]⟩] := by decide +kernel
  have hd := text_checked_by_line.2.1 2 hn
  have ht := text_checked_by_line.2.2
  have hdi := hd.illFormed "t".toList before after hb
  have hti := ht.illFormed "t".toList before after hb
  rw [hc] at hdi hti
  exact ⟨hn, hb, hdi, hti, hr, hd.text _ _ _ hr⟩

end UnicodeTables
