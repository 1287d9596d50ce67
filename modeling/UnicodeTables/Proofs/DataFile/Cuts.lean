import Mathlib.Data.List.Induction
import UnicodeTables.Proofs.DataFile.Blocks
import UnicodeTables.Proofs.Itemwise
import UnicodeTables.Proofs.Runs

/-! # Cutting a data file into blocks

The state of the reader is no more than the First line that is open. `Cut fieldCount texts blocks opened`:
the significant lines among `texts` are those of the blocks, and then the First line `opened` if there is
one. A line that can be taken carries a cut one line further (`Cut.concat`), and there is no other way to
cut one line more (`Cut.of_concat`). So the lines that are read without a fault are those that can be cut,
and the cut says what they give (`reads_iff`). -/

namespace UnicodeTables.DataFile

/-- The significant ones of the lines, with their numbers. -/
def significantLines (texts : List Text) : List (Text × Nat) :=
  ((texts.map Text.chomp).zipIdx 1).filter fun line => significant line.1

theorem significantLines_concat (texts : List Text) (text : Text) :
    significantLines (texts ++ [text]) = significantLines texts ++
      if significant text.chomp then [(text.chomp, texts.length + 1)] else [] := by
  simp only [significantLines, List.map_append, List.zipIdx_append, List.filter_append, List.map_singleton,
    List.zipIdx_singleton, List.length_map, List.filter_singleton, Nat.add_comm 1, cond_eq_ite]

structure Cut (fieldCount : Nat) (texts : List Text) (blocks : List Block) (opened : Option DataLine) :
    Prop where
  lines : List.Forall₂ (DataLine.OnLine fieldCount) (blocks.flatMap Block.lines ++ opened.toList)
    (significantLines texts)
  wellFormed : ∀ b ∈ blocks, b.WellFormed
  opens : ∀ o, opened = some o → o.Opens

variable {n : Nat} {texts : List Text} {text : Text} {blocks : List Block} {block : Option Block}
  {opened opened' : Option DataLine}

theorem cut_nil : Cut n [] [] none := ⟨.nil, by simp, by simp⟩

/-- A line that can be taken carries a cut one line further. -/
theorem Cut.concat (h : Cut n texts blocks opened)
    (ha : Accepts n (texts.length + 1) (Utf8.encode text) opened block opened') :
    Cut n (texts ++ [text]) (blocks ++ block.toList) opened' := by
  obtain ⟨hl, hw, ho⟩ := h
  cases ha with
  | skip hr hs =>
    rw [Utf8.encode_inj] at hr
    subst hr
    refine ⟨?_, by simpa using hw, ho⟩
    rw [significantLines_concat, hs]
    simpa using hl
  | @plain _ l hr hs hl' hb =>
    rw [Utf8.encode_inj] at hr
    subst hr
    refine ⟨?_, ?_, by simp⟩
    · rw [significantLines_concat, if_pos hs, forall₂_concat_iff]
      exact ⟨_, l, by simp [Block.lines], hl, hl'⟩
    · rintro b hb'
      rcases List.mem_append.1 hb' with hb' | hb'
      · exact hw b hb'
      · rw [show b = .plain l by simpa using hb']
        exact hb
  | @first _ o hr hs hl' ho' =>
    rw [Utf8.encode_inj] at hr
    subst hr
    refine ⟨?_, by simpa using hw, ?_⟩
    · rw [significantLines_concat, if_pos hs, forall₂_concat_iff]
      exact ⟨blocks.flatMap Block.lines, o, by simp, by simpa using hl, hl'⟩
    · rintro _ ⟨⟩
      exact ho'
  | @last _ o l hr hs hl' hc =>
    rw [Utf8.encode_inj] at hr
    subst hr
    refine ⟨?_, ?_, by simp⟩
    · rw [significantLines_concat, if_pos hs, forall₂_concat_iff]
      exact ⟨_, l, by simp [Block.lines], hl, hl'⟩
    · rintro b hb'
      rcases List.mem_append.1 hb' with hb' | hb'
      · exact hw b hb'
      · rw [show b = .pair o l by simpa using hb']
        exact ⟨ho o rfl, hc⟩

/-- The last line of a cut is taken after the cut of the lines before it. -/
theorem Cut.of_concat (h : Cut n (texts ++ [text]) blocks opened') :
    ∃ blocks' block opened, Cut n texts blocks' opened ∧ blocks = blocks' ++ block.toList ∧
      Accepts n (texts.length + 1) (Utf8.encode text) opened block opened' := by
  obtain ⟨hl, hw, ho⟩ := h
  rw [significantLines_concat] at hl
  cases hs : significant text.chomp with
  | false =>
    rw [hs] at hl
    exact ⟨blocks, none, opened', ⟨by simpa using hl, hw, ho⟩, by simp, .skip rfl hs⟩
  | true =>
    rw [if_pos hs, forall₂_concat_iff] at hl
    obtain ⟨ls, l, he, hl, hl'⟩ := hl
    cases opened' with
    | some o =>
      rw [Option.toList_some] at he
      obtain ⟨rfl, hol⟩ := List.append_inj' he rfl
      obtain rfl : o = l := by simpa using hol
      exact ⟨blocks, none, none, ⟨by simpa using hl, hw, by simp⟩, by simp, .first rfl hs hl' (ho o rfl)⟩
    | none =>
      rw [Option.toList_none, List.append_nil] at he
      rcases List.eq_nil_or_concat blocks with rfl | ⟨blocks', b, rfl⟩
      · simp at he
      · rw [List.concat_eq_append] at he hw
        have hb := hw b (by simp)
        have hw' : ∀ b ∈ blocks', b.WellFormed := fun b' hb' => hw b' (by simp [hb'])
        rw [List.flatMap_append, List.flatMap_singleton] at he
        refine ⟨blocks', some b, ?_⟩
        cases b with
        | plain l' =>
          obtain ⟨rfl, hll⟩ := List.append_inj' he rfl
          obtain rfl : l' = l := by simpa [Block.lines] using hll
          exact ⟨none, ⟨by simpa using hl, hw', by simp⟩, by simp, .plain rfl hs hl' hb⟩
        | pair o l' =>
          obtain ⟨ho', hc⟩ := hb
          have he' : blocks'.flatMap Block.lines ++ [o] ++ [l'] = ls ++ [l] := by
            rw [← he, List.append_assoc]
            rfl
          obtain ⟨rfl, hll⟩ := List.append_inj' he' rfl
          obtain rfl : l' = l := by simpa using hll
          refine ⟨some o, ⟨hl, hw', ?_⟩, by simp, .last rfl hs hl' hc⟩
          rintro _ ⟨⟩
          exact ho'

theorem Cut.eq_nil (h : Cut n [] blocks opened) : blocks = [] ∧ opened = none := by
  have hl := List.forall₂_nil_right_iff.1 h.lines
  rw [List.append_eq_nil_iff, List.flatMap_eq_nil_iff] at hl
  constructor
  · rw [List.eq_nil_iff_forall_not_mem]
    intro b hb
    have := hl.1 b hb
    cases b <;> cases this
  · simpa using hl.2

/-- The lines that are read without a fault are those that can be cut. -/
theorem reads_iff (hn : 2 ≤ n) {raws : List Bytes} {entries : List Entry} {p : Pairing} :
    (format n).Reads 0 .idle raws entries p ↔
      ∃ texts blocks opened, raws = texts.map Utf8.encode ∧ Cut n texts blocks opened ∧
        entries = blocks.map Block.entry ∧ p = .ofLine opened := by
  induction raws using List.reverseRecOn generalizing entries p with
  | nil =>
    constructor
    · rintro ⟨⟩
      exact ⟨[], [], none, rfl, cut_nil, rfl, rfl⟩
    · rintro ⟨texts, blocks, opened, ht, hc, rfl, rfl⟩
      obtain rfl := List.map_eq_nil_iff.1 ht.symm
      obtain ⟨rfl, rfl⟩ := hc.eq_nil
      exact .nil 0 Pairing.idle
  | append_singleton raws raw ih =>
    rw [LineFormat.Reads.concat_iff]
    constructor
    · rintro ⟨items, item, p', h, hr, rfl⟩
      obtain ⟨texts, blocks, opened, rfl, hc, rfl, rfl⟩ := ih.1 h
      rw [List.length_map, Nat.zero_add, read_eq_ok_iff hn] at hr
      obtain ⟨block, opened', ha, rfl, rfl⟩ := hr
      obtain ⟨text, rfl⟩ := ha.exists_text
      refine ⟨texts ++ [text], blocks ++ block.toList, opened', by simp, hc.concat ha, ?_, rfl⟩
      cases block <;> simp
    · rintro ⟨texts, blocks, opened, ht, hc, rfl, rfl⟩
      rcases List.eq_nil_or_concat texts with rfl | ⟨texts, text, rfl⟩
      · simp at ht
      · rw [List.concat_eq_append] at ht hc
        rw [List.map_append] at ht
        obtain ⟨rfl, ht⟩ := List.append_inj' ht rfl
        obtain rfl : raw = Utf8.encode text := by simpa using ht
        obtain ⟨blocks', block, opened', hc', rfl, ha⟩ := hc.of_concat
        refine ⟨_, block.map Block.entry, _, ih.2 ⟨texts, blocks', opened', rfl, hc', rfl, rfl⟩, ?_, ?_⟩
        · rw [List.length_map, Nat.zero_add]
          exact ha.read_eq
        · cases block <;> simp

end UnicodeTables.DataFile
