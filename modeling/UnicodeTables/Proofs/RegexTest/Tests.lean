import Mathlib.Data.List.Induction
import UnicodeTables.Proofs.Itemwise
import UnicodeTables.Proofs.RegexTest.Lines
import UnicodeTables.Proofs.Runs
import UnicodeTables.Proofs.Text.Lines

/-! # What reading a file of tests gives

The state of the reader is the pattern of the nearest line that has one of its own (`resolves_iff`), so the
lines read so far say what a line means after them. `Taken earlier k texts lines ts`: after the effective
lines `earlier`, the lines `texts` from number `k` on have the effective lines `lines` and give the tests
`ts`. Reading follows this line by line (`reads_iff`), and succeeds exactly if every effective line can be
taken (`tests_eq_ok_iff`). -/

namespace UnicodeTables

namespace RegexTest

/-- The effective ones of the lines, which are numbered from `k` on. -/
def effectiveLines (k : Nat) (texts : List Text) : List (Text × Nat) :=
  ((texts.map Text.chomp).zipIdx k).filter fun line => effective line.1

/-- Each of the lines with those before it, of which `earlier` come first. -/
def withEarlier (earlier : List TestLine) : List TestLine → List (List TestLine × TestLine)
  | [] => []
  | l :: lines => (earlier, l) :: withEarlier (earlier ++ [l]) lines

/-- The lines that are kept, each with all the lines before it. -/
def keptLines (earlier lines : List TestLine) : List (List TestLine × TestLine) :=
  (withEarlier earlier lines).filter fun line => line.2.Kept

end RegexTest

namespace TestLine
open RegexTest

/-- The pattern of a line after the given lines: its own, or that of the nearest line that has one. -/
inductive Means (earlier : List TestLine) (l : TestLine) : Text → Prop
  | own (h : l.columns.pattern ≠ RegexTest.same) : Means earlier l l.columns.pattern
  | same {before between : List TestLine} {m : TestLine} (h : l.columns.pattern = RegexTest.same)
      (he : earlier = before ++ m :: between) (hm : m.columns.pattern ≠ RegexTest.same)
      (hb : ∀ b ∈ between, b.columns.pattern = RegexTest.same) : Means earlier l m.columns.pattern

/-- A line gives this test after the lines before it. -/
def GivesAfter (line : List TestLine × TestLine) (t : RegexTest) : Prop :=
  ∃ pattern, line.2.Means line.1 pattern ∧ line.2.Gives pattern t

end TestLine

namespace RegexTest
variable {k : Nat} {raw : Bytes} {text : Text} {texts : List Text} {l m : TestLine}
  {l? : Option TestLine} {earlier lines : List TestLine} {test : Option RegexTest} {next : Option Text}
  {ts : List RegexTest}

/-! ### The pattern before -/

/-- The last pattern that is not `SAME`. -/
def remembered (lines : List TestLine) : Option Text :=
  lines.foldl (fun p l => if l.columns.pattern = same then p else some l.columns.pattern) none

theorem remembered_concat (lines : List TestLine) (l : TestLine) :
    remembered (lines ++ [l]) =
      if l.columns.pattern = same then remembered lines else some l.columns.pattern := by
  rw [remembered, List.foldl_append]
  rfl

theorem remembered_cons_ne_none (h : m.columns.pattern ≠ same) (lines : List TestLine) :
    remembered (m :: lines) ≠ none := by
  induction lines using List.reverseRecOn with
  | nil => simp [remembered, h]
  | append_singleton lines l ih =>
    rw [← List.cons_append, remembered_concat]
    split
    · exact ih
    · simp

theorem concat_eq_append_cons_iff {α : Type} {lines before between : List α} {l m : α} :
    lines ++ [l] = before ++ m :: between ↔
      between = [] ∧ lines = before ∧ l = m ∨
        ∃ between', between = between' ++ [l] ∧ lines = before ++ m :: between' := by
  rcases List.eq_nil_or_concat between with rfl | ⟨between, b, rfl⟩
  · rw [List.append_singleton_inj]
    simp
  · rw [List.concat_eq_append, ← List.cons_append, ← List.append_assoc, List.append_singleton_inj]
    constructor
    · rintro ⟨rfl, rfl⟩
      exact .inr ⟨between, rfl, rfl⟩
    · rintro (⟨hn, -⟩ | ⟨between', hb, rfl⟩)
      · simp at hn
      · obtain ⟨rfl, rfl⟩ := List.append_singleton_inj.1 hb
        exact ⟨rfl, rfl⟩

theorem remembered_eq_some_iff {pattern : Text} :
    remembered lines = some pattern ↔
      ∃ before m between, lines = before ++ m :: between ∧ m.columns.pattern ≠ same ∧
        (∀ b ∈ between, b.columns.pattern = same) ∧ pattern = m.columns.pattern := by
  induction lines using List.reverseRecOn with
  | nil => simp [remembered]
  | append_singleton lines l ih =>
    rw [remembered_concat]
    by_cases hl : l.columns.pattern = same
    · rw [if_pos hl, ih]
      constructor
      · rintro ⟨before, m, between, rfl, hm, hb, hp⟩
        refine ⟨before, m, between ++ [l], by simp, hm, fun b h => ?_, hp⟩
        rcases List.mem_append.1 h with h | h
        · exact hb b h
        · rw [List.mem_singleton.1 h, hl]
      · rintro ⟨before, m, between, he, hm, hb, hp⟩
        rcases concat_eq_append_cons_iff.1 he with ⟨-, -, rfl⟩ | ⟨between', rfl, rfl⟩
        · exact absurd hl hm
        · exact ⟨before, m, between', rfl, hm, fun b h => hb b (by simp [h]), hp⟩
    · rw [if_neg hl, Option.some.injEq]
      constructor
      · rintro rfl
        exact ⟨lines, l, [], rfl, hl, by simp, rfl⟩
      · rintro ⟨before, m, between, he, hm, hb, rfl⟩
        rcases concat_eq_append_cons_iff.1 he with ⟨-, -, rfl⟩ | ⟨between', rfl, -⟩
        · rfl
        · exact absurd (hb l (by simp)) hl

theorem resolves_iff {pattern : Text} :
    l.Resolves (remembered earlier) pattern ↔ l.Means earlier pattern := by
  unfold TestLine.Resolves
  rw [remembered_eq_some_iff]
  constructor
  · rintro (⟨hl, before, m, between, he, hm, hb, rfl⟩ | ⟨hl, rfl⟩)
    · exact .same hl he hm hb
    · exact .own hl
  · rintro (hl | ⟨hl, he, hm, hb⟩)
    · exact .inr ⟨hl, rfl⟩
    · exact .inl ⟨hl, _, _, _, he, hm, hb, rfl⟩

theorem ne_same_of_means {pattern : Text} (h : l.Means earlier pattern) : pattern ≠ same := by
  cases h with
  | own h => exact h
  | same _ _ hm _ => exact hm

/-! ### Lines one after another -/

structure Taken (earlier : List TestLine) (k : Nat) (texts : List Text) (lines : List TestLine)
    (ts : List RegexTest) : Prop where
  onLine : List.Forall₂ TestLine.OnLine lines (effectiveLines k texts)
  means : ∀ line ∈ withEarlier earlier lines, ∃ pattern, line.2.Means line.1 pattern
  tests : List.Forall₂ (fun t line => TestLine.GivesAfter line t) ts (keptLines earlier lines)

theorem effectiveLines_cons (k : Nat) (text : Text) (texts : List Text) :
    effectiveLines k (text :: texts) =
      (if effective text.chomp then [(text.chomp, k)] else []) ++ effectiveLines (k + 1) texts := by
  rw [effectiveLines, List.map_cons, List.zipIdx_cons, List.filter_cons, ← effectiveLines]
  split <;> rfl

theorem effectiveLines_eq_nil_iff : effectiveLines k texts = [] ↔ ∀ t ∈ texts, effective t.chomp = false := by
  induction texts generalizing k with
  | nil => simp [effectiveLines]
  | cons t texts ih =>
    rw [effectiveLines_cons, List.append_eq_nil_iff, ih, List.forall_mem_cons]
    refine and_congr_left fun _ => ?_
    cases effective t.chomp <;> simp

theorem keptLines_cons (earlier : List TestLine) (l : TestLine) (lines : List TestLine) :
    keptLines earlier (l :: lines) =
      (if l.Kept then [(earlier, l)] else []) ++ keptLines (earlier ++ [l]) lines := by
  rw [keptLines, withEarlier, List.filter_cons, ← keptLines]
  by_cases h : l.Kept
  · rw [if_pos (decide_eq_true h), if_pos h]
    rfl
  · rw [if_neg (by simpa using h), if_neg h]
    rfl

/-- What a line leaves is the pattern that the lines up to it remember. -/
theorem Accepts.next_eq (h : Accepts k raw (remembered earlier) l? test next) :
    next = remembered (earlier ++ l?.toList) := by
  have hn : ∀ {l : TestLine} {pattern : Text}, l.Resolves (remembered earlier) pattern →
      some pattern = remembered (earlier ++ [l]) := by
    rintro l pattern (⟨hl, hp⟩ | ⟨hl, rfl⟩)
    · rw [remembered_concat, if_pos hl, hp]
    · rw [remembered_concat, if_neg hl]
  cases h with
  | skip hr he => simp
  | other hr he hl hp hk => exact hn hp
  | test hr he hl hp hk ht => exact hn hp

theorem Taken.cons (h : Taken (earlier ++ l?.toList) (k + 1) texts lines ts)
    (ha : Accepts k (Utf8.encode text) (remembered earlier) l? test next) :
    Taken earlier k (text :: texts) (l?.toList ++ lines) (test.toList ++ ts) := by
  obtain ⟨hl, hm, ht⟩ := h
  cases ha with
  | skip hr he =>
    rw [Utf8.encode_inj] at hr
    subst hr
    refine ⟨?_, by simpa using hm, by simpa using ht⟩
    rw [effectiveLines_cons, he]
    exact hl
  | @other _ pattern l hr he hl' hp hk =>
    rw [Utf8.encode_inj] at hr
    subst hr
    refine ⟨?_, ?_, ?_⟩
    · rw [effectiveLines_cons, if_pos he]
      exact .cons hl' hl
    · intro line h
      rcases List.mem_cons.1 h with rfl | h
      · exact ⟨pattern, resolves_iff.1 hp⟩
      · exact hm line h
    · show List.Forall₂ _ ts (keptLines earlier (l :: lines))
      rw [keptLines_cons, if_neg hk]
      exact ht
  | @test _ pattern l t hr he hl' hp hk hg =>
    rw [Utf8.encode_inj] at hr
    subst hr
    refine ⟨?_, ?_, ?_⟩
    · rw [effectiveLines_cons, if_pos he]
      exact .cons hl' hl
    · intro line h
      rcases List.mem_cons.1 h with rfl | h
      · exact ⟨pattern, resolves_iff.1 hp⟩
      · exact hm line h
    · show List.Forall₂ _ (t :: ts) (keptLines earlier (l :: lines))
      rw [keptLines_cons, if_pos hk]
      exact .cons ⟨pattern, resolves_iff.1 hp, hg⟩ ht

theorem Taken.of_cons (h : Taken earlier k (text :: texts) lines ts) :
    ∃ l? test next lines' ts', Accepts k (Utf8.encode text) (remembered earlier) l? test next ∧
      lines = l?.toList ++ lines' ∧ ts = test.toList ++ ts' ∧
        Taken (earlier ++ l?.toList) (k + 1) texts lines' ts' := by
  obtain ⟨hl, hm, ht⟩ := h
  rw [effectiveLines_cons] at hl
  by_cases he : effective text.chomp
  · rw [if_pos he, List.singleton_append, List.forall₂_cons_right_iff] at hl
    obtain ⟨l, lines, hl', hl, rfl⟩ := hl
    obtain ⟨pattern, hp⟩ := hm (earlier, l) List.mem_cons_self
    have hm' : ∀ line ∈ withEarlier (earlier ++ [l]) lines, ∃ pattern, line.2.Means line.1 pattern := by
      intro line h
      exact hm line (List.mem_cons_of_mem _ h)
    rw [keptLines_cons] at ht
    by_cases hk : l.Kept
    · rw [if_pos hk, List.singleton_append, List.forall₂_cons_right_iff] at ht
      obtain ⟨t, ts, ⟨pattern', hp', hg⟩, ht, rfl⟩ := ht
      exact ⟨some l, some t, _, lines, ts, .test rfl he hl' (resolves_iff.2 hp') hk hg, rfl, rfl, hl, hm', ht⟩
    · rw [if_neg hk] at ht
      exact ⟨some l, none, _, lines, ts, .other rfl he hl' (resolves_iff.2 hp) hk, rfl, rfl, hl, hm', ht⟩
  · rw [if_neg he] at hl
    refine ⟨none, none, _, lines, ts, .skip rfl (by simpa using he), rfl, rfl, hl, ?_, ?_⟩
    · simpa using hm
    · simpa using ht

/-- The lines that are read without a fault are those that can all be taken. -/
theorem reads_iff {n : Nat} {raws : List Bytes} {p : Option Text} :
    format.Reads n (remembered earlier) raws ts p ↔
      ∃ texts lines, raws = texts.map Utf8.encode ∧ Taken earlier (n + 1) texts lines ts ∧
        p = remembered (earlier ++ lines) := by
  induction raws generalizing n earlier ts p with
  | nil =>
    constructor
    · rintro ⟨⟩
      exact ⟨[], [], rfl, ⟨.nil, by simp [withEarlier], .nil⟩, by simp⟩
    · rintro ⟨texts, lines, hr, ⟨hl, -, ht⟩, rfl⟩
      obtain rfl := List.map_eq_nil_iff.1 hr.symm
      obtain rfl := List.forall₂_nil_right_iff.1 hl
      obtain rfl := List.forall₂_nil_right_iff.1 ht
      rw [List.append_nil]
      exact .nil n _
  | cons raw raws ih =>
    constructor
    · rintro (_ | ⟨h, t⟩)
      obtain ⟨l?, ha⟩ := read_eq_ok_iff.1 h
      obtain ⟨text, rfl⟩ := ha.exists_text
      rw [ha.next_eq] at t
      obtain ⟨texts, lines, rfl, ht, rfl⟩ := ih.1 t
      exact ⟨text :: texts, _, rfl, ht.cons ha, by rw [List.append_assoc]⟩
    · rintro ⟨texts, lines, hr, ht, rfl⟩
      cases texts with
      | nil => cases hr
      | cons text texts =>
        obtain ⟨rfl, rfl⟩ := List.cons.inj hr
        obtain ⟨l?, test, next, lines, ts, ha, rfl, rfl, ht'⟩ := ht.of_cons
        refine .cons ha.read_eq ?_
        rw [ha.next_eq]
        exact ih.2 ⟨texts, lines, rfl, ht', by rw [List.append_assoc]⟩

theorem tests_eq_ok_iff_reads {source : Text} {data : Bytes} :
    tests source data = .ok ts ↔ ∃ p, format.Reads 0 none data.lines ts p := by
  rw [tests, LineFormat.toExcept_run_eq_ok_iff]
  -- Nothing is wrong with tests that end.
  exact exists_congr fun p => and_iff_left rfl

theorem tests_eq_ok_iff_taken {source : Text} {data : Bytes} :
    tests source data = .ok ts ↔
      ∃ texts lines, data.lines = texts.map Utf8.encode ∧ Taken [] 1 texts lines ts := by
  have hr : ∀ p, format.Reads 0 (remembered []) data.lines ts p ↔ _ := fun p => reads_iff
  rw [tests_eq_ok_iff_reads]
  constructor
  · rintro ⟨p, h⟩
    obtain ⟨texts, lines, hd, ht, -⟩ := (hr p).1 h
    exact ⟨texts, lines, hd, ht⟩
  · rintro ⟨texts, lines, hd, ht⟩
    exact ⟨_, (hr _).2 ⟨texts, lines, hd, ht, rfl⟩⟩

/-! ### When reading succeeds -/

theorem mem_withEarlier {line : List TestLine × TestLine} (h : line ∈ withEarlier earlier lines) :
    ∃ before after, lines = before ++ line.2 :: after ∧ line.1 = earlier ++ before := by
  induction lines generalizing earlier with
  | nil => cases h
  | cons l lines ih =>
    rcases List.mem_cons.1 h with rfl | h
    · exact ⟨[], lines, rfl, (List.append_nil _).symm⟩
    · obtain ⟨before, after, rfl, he⟩ := ih h
      exact ⟨l :: before, after, rfl, by rw [he, List.append_assoc]; rfl⟩

theorem exists_mem_withEarlier (earlier : List TestLine) (h : l ∈ lines) :
    ∃ before, (before, l) ∈ withEarlier earlier lines := by
  induction lines generalizing earlier with
  | nil => cases h
  | cons m lines ih =>
    rcases List.mem_cons.1 h with rfl | h
    · exact ⟨earlier, List.mem_cons_self⟩
    · obtain ⟨before, hb⟩ := ih (earlier ++ [m]) h
      exact ⟨before, List.mem_cons_of_mem _ hb⟩

/-- Every line means something if the first one has a pattern of its own. -/
theorem means_iff_head :
    (∀ line ∈ withEarlier [] lines, ∃ pattern, line.2.Means line.1 pattern) ↔
      ∀ l ∈ lines.head?, l.columns.pattern ≠ same := by
  constructor
  · rintro h l hl hs
    cases lines with
    | nil => cases hl
    | cons m lines =>
      obtain rfl : m = l := by simpa using hl
      obtain ⟨pattern, hm⟩ := h ([], m) List.mem_cons_self
      rcases resolves_iff.2 hm with ⟨-, hn⟩ | ⟨hn, -⟩
      · cases hn
      · exact hn hs
  · rintro h ⟨before, l⟩ hl
    obtain ⟨before', after, rfl, hb⟩ := mem_withEarlier hl
    rw [List.nil_append] at hb
    dsimp only at hb h ⊢
    have hr : ∃ pattern, l.Resolves (remembered before) pattern := by
      rw [exists_resolves_iff, hb]
      intro hs
      cases before' with
      | nil => exact absurd hs (h l (by simp))
      | cons m before' => exact remembered_cons_ne_none (h m (by simp)) before'
    obtain ⟨pattern, hr⟩ := hr
    exact ⟨pattern, resolves_iff.1 hr⟩

theorem mem_keptLines_iff {line : List TestLine × TestLine} :
    line ∈ keptLines earlier lines ↔ line ∈ withEarlier earlier lines ∧ line.2.Kept := by
  rw [keptLines, List.mem_filter, decide_eq_true_eq]

/-- There is a test for each line that is kept if these lines expect submatches. -/
theorem exists_tests_iff
    (hm : ∀ line ∈ withEarlier earlier lines, ∃ pattern, line.2.Means line.1 pattern) :
    (∃ ts, List.Forall₂ (fun t line => TestLine.GivesAfter line t) ts (keptLines earlier lines)) ↔
      ∀ l ∈ lines, l.Kept → ∃ spans, l.Expects spans := by
  constructor
  · rintro ⟨ts, ht⟩ l hl hk
    obtain ⟨before, hb⟩ := exists_mem_withEarlier earlier hl
    obtain ⟨t, -, pattern, -, hg⟩ := exists_of_forall₂ ht.flip (mem_keptLines_iff.2 ⟨hb, hk⟩)
    exact ⟨t.submatches, hg.submatches⟩
  · intro h
    refine exists_forall₂ fun line hl => ?_
    obtain ⟨hl, hk⟩ := mem_keptLines_iff.1 hl
    obtain ⟨pattern, hp⟩ := hm line hl
    obtain ⟨before, after, rfl, -⟩ := mem_withEarlier hl
    obtain ⟨spans, hs⟩ := h line.2 (by simp) hk
    exact ⟨⟨line.2.number, _, pattern, _, spans⟩, pattern, hp, rfl, rfl, rfl, rfl, hs⟩

/-- The data are text in every line, and `lines` are the effective lines. -/
def EffectiveLinesOf (data : Bytes) (lines : List TestLine) : Prop :=
  ∃ texts : List Text, data.lines = texts.map Utf8.encode ∧
    List.Forall₂ TestLine.OnLine lines (effectiveLines 1 texts)

/-- The tests are what the lines that are kept give after those before them. -/
theorem tests_eq_ok_iff_gives {source : Text} {data : Bytes} :
    tests source data = .ok ts ↔
      ∃ lines, EffectiveLinesOf data lines ∧ (∀ l ∈ lines.head?, l.columns.pattern ≠ same) ∧
        List.Forall₂ (fun t line => TestLine.GivesAfter line t) ts (keptLines [] lines) := by
  rw [tests_eq_ok_iff_taken]
  constructor
  · rintro ⟨texts, lines, hd, hl, hm, ht⟩
    exact ⟨lines, ⟨texts, hd, hl⟩, means_iff_head.1 hm, ht⟩
  · rintro ⟨lines, ⟨texts, hd, hl⟩, hh, ht⟩
    exact ⟨texts, lines, hd, hl, means_iff_head.2 hh, ht⟩

/-- Reading succeeds if every line is text, the first effective line has a pattern of its own, and every
line that is kept has submatches that can be read. It gives one test for each line that is kept, and `SAME`
is the pattern of none. -/
theorem tests_eq_ok_iff (source : Text) (data : Bytes) :
    ((∃ ts, tests source data = .ok ts) ↔
      ∃ lines, EffectiveLinesOf data lines ∧ (∀ l ∈ lines.head?, l.columns.pattern ≠ same) ∧
        ∀ l ∈ lines, 'E' ∈ l.columns.flags → l.columns.submatches ≠ noMatch →
          ∃ spans, Span.parseAll l.columns.submatches = .ok spans) ∧
    (∀ ts, tests source data = .ok ts ↔
      ∃ lines, EffectiveLinesOf data lines ∧ (∀ l ∈ lines.head?, l.columns.pattern ≠ same) ∧
        List.Forall₂ (fun t line => TestLine.GivesAfter line t) ts (keptLines [] lines)) ∧
    ∀ ts, tests source data = .ok ts → ∀ t ∈ ts, t.pattern ≠ same := by
  refine ⟨?_, fun ts => tests_eq_ok_iff_gives, ?_⟩
  · constructor
    · rintro ⟨ts, h⟩
      obtain ⟨lines, hd, hh, ht⟩ := tests_eq_ok_iff_gives.1 h
      refine ⟨lines, hd, hh, fun l hl hk => ?_⟩
      exact (exists_expects_iff l).1 ((exists_tests_iff (means_iff_head.2 hh)).1 ⟨ts, ht⟩ l hl hk)
    · rintro ⟨lines, hd, hh, hs⟩
      have ht : ∀ l ∈ lines, l.Kept → ∃ spans, l.Expects spans := by
        intro l hl hk
        exact (exists_expects_iff l).2 (hs l hl hk)
      obtain ⟨ts, ht⟩ := (exists_tests_iff (means_iff_head.2 hh)).2 ht
      exact ⟨ts, tests_eq_ok_iff_gives.2 ⟨lines, hd, hh, ht⟩⟩
  · intro ts h t ht
    obtain ⟨lines, -, -, hg⟩ := tests_eq_ok_iff_gives.1 h
    obtain ⟨line, -, pattern, hp, hg⟩ := exists_of_forall₂ hg ht
    rw [hg.pattern]
    exact ne_same_of_means hp

end RegexTest

end UnicodeTables
