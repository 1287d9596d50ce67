import UnicodeTables.DataFile
import UnicodeTables.Proofs.EntryNames
import UnicodeTables.Proofs.Text.Lines
import UnicodeTables.Proofs.Text.Split

/-! # Lines and blocks of a data file

The significant lines of a data file come in blocks: a line of its own, or a First line and its Last
line. `Accepts` says what a line makes of the First line that is open before it, and `LineFault` why it
cannot be taken. Exactly one of the two holds of every line, and reading the line tells which
(`read_eq_ok_iff`, `read_eq_error_iff`). -/

namespace UnicodeTables

namespace DataFile
variable {line b : Text}

/-- There is more than blanks before the first `#`. -/
def significant (line : Text) : Bool := !(line.takeWhile (· ≠ '#')).all isBlank

theorem content_eq_nil_iff : content line = [] ↔ significant line = false := by
  rw [content, Text.trim_eq_nil_iff, significant, Bool.not_eq_false', List.all_eq_true]

theorem takeWhile_of_not_mem (h : '#' ∉ line) : line.takeWhile (· ≠ '#') = line := by
  have hp : ∀ c ∈ line, decide (c ≠ '#') = true := fun c hc => by
    rw [decide_eq_true_eq]
    rintro rfl
    exact h hc
  have ht : (line ++ []).takeWhile (· ≠ '#') = line ++ [].takeWhile (· ≠ '#') :=
    List.takeWhile_append_of_pos hp
  simpa using ht

theorem content_append_blank (hb : ∀ c ∈ b, isBlank c) (line : Text) :
    content (line ++ b) = content line := by
  have hn : '#' ∉ b := fun h => absurd (hb _ h) (by decide)
  unfold content
  rw [List.takeWhile_append, takeWhile_of_not_mem hn]
  split
  · rename_i h
    rw [Text.trim_append_blank hb, (List.takeWhile_sublist _).eq_of_length h]
  · rfl

/-- How a line ends does not matter. -/
theorem content_chomp (line : Text) : content line.chomp = content line := by
  obtain ⟨b, hb, h⟩ := Text.exists_chomp line
  conv => rhs; rw [h]
  rw [content_append_blank hb]

theorem fields_chomp (line : Text) : fields line.chomp = fields line := by
  rw [fields, content_chomp, fields]

theorem length_fields (line : Text) : (fields line).length = (content line).count ';' + 1 := by
  rw [fields, List.length_map, Text.length_splitOn]

end DataFile

/-- A significant line whose fields are right. -/
structure DataLine where
  number : Nat
  range : CodePointRange
  value : Text
  /-- The fields after the value. -/
  values : List Text
deriving DecidableEq, Repr

namespace DataLine

/-- What the text says, which is the line of the given number. -/
structure OnLine (fieldCount : Nat) (l : DataLine) (line : Text × Nat) : Prop where
  number : l.number = line.2
  fields : ∃ code, DataFile.fields line.1 = code :: l.value :: l.values ∧
    CodePointRange.parse code = .ok l.range
  count : l.values.length + 2 = fieldCount

def name (l : DataLine) : EntryName := EntryName.parse l.value

/-- A First line. -/
structure Opens (o : DataLine) : Prop where
  marker : o.name.marker = some .first
  single : o.range.isSingle

/-- The Last line that belongs to the First line `o`. -/
structure Closes (o l : DataLine) : Prop where
  marker : l.name.marker = some .last
  name : l.name.name = o.name.name
  single : l.range.isSingle
  le : o.range.first ≤ l.range.first

def opening (o : DataLine) : Opening := ⟨o.name.name, o.range.first, o.number⟩

theorem closes_iff {o l : DataLine} : Pairing.Closes o.opening l.range l.name ↔ o.Closes l :=
  ⟨fun ⟨hm, hn, hs, hle⟩ => ⟨hm, hn, hs, hle⟩, fun h => ⟨h.marker, h.name, h.single, h.le⟩⟩

end DataLine

/-- The lines that one record comes from. -/
inductive Block
  | plain (line : DataLine)
  | pair (first last : DataLine)
deriving DecidableEq, Repr

namespace Block

def lines : Block → List DataLine
  | plain l => [l]
  | pair o l => [o, l]

def WellFormed : Block → Prop
  | plain l => l.name.marker = none
  | pair o l => o.Opens ∧ o.Closes l

def record : Block → Record
  | plain l => ⟨l.number, l.range, l.value :: l.values⟩
  | pair o l => ⟨l.number, ⟨o.range.first, l.range.last⟩, l.name.name :: l.values⟩

def entry : Block → Entry
  | plain l => ⟨(plain l).record, none⟩
  | pair o l => ⟨(pair o l).record, some ⟨o.opening, l.range.last⟩⟩

@[simp] theorem record_entry (b : Block) : b.entry.record = b.record := by cases b <;> rfl

end Block

/-- The state that a First line leaves, or no line. -/
def Pairing.ofLine : Option DataLine → Pairing
  | none => idle
  | some o => pending o.opening

theorem Pairing.ofLine_none : ofLine none = idle := rfl

theorem Pairing.ofLine_some (o : DataLine) : ofLine (some o) = pending o.opening := rfl

/-- Any range that is pending may have been opened by a line. -/
theorem Pairing.exists_ofLine (p : Pairing) : ∃ opened, p = .ofLine opened := by
  cases p with
  | idle => exact ⟨none, rfl⟩
  | pending o =>
    let l : DataLine := ⟨o.line, .single o.first, EntryName.write o.name .first, []⟩
    have hn : l.name = ⟨o.name, some .first⟩ := EntryName.parse_write o.name .first
    refine ⟨some l, ?_⟩
    rw [ofLine_some, DataLine.opening, hn]
    rfl

namespace DataFile

/-- Line `k` is taken when `opened` is open before it: it may complete a block, and leaves `opened'`. -/
inductive Accepts (fieldCount k : Nat) (raw : Bytes) :
    Option DataLine → Option Block → Option DataLine → Prop
  | skip {text : Text} {opened : Option DataLine} (hr : raw = Utf8.encode text)
      (hs : significant text.chomp = false) : Accepts fieldCount k raw opened none opened
  | plain {text : Text} {l : DataLine} (hr : raw = Utf8.encode text) (hs : significant text.chomp)
      (hl : l.OnLine fieldCount (text.chomp, k)) (hb : (Block.plain l).WellFormed) :
      Accepts fieldCount k raw none (some (.plain l)) none
  | first {text : Text} {o : DataLine} (hr : raw = Utf8.encode text) (hs : significant text.chomp)
      (hl : o.OnLine fieldCount (text.chomp, k)) (ho : o.Opens) :
      Accepts fieldCount k raw none none (some o)
  | last {text : Text} {o l : DataLine} (hr : raw = Utf8.encode text) (hs : significant text.chomp)
      (hl : l.OnLine fieldCount (text.chomp, k)) (hc : o.Closes l) :
      Accepts fieldCount k raw (some o) (some (.pair o l)) none

/-- Line `k` cannot be taken when `opened` is open before it. Each fault supposes that those before it do
not apply. -/
inductive LineFault (fieldCount k : Nat) (raw : Bytes) : Option DataLine → Fault → Prop
  | notText {opened : Option DataLine} (hr : ∀ text, raw ≠ Utf8.encode text) :
      LineFault fieldCount k raw opened (.io .invalidData)
  | fieldCount {text : Text} {opened : Option DataLine} (hr : raw = Utf8.encode text)
      (hs : significant text.chomp) (hn : (content text.chomp).count ';' + 1 ≠ fieldCount) :
      LineFault fieldCount k raw opened
        (.fieldCount fieldCount ((content text.chomp).count ';' + 1))
  | range {text code : Text} {values : List Text} {opened : Option DataLine} {f : Fault}
      (hr : raw = Utf8.encode text) (hs : significant text.chomp)
      (hf : fields text.chomp = code :: values) (hn : values.length + 1 = fieldCount)
      (hp : CodePointRange.parse code = .error f) : LineFault fieldCount k raw opened f
  | first {text : Text} {l : DataLine} (hr : raw = Utf8.encode text) (hs : significant text.chomp)
      (hl : l.OnLine fieldCount (text.chomp, k)) (hm : l.name.marker = some .first)
      (hn : ¬ l.range.isSingle) : LineFault fieldCount k raw none .invalidFirstLine
  | last {text : Text} {l : DataLine} (hr : raw = Utf8.encode text) (hs : significant text.chomp)
      (hl : l.OnLine fieldCount (text.chomp, k)) (hm : l.name.marker = some .last) :
      LineFault fieldCount k raw none .invalidLastLine
  | unmatched {text : Text} {o l : DataLine} (hr : raw = Utf8.encode text)
      (hs : significant text.chomp) (hl : l.OnLine fieldCount (text.chomp, k)) (hc : ¬ o.Closes l) :
      LineFault fieldCount k raw (some o) .invalidLastLine

section
variable {n k : Nat} {raw : Bytes} {text : Text} {l o : DataLine} {opened opened' : Option DataLine}
  {block : Option Block} {f : Fault} {p : Pairing}

theorem read_encode (n : Nat) (p : Pairing) (k : Nat) (text : Text) :
    (format n).read p k (Utf8.encode text) = readLine n p k text.chomp :=
  (format n).read_encode p k text

theorem readLine_of_not_significant (hs : significant line = false) :
    readLine n p k line = .ok (none, p) := by
  rw [readLine, if_pos (content_eq_nil_iff.2 hs)]

theorem content_ne_nil (hs : significant line) : content line ≠ [] := fun h => by
  rw [content_eq_nil_iff.1 h] at hs
  cases hs

theorem readLine_of_onLine (hs : significant line) (hl : l.OnLine n (line, k)) :
    readLine n p k line =
      match p.feed l.range l.name k with
      | (.error f, _) => .error f
      | (.ok .opened, p) => .ok (none, p)
      | (.ok (.emit range none), p) => .ok (some ⟨⟨k, range, l.value :: l.values⟩, none⟩, p)
      | (.ok (.emit range (some c)), p) =>
        .ok (some ⟨⟨k, range, l.name.name :: l.values⟩, some c⟩, p) := by
  obtain ⟨code, hf, hp⟩ := hl.fields
  rw [readLine, if_neg (content_ne_nil hs), hf]
  dsimp only
  rw [if_pos hl.count, readEntry, hp]
  rfl

theorem Accepts.exists_text (h : Accepts n k raw opened block opened') :
    ∃ text, raw = Utf8.encode text := by
  cases h with
  | skip hr | plain hr | first hr | last hr => exact ⟨_, hr⟩

theorem Accepts.read_eq (h : Accepts n k raw opened block opened') :
    (format n).read (.ofLine opened) k raw = .ok (block.map Block.entry, .ofLine opened') := by
  cases h with
  | skip hr hs => rw [hr, read_encode, readLine_of_not_significant hs]; rfl
  | @plain text l hr hs hl hb =>
    have hk : l.number = k := hl.number
    have hm : l.name.marker = none := hb
    rw [hr, read_encode, readLine_of_onLine hs hl, Pairing.ofLine_none, Pairing.feed, hm, ← hk]
    rfl
  | @first text o hr hs hl ho =>
    have hk : o.number = k := hl.number
    rw [hr, read_encode, readLine_of_onLine hs hl, Pairing.ofLine_none, Pairing.feed, ho.marker]
    dsimp only
    rw [if_pos ho.single, ← hk]
    rfl
  | @last text o l hr hs hl hc =>
    have hk : l.number = k := hl.number
    obtain ⟨code, -, hp⟩ := hl.fields
    rw [hr, read_encode, readLine_of_onLine hs hl, Pairing.ofLine_some,
      Pairing.feed_pending_of_closes (CodePointRange.valid_of_parse hp) (DataLine.closes_iff.2 hc), ← hk]
    rfl

theorem LineFault.read_eq (hn : 2 ≤ n) (h : LineFault n k raw opened f) :
    (format n).read (.ofLine opened) k raw = .error f := by
  cases h with
  | notText hr => exact LineFormat.read_of_not_text hr ..
  | @fieldCount text _ hr hs hc =>
    rw [← length_fields] at hc ⊢
    rw [hr, read_encode, readLine, if_neg (content_ne_nil hs)]
    split
    · rename_i hf
      rw [hf] at hc ⊢
      exact if_neg hc
    · rfl
  | @range text code values _ _ hr hs hf hc hp =>
    cases values with
    | nil => simp at hc; omega
    | cons value values =>
      rw [hr, read_encode, readLine, if_neg (content_ne_nil hs), hf]
      dsimp only
      rw [if_pos (show values.length + 2 = n from hc), readEntry, hp]
      rfl
  | first hr hs hl hm hr' =>
    rw [hr, read_encode, readLine_of_onLine hs hl, Pairing.ofLine_none, Pairing.feed, hm]
    dsimp only
    rw [if_neg hr']
  | last hr hs hl hm =>
    rw [hr, read_encode, readLine_of_onLine hs hl, Pairing.ofLine_none, Pairing.feed, hm]
  | unmatched hr hs hl hc =>
    rw [hr, read_encode, readLine_of_onLine hs hl, Pairing.ofLine_some, Pairing.feed,
      if_neg (mt DataLine.closes_iff.1 hc)]

/-- With the right fields only the place of a line can be wrong. -/
theorem accepts_or_lineFault_of_onLine (hr : raw = Utf8.encode text) (hs : significant text.chomp)
    (hl : l.OnLine n (text.chomp, k)) (opened : Option DataLine) :
    (∃ block opened', Accepts n k raw opened block opened') ∨ ∃ f, LineFault n k raw opened f := by
  rcases opened with _ | o
  · rcases hm : l.name.marker with _ | _ | _
    · exact .inl ⟨_, _, .plain hr hs hl hm⟩
    · by_cases hsingle : l.range.isSingle
      · exact .inl ⟨_, _, .first hr hs hl ⟨hm, hsingle⟩⟩
      · exact .inr ⟨_, .first hr hs hl hm hsingle⟩
    · exact .inr ⟨_, .last hr hs hl hm⟩
  · by_cases hc : o.Closes l
    · exact .inl ⟨_, _, .last hr hs hl hc⟩
    · exact .inr ⟨_, .unmatched hr hs hl hc⟩

/-- Every line is taken or is a fault. -/
theorem accepts_or_lineFault (hn : 2 ≤ n) (k : Nat) (raw : Bytes) (opened : Option DataLine) :
    (∃ block opened', Accepts n k raw opened block opened') ∨ ∃ f, LineFault n k raw opened f := by
  by_cases hr : ∃ text, raw = Utf8.encode text
  · obtain ⟨text, hr⟩ := hr
    by_cases hs : significant text.chomp
    · by_cases hc : (content text.chomp).count ';' + 1 = n
      · have hlen : (fields text.chomp).length = n := (length_fields text.chomp).trans hc
        match hf : fields text.chomp with
        | [] | [_] =>
          rw [hf] at hlen
          simp at hlen
          omega
        | code :: value :: values =>
          rw [hf] at hlen
          rcases hp : CodePointRange.parse code with f | range
          · exact .inr ⟨f, .range hr hs hf hlen hp⟩
          · have hl : DataLine.OnLine n ⟨k, range, value, values⟩ (text.chomp, k) :=
              ⟨rfl, ⟨code, hf, hp⟩, hlen⟩
            exact accepts_or_lineFault_of_onLine hr hs hl opened
      · exact .inr ⟨_, .fieldCount hr hs hc⟩
    · exact .inl ⟨none, opened, .skip hr (by simpa using hs)⟩
  · refine .inr ⟨_, .notText fun text ht => ?_⟩
    exact hr ⟨text, ht⟩

theorem read_eq_ok_iff (hn : 2 ≤ n) {entry : Option Entry} :
    (format n).read (.ofLine opened) k raw = .ok (entry, p) ↔
      ∃ block opened', Accepts n k raw opened block opened' ∧ entry = block.map Block.entry ∧
        p = .ofLine opened' := by
  constructor
  · intro h
    rcases accepts_or_lineFault hn k raw opened with ⟨block, opened', ha⟩ | ⟨f, hf⟩
    · rw [ha.read_eq] at h
      cases h
      exact ⟨block, opened', ha, rfl, rfl⟩
    · rw [hf.read_eq hn] at h
      cases h
  · rintro ⟨block, opened', ha, rfl, rfl⟩
    exact ha.read_eq

theorem read_eq_error_iff (hn : 2 ≤ n) :
    (format n).read (.ofLine opened) k raw = .error f ↔ LineFault n k raw opened f := by
  constructor
  · intro h
    rcases accepts_or_lineFault hn k raw opened with ⟨block, opened', ha⟩ | ⟨f', hf⟩
    · rw [ha.read_eq] at h
      cases h
    · rw [hf.read_eq hn] at h
      cases h
      exact hf
  · exact LineFault.read_eq hn

/-- In whatever state, an entry is that of the block which the line completes. -/
theorem exists_accepts_of_read (hn : 2 ≤ n) {p' : Pairing} {e : Entry}
    (h : (format n).read p k raw = .ok (some e, p')) :
    ∃ opened b opened', Accepts n k raw opened (some b) opened' ∧ e = b.entry := by
  obtain ⟨opened, rfl⟩ := p.exists_ofLine
  obtain ⟨block, opened', ha, he, -⟩ := (read_eq_ok_iff hn).1 h
  obtain ⟨b, rfl, rfl⟩ := Option.map_eq_some_iff.1 he.symm
  exact ⟨opened, b, opened', ha, rfl⟩

/-- In whatever state, a fault is that of the line. -/
theorem exists_lineFault_of_read (hn : 2 ≤ n) (h : (format n).read p k raw = .error f) :
    ∃ opened, LineFault n k raw opened f := by
  obtain ⟨opened, rfl⟩ := p.exists_ofLine
  exact ⟨opened, (read_eq_error_iff hn).1 h⟩

end

end DataFile

end UnicodeTables
