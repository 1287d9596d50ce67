import UnicodeTables.Proofs.Builders
import UnicodeTables.RegexTest.File

/-! # What the log tells

Reading a data file logs one message for each pair among the blocks that are read, whatever comes after them
(`told_events`). A call that goes through the whole file logs these, and at the end whether it succeeded
(`log_tells`). -/

namespace UnicodeTables

/-- What there is to read of an event. -/
def LogEvent.told (e : LogEvent) : LogLevel × Text := (e.level, e.message)

/-- What is told on the way to the answer. -/
def Logged.told {α : Type} (l : Logged α) : List (LogLevel × Text) := l.log.map LogEvent.told

namespace Block

/-- What there is to tell of a block: that a First line is closed. -/
def message? : Block → Option Text
  | plain _ => none
  | pair o l =>
    some ('<' :: o.name.name ++ ", First> on line ".toList ++ Numeral.decimal o.number ++
      " closed at ".toList ++ Numeral.hex l.range.first)

def traces (blocks : List Block) : List (LogLevel × Text) :=
  (blocks.filterMap message?).map fun message => (.trace, message)

variable {b : Block} {blocks : List Block}

theorem told_events_entry (h : b.WellFormed) :
    b.entry.events.map LogEvent.told = traces [b] := by
  cases b with
  | plain l => rfl
  | pair o l =>
    obtain ⟨-, hc⟩ := h
    have hs : l.range.first = l.range.last := by simpa [CodePointRange.isSingle] using hc.single
    have hm : (pair o l).message? = some (LogEvent.closed ⟨o.opening, l.range.last⟩).message := by
      rw [message?, hs]
      rfl
    rw [traces, List.filterMap_cons, hm]
    rfl

theorem told_events (h : ∀ b ∈ blocks, b.WellFormed) :
    ((blocks.map entry).flatMap Entry.events).map LogEvent.told = traces blocks := by
  induction blocks with
  | nil => rfl
  | cons b blocks ih =>
    rw [List.map_cons, List.flatMap_cons, List.map_append, told_events_entry (h b List.mem_cons_self),
      ih fun b' hb' => h b' (List.mem_cons_of_mem b hb')]
    unfold traces
    rw [← List.map_append, ← List.filterMap_append, List.singleton_append]

end Block

/-- The call tells of the blocks and then of success, or of nothing else if it fails. -/
structure Tells {ε α : Type} (blocks : List Block) (call : Logged (Except ε α)) (success : α → Text) :
    Prop where
  ok : ∀ a, call.answer = .ok a → call.told = Block.traces blocks ++ [(.debug, success a)]
  error : ∀ e, call.answer = .error e → call.told = Block.traces blocks

theorem tells_conclude {ε α : Type} {log : List LogEvent} {answer : Except ε α} {event : α → LogEvent}
    {blocks : List Block} {success : α → Text}
    (hl : log.map LogEvent.told = Block.traces blocks)
    (hs : ∀ a, answer = .ok a → (event a).told = (.debug, success a)) :
    Tells blocks (Logged.conclude log answer event) success := by
  cases answer with
  | error e =>
    refine ⟨?_, ?_⟩
    · rintro a ⟨⟩
    · rintro _ ⟨⟩
      exact hl
  | ok a =>
    refine ⟨?_, ?_⟩
    · rintro _ ⟨⟩
      rw [Logged.told, Logged.conclude, List.map_append, hl, List.map_singleton, hs a rfl]
    · rintro e ⟨⟩

namespace DataFile
variable {n : Nat} {data : Bytes} {tree : FileTree} {path : Text} {blocks : List Block}

/-- The blocks of the lines before the first one that cannot be taken, or of all lines if there is none. -/
inductive BlocksRead (n : Nat) (data : Bytes) (blocks : List Block) : Prop
  | all {texts : List Text} {opened : Option DataLine} (hd : data.lines = texts.map Utf8.encode)
      (hc : Cut n texts blocks opened)
  | before {texts : List Text} {raw : Bytes} {after : List Bytes} {opened : Option DataLine} {f : Fault}
      (hd : data.lines = texts.map Utf8.encode ++ raw :: after) (hc : Cut n texts blocks opened)
      (hf : LineFault n (texts.length + 1) raw opened f)

theorem exists_blocksRead (hn : 2 ≤ n) (data : Bytes) : ∃ blocks, BlocksRead n data blocks := by
  have hr : (format n).run [] data = (format n).run [] data := rfl
  rcases (run_eq_iff hn).1 hr with
    ⟨texts, blocks, opened, hd, hc, -⟩ | ⟨texts, raw, after, blocks, opened, f, hd, hc, hf, -⟩
  · exact ⟨blocks, .all hd hc⟩
  · exact ⟨blocks, .before hd hc hf⟩

theorem BlocksRead.wellFormed (h : BlocksRead n data blocks) : ∀ b ∈ blocks, b.WellFormed := by
  rcases h with ⟨-, hc⟩ | ⟨-, hc, -⟩
  · exact hc.wellFormed
  · exact hc.wellFormed

theorem BlocksRead.items_run (h : BlocksRead n data blocks) (hn : 2 ≤ n) (source : Text) :
    ((format n).run source data).items = blocks.map Block.entry := by
  rcases h with @⟨texts, opened, hd, hc⟩ | @⟨texts, raw, after, opened, f, hd, hc, hf⟩
  · let r : Run Entry :=
      ⟨blocks.map Block.entry, opened.map fun o => .located source o.number (.unclosedFirst o.name.name)⟩
    have hr : (format n).run source data = r :=
      (run_eq_iff hn).2 (.inl ⟨texts, blocks, opened, hd, hc, rfl, rfl⟩)
    rw [hr]
  · let r : Run Entry := ⟨blocks.map Block.entry, some (.located source (texts.length + 1) f)⟩
    have hr : (format n).run source data = r :=
      (run_eq_iff hn).2 (.inr ⟨texts, raw, after, blocks, opened, f, hd, hc, hf, rfl, rfl⟩)
    rw [hr]

theorem BlocksRead.told_run (h : BlocksRead n data blocks) (hn : 2 ≤ n) (source : Text) :
    ((format n).run source data).events.map LogEvent.told = Block.traces blocks := by
  rw [Run.events, h.items_run hn]
  exact Block.told_events h.wellFormed

theorem BlocksRead.told_records (h : BlocksRead n data blocks) (hn : 2 ≤ n) (source : Text) :
    (records n source data).told = Block.traces blocks := by
  rw [Logged.told, records_of_le hn]
  exact h.told_run hn source

/-- The blocks that are read from what is at the path. Nothing is read from a directory. -/
inductive BlocksAt (n : Nat) (tree : FileTree) (path : Text) : List Block → Prop
  | file {data : Bytes} {blocks : List Block} (h : tree.find path = .ok (.file data))
      (hb : BlocksRead n data blocks) : BlocksAt n tree path blocks
  | directory (h : tree.find path = .ok .directory) : BlocksAt n tree path []
  | missing {f : IoFault} (h : tree.find path = .error f) : BlocksAt n tree path []

theorem exists_blocksAt (hn : 2 ≤ n) (tree : FileTree) (path : Text) :
    ∃ blocks, BlocksAt n tree path blocks := by
  rcases h : tree.find path with f | data | _
  · exact ⟨[], .missing h⟩
  · obtain ⟨blocks, hb⟩ := exists_blocksRead hn data
    exact ⟨blocks, .file h hb⟩
  · exact ⟨[], .directory h⟩

theorem BlocksAt.told_runOpened (h : BlocksAt n tree path blocks) (hn : 2 ≤ n) :
    (OpenFile.runOpened (openFile tree path n)).events.map LogEvent.told = Block.traces blocks := by
  rw [openFile, FileTree.openNode, format?_of_le hn]
  cases h with
  | file h hb =>
    rw [h]
    exact hb.told_run hn path
  | directory h =>
    rw [h]
    rfl
  | missing h =>
    rw [h]
    rfl

theorem events_runOpened_of_lt (hn : n < 2) (tree : FileTree) (path : Text) :
    (OpenFile.runOpened (openFile tree path n)).events = [] := by
  rw [openFile, format?_of_lt hn]
  cases tree.openNode path <;> rfl

end DataFile

namespace Database
variable {tree : FileTree} {path : Text} {blocks : List Block}

def collectedRanges (value path : Text) (ranges : List CodePointRange) : Text :=
  "collected ".toList ++ Numeral.decimal ranges.length ++ ' ' :: value ++ " ranges from ".toList ++ path

/-- The values are counted, each once. -/
def collectedValues (path : Text) (table : PropertyTable) : Text :=
  "collected ".toList ++ Numeral.decimal table.keys.dedup.length ++ " property values from ".toList ++ path

theorem tells_collectProperty (h : DataFile.BlocksAt 2 tree path blocks) (value : Text) :
    Tells blocks (collectProperty tree path value) (collectedRanges value path) :=
  tells_conclude (h.told_runOpened (Nat.le_refl 2)) fun _ _ => rfl

theorem tells_propertyTable (h : DataFile.BlocksAt 2 tree path blocks) :
    Tells blocks (propertyTable tree path) (collectedValues path) := by
  refine tells_conclude (h.told_runOpened (Nat.le_refl 2)) fun t ht => ?_
  have hw : t.WellFormed := PropertyTable.WellFormed.empty.pushAll ht
  have hn : t.keys.Nodup := hw.sorted.imp ne_of_lt
  have hs : t.size = t.keys.dedup.length := by
    rw [hn.dedup, PropertyTable.keys, List.length_map, PropertyTable.size]
  rw [hs]
  rfl

end Database

namespace RegexTest

def readCount (path : Text) (tests : List RegexTest) : Text :=
  "read ".toList ++ Numeral.decimal tests.length ++ " tests from ".toList ++ path

theorem tells_readTests (tree : FileTree) (path : Text) :
    Tells [] (readTests tree path) (readCount path) :=
  tells_conclude rfl fun _ _ => rfl

end RegexTest

section
open DataFile Database

/-- What is logged on the way is one message for each pair that was closed, in the order of the file. It is the
same whether records are read, a table is made or the ranges of some value are collected, and whether or not
this succeeds. Only success is told after it, once. Reading tests has nothing to tell before that. -/
theorem log_tells :
    (∀ n source data, 2 ≤ n → (∃ blocks, BlocksRead n data blocks) ∧
      ∀ blocks, BlocksRead n data blocks → (records n source data).told = Block.traces blocks) ∧
    (∀ n tree path, 2 ≤ n → (∃ blocks, BlocksAt n tree path blocks) ∧ ∀ blocks, BlocksAt n tree path blocks →
      (OpenFile.runOpened (openFile tree path n)).events.map LogEvent.told = Block.traces blocks) ∧
    (∀ n, n < 2 → (∀ source data, (records n source data).told = []) ∧
      ∀ tree path, (OpenFile.runOpened (openFile tree path n)).events = []) ∧
    (∀ tree path blocks, BlocksAt 2 tree path blocks →
      (∀ value, Tells blocks (collectProperty tree path value) (collectedRanges value path)) ∧
        Tells blocks (propertyTable tree path) (collectedValues path)) ∧
    (∀ tree directory blocks,
      (BlocksAt 2 tree (FileTree.join directory "emoji/emoji-data.txt".toList) blocks →
        Tells blocks (extendedPictographic tree directory)
          (collectedRanges "Extended_Pictographic".toList
            (FileTree.join directory "emoji/emoji-data.txt".toList))) ∧
      (BlocksAt 2 tree (FileTree.join directory "auxiliary/GraphemeBreakProperty.txt".toList) blocks →
        Tells blocks (graphemeClusterBreak tree directory)
          (collectedValues (FileTree.join directory "auxiliary/GraphemeBreakProperty.txt".toList))) ∧
      (BlocksAt 2 tree (FileTree.join directory "auxiliary/WordBreakProperty.txt".toList) blocks →
        Tells blocks (wordBreak tree directory)
          (collectedValues (FileTree.join directory "auxiliary/WordBreakProperty.txt".toList)))) ∧
    ∀ tree path, Tells [] (RegexTest.readTests tree path) (RegexTest.readCount path) := by
  refine ⟨fun n source data hn => ⟨exists_blocksRead hn data, fun blocks h => h.told_records hn source⟩,
    fun n tree path hn => ⟨exists_blocksAt hn tree path, fun blocks h => h.told_runOpened hn⟩,
    fun n hn => ⟨fun source data => ?_, events_runOpened_of_lt hn⟩,
    fun tree path blocks h => ⟨tells_collectProperty h, tells_propertyTable h⟩,
    fun tree directory blocks => ⟨fun h => ?_, fun h => ?_, fun h => ?_⟩, RegexTest.tells_readTests⟩
  · rw [records_of_lt hn]
    rfl
  · exact tells_collectProperty h _
  · exact tells_propertyTable h
  · exact tells_propertyTable h

/-- A pair is closed before a line that is no record, so it is told of and success is not. -/
theorem log_tells_before_fault :
    let tree := FileTree.add ⟨[]⟩ "f".toList
      (.file (Utf8.encode "3400;<X, First>\n# c\n4DBF;<X, Last>\nG;A\n".toList))
    let o : DataLine := ⟨1, .single 0x3400, "<X, First>".toList, []⟩
    let l : DataLine := ⟨3, .single 0x4DBF, "<X, Last>".toList, []⟩
    BlocksAt 2 tree "f".toList [.pair o l] ∧
      (collectProperty tree "f".toList "A".toList).answer =
        .error (.fault (.located "f".toList 4 (.invalidCodePoint ['G']))) ∧
      (collectProperty tree "f".toList "A".toList).told =
        [(.trace, "<X, First> on line 1 closed at 4DBF".toList)] := by
  intro tree o l
  have ho : o.Opens := ⟨rfl, rfl⟩
  have hl : o.Closes l := ⟨rfl, rfl, rfl, by decide⟩
  have hc : Cut 2 ["3400;<X, First>\n".toList, "# c\n".toList, "4DBF;<X, Last>\n".toList]
      [.pair o l] none := by
    refine ⟨.cons ⟨rfl, ⟨_, rfl, rfl⟩, rfl⟩ (.cons ⟨rfl, ⟨_, rfl, rfl⟩, rfl⟩ .nil), fun b hb => ?_, ?_⟩
    · obtain rfl := List.mem_singleton.1 hb
      exact ⟨ho, hl⟩
    · rintro _ ⟨⟩
  have hg : fields (Text.chomp "G;A\n".toList) = ['G'] :: [['A']] := by decide
  have hf : DataFile.LineFault 2 4 (Utf8.encode "G;A\n".toList) none (.invalidCodePoint ['G']) :=
    .range rfl (by decide) hg rfl rfl
  have hd : (Utf8.encode "3400;<X, First>\n# c\n4DBF;<X, Last>\nG;A\n".toList).lines =
      ["3400;<X, First>\n".toList, "# c\n".toList, "4DBF;<X, Last>\n".toList].map Utf8.encode ++
        [Utf8.encode "G;A\n".toList] := by decide +kernel
  have hb : BlocksAt 2 tree "f".toList [.pair o l] := .file rfl (.before hd hc hf)
  have ha : (collectProperty tree "f".toList "A".toList).answer =
      .error (.fault (.located "f".toList 4 (.invalidCodePoint ['G']))) := by decide +kernel
  obtain ⟨-, -, -, hr, -⟩ := log_tells
  obtain ⟨hv, -⟩ := hr tree "f".toList _ hb
  exact ⟨hb, ha, ((hv "A".toList).error _ ha).trans (by decide +kernel)⟩

end

end UnicodeTables
