import UnicodeTables.Proofs.Calls
import UnicodeTables.Proofs.DataFile.Records
import UnicodeTables.Proofs.RegexTest.Lines

/-! # Where a fault is

A fault is its root at its places, and each of the places adds its own text and nothing else (`atPlaces`). A
format blames a line for what is in it and the end of the data for a line that was read (`BlamesLines`), so
what a reader returns is at exactly one place, and that line exists (`BlamesLines.locatesOnce`). -/

namespace UnicodeTables

namespace Fault
variable {f : Fault} {ps : List (Text × Nat)}

/-- Nothing is said about where. -/
def Bare : Fault → Prop
  | located _ _ _ => False
  | _ => True

/-- The places of a fault, the outermost first. -/
def places : Fault → List (Text × Nat)
  | located source line f => (source, line) :: f.places
  | _ => []

theorem bare_root (f : Fault) : f.root.Bare := by
  induction f with
  | located _ _ _ ih => exact ih
  | _ => trivial

theorem bare_iff_root : f.Bare ↔ f.root = f := by
  constructor
  · intro h
    cases f with
    | located _ _ _ => exact h.elim
    | _ => rfl
  · intro h
    rw [← h]
    exact bare_root f

theorem places_eq_nil_iff : f.places = [] ↔ f.Bare := by
  cases f <;> simp [places, Bare]

theorem places_locate (ps : List (Text × Nat)) (f : Fault) : (locate ps f).places = ps ++ f.places := by
  induction ps with
  | nil => rfl
  | cons p ps ih =>
    show p :: (locate ps f).places = _
    rw [ih, List.cons_append]

theorem locate_places (f : Fault) : locate f.places f.root = f := by
  induction f with
  | located source line f ih =>
    show located source line (locate f.places f.root) = _
    rw [ih]
  | _ => rfl

theorem line?_eq_head? (f : Fault) : f.line? = f.places.head?.map Prod.snd := by
  cases f <;> rfl

/-- The fault is its root at the places `ps`, and its line and its message tell them. -/
structure AtPlaces (ps : List (Text × Nat)) (f : Fault) : Prop where
  eq : f = locate ps f.root
  bare : f.root.Bare
  root : f.root.root = f.root
  line? : f.line? = ps.head?.map Prod.snd
  line?_eq_none_iff : f.line? = none ↔ ps = []
  message : f.message =
    ps.flatMap (fun p => p.1 ++ ':' :: Numeral.decimal p.2 ++ ": ".toList) ++ f.root.message

theorem atPlaces (f : Fault) : f.AtPlaces f.places := by
  refine ⟨(locate_places f).symm, bare_root f, root_root f, line?_eq_head? f, ?_, ?_⟩
  · rw [line?_eq_head?, Option.map_eq_none_iff, List.head?_eq_none_iff]
  · calc f.message = (locate f.places f.root).message := by rw [locate_places]
      _ = f.places.flatMap (fun p => place p.1 p.2) ++ f.root.message := message_locate f.places f.root
      _ = f.places.flatMap (fun p => p.1 ++ ':' :: Numeral.decimal p.2 ++ ": ".toList) ++
            f.root.message := rfl

/-- There are no other places. -/
theorem atPlaces_iff : f.AtPlaces ps ↔ f.places = ps := by
  constructor
  · intro h
    rw [h.eq, places_locate, places_eq_nil_iff.2 h.bare, List.append_nil]
  · rintro rfl
    exact atPlaces f

theorem atPlaces_located (h : f.Bare) (source : Text) (line : Nat) :
    (located source line f).AtPlaces [(source, line)] := by
  rw [atPlaces_iff, places, places_eq_nil_iff.2 h]

end Fault

namespace LineFormat
variable {σ α : Type} {fmt : LineFormat σ α}

/-- What can be wrong with a line says nothing about where, and neither does what can be wrong at the end of
the data, which is blamed on a line that was read. -/
structure BlamesLines (fmt : LineFormat σ α) : Prop where
  line : ∀ {raws items s n raw f}, Reads fmt 0 fmt.initial raws items s → fmt.read s n raw = .error f → f.Bare
  finish : ∀ {raws items s f n}, Reads fmt 0 fmt.initial raws items s → fmt.finish s = some (f, n) →
    f.Bare ∧ 1 ≤ n ∧ n ≤ raws.length

/-- A fault that a call gives is at one place, which is a line of the data that are read. -/
def LocatesOnce (fmt : LineFormat σ α) : Prop :=
  ∀ source data k f, fmt.call k (fmt.start source data) = some (.error f) →
    ∃ line, 1 ≤ line ∧ line ≤ data.lines.length ∧ f.AtPlaces [(source, line)] ∧
      f.message = source ++ ':' :: Numeral.decimal line ++ ": ".toList ++ f.root.message

/-- The fault of a run was made at the line that could not be read, or at the end for a line before it. -/
theorem BlamesLines.exists_located (hf : BlamesLines fmt) {source : Text} {data : Bytes} {f : Fault}
    (h : (fmt.run source data).fault = some f) :
    ∃ line root, f = .located source line root ∧ root.Bare ∧ 1 ≤ line ∧ line ≤ data.lines.length := by
  have hrun : fmt.runFrom source 0 fmt.initial data.lines = fmt.run source data := rfl
  rcases runFrom_eq_iff.1 hrun with ⟨s, hs, hr⟩ | ⟨read, raw, left, s, g, hd, hs, hg, hr⟩
  · obtain ⟨⟨g, n⟩, hg, rfl⟩ := Option.map_eq_some_iff.1 (hr.symm.trans h)
    obtain ⟨hb, h₁, hn⟩ := hf.finish hs hg
    exact ⟨n, g, rfl, hb, h₁, hn⟩
  · cases hr.symm.trans h
    refine ⟨_, g, rfl, hf.line hs hg, by omega, ?_⟩
    rw [hd, List.length_append, List.length_cons]
    omega

theorem BlamesLines.locatesOnce (hf : BlamesLines fmt) : fmt.LocatesOnce := by
  intro source data k f h
  obtain ⟨line, root, rfl, hb, h₁, hn⟩ := hf.exists_located (fault_of_call h)
  have hat := Fault.atPlaces_located hb source line
  refine ⟨line, h₁, hn, hat, ?_⟩
  rw [hat.message, List.flatMap_singleton]

end LineFormat

theorem DataFile.blamesLines {n : Nat} (hn : 2 ≤ n) : (format n).BlamesLines := by
  constructor
  · intro raws items s k raw f h hr
    obtain ⟨texts, blocks, opened, -, -, -, rfl⟩ := (reads_iff hn).1 h
    exact Fault.bare_iff_root.2 (root_of_lineFault ((read_eq_error_iff hn).1 hr))
  · intro raws items s f k h hf
    obtain ⟨texts, blocks, opened, rfl, hc, -, rfl⟩ := (reads_iff hn).1 h
    cases opened with
    | none => cases hf
    | some o =>
      cases hf
      have ho : o ∈ blocks.flatMap Block.lines ++ [o] := by simp
      rw [List.length_map]
      exact ⟨trivial, hc.number_pos ho, hc.number_le ho⟩

theorem RegexTest.blamesLines : format.BlamesLines := by
  constructor
  · intro raws items s n raw f _ hr
    rcases (read_eq_error_iff.1 hr).cases_fault with rfl | ⟨what, rfl⟩ <;> trivial
  · intro raws items s f n _ hf
    cases hf

/-- However often a fault is located, its root stays the same, its line is the outermost one, and its message
is `source:line: ` for each place, the outermost first, and then the message of its root. What a reader of
either format returns is at one place, a line of its data. -/
theorem located_faults :
    (∀ f ps, (Fault.locate ps f).root = f.root ∧ (Fault.locate ps f).AtPlaces (ps ++ f.places)) ∧
    (∀ f ps, Fault.AtPlaces ps f ↔ f.places = ps) ∧
    (∀ f : Fault, f.places = [] ↔ f.Bare) ∧
    (∀ n fmt, DataFile.format? n = .ok fmt → fmt.LocatesOnce) ∧
    RegexTest.format.LocatesOnce := by
  refine ⟨fun f ps => ⟨Fault.root_locate ps f, ?_⟩, fun f ps => Fault.atPlaces_iff,
    fun f => Fault.places_eq_nil_iff, fun n fmt h => ?_, RegexTest.blamesLines.locatesOnce⟩
  · exact Fault.atPlaces_iff.2 (Fault.places_locate ps f)
  · rcases Nat.lt_or_ge n 2 with hn | hn
    · cases (DataFile.format?_of_lt hn).symm.trans h
    · cases (DataFile.format?_of_le hn).symm.trans h
      exact (DataFile.blamesLines hn).locatesOnce

/-- The First line is located by the reader, and by two callers of it. -/
theorem located_unclosed_first :
    let root : Fault := .unclosedFirst "X".toList
    let f : Fault := .located "t".toList 2 root
    let data := Utf8.encode "# c\n3400;<X, First>\n\n".toList
    DataFile.format? 2 = .ok (DataFile.format 2) ∧
      (DataFile.format 2).call 0 ((DataFile.format 2).start "t".toList data) = some (.error f) ∧
      (∃ line, 1 ≤ line ∧ line ≤ 3 ∧ f.AtPlaces [("t".toList, line)]) ∧
      (Fault.locate [("a".toList, 7), ("b".toList, 8)] f).AtPlaces
        [("a".toList, 7), ("b".toList, 8), ("t".toList, 2)] ∧
      f.message = "t:2: <X, First> is not closed by a matching Last line".toList ∧
      (Fault.locate [("a".toList, 7), ("b".toList, 8)] f).message =
        "a:7: b:8: t:2: <X, First> is not closed by a matching Last line".toList := by
  intro root f data
  have hfmt : DataFile.format? 2 = .ok (DataFile.format 2) := rfl
  have hcall : (DataFile.format 2).call 0 ((DataFile.format 2).start "t".toList data) = some (.error f) := by
    decide +kernel
  obtain ⟨hlocate, -, -, hdata, -⟩ := located_faults
  obtain ⟨line, h₁, hn, hat, hm⟩ := hdata 2 _ hfmt _ _ _ _ hcall
  have hline : line = 2 := (Option.some.inj hat.line?).symm
  have hlines : data.lines.length = 3 := by decide +kernel
  have houter := (hlocate f [("a".toList, 7), ("b".toList, 8)]).2
  refine ⟨hfmt, hcall, ⟨line, h₁, hlines ▸ hn, hat⟩, houter, ?_, houter.message.trans (by decide +kernel)⟩
  rw [hm, hline]
  decide +kernel

end UnicodeTables
