import UnicodeTables.LineReader

/-! # Runs of a reader

`Reads fmt n s raws items s'`: after `n` lines, in state `s`, the lines `raws` are read without a fault,
give `items` and leave state `s'`. A run reads lines in this way until a fault or the end
(`runFrom_eq_iff`), so what lines have left is all that the lines after them can see
(`Reads.runFrom_append`). Numbering the lines in another way numbers items and faults in that way and
changes nothing else (`runFrom_renumber`). -/

namespace UnicodeTables

/-- The same run after other items. -/
def Run.prepend {α : Type} (items : List α) (r : Run α) : Run α := ⟨items ++ r.items, r.fault⟩

/-- The same fault with the line of its outermost place numbered by `g`. -/
def Fault.renumber (g : Nat → Nat) : Fault → Fault
  | located source line f => located source (g line) f
  | f => f

namespace Run
variable {α : Type}

@[simp] theorem prepend_nil (r : Run α) : r.prepend [] = r := rfl

theorem prepend_prepend (a b : List α) (r : Run α) : (r.prepend b).prepend a = r.prepend (a ++ b) := by
  simp [prepend]

theorem toExcept_eq_ok_iff {r : Run α} {items : List α} :
    r.toExcept = .ok items ↔ r.items = items ∧ r.fault = none := by
  unfold toExcept
  cases r.fault <;> simp

theorem toExcept_eq_error_iff {r : Run α} {f : Fault} : r.toExcept = .error f ↔ r.fault = some f := by
  unfold toExcept
  cases r.fault <;> simp

@[simp] theorem map_id (r : Run α) : r.map id = r := by
  rw [map, List.map_id]

theorem ok_mem_results_iff {r : Run α} {a : α} : .ok a ∈ r.results ↔ a ∈ r.items := by
  simp [results]

theorem error_mem_results_iff {r : Run α} {f : Fault} : .error f ∈ r.results ↔ r.fault = some f := by
  simp [results]

end Run

namespace LineFormat
variable {σ α : Type} {fmt : LineFormat σ α} {source : Text} {n : Nat} {s s' s'' : σ}

/-- Reading lines without a fault. -/
inductive Reads (fmt : LineFormat σ α) : Nat → σ → List Bytes → List α → σ → Prop
  | nil (n : Nat) (s : σ) : Reads fmt n s [] [] s
  | cons {n : Nat} {s s' s'' : σ} {raw : Bytes} {raws : List Bytes} {item : Option α} {items : List α}
      (h : fmt.read s (n + 1) raw = .ok (item, s')) (t : Reads fmt (n + 1) s' raws items s'') :
      Reads fmt n s (raw :: raws) (item.toList ++ items) s''

namespace Reads
variable {xs ys : List Bytes} {as bs : List α}

theorem append (h : Reads fmt n s xs as s') (h' : Reads fmt (n + xs.length) s' ys bs s'') :
    Reads fmt n s (xs ++ ys) (as ++ bs) s'' := by
  induction h with
  | nil n s => exact h'
  | cons h t ih =>
    rw [List.length_cons, Nat.add_comm _ 1, ← Nat.add_assoc] at h'
    rw [List.cons_append, List.append_assoc]
    exact .cons h (ih h')

theorem runFrom_append (h : Reads fmt n s xs as s') (ys : List Bytes) :
    fmt.runFrom source n s (xs ++ ys) = (fmt.runFrom source (n + xs.length) s' ys).prepend as := by
  induction h with
  | nil n s => rfl
  | @cons n s s' s'' raw raws item items h t ih =>
    rw [List.length_cons, Nat.add_comm raws.length, ← Nat.add_assoc, ← Run.prepend_prepend, ← ih,
      List.cons_append, runFrom, h]
    cases item <;> rfl

/-- The last of the lines is read in the state that those before it leave. -/
theorem concat_iff {raw : Bytes} :
    Reads fmt n s (xs ++ [raw]) as s'' ↔
      ∃ items item s', Reads fmt n s xs items s' ∧
        fmt.read s' (n + xs.length + 1) raw = .ok (item, s'') ∧ as = items ++ item.toList := by
  constructor
  · intro h
    induction xs generalizing n s as with
    | nil =>
      rcases h with _ | ⟨h, _ | _⟩
      exact ⟨[], _, s, .nil n s, h, by simp⟩
    | cons x xs ih =>
      rcases h with _ | ⟨h, t⟩
      obtain ⟨items, item, s', ht, hr, rfl⟩ := ih t
      refine ⟨_, item, s', .cons h ht, ?_, by simp⟩
      rwa [List.length_cons, Nat.add_comm xs.length, ← Nat.add_assoc]
  · rintro ⟨items, item, s', h, hr, rfl⟩
    have hl : Reads fmt (n + xs.length) s' [raw] (item.toList ++ []) s'' := .cons hr (.nil ..)
    rw [List.append_nil] at hl
    exact h.append hl

end Reads

theorem Reads.exists_read {raws : List Bytes} {items : List α} {a : α} (h : Reads fmt n s raws items s')
    (ha : a ∈ items) :
    ∃ s₁ i raw s₂, raws[i]? = some raw ∧ fmt.read s₁ (n + i + 1) raw = .ok (some a, s₂) := by
  induction h with
  | nil => cases ha
  | @cons n s s₁ s' raw raws item items h t ih =>
    rcases List.mem_append.1 ha with ha | ha
    · obtain rfl := Option.mem_toList.1 ha
      exact ⟨s, 0, raw, s₁, rfl, h⟩
    · obtain ⟨s₂, i, raw', s₃, hi, hr⟩ := ih ha
      rw [Nat.add_right_comm n 1 i] at hr
      exact ⟨s₂, i + 1, raw', s₃, hi, hr⟩

/-- The lines are read one after another, up to a line that is a fault if there is one. -/
theorem exists_reads (fmt : LineFormat σ α) (n : Nat) (s : σ) (raws : List Bytes) :
    (∃ items s', Reads fmt n s raws items s') ∨
      ∃ read raw left items s' f, raws = read ++ raw :: left ∧ Reads fmt n s read items s' ∧
        fmt.read s' (n + read.length + 1) raw = .error f := by
  induction raws generalizing n s with
  | nil => exact .inl ⟨[], s, .nil n s⟩
  | cons raw raws ih =>
    cases h : fmt.read s (n + 1) raw with
    | error f => exact .inr ⟨[], raw, raws, [], s, f, rfl, .nil n s, h⟩
    | ok out =>
      obtain ⟨item, s₁⟩ := out
      rcases ih (n + 1) s₁ with ⟨items, s', t⟩ | ⟨read, raw', left, items, s', f, rfl, t, hf⟩
      · exact .inl ⟨_, s', .cons h t⟩
      · refine .inr ⟨raw :: read, raw', left, _, s', f, rfl, .cons h t, ?_⟩
        rwa [List.length_cons, Nat.add_comm read.length, ← Nat.add_assoc]

theorem Reads.runFrom_eq {raws : List Bytes} {items : List α} (h : Reads fmt n s raws items s') :
    fmt.runFrom source n s raws = ⟨items, (fmt.finish s').map fun (f, k) => .located source k f⟩ := by
  have hr : fmt.runFrom source n s (raws ++ []) = _ := h.runFrom_append []
  rw [List.append_nil] at hr
  rw [hr, runFrom, Run.prepend, List.append_nil]

theorem Reads.runFrom_eq_of_fault {read left : List Bytes} {raw : Bytes} {items : List α} {f : Fault}
    (h : Reads fmt n s read items s') (hf : fmt.read s' (n + read.length + 1) raw = .error f) :
    fmt.runFrom source n s (read ++ raw :: left) =
      ⟨items, some (.located source (n + read.length + 1) f)⟩ := by
  rw [h.runFrom_append, runFrom, hf, Run.prepend, List.append_nil]

/-- A run ends with the data or at the first line that is a fault. -/
theorem runFrom_eq_iff {raws : List Bytes} {r : Run α} :
    fmt.runFrom source n s raws = r ↔
      (∃ s', Reads fmt n s raws r.items s' ∧
        r.fault = (fmt.finish s').map fun (f, k) => .located source k f) ∨
      ∃ read raw left s' f, raws = read ++ raw :: left ∧ Reads fmt n s read r.items s' ∧
        fmt.read s' (n + read.length + 1) raw = .error f ∧
        r.fault = some (.located source (n + read.length + 1) f) := by
  constructor
  · rintro rfl
    rcases fmt.exists_reads n s raws with ⟨items, s', h⟩ | ⟨read, raw, left, items, s', f, rfl, h, hf⟩
    · rw [h.runFrom_eq]
      exact .inl ⟨s', h, rfl⟩
    · rw [h.runFrom_eq_of_fault hf]
      exact .inr ⟨read, raw, left, s', f, rfl, h, hf, rfl⟩
  · obtain ⟨items, fault⟩ := r
    rintro (⟨s', h, hr⟩ | ⟨read, raw, left, s', f, rfl, h, hf, hr⟩)
    · rw [h.runFrom_eq]
      exact congrArg (Run.mk items) hr.symm
    · rw [h.runFrom_eq_of_fault hf]
      exact congrArg (Run.mk items) hr.symm

theorem exists_read_of_mem_run {data : Bytes} {a : α} (h : a ∈ (fmt.run source data).items) :
    ∃ s i raw s', data.lines[i]? = some raw ∧ fmt.read s (i + 1) raw = .ok (some a, s') := by
  have hrun : fmt.runFrom source 0 fmt.initial data.lines = fmt.run source data := rfl
  rcases runFrom_eq_iff.1 hrun with ⟨_, hr, -⟩ | ⟨read, raw, left, _, _, hd, hr, -, -⟩
  · obtain ⟨s, i, raw', s', hi, hr'⟩ := hr.exists_read h
    rw [Nat.zero_add] at hr'
    exact ⟨s, i, raw', s', hi, hr'⟩
  · obtain ⟨s, i, raw', s', hi, hr'⟩ := hr.exists_read h
    rw [Nat.zero_add] at hr'
    have hlt := (List.getElem?_eq_some_iff.1 hi).1
    exact ⟨s, i, raw', s', by rw [hd, List.getElem?_append_left hlt, hi], hr'⟩

/-- All items are had if every line is read and nothing is wrong at the end. -/
theorem toExcept_run_eq_ok_iff {data : Bytes} {items : List α} :
    (fmt.run source data).toExcept = .ok items ↔
      ∃ s', Reads fmt 0 fmt.initial data.lines items s' ∧ fmt.finish s' = none := by
  rw [Run.toExcept_eq_ok_iff]
  constructor
  · rintro ⟨rfl, hf⟩
    rcases runFrom_eq_iff.1 (Eq.refl (fmt.run source data)) with
      ⟨s', h, hr⟩ | ⟨_, _, _, _, _, _, _, _, hr⟩
    · rw [hf] at hr
      exact ⟨s', h, Option.map_eq_none_iff.1 hr.symm⟩
    · rw [hf] at hr
      cases hr
  · rintro ⟨s', h, hs⟩
    have hr : fmt.run source data = _ := h.runFrom_eq
    rw [hr, hs]
    exact ⟨rfl, rfl⟩

/-- Two runs are the same if their first lines are read alike and they go on alike after these. -/
theorem runFrom_cons_eq {raw raw' : Bytes} {raws raws' : List Bytes}
    (hr : fmt.read s (n + 1) raw = fmt.read s (n + 1) raw')
    (h : ∀ item s', fmt.read s (n + 1) raw = .ok (item, s') →
      fmt.runFrom source (n + 1) s' raws = fmt.runFrom source (n + 1) s' raws') :
    fmt.runFrom source n s (raw :: raws) = fmt.runFrom source n s (raw' :: raws') := by
  rw [runFrom, runFrom, ← hr]
  rcases hx : fmt.read s (n + 1) raw with f | ⟨_ | a, s'⟩
  · rfl
  · exact h _ _ hx
  · exact congrArg (Run.cons a) (h _ _ hx)

theorem runFrom_cons_congr {raw raw' : Bytes} {raws raws' : List Bytes}
    (hr : ∀ s k, fmt.read s k raw = fmt.read s k raw')
    (h : ∀ n s, fmt.runFrom source n s raws = fmt.runFrom source n s raws') (n : Nat) (s : σ) :
    fmt.runFrom source n s (raw :: raws) = fmt.runFrom source n s (raw' :: raws') :=
  runFrom_cons_eq (hr s (n + 1)) fun _ s' _ => h (n + 1) s'

/-- Lines that are read alike one by one are read alike. -/
theorem runFrom_map_congr {β : Type} {f g : β → Bytes} {xs : List β}
    (h : ∀ x ∈ xs, ∀ s k, fmt.read s k (f x) = fmt.read s k (g x)) (n : Nat) (s : σ) :
    fmt.runFrom source n s (xs.map f) = fmt.runFrom source n s (xs.map g) := by
  induction xs generalizing n s with
  | nil => rfl
  | cons x xs ih =>
    have ht := ih fun y hy => h y (List.mem_cons_of_mem x hy)
    exact runFrom_cons_congr (h x List.mem_cons_self) ht n s

section
variable {φ : σ → σ} {ψ : α → α} {g : Nat → Nat}

/-- A format in which line numbers are only passed on: `φ` and `ψ` number states and items by `g`. -/
structure Renumbers (fmt : LineFormat σ α) (g : Nat → Nat) (φ : σ → σ) (ψ : α → α) : Prop where
  line : ∀ s k text, fmt.line (φ s) (g k) text = (fmt.line s k text).map (Prod.map (Option.map ψ) φ)
  finish : ∀ s, fmt.finish (φ s) = (fmt.finish s).map (Prod.map id g)

theorem Renumbers.read (h : fmt.Renumbers g φ ψ) (s : σ) (k : Nat) (raw : Bytes) :
    fmt.read (φ s) (g k) raw = (fmt.read s k raw).map (Prod.map (Option.map ψ) φ) := by
  unfold LineFormat.read
  cases Utf8.decode? raw with
  | none => rfl
  | some text => exact h.line s k text.chomp

theorem runFrom_renumber (h : fmt.Renumbers g φ ψ) {n n' : Nat} (hg : ∀ j, g (n + 1 + j) = n' + 1 + j)
    (s : σ) (raws : List Bytes) :
    fmt.runFrom source n' (φ s) raws =
      ⟨(fmt.runFrom source n s raws).items.map ψ,
        (fmt.runFrom source n s raws).fault.map (Fault.renumber g)⟩ := by
  induction raws generalizing n n' s with
  | nil =>
    rw [runFrom, runFrom, h.finish]
    cases fmt.finish s <;> rfl
  | cons raw raws ih =>
    have hn : n' + 1 = g (n + 1) := (hg 0).symm
    have hg' : ∀ j, g (n + 1 + 1 + j) = n' + 1 + 1 + j := fun j => by
      have := hg (1 + j)
      rwa [← Nat.add_assoc, ← Nat.add_assoc] at this
    rw [runFrom, runFrom, hn, h.read]
    rcases fmt.read s (n + 1) raw with f | ⟨_ | a, s'⟩
    · rfl
    · rw [← hn]
      exact ih hg' s'
    · show (fmt.runFrom source (g (n + 1)) (φ s') raws).cons (ψ a) = _
      rw [← hn, ih hg' s']
      rfl

end

end LineFormat

end UnicodeTables
