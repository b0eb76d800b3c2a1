import FluentMigration.Legacy.Reader
import FluentMigration.Proofs.Legacy.Dtd
import FluentMigration.Proofs.Legacy.Properties
/-!
The lines that entries stand on. In every format they lie inside the text, and entries follow one
another as they do in the list: on lines of their own where a format is read line by line, and from
the last line of the entry before on where several can share one (`Resource.parse_spans`).
-/

namespace FluentMigration
namespace Legacy

/-- Entries on the lines from `low` to `high`, each at least `gap` lines behind the end of the one
before it. -/
def Spaced (gap low high : Nat) : List Entry → Prop
  | [] => True
  | e :: rest =>
    low ≤ e.line ∧ e.line ≤ e.endLine ∧ e.endLine ≤ high ∧ Spaced gap (e.endLine + gap) high rest

namespace Spaced

variable {gap low high : Nat} {entries : List Entry}

theorem mono {low' : Nat} (hlow : low ≤ low') (h : Spaced gap low' high entries) :
    Spaced gap low high entries := by
  cases entries with
  | nil => trivial
  | cons e rest =>
    obtain ⟨hline, hrest⟩ := h
    exact ⟨Nat.le_trans hlow hline, hrest⟩

theorem bounds (h : Spaced gap low high entries) {e : Entry} (he : e ∈ entries) :
    low ≤ e.line ∧ e.line ≤ e.endLine ∧ e.endLine ≤ high := by
  induction entries generalizing low with
  | nil => cases he
  | cons first rest ih =>
    obtain ⟨hlow, hline, hhigh, hrest⟩ := h
    rcases List.mem_cons.1 he with rfl | he
    · exact ⟨hlow, hline, hhigh⟩
    · have hlater := ih hrest he
      omega

theorem pairwise (h : Spaced gap low high entries) :
    entries.Pairwise fun a b => a.endLine + gap ≤ b.line := by
  induction entries generalizing low with
  | nil => exact .nil
  | cons first rest ih =>
    obtain ⟨-, -, -, hrest⟩ := h
    exact .cons (fun e he => (hrest.bounds he).1) (ih hrest)

end Spaced

namespace Properties

theorem spaced_entriesFrom (lines : List (List Char)) (number : Nat)
    (pending : Option (Nat × List Char)) (h : ∀ p ∈ pending, p.1 < number) :
    Spaced 1 ((pending.map Prod.fst).getD number) (number + lines.length - 1)
      (entriesFrom number pending lines) := by
  induction lines generalizing number pending with
  | nil =>
    cases pending with
    | none => trivial
    | some p =>
      have hp : p.1 < number := h p rfl
      exact ⟨Nat.le_refl _, Nat.le_sub_one_of_lt hp, Nat.le_refl _, trivial⟩
  | cons line rest ih =>
    have hend : number + (line :: rest).length - 1 = number + 1 + rest.length - 1 := by
      rw [List.length_cons]
      omega
    have hlogical : ∀ start logical, start ≤ number →
        Spaced 1 start (number + 1 + rest.length - 1) (readLogical start number logical rest) := by
      intro start logical hstart
      rw [readLogical]
      split
      · exact ih (number + 1) (some (start, _)) (by simpa using Nat.lt_succ_of_le hstart)
      · have hlater := ih (number + 1) none (by simp)
        exact ⟨Nat.le_refl _, hstart, by change number ≤ _; omega, hlater⟩
    rw [hend]
    cases pending with
    | some p =>
      rw [entriesFrom_next]
      exact hlogical p.1 _ (Nat.le_of_lt (h p rfl))
    | none =>
      cases hignored : isIgnored line with
      | false =>
        rw [entriesFrom_first hignored]
        exact hlogical number _ (Nat.le_refl _)
      | true =>
        have hlater := ih (number + 1) none (by simp)
        have hskip : entriesFrom number none (line :: rest) =
            entriesFrom (number + 1) none rest := by
          simp [entriesFrom, hignored]
        rw [hskip]
        exact hlater.mono (Nat.le_succ number)

theorem spaced_parse (s : List Char) : Spaced 1 1 (Text.newlines s + 1) (parse s) := by
  have h := spaced_entriesFrom ((Text.splitOn '\n' s).map Text.dropReturn) 1 none (by simp)
  rwa [List.length_map, Text.length_splitOn, Nat.add_comm 1, Nat.add_sub_cancel] at h

end Properties

namespace Po

/-- The lines of an entry that has been begun on line `low` or later, when the next line is
`number`. -/
structure Pending.Within (p : Pending) (low number : Nat) : Prop where
  low_pos : 1 ≤ low
  low_le : low ≤ number
  last : p.lastLine < number
  first : p.firstLine ≠ 0 → low ≤ p.firstLine ∧ p.firstLine ≤ p.lastLine
  form : ∀ n ∈ p.formLine, low ≤ n ∧ n ≤ p.lastLine
  id : p.id.isSome = true → p.firstLine ≠ 0

namespace Pending.Within

variable {p q : Pending} {low number : Nat}

theorem empty (h : 1 ≤ number) : Pending.empty.Within number number :=
  ⟨h, Nat.le_refl _, h, fun h => absurd rfl h, nofun, nofun⟩

theorem later (h : p.Within low number) : p.Within low (number + 1) :=
  ⟨h.low_pos, Nat.le_succ_of_le h.low_le, Nat.lt_succ_of_lt h.last, h.first, h.form, h.id⟩

theorem congr (h : p.Within low number) (fuzzy : Bool) : { p with fuzzy }.Within low number :=
  ⟨h.low_pos, h.low_le, h.last, h.first, h.form, h.id⟩

/-- A line that adds to the entry may be the first of its forms. -/
theorem reach (h : p.Within low number) (hfirst : q.firstLine = p.firstLine)
    (hform : q.formLine = p.formLine ∨ q.formLine = some (p.formLine.getD number)) :
    (q.reach number).Within low (number + 1) := by
  have hpos : number ≠ 0 := by
    have := h.low_pos
    have := h.low_le
    omega
  have hold : ∀ n ∈ p.formLine, low ≤ n ∧ n ≤ number := fun n hn =>
    ⟨(h.form n hn).1, Nat.le_trans (h.form n hn).2 (Nat.le_of_lt h.last)⟩
  refine ⟨h.low_pos, Nat.le_succ_of_le h.low_le, Nat.lt_succ_self _, fun _ => ?_, fun n hn => ?_,
    fun _ => ?_⟩
  · change low ≤ (if q.firstLine = 0 then number else q.firstLine) ∧
      (if q.firstLine = 0 then number else q.firstLine) ≤ number
    rw [hfirst]
    split
    · exact ⟨h.low_le, Nat.le_refl _⟩
    · next hne =>
      exact ⟨(h.first hne).1, Nat.le_trans (h.first hne).2 (Nat.le_of_lt h.last)⟩
  · change n ∈ q.formLine at hn
    rcases hform with hform | hform
    · exact hold n (hform ▸ hn)
    · rw [hform, Option.mem_some_iff] at hn
      subst hn
      cases hp : p.formLine with
      | none => exact ⟨h.low_le, Nat.le_refl _⟩
      | some m => exact hold m hp
  · change (if q.firstLine = 0 then number else q.firstLine) ≠ 0
    split
    · exact hpos
    · next hne => exact hne

/-- A string on a line of its own reaches the line, whatever it adds to. -/
theorem append (h : p.Within low number) (field : Option Field) (more : List Char) :
    { p.append field more with lastLine := number }.Within low (number + 1) := by
  have hparts : (p.append field more).firstLine = p.firstLine ∧
      (p.append field more).formLine = p.formLine ∧
      (p.append field more).id.isSome = p.id.isSome := by
    rcases field with - | field
    · exact ⟨rfl, rfl, rfl⟩
    · cases field <;> simp [Pending.append]
  obtain ⟨hfirst, hform, hid⟩ := hparts
  refine ⟨h.low_pos, Nat.le_succ_of_le h.low_le, Nat.lt_succ_self _, ?_, ?_, ?_⟩
  · intro hne
    rw [hfirst] at hne ⊢
    exact ⟨(h.first hne).1, Nat.le_trans (h.first hne).2 (Nat.le_of_lt h.last)⟩
  · intro n hn
    rw [hform] at hn
    exact ⟨(h.form n hn).1, Nat.le_trans (h.form n hn).2 (Nat.le_of_lt h.last)⟩
  · intro hsome
    rw [hid] at hsome
    rw [hfirst]
    exact h.id hsome

theorem spaced_finish (h : p.Within low number) {high : Nat} (hhigh : number ≤ high + 1)
    {entries : List Entry} (hentries : Spaced 1 number high entries) :
    Spaced 1 low high (p.finish ++ entries) := by
  have hlater : Spaced 1 low high entries := hentries.mono h.low_le
  rw [Pending.finish]
  split
  · exact hlater
  · next id hid =>
    have hne : p.firstLine ≠ 0 := h.id (by rw [hid]; rfl)
    obtain ⟨hlow, hlast⟩ := h.first hne
    have hline : low ≤ p.formLine.getD p.firstLine ∧ p.formLine.getD p.firstLine ≤ p.lastLine := by
      cases hform : p.formLine with
      | none => exact ⟨hlow, hlast⟩
      | some n => exact h.form n hform
    split
    · exact hlater
    · exact ⟨hline.1, hline.2, by have := h.last; change p.lastLine ≤ high; omega,
        hentries.mono h.last⟩

end Pending.Within

/-- What a step does to the lines: the entries that it ends stand before those that end later. -/
def Advances (low number next : Nat) (done : List Entry) (p : Pending) : Prop :=
  ∃ low', p.Within low' next ∧ ∀ high entries, number ≤ high + 1 →
    Spaced 1 low' high entries → Spaced 1 low high (done ++ entries)

theorem advances_keep {p : Pending} {low number next : Nat} (h : p.Within low next) :
    Advances low number next [] p :=
  ⟨low, h, fun _ _ _ hentries => hentries⟩

theorem advances_next {p : Pending} {low number : Nat} (h : p.Within low number) :
    Advances low number number p.next.1 p.next.2 := by
  rw [Pending.next]
  split
  · exact ⟨number, .empty (Nat.le_trans h.low_pos h.low_le), fun _ _ hhigh hentries =>
      h.spaced_finish hhigh hentries⟩
  · exact advances_keep h

theorem Advances.reach {low number : Nat} {done : List Entry} {p q : Pending}
    (h : Advances low number number done p) (hfirst : q.firstLine = p.firstLine)
    (hform : q.formLine = p.formLine) :
    Advances low number (number + 1) done (q.reach number) := by
  obtain ⟨low', hwithin, hspaced⟩ := h
  exact ⟨low', hwithin.reach hfirst (.inl hform), hspaced⟩

theorem keyword_advances {state : State} {low number : Nat}
    (h : state.pending.Within low number) (line : List Char) :
    Advances low number (number + 1) (state.keyword number line).1
      (state.keyword number line).2.pending := by
  rw [State.keyword]
  dsimp only
  split
  · exact (advances_next h).reach rfl rfl
  · split
    · exact (advances_next h).reach rfl rfl
    · split
      · exact advances_keep (h.reach rfl (.inl rfl))
      · split
        · exact advances_keep (h.reach rfl (.inr rfl))
        · split
          · exact advances_keep (h.reach rfl (.inr rfl))
          · exact advances_keep h.later

theorem line_advances {state : State} {low number : Nat} (h : state.pending.Within low number)
    (line : List Char) :
    Advances low number (number + 1) (state.line number line).1
      (state.line number line).2.pending := by
  rw [State.line.eq_def]
  split
  · exact advances_keep h.later
  · obtain ⟨low', hwithin, hspaced⟩ := advances_next h
    exact ⟨low', hwithin.later.congr _, hspaced⟩
  · exact advances_keep h.later
  · exact advances_keep (h.append state.field _)
  · exact keyword_advances h _

theorem spaced_entriesFrom (lines : List (List Char)) {number low : Nat} (state : State)
    (h : state.pending.Within low number) :
    Spaced 1 low (number + lines.length - 1) (entriesFrom number state lines) := by
  induction lines generalizing number low state with
  | nil =>
    have hlast : Spaced 1 low (number - 1) (state.pending.finish ++ []) :=
      h.spaced_finish (by omega) trivial
    rwa [List.append_nil] at hlast
  | cons line rest ih =>
    obtain ⟨low', hwithin, hspaced⟩ := line_advances h (Text.trim Text.isBlank line)
    have hend : number + (line :: rest).length - 1 = number + 1 + rest.length - 1 := by
      rw [List.length_cons]
      omega
    rw [hend, entriesFrom]
    exact hspaced _ _ (by omega) (ih _ hwithin)

theorem spaced_parse (s : List Char) : Spaced 1 1 (Text.newlines s + 1) (parse s) := by
  have h := spaced_entriesFrom (Text.splitOn '\n' s) .start (.empty (Nat.le_refl 1))
  rwa [Text.length_splitOn, Nat.add_comm 1, Nat.add_sub_cancel] at h

end Po

namespace Dtd

theorem spaced_declarationsFrom (line : Nat) (s : List Char) :
    Spaced 0 line (line + Text.newlines s)
      ((declarationsFrom line 0 s).map fun d => d.entryOf d.written) := by
  induction hn : s.length using Nat.strongRecOn generalizing line s with
  | _ n ih =>
    cases s with
    | nil => trivial
    | cons c r =>
      cases hm : markup? (c :: r) with
      | none =>
        have hlater := ih r.length (by simp [← hn]) (line + Text.newlines [c]) r rfl
        have hend : line + Text.newlines (c :: r) =
            line + Text.newlines [c] + Text.newlines r := by
          rw [Nat.add_assoc, Text.newlines, ← List.singleton_append, List.count_append]
          rfl
        rw [declarationsFrom_none line hm, hend]
        exact hlater.mono (Nat.le_add_right _ _)
      | some m =>
        obtain ⟨front, hne, hfront⟩ := markup?_sound hm
        have hshort : m.rest.length < n := by
          have hpos := List.length_pos_iff.2 hne
          rw [← hn, hfront, List.length_append]
          omega
        have hlater := ih _ hshort (line + Text.newlines front) m.rest rfl
        have hend : line + Text.newlines (front ++ m.rest) =
            line + Text.newlines front + Text.newlines m.rest := by
          simp [Text.newlines, Nat.add_assoc]
        rw [hfront] at hm ⊢
        rw [declarationsFrom_markup line hm hne, hend, List.map_append]
        cases m with
        | comment rest => exact hlater.mono (Nat.le_add_right _ _)
        | entity key value rest =>
          exact ⟨Nat.le_refl _, Nat.le_add_right _ _, Nat.le_add_right _ _, hlater⟩

theorem spaced_parse (s : List Char) : Spaced 0 1 (Text.newlines s + 1) (parse s) := by
  rw [parse_eq, Nat.add_comm]
  exact spaced_declarationsFrom 1 s

end Dtd

/-- How many lines an entry begins behind the end of the one before it, at the least. -/
def Format.gap : Format → Nat
  | .properties => 1
  | .dtd => 0
  | .po => 1

theorem Resource.spaced_parse (format : Format) (text : String) :
    Spaced format.gap 1 (Text.newlines text.toList + 1) (Resource.parse format text).entries := by
  cases format with
  | properties => exact Properties.spaced_parse text.toList
  | dtd => exact Dtd.spaced_parse text.toList
  | po => exact Po.spaced_parse text.toList

/-- Entries lie inside the text, one after another; only those of a dtd file share lines. -/
theorem Resource.parse_spans (format : Format) (text : String) :
    let entries := (Resource.parse format text).entries
    (∀ e ∈ entries, 1 ≤ e.line ∧ e.line ≤ e.endLine ∧
      e.endLine ≤ Text.newlines text.toList + 1) ∧
    entries.Pairwise fun e later =>
      e.endLine ≤ later.line ∧ (format ≠ .dtd → e.endLine < later.line) := by
  have h := Resource.spaced_parse format text
  refine ⟨fun e he => h.bounds he, h.pairwise.imp fun hgap => ?_⟩
  cases format with
  | properties => exact ⟨Nat.le_of_succ_le hgap, fun _ => hgap⟩
  | dtd => exact ⟨hgap, fun hne => absurd rfl hne⟩
  | po => exact ⟨Nat.le_of_succ_le hgap, fun _ => hgap⟩

end Legacy
end FluentMigration
