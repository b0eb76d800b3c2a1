import FluentMigration.Evaluation
import FluentMigration.Legacy.Reader
import FluentMigration.Proofs.Legacy.Dtd
import FluentMigration.Proofs.Legacy.Po
/-!
Line endings of legacy files. Properties and po files are read line by line, and the carriage return
before a line feed is dropped from each line or trimmed off it, so they read the same with either
ending. A dtd file is read as a whole: its declarations are found in the same places, but a value
that spans lines keeps its carriage returns, and the trimming of its lines does not see through
these (`Declaration.Steady`).
-/

namespace FluentMigration
namespace Legacy

open Text (withReturns splitOn join trailing hasText trimEach)

def Entry.place (e : Entry) : String × Nat × Nat × Bool :=
  (e.key, e.line, e.endLine, e.translated)

theorem Properties.parse_returned {s : List Char} (h : '\r' ∉ s) :
    Properties.parse (withReturns s) = Properties.parse s := by
  have hlines : ∀ l ∈ splitOn '\n' s, Text.dropReturn (l ++ ['\r']) = Text.dropReturn l := by
    intro l hl
    have hlast : l.getLast? ≠ some '\r' := fun hlast =>
      h (Text.mem_of_mem_splitOn hl (List.mem_of_getLast? hlast))
    rw [Text.dropReturn, if_pos (by simp), List.dropLast_concat, Text.dropReturn, if_neg hlast]
  rw [Properties.parse, Text.splitOn_withReturns, Text.map_returned hlines, Properties.parse]

theorem Po.parse_returned (s : List Char) :
    Po.parse (withReturns s) = Po.parse s := by
  have hlines : ∀ l ∈ splitOn '\n' s,
      Text.trim Text.isBlank (l ++ ['\r']) = Text.trim Text.isBlank l :=
    fun l _ => Text.trim_append_right rfl l
  rw [Po.parse, Text.splitOn_withReturns]
  exact Po.entriesFrom_congr (Text.map_returned hlines) 1 .start

namespace Dtd

def Declaration.lines (d : Declaration) : List (List Char) := (splitOn '\n' d.written).map resolve

/-- Trimming hides how the lines of the value end: none of those that a line feed ends has blanks
behind its text, and at most one line has text at all. -/
def Declaration.Steady (d : Declaration) : Prop :=
  (∀ l ∈ d.lines.dropLast, trailing l = []) ∧ (d.lines.map trimEach).countP hasText ≤ 1

instance (d : Declaration) : Decidable d.Steady := inferInstanceAs (Decidable (_ ∧ _))

theorem resolve_written (d : Declaration) : resolve d.written = join ['\n'] d.lines := by
  rw [Declaration.lines, ← resolve_join (.inl rfl), Text.join_splitOn]

theorem resolve_withReturns (d : Declaration) :
    resolve d.withReturns.written = join ['\r', '\n'] d.lines := by
  rw [Declaration.lines, ← resolve_join (.inr rfl), ← Text.withReturns_eq_join]
  rfl

theorem process_withReturns {source : LegacySource} (h : source.trim = none) (d : Declaration) :
    source.process (d.withReturns.entryOf d.withReturns.written).value =
      source.process (d.entryOf d.written).value ↔ d.Steady := by
  have htrim : source.trim ≠ some false := by
    rw [h]
    nofun
  rw [LegacySource.process, if_neg htrim, LegacySource.process, if_neg htrim, Text.trimLines_eq,
    Text.trimLines_eq, String.ofList_inj, Declaration.entryOf, Declaration.entryOf,
    String.toList_ofList, String.toList_ofList, resolve_withReturns, resolve_written]
  exact Text.trim_returns_iff d.lines

end Dtd

/-- A file in which every line feed becomes carriage return and line feed has its entries in the
same places. Trimmed values are the same, but for those of dtd declarations that are not steady. -/
theorem Resource.parse_withReturns (format : Format) (text : String) (source : LegacySource)
    (hreturn : '\r' ∉ text.toList) (htrim : source.trim = none) :
    let entries := (Resource.parse format text).entries
    let rewritten := (Resource.parse format (String.ofList (withReturns text.toList))).entries
    rewritten.map Entry.place = entries.map Entry.place ∧
      ∀ i : Nat, rewritten[i]?.map (source.process <| Entry.value ·) =
          entries[i]?.map (source.process <| Entry.value ·) ↔
        (format = .dtd → ∀ d ∈ (Dtd.declarations text.toList)[i]?, Dtd.Declaration.Steady d) := by
  cases format with
  | properties =>
    simp [Resource.parse, Properties.parse_returned hreturn]
  | po =>
    simp [Resource.parse, Po.parse_returned]
  | dtd =>
    simp only [Resource.parse, Dtd.parse_eq, String.toList_ofList, Dtd.declarations_withReturns,
      List.map_map, List.getElem?_map, Option.map_map]
    refine ⟨rfl, fun i => ?_⟩
    cases (Dtd.declarations text.toList)[i]? with
    | none => simp
    | some d =>
      simpa using Dtd.process_withReturns htrim d

def declaredSource : LegacySource := ⟨"brand.dtd", "k", none, rfl⟩

/-- The value of the first declaration has text on one line only, that of the second on two. -/
theorem Resource.parse_withReturns_wrapped :
    let text := "<!ENTITY brand\n\"\n  Name\n\">\n<!ENTITY note \"One\nTwo\">\n"
    let entries := (Resource.parse .dtd text).entries
    let rewritten := (Resource.parse .dtd (String.ofList (withReturns text.toList))).entries
    rewritten.map Entry.place = entries.map Entry.place ∧
      rewritten[0]?.map (declaredSource.process <| Entry.value ·) =
        entries[0]?.map (declaredSource.process <| Entry.value ·) ∧
      rewritten[1]?.map (declaredSource.process <| Entry.value ·) ≠
        entries[1]?.map (declaredSource.process <| Entry.value ·) := by
  have h := Resource.parse_withReturns .dtd
    "<!ENTITY brand\n\"\n  Name\n\">\n<!ENTITY note \"One\nTwo\">\n" declaredSource (by decide) rfl
  exact ⟨h.1, (h.2 0).2 (by decide), mt (h.2 1).1 (by decide)⟩

theorem Resource.parse_withReturns_kept :
    ¬ ∀ (format : Format) (text : String) (source : LegacySource), '\r' ∉ text.toList →
      source.trim = none →
      let entries := (Resource.parse format text).entries
      let rewritten := (Resource.parse format (String.ofList (withReturns text.toList))).entries
      rewritten.map Entry.place = entries.map Entry.place ∧
        rewritten.map (source.process <| Entry.value ·) =
          entries.map (source.process <| Entry.value ·) := by
  intro hall
  have h := (hall .dtd "<!ENTITY k \"a\nb\">\n" declaredSource (by decide) rfl).2
  revert h
  decide

end Legacy
end FluentMigration
