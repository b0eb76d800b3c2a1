import FluentMigration.Proofs.Fluent.Words
/-!
Patterns as sequences of scraps: single characters of text, and placeables with what is written for
them. The printer works scrap by scrap (`escape`, `printScraps`), the reader cuts the same sequence
into pieces (`pieces`), and the elements of a pattern are its scraps with neighbouring characters
joined (`unflatten`). All steps between a pattern, its written form and the pattern that is read
back are maps on scraps.
-/

namespace FluentMigration
namespace Fluent

/-- A character of text, or a placeable: what is written for it and what is read back. -/
inductive Scrap where
  | char (c : Char)
  | placeable (written : List Char) (content : Expression)

namespace Scrap

def isBlank : Scrap → Bool
  | char c => isSpaceOrNewline c
  | placeable _ _ => false

def content? : Scrap → Option Expression
  | char _ => none
  | placeable _ content => some content

end Scrap

/-- What is written for scraps whose lines are set `width` columns further right. -/
def printScraps (width : Nat) : List Scrap → List Char
  | [] => []
  | .char c :: r => shiftLines width [c] ++ printScraps width r
  | .placeable written _ :: r => shiftLines width written ++ printScraps width r

/-- Whether a character of text is written as a literal. -/
def needsLiteral (atStart : Bool) (c : Char) : Bool :=
  c == '\x7b' || c == '\x7d' || (c == '[' || c == '*' || c == '.') && atStart

def literalScrap (c : Char) : Scrap := .placeable (quoted c) (.inline (.string (String.ofList [c])))

/-- The scraps that are written, `atStart` telling whether a line is still at its start. -/
def escape (atStart : Bool) : List Scrap → List Scrap
  | [] => []
  | .char c :: r =>
    (if needsLiteral atStart c then literalScrap c else .char c) ::
      escape (lineStartAfter atStart c) r
  | .placeable written content :: r => .placeable written content :: escape false r

/-- Text that is not read back as syntax. -/
def Clean (atStart : Bool) : List Scrap → Prop
  | [] => True
  | .char c :: r =>
    c ≠ '\x7b' ∧ c ≠ '\x7d' ∧ (atStart = true → isLineSyntax c = false) ∧
      Clean (lineStartAfter atStart c) r
  | .placeable _ _ :: r => Clean false r

@[simp] theorem printScraps_append (width : Nat) (a b : List Scrap) :
    printScraps width (a ++ b) = printScraps width a ++ printScraps width b := by
  induction a with
  | nil => rfl
  | cons s r ih => cases s <;> simp [printScraps, ih]

theorem shiftLines_printScraps (width : Nat) (ss : List Scrap) :
    shiftLines width (printScraps 0 ss) = printScraps width ss := by
  induction ss with
  | nil => rfl
  | cons s r ih =>
    cases s with
    | char c => rw [printScraps, shiftLines_append, shiftLines_zero, ih, printScraps]
    | placeable written content =>
      rw [printScraps, shiftLines_append, shiftLines_zero, ih, printScraps]

theorem clean_mono {ss : List Scrap} {atStart : Bool} (h : Clean atStart ss) : Clean false ss := by
  cases atStart with
  | false => exact h
  | true =>
    induction ss with
    | nil => trivial
    | cons s r ih =>
      cases s with
      | placeable written content => exact h
      | char c =>
        obtain ⟨ho, hc, _, hr⟩ := h
        refine ⟨ho, hc, nofun, ?_⟩
        by_cases hs : lineStartAfter true c = true
        · rw [hs] at hr
          cases hl : lineStartAfter false c with
          | true => exact hr
          | false => exact ih hr
        · have hs : lineStartAfter true c = false := by simpa using hs
          have hl : lineStartAfter false c = false := by
            simp only [lineStartAfter, Bool.and_true, Bool.or_eq_false_iff] at hs
            simp [lineStartAfter, hs.1]
          rw [hl]
          rwa [hs] at hr

theorem not_blank_of_needsLiteral {atStart : Bool} {c : Char} (h : needsLiteral atStart c = true) :
    isSpaceOrNewline c = false := by
  simp only [needsLiteral, Bool.or_eq_true, Bool.and_eq_true, beq_iff_eq] at h
  rcases h with (rfl | rfl) | ⟨(rfl | rfl) | rfl, _⟩ <;> rfl

theorem lineStartAfter_of_needsLiteral {atStart : Bool} {c : Char}
    (h : needsLiteral atStart c = true) : lineStartAfter atStart c = false := by
  have hb := not_blank_of_needsLiteral h
  simp only [isSpaceOrNewline, Bool.or_eq_false_iff, beq_eq_false_iff_ne] at hb
  simp [lineStartAfter, hb]

theorem clean_escape (atStart : Bool) (ss : List Scrap) : Clean atStart (escape atStart ss) := by
  induction ss generalizing atStart with
  | nil => trivial
  | cons s r ih =>
    cases s with
    | placeable written content => exact ih false
    | char c =>
      by_cases h : needsLiteral atStart c = true
      · have hr := ih (lineStartAfter atStart c)
        rw [lineStartAfter_of_needsLiteral h] at hr
        simp only [escape, h, if_true, literalScrap, lineStartAfter_of_needsLiteral h]
        exact hr
      · have hr := ih (lineStartAfter atStart c)
        simp only [escape, h]
        simp only [needsLiteral, Bool.or_eq_true, Bool.and_eq_true, beq_iff_eq, not_or] at h
        refine ⟨h.1.1, h.1.2, fun hs => ?_, hr⟩
        simp only [isLineSyntax, Bool.or_eq_false_iff, beq_eq_false_iff_ne]
        simp_all

theorem escape_of_clean {atStart : Bool} {ss : List Scrap} (h : Clean atStart ss) :
    escape atStart ss = ss := by
  induction ss generalizing atStart with
  | nil => rfl
  | cons s r ih =>
    cases s with
    | placeable written content => simp [escape, ih h]
    | char c =>
      obtain ⟨ho, hc, hs, hr⟩ := h
      have hn : needsLiteral atStart c = false := by
        simp only [isLineSyntax, Bool.or_eq_false_iff, beq_eq_false_iff_ne] at hs
        cases atStart <;> simp_all [needsLiteral]
      simp [escape, hn, ih hr]

theorem map_isBlank_escape (atStart : Bool) (ss : List Scrap) :
    (escape atStart ss).map Scrap.isBlank = ss.map Scrap.isBlank := by
  induction ss generalizing atStart with
  | nil => rfl
  | cons s r ih =>
    cases s with
    | placeable written content => simp [escape, ih]
    | char c =>
      by_cases h : needsLiteral atStart c = true
      · simp [escape, h, ih, literalScrap, Scrap.isBlank, not_blank_of_needsLiteral h]
      · simp [escape, h, ih]

end Fluent
end FluentMigration
