import FluentMigration.Proofs.Fluent.Words
import FluentMigration.Text.Number
/-!
String literals character by character. What can stand between quotes is a row of characters, each
spelled as it is, with a backslash in front, or by its code (`isStringContent_iff_spelled`).
-/

namespace FluentMigration
namespace Fluent

/-- The letter after the backslash tells how many digits the code of a character has. -/
def IsCode (marker : Char) (digits : List Char) : Prop :=
  (marker = 'u' ∧ digits.length = 4 ∨ marker = 'U' ∧ digits.length = 6) ∧
    ∀ c ∈ digits, Text.isHex c = true

inductive LiteralChar where
  | plain (c : Char) (h : c ≠ '\\' ∧ c ≠ '"' ∧ c ≠ '\n')
  | escaped (c : Char) (h : c = '\\' ∨ c = '"')
  | code (marker : Char) (digits : List Char) (h : IsCode marker digits)

namespace LiteralChar

def spelled : LiteralChar → List Char
  | .plain c _ => [c]
  | .escaped c _ => ['\\', c]
  | .code marker digits _ => '\\' :: marker :: digits

/-- The character that is meant. A code that is none of a character means U+FFFD. -/
def meant : LiteralChar → Char
  | .plain c _ => c
  | .escaped c _ => c
  | .code _ digits _ => (Text.char? (Text.hexValue digits)).getD '\uFFFD'

def isCode : LiteralChar → Bool
  | .code _ _ _ => true
  | _ => false

end LiteralChar

abbrev Spelling := List LiteralChar

namespace Spelling

def text (s : Spelling) : String := String.ofList (s.flatMap LiteralChar.spelled)

def meaning (s : Spelling) : String := String.ofList (s.map LiteralChar.meant)

end Spelling

theorem isStringContent_cons {c : Char} (h : c ≠ '\\') (r : List Char) :
    isStringContent 0 (c :: r) = (c != '"' && c != '\n' && isStringContent 0 r) := by
  rw [isStringContent]
  · rw [bne_iff_ne.2 h, Bool.true_and]
  · intro _ _ hc _
    exact h hc

theorem isStringContent_digits {digits : List Char} (h : ∀ c ∈ digits, Text.isHex c = true)
    (rest : List Char) :
    isStringContent digits.length (digits ++ rest) = isStringContent 0 rest := by
  induction digits with
  | nil => rfl
  | cons c r ih =>
    rw [List.forall_mem_cons] at h
    rw [List.length_cons, List.cons_append, isStringContent, h.1, Bool.true_and, ih h.2]

theorem isStringContent_spelled (c : LiteralChar) (rest : List Char) :
    isStringContent 0 (c.spelled ++ rest) = isStringContent 0 rest := by
  cases c with
  | plain c h =>
    obtain ⟨hbackslash, hquote, hline⟩ := h
    rw [LiteralChar.spelled, List.singleton_append, isStringContent_cons hbackslash]
    simp [hquote, hline]
  | escaped c h => simp [LiteralChar.spelled, isStringContent, h]
  | code marker digits h =>
    obtain ⟨⟨rfl, hlength⟩ | ⟨rfl, hlength⟩, hdigits⟩ := h
    · have hrest := isStringContent_digits hdigits rest
      rw [hlength] at hrest
      simp [LiteralChar.spelled, isStringContent, hrest]
    · have hrest := isStringContent_digits hdigits rest
      rw [hlength] at hrest
      simp [LiteralChar.spelled, isStringContent, hrest]

theorem digits_of_isStringContent {n : Nat} {raw : List Char} (h : isStringContent n raw = true) :
    ∃ digits rest, raw = digits ++ rest ∧ digits.length = n ∧
      (∀ c ∈ digits, Text.isHex c = true) ∧ isStringContent 0 rest = true := by
  induction n generalizing raw with
  | zero => exact ⟨[], raw, rfl, rfl, nofun, h⟩
  | succ n ih =>
    cases raw with
    | nil => cases h
    | cons c r =>
      obtain ⟨hc, hr⟩ := Bool.and_eq_true_iff.1 h
      obtain ⟨digits, rest, rfl, hlength, hdigits, hrest⟩ := ih hr
      exact ⟨c :: digits, rest, rfl, congrArg (· + 1) hlength,
        List.forall_mem_cons.2 ⟨hc, hdigits⟩, hrest⟩

theorem exists_spelled_append {c : Char} {r : List Char}
    (h : isStringContent 0 (c :: r) = true) :
    ∃ (first : LiteralChar) (rest : List Char), c :: r = first.spelled ++ rest ∧
      isStringContent 0 rest = true := by
  have hcode : ∀ {marker n t}, isStringContent n t = true →
      (marker = 'u' ∧ n = 4 ∨ marker = 'U' ∧ n = 6) →
      ∃ (first : LiteralChar) (rest : List Char), '\\' :: marker :: t = first.spelled ++ rest ∧
        isStringContent 0 rest = true := by
    rintro marker n t ht hmarker
    obtain ⟨digits, rest, rfl, rfl, hdigits, hrest⟩ := digits_of_isStringContent ht
    exact ⟨.code marker digits ⟨hmarker, hdigits⟩, rest, rfl, hrest⟩
  by_cases hbackslash : c = '\\'
  · subst hbackslash
    cases r with
    | nil => cases h
    | cons d t =>
      simp only [isStringContent] at h
      split at h
      · next hd => exact ⟨.escaped d hd, t, rfl, h⟩
      · split at h
        · next hd => exact hcode h (.inl ⟨hd, rfl⟩)
        · obtain ⟨hd, ht⟩ := Bool.and_eq_true_iff.1 h
          exact hcode ht (.inr ⟨by simpa using hd, rfl⟩)
  · rw [isStringContent_cons hbackslash] at h
    simp only [Bool.and_eq_true, bne_iff_ne, ne_eq] at h
    obtain ⟨⟨hquote, hline⟩, hr⟩ := h
    exact ⟨.plain c ⟨hbackslash, hquote, hline⟩, r, rfl, hr⟩

theorem length_spelled_pos (c : LiteralChar) : 0 < c.spelled.length := by
  cases c <;> exact Nat.succ_pos _

theorem isStringContent_text (s : Spelling) : isStringContent 0 s.text.toList = true := by
  rw [Spelling.text, String.toList_ofList]
  induction s with
  | nil => rfl
  | cons c r ih => rw [List.flatMap_cons, isStringContent_spelled, ih]

theorem isStringContent_iff_spelled {raw : String} :
    isStringContent 0 raw.toList = true ↔ ∃ s : Spelling, s.text = raw := by
  constructor
  · intro h
    have hspelled : ∀ raw, isStringContent 0 raw = true →
        ∃ s : Spelling, s.flatMap LiteralChar.spelled = raw := by
      intro raw
      -- By the length of the text, of which each character takes some.
      induction hlength : raw.length using Nat.strongRecOn generalizing raw with
      | _ n ih =>
        intro hraw
        cases raw with
        | nil => exact ⟨[], rfl⟩
        | cons c r =>
          obtain ⟨first, rest, hfirst, hrest⟩ := exists_spelled_append hraw
          have hpos := length_spelled_pos first
          rw [hfirst, List.length_append] at hlength
          obtain ⟨s, hs⟩ := ih rest.length (by omega) rest rfl hrest
          exact ⟨first :: s, by rw [List.flatMap_cons, hs, hfirst]⟩
    obtain ⟨s, hs⟩ := hspelled raw.toList h
    exact ⟨s, by rw [Spelling.text, hs, String.ofList_toList]⟩
  · rintro ⟨s, rfl⟩
    exact isStringContent_text s

end Fluent
end FluentMigration
