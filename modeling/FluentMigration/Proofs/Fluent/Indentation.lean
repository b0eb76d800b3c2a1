import FluentMigration.Fluent.Printer
import FluentMigration.Proofs.Text.Lines
/-!
Indentation of written text. Setting the lines of a text further right is a map over its characters
(`shiftLines`), so it goes through concatenation and two shifts add up; what the printer does to
nested patterns is such a shift (`indentLines_eq_shiftLines`). A calm text stays calm when it is
shifted.
-/

namespace FluentMigration
namespace Fluent

def shiftLines (width : Nat) (s : List Char) : List Char :=
  s.flatMap fun c => if c = '\n' then '\n' :: List.replicate width ' ' else [c]

@[simp] theorem shiftLines_nil (width : Nat) : shiftLines width [] = [] := rfl

@[simp] theorem shiftLines_newline (width : Nat) (s : List Char) :
    shiftLines width ('\n' :: s) = '\n' :: (List.replicate width ' ' ++ shiftLines width s) := by
  simp [shiftLines]

theorem shiftLines_cons {c : Char} (h : c ≠ '\n') (width : Nat) (s : List Char) :
    shiftLines width (c :: s) = c :: shiftLines width s := by
  simp [shiftLines, h]

@[simp] theorem shiftLines_append (width : Nat) (a b : List Char) :
    shiftLines width (a ++ b) = shiftLines width a ++ shiftLines width b :=
  List.flatMap_append

theorem shiftLines_of_noNewline {s : List Char} (h : '\n' ∉ s) (width : Nat) :
    shiftLines width s = s := by
  induction s with
  | nil => rfl
  | cons c r ih =>
    rw [List.mem_cons, not_or] at h
    rw [shiftLines_cons (Ne.symm h.1), ih h.2]

@[simp] theorem shiftLines_zero (s : List Char) : shiftLines 0 s = s := by
  induction s with
  | nil => rfl
  | cons c r ih => by_cases h : c = '\n' <;> simp [shiftLines_cons, h, ih]

@[simp] theorem shiftLines_spaces (width n : Nat) :
    shiftLines width (List.replicate n ' ') = List.replicate n ' ' :=
  shiftLines_of_noNewline (by simp [List.mem_replicate]) width

theorem shiftLines_shiftLines (outer inner : Nat) (s : List Char) :
    shiftLines outer (shiftLines inner s) = shiftLines (outer + inner) s := by
  induction s with
  | nil => rfl
  | cons c r ih =>
    by_cases h : c = '\n'
    · subst h
      simp [ih, ← List.append_assoc, List.replicate_append_replicate]
    · simp [shiftLines_cons h, ih]

theorem head?_shiftLines (width : Nat) (s : List Char) : (shiftLines width s).head? = s.head? := by
  cases s with
  | nil => rfl
  | cons c r => by_cases h : c = '\n' <;> simp [shiftLines_cons, h]

theorem calm_shiftLines {s : List Char} (h : Text.Calm s) (width : Nat) :
    Text.Calm (shiftLines width s) := by
  induction s with
  | nil => trivial
  | cons c r ih =>
    by_cases hc : c = '\n'
    · subst hc
      rw [shiftLines_newline]
      have hs : Text.Calm (List.replicate width ' ') :=
        Text.calm_of_noReturn (by simp [List.mem_replicate])
      exact ⟨by simp, hs.append (ih h.2)⟩
    · rw [shiftLines_cons hc]
      refine ⟨fun hr => ?_, ih h.2⟩
      obtain ⟨d, t, rfl, hd⟩ := h.1 hr
      exact ⟨d, shiftLines width t, shiftLines_cons hd width t, hd⟩

/-- The printer indents by a shift, unless the text ends with a line break. -/
theorem indentLines_eq_shiftLines {s : List Char} (h : s.getLast? ≠ some '\n') :
    indentLines s = shiftLines 4 s := by
  induction s with
  | nil => rfl
  | cons c r ih =>
    have hr : r.getLast? ≠ some '\n' := by
      cases r with
      | nil => simp
      | cons d t => simpa [List.getLast?_cons_cons] using h
    by_cases hc : c = '\n'
    · subst hc
      have hne : r ≠ [] := fun he => h (by simp [he])
      simp [indentLines, hne, ih hr, List.replicate]
    · rw [shiftLines_cons hc, ← ih hr]
      simp [indentLines, hc]

end Fluent
end FluentMigration
