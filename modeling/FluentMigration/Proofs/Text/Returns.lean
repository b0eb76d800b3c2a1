import FluentMigration.Proofs.Text.Lines
/-!
Line feeds written as carriage return and line feed. The lines of such a text are those of the
text before, each but the last with a carriage return at its end (`splitOn_withReturns`), so whoever
takes that for a blank, or drops it, reads the same lines (`map_returned`). Characters that belong
to no class with one of the two do not notice it either (`dropWhile_withReturns`).
-/

namespace FluentMigration
namespace Text

/-- Lines with a carriage return at the end of each but the last. -/
def returned : List (List Char) → List (List Char)
  | [] => []
  | [l] => [l]
  | l :: rest => (l ++ ['\r']) :: returned rest

theorem returned_cons (l : List Char) {rest : List (List Char)} (h : rest ≠ []) :
    returned (l :: rest) = (l ++ ['\r']) :: returned rest := by
  cases rest with
  | nil => exact absurd rfl h
  | cons _ _ => rfl

theorem returned_eq_nil_iff {lines : List (List Char)} : returned lines = [] ↔ lines = [] := by
  cases lines with
  | nil => simp [returned]
  | cons l rest => cases rest <;> simp [returned]

theorem join_returned (lines : List (List Char)) :
    join ['\n'] (returned lines) = join ['\r', '\n'] lines := by
  induction lines with
  | nil => rfl
  | cons l rest ih =>
    by_cases h : rest = []
    · subst h
      rfl
    · rw [returned_cons l h, join_cons _ (mt returned_eq_nil_iff.1 h), join_cons l h, ih]
      simp

/-- What treats a line alike with and without a carriage return at its end. -/
theorem map_returned {α : Type} {f : List Char → α} {lines : List (List Char)}
    (h : ∀ l ∈ lines, f (l ++ ['\r']) = f l) : (returned lines).map f = lines.map f := by
  induction lines with
  | nil => rfl
  | cons l rest ih =>
    rw [List.forall_mem_cons] at h
    cases rest with
    | nil => rfl
    | cons l' rest => rw [returned_cons l (by simp), List.map_cons, List.map_cons, h.1, ih h.2]

theorem withReturns_eq_join (s : List Char) :
    withReturns s = join ['\r', '\n'] (splitOn '\n' s) := by
  induction s with
  | nil => rfl
  | cons c r ih =>
    rw [withReturns, splitOn, ih]
    split
    · rw [join_cons _ (splitOn_ne_nil '\n' r)]
      rfl
    · cases hr : splitOn '\n' r with
      | nil => exact absurd hr (splitOn_ne_nil _ r)
      | cons p ps => cases ps <;> rfl

theorem noNewline_of_mem_returned {lines : List (List Char)} (h : ∀ l ∈ lines, '\n' ∉ l) :
    ∀ l ∈ returned lines, '\n' ∉ l := by
  induction lines with
  | nil => exact nofun
  | cons l rest ih =>
    rw [List.forall_mem_cons] at h
    cases rest with
    | nil => exact List.forall_mem_singleton.2 h.1
    | cons _ _ => exact List.forall_mem_cons.2 ⟨by simpa using h.1, ih h.2⟩

theorem splitOn_withReturns (s : List Char) :
    splitOn '\n' (withReturns s) = returned (splitOn '\n' s) := by
  rw [withReturns_eq_join, ← join_returned]
  exact splitOn_join (mt returned_eq_nil_iff.1 (splitOn_ne_nil _ s))
    (noNewline_of_mem_returned fun _ hl => not_mem_of_mem_splitOn hl)

@[simp] theorem withReturns_newline (r : List Char) :
    withReturns ('\n' :: r) = '\r' :: '\n' :: withReturns r := rfl

theorem withReturns_cons {c : Char} (h : c ≠ '\n') (r : List Char) :
    withReturns (c :: r) = c :: withReturns r := if_neg h

theorem withReturns_append (a b : List Char) :
    withReturns (a ++ b) = withReturns a ++ withReturns b := by
  induction a with
  | nil => rfl
  | cons c r ih =>
    rw [List.cons_append, withReturns, withReturns, ih]
    split <;> rfl

@[simp] theorem newlines_withReturns (s : List Char) : newlines (withReturns s) = newlines s := by
  induction s with
  | nil => rfl
  | cons c r ih =>
    unfold newlines at ih ⊢
    rw [withReturns]
    split
    · next h => simp [h, ih]
    · simp [List.count_cons, ih]

/-- A class that has both ends of a line or neither is passed over alike. -/
theorem dropWhile_withReturns {p : Char → Bool} (h : p '\r' = p '\n') (s : List Char) :
    (withReturns s).dropWhile p = withReturns (s.dropWhile p) := by
  induction s with
  | nil => rfl
  | cons c r ih =>
    by_cases hc : c = '\n'
    · subst hc
      cases hp : p '\n' <;> simp_all
    · rw [withReturns_cons hc, List.dropWhile_cons, List.dropWhile_cons, ih]
      split
      · rfl
      · rw [withReturns_cons hc]

theorem takeWhile_withReturns {p : Char → Bool} (hreturn : p '\r' = false)
    (hnewline : p '\n' = false) (s : List Char) :
    (withReturns s).takeWhile p = s.takeWhile p := by
  induction s with
  | nil => rfl
  | cons c r ih =>
    by_cases hc : c = '\n'
    · subst hc
      simp [hreturn, hnewline]
    · rw [withReturns_cons hc, List.takeWhile_cons, List.takeWhile_cons, ih]

theorem cut_withReturns {sep : Char} (hreturn : sep ≠ '\r') (hnewline : sep ≠ '\n')
    (s : List Char) :
    cut sep (withReturns s) =
      (cut sep s).map fun (a, b) => (withReturns a, withReturns b) := by
  induction s with
  | nil => rfl
  | cons c r ih =>
    by_cases hc : c = '\n'
    · subst hc
      rw [withReturns_newline, cut, if_neg hreturn.symm, cut, if_neg hnewline.symm, ih, cut,
        if_neg hnewline.symm]
      cases cut sep r <;> rfl
    · rw [withReturns_cons hc, cut, cut, ih]
      split
      · rfl
      · cases cut sep r with
        | none => rfl
        | some parts => simp [withReturns_cons hc]

end Text
end FluentMigration
