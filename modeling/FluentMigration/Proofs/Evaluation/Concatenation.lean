import FluentMigration.Evaluation
import FluentMigration.Proofs.Fluent.NormalForm
/-!
Concatenation. Every part is made normal before it is put beside the next, but the blanks that are
set off for it are joined with what comes after, so it makes no difference how the parts are
grouped, and texts concatenate to the text they make up (`evaluate_concat_flat`).
-/

namespace FluentMigration

open Fluent

variable {lookup : Lookup}

theorem evaluateParts_append (xs ys : List Transform) :
    evaluateParts lookup (xs ++ ys) = (do
      let before ← evaluateParts lookup xs
      let after ← evaluateParts lookup ys
      .ok (before ++ after)) := by
  induction xs with
  | nil =>
    show evaluateParts lookup ys = _
    cases evaluateParts lookup ys <;> rfl
  | cons part rest ih =>
    rw [List.cons_append, evaluateParts, evaluateParts, ih]
    cases part.evaluate lookup with
    | error absent => rfl
    | ok pattern =>
      cases evaluateParts lookup rest with
      | error absent => rfl
      | ok before =>
        cases evaluateParts lookup ys with
        | error absent => rfl
        | ok after => exact congrArg Except.ok (List.append_assoc _ before after).symm

theorem ofElements_nested (before es after : List Element) :
    Pattern.ofElements (before ++ ((Pattern.ofElements es).elements ++ after)) =
      Pattern.ofElements (before ++ (es ++ after)) := by
  apply ofElements_eq_iff.2
  simp only [wording_append, wording_ofElements]

theorem evaluate_concat_nested (xs ys zs : List Transform) :
    (Transform.concat (xs ++ [.concat ys] ++ zs)).evaluate lookup =
      (Transform.concat (xs ++ ys ++ zs)).evaluate lookup := by
  have hnested : evaluateParts lookup (.concat ys :: zs) = (do
      let pattern ← (Transform.concat ys).evaluate lookup
      let others ← evaluateParts lookup zs
      .ok (pattern.elements ++ others)) := rfl
  simp only [List.append_assoc, List.singleton_append]
  rw [Transform.evaluate, Transform.evaluate, evaluateParts_append, evaluateParts_append xs,
    evaluateParts_append ys, hnested, Transform.evaluate]
  -- The first of the three lists with an absent part decides on both sides.
  cases evaluateParts lookup xs with
  | error absent => rfl
  | ok before =>
    cases evaluateParts lookup ys with
    | error absent => rfl
    | ok es =>
      cases evaluateParts lookup zs with
      | error absent => rfl
      | ok after => exact congrArg Except.ok (ofElements_nested before es after)

theorem evaluateParts_texts (lookup : Lookup) (values : List String) :
    ∃ es, evaluateParts lookup (values.map .text) = .ok es ∧
      wording es = wording [.text (String.join values)] := by
  induction values with
  | nil => exact ⟨[], rfl, rfl⟩
  | cons value rest ih =>
    obtain ⟨es, heval, hsame⟩ := ih
    refine ⟨(textPattern value).elements ++ es, ?_, ?_⟩
    · rw [List.map_cons, evaluateParts, heval]
      rfl
    · rw [wording_append, textPattern, wording_ofElements, hsame, String.join_cons]
      simp [Element.unmarked, Element.scraps]

theorem evaluate_concat_texts (values : List String) :
    (Transform.concat (values.map .text)).evaluate lookup =
      (Transform.text (String.join values)).evaluate lookup := by
  obtain ⟨es, heval, hsame⟩ := evaluateParts_texts lookup values
  simp only [Transform.evaluate, heval]
  exact congrArg Except.ok (ofElements_eq_iff.2 hsame)

/-- A concatenation within another one can be replaced by its parts, whether they are there or which
is absent, and one of texts by the text. -/
theorem evaluate_concat_flat (lookup : Lookup) :
    (∀ xs ys zs : List Transform,
      (Transform.concat (xs ++ [.concat ys] ++ zs)).evaluate lookup =
        (Transform.concat (xs ++ ys ++ zs)).evaluate lookup) ∧
    ∀ values : List String, (Transform.concat (values.map .text)).evaluate lookup =
      (Transform.text (String.join values)).evaluate lookup :=
  ⟨evaluate_concat_nested, evaluate_concat_texts⟩

end FluentMigration
