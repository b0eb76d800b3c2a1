import FluentMigration.Proofs.Fluent.Reread
import FluentMigration.Proofs.Fluent.Settled
/-!
Patterns that begin and end with something solid. Whatever else they hold, their layout cannot run
into their text, so they are legible, and printable once they hold no carriage return
(`Trimmed.spelled`).
-/

namespace FluentMigration
namespace Fluent

/-- Something solid stands in front. -/
def SolidStart (ss : List Scrap) : Prop := ss.head?.any (!·.isBlank) = true

/-- Elements without empty text whose blanks are neither at the beginning nor at the end. -/
structure Trimmed (elements : List Element) : Prop where
  full : ∀ e ∈ elements, e.isEmptyText = false
  start : SolidStart (spell elements)
  finish : SolidEnd (spell elements)

theorem startsWithLineSyntax_eq {es : List Element} (h : ∀ e ∈ es, e.isEmptyText = false) :
    startsWithLineSyntax es = (spell es).head?.any Scrap.opensSyntax := by
  cases es with
  | nil => rfl
  | cons e rest =>
    cases e with
    | placeable content => rfl
    | text v =>
      have hne : v.toList ≠ [] := by
        have hv := h _ List.mem_cons_self
        simpa [Element.isEmptyText, String.isEmpty_iff] using hv
      obtain ⟨c, r, hv⟩ := List.exists_cons_of_ne_nil hne
      have hor : (c == '[' || c == '.' || c == '*') = (c == '[' || c == '*' || c == '.') := by
        cases c == '[' <;> cases c == '.' <;> cases c == '*' <;> rfl
      simpa [startsWithLineSyntax, Element.scraps, hv, Scrap.opensSyntax] using hor

namespace Trimmed

variable {es : List Element} (h : Trimmed es)

include h

theorem opening (hblock : startsBlock es = true) :
    ((spell es).dropWhile Scrap.isBlank).head?.all (!·.opensSyntax) = true := by
  have hmark : startsWithLineSyntax es = false := by
    simp only [startsBlock, Bool.and_eq_true, Bool.not_eq_true'] at hblock
    exact hblock.2
  rw [startsWithLineSyntax_eq h.full] at hmark
  have hstart := h.start
  cases hs : spell es with
  | nil => rfl
  | cons s r =>
    rw [hs] at hmark hstart
    have hsolid : s.isBlank = false := by simpa [SolidStart] using hstart
    simpa [hsolid] using hmark

theorem legible : Legible es where
  solidEnd := h.finish
  opening := h.opening
  solidHead := by
    intro _
    have hstart := h.start
    cases hs : (spell es).head? with
    | none => rfl
    | some s => simpa [SolidStart, hs] using hstart

theorem printable (hreturn : .char '\r' ∉ spell es) : Printable es where
  toLegible := h.legible
  noReturn := by
    intro e he
    cases e with
    | placeable content => rfl
    | text v =>
      have hv : '\r' ∉ v.toList := fun hc => hreturn (char_mem_spell.2 ⟨v, he, hc⟩)
      simpa [Element.hasReturn] using hv

theorem spelled {plain : Prop} (hreturn : plain → .char '\r' ∉ spell es) : Spelled plain es :=
  ⟨h.legible, fun hplain => h.printable (hreturn hplain)⟩

end Trimmed

end Fluent
end FluentMigration
