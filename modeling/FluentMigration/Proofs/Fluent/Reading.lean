import FluentMigration.Proofs.Fluent.ArgumentReading
import FluentMigration.Proofs.Fluent.VariantReading
/-!
Written trees are read back. The recursion over trees puts the lemmas on the constructs together.
-/

namespace FluentMigration
namespace Fluent

theorem printVariants_cons {key : VariantKey} {elements : List Element} {isDefault : Bool}
    (rest : List Variant) (h : Legible elements) :
    printVariants (⟨key, ⟨elements⟩, isDefault⟩ :: rest) =
      variantHead key isDefault ++ shiftLines 4 (Pattern.print ⟨elements⟩) ++
        printVariants rest := by
  rw [printVariants, Variant.print, indentLines_eq_shiftLines h.getLast?_print]
  simp [variantHead]

/-- Variants, or the closing brace in their place, end the pattern before them. -/
theorem endsPattern_variants {vs : List Variant} (h : VariantsWellFormed Legible vs)
    (width : Nat) (rest : List Char) :
    EndsPattern (shiftLines width (printVariants vs ++ ['\n', '\x7d']) ++ rest) := by
  cases vs with
  | nil =>
    simpa [printVariants, shiftLines_cons] using
      endsPattern_of_syntax (k := width) (c := '\x7d') (.inr (.inr rfl)) rest
  | cons v vs =>
    obtain ⟨key, ⟨elements⟩, isDefault⟩ := v
    obtain ⟨⟨hkey, hvalue⟩, _⟩ := h
    obtain ⟨k, hhead⟩ := shiftLines_variantHead hkey width isDefault
    rw [printVariants_cons vs hvalue.1, List.append_assoc, List.append_assoc, shiftLines_append,
      hhead]
    cases isDefault with
    | true => simpa using endsPattern_of_syntax (k := k) (c := '*') (.inr (.inl rfl)) _
    | false => simpa using endsPattern_of_syntax (k := k) (c := '[') (.inl rfl) _

theorem Legible.readsPattern {es : List Element} (h : Legible es)
    (hreads : ∀ e, .placeable e ∈ es → ReadsAs e.print e.reread) :
    ReadsPattern (Pattern.print ⟨es⟩) (Pattern.reread ⟨es⟩) := by
  intro width rest n hrest hn
  rw [h.print_eq_setOut, shiftLines_setOut] at hn ⊢
  rw [Pattern.reread]
  refine optionalPattern_setOut (by omega) hrest h.clean h.headSolid h.lastSolid
    (fun written content hm => ?_) hn
  rcases placeable_mem_escape hm with hm | ⟨c, hc, hl⟩
  · obtain ⟨e, he, rfl, rfl⟩ := placeable_mem_flatten hm
    exact hreads e he
  · cases hl
    have hcontent : isStringContent 0 (String.ofList [c]).toList = true := by
      simp only [needsLiteral, Bool.or_eq_true, Bool.and_eq_true, beq_iff_eq] at hc
      rcases hc with (rfl | rfl) | ⟨(rfl | rfl) | rfl, _⟩ <;> decide
    have hquoted : quoted c = '\x7b' :: ([' '] ++
        (('"' :: (String.ofList [c]).toList ++ ['"']) ++ ([' '] ++ ['\x7d']))) := by
      simp [quoted]
    rw [hquoted]
    exact readsAs_inline (readsInline_string hcontent) rfl (.inr rfl)

theorem countP_rereadVariants (vs : List Variant) :
    (rereadVariants vs).countP (·.isDefault) = vs.countP (·.isDefault) := by
  induction vs with
  | nil => rfl
  | cons v rest ih =>
    obtain ⟨key, value, isDefault⟩ := v
    rw [rereadVariants, Variant.reread, List.countP_cons, List.countP_cons, ih]

mutual

theorem Inline.readsBack (e : Inline) (h : e.WellFormed Legible) :
    ReadsInline e.print e.reread := by
  cases e with
  | string raw =>
    rw [Inline.print, Inline.reread]
    exact readsInline_string h
  | number raw =>
    rw [Inline.print, Inline.reread]
    exact readsInline_number h
  | «variable» id =>
    rw [Inline.print, Inline.reread]
    exact readsInline_variable h
  | message id attr =>
    rw [Inline.print, Inline.reread]
    exact readsInline_message h.1 h.2
  | term id attr arguments =>
    rw [Inline.print, Inline.reread]
    cases arguments with
    | none =>
      rw [printOptional, List.append_nil]
      exact readsInline_term h.1 h.2.1
    | some arguments => exact readsInline_termCall h.1 h.2.1 (Arguments.readsBack arguments h.2.2)
  | function id arguments =>
    rw [Inline.print, Inline.reread]
    exact readsInline_function h.1 (Arguments.readsBack arguments h.2)
  | placeable content =>
    rw [Inline.print, Inline.reread]
    exact readsInline_placeable (Expression.readsBack content h)
termination_by structural e

theorem Arguments.readsBack (arguments : Arguments) (h : arguments.WellFormed Legible) :
    ReadsArguments arguments.print arguments.reread := by
  obtain ⟨positional, named⟩ := arguments
  rw [Arguments.print, Arguments.reread]
  exact readsArguments_parenthesized (readsAll positional h.1) h.2.1 h.2.2
termination_by structural arguments

theorem readsAll (es : List Inline) (h : InlinesWellFormed Legible es) :
    ReadsAll (printInlines es) (rereadInlines es) := by
  cases es with
  | nil => trivial
  | cons e rest =>
    rw [printInlines, rereadInlines]
    exact ⟨Inline.readsBack e h.1, readsAll rest h.2⟩
termination_by structural es

theorem Expression.readsBack (e : Expression) (h : e.WellFormed Legible) :
    ReadsAs e.print e.reread := by
  cases e with
  | inline content =>
    obtain ⟨gap, hgap, hprint⟩ := printExpression_inline content
    rw [hprint, Expression.reread]
    exact readsAs_inline (Inline.readsBack content h.2) (by rw [canStand_reread]; exact h.1) hgap
  | select selector variants =>
    obtain ⟨hselect, hselector, hdefault, hvariants⟩ := h
    rw [Expression.print, Expression.reread]
    refine readsAs_select (Inline.readsBack selector hselector) (by rwa [canSelect_reread])
      (readsVariants variants hvariants false ?_) (endsPattern_variants hvariants) ?_
    · simp [hdefault]
    · rw [countP_rereadVariants, hdefault]
termination_by structural e

theorem readsVariants (vs : List Variant) (h : VariantsWellFormed Legible vs)
    (hasDefault : Bool) (hdefault : vs.countP (·.isDefault) + hasDefault.toNat ≤ 1) :
    ReadsVariants (printVariants vs) hasDefault (rereadVariants vs) := by
  cases vs with
  | nil =>
    rw [printVariants, rereadVariants]
    exact readsVariants_nil hasDefault
  | cons v rest =>
    have hvalue := Variant.readsBack v h.1
    obtain ⟨key, ⟨elements⟩, isDefault⟩ := v
    rw [printVariants_cons rest h.1.2.1, rereadVariants, Variant.reread]
    rw [List.countP_cons] at hdefault
    refine readsVariants_cons h.1.1 hvalue (readsVariants rest h.2 _ ?_)
      (endsPattern_variants h.2) ?_
    · cases isDefault <;> cases hasDefault <;> simp_all
    · cases isDefault <;> cases hasDefault <;> simp_all
termination_by structural vs

theorem Variant.readsBack (v : Variant) (h : v.WellFormed Legible) :
    ReadsPattern v.value.print v.value.reread := by
  obtain ⟨key, value, isDefault⟩ := v
  exact Pattern.readsBack value h.2
termination_by structural v

theorem Pattern.readsBack (p : Pattern) (h : p.WellFormed Legible) :
    ReadsPattern p.print p.reread := by
  obtain ⟨elements⟩ := p
  exact Legible.readsPattern h.1 (readsElements elements h.2)
termination_by structural p

theorem readsElements (es : List Element) (h : ElementsWellFormed Legible es) :
    ∀ e, .placeable e ∈ es → ReadsAs e.print e.reread := by
  cases es with
  | nil => simp
  | cons x rest =>
    cases x with
    | text v =>
      intro e he
      exact readsElements rest h e (by simpa using he)
    | placeable content =>
      intro e he
      rcases List.mem_cons.1 he with he | he
      · cases he
        exact Expression.readsBack content h.1
      · exact readsElements rest h.2 e he
termination_by structural es

end

end Fluent
end FluentMigration
