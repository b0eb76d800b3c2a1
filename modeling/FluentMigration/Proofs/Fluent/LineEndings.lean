import FluentMigration.Proofs.Fluent.Reread
/-!
Printable trees are written calm: a carriage return can stand in a string literal only, where no
line feed follows it. So normalizing the line endings of what is written changes nothing.
-/

namespace FluentMigration
namespace Fluent

theorem calm_cons {c : Char} (h : c ≠ '\r') {s : List Char} : Text.Calm (c :: s) ↔ Text.Calm s :=
  ⟨fun hs => hs.2, fun hs => ⟨fun hc => absurd hc h, hs⟩⟩

theorem calm_printScraps {width : Nat} {ss : List Scrap} (hreturn : .char '\r' ∉ ss)
    (hwritten : ∀ written content, .placeable written content ∈ ss → Text.Calm written) :
    Text.Calm (printScraps width ss) := by
  induction ss with
  | nil => trivial
  | cons s r ih =>
    have hr := ih (fun hm => hreturn (List.mem_cons_of_mem _ hm)) fun w e hm =>
      hwritten w e (List.mem_cons_of_mem _ hm)
    cases s with
    | placeable written content =>
      exact (calm_shiftLines (hwritten _ _ List.mem_cons_self) width).append hr
    | char c =>
      have hc : c ≠ '\r' := fun hc => hreturn (by simp [hc])
      exact (calm_shiftLines ((calm_cons hc).2 Text.calm_nil) width).append hr

theorem char_mem_escape {atStart : Bool} {ss : List Scrap} {c : Char}
    (h : .char c ∈ escape atStart ss) : .char c ∈ ss := by
  induction ss generalizing atStart with
  | nil => cases h
  | cons s r ih =>
    cases s with
    | placeable written content =>
      rcases List.mem_cons.1 h with h | h
      · cases h
      · exact List.mem_cons_of_mem _ (ih h)
    | char d =>
      rcases List.mem_cons.1 h with h | h
      · split at h
        · cases h
        · exact h ▸ List.mem_cons_self
      · exact List.mem_cons_of_mem _ (ih h)

theorem calm_join {sep : List Char} (hsep : Text.Calm sep) {lines : List (List Char)}
    (h : ∀ l ∈ lines, Text.Calm l) : Text.Calm (Text.join sep lines) := by
  induction lines with
  | nil => trivial
  | cons l r ih =>
    have hl := h l List.mem_cons_self
    have hr := ih fun x hx => h x (List.mem_cons_of_mem _ hx)
    by_cases hne : r = []
    · subst hne
      exact hl
    · rw [Text.join_cons l hne]
      exact (hl.append hsep).append hr

theorem calm_of_identifier {word : List Char} (h : isIdentifier word = true) : Text.Calm word :=
  Text.calm_of_noReturn (noReturn_of_identifier h)

theorem calm_of_number {word : List Char} (h : isNumber word = true) : Text.Calm word :=
  Text.calm_of_noReturn (noNewline_of_number h).2

theorem calm_accessorText {attr : Option String} (h : AccessorWellFormed attr) :
    Text.Calm (accessorText attr) := by
  cases attr with
  | none => trivial
  | some a => exact (calm_cons (by decide)).2 (calm_of_identifier (h a rfl))

theorem calm_key {key : VariantKey} (h : key.WellFormed) : Text.Calm key.text.toList := by
  cases key with
  | identifier name => exact calm_of_identifier h
  | number raw => exact calm_of_number h

theorem calm_printLiteral {e : Inline} (h : e.IsLiteral) : Text.Calm e.print := by
  cases e with
  | string raw => simpa [Inline.print] using calm_quoted (noNewline_of_stringContent h)
  | number raw => simpa [Inline.print] using calm_of_number h
  | _ => exact h.elim

theorem calm_printNamed {named : List NamedArgument} (h : ∀ a ∈ named, a.WellFormed) :
    ∀ w ∈ printNamed named, Text.Calm w := by
  induction named with
  | nil => simp [printNamed]
  | cons a rest ih =>
    intro w hw
    rw [printNamed] at hw
    rcases List.mem_cons.1 hw with rfl | hw
    · obtain ⟨hname, hvalue⟩ := h a List.mem_cons_self
      obtain ⟨name, value⟩ := a
      rw [NamedArgument.print]
      refine (calm_of_identifier hname).append ?_
      rw [calm_cons (by decide), calm_cons (by decide)]
      exact calm_printLiteral hvalue
    · exact ih (fun x hx => h x (List.mem_cons_of_mem _ hx)) w hw

theorem calm_setOut {block : Bool} {width : Nat} {ss : List Scrap} (hreturn : .char '\r' ∉ ss)
    (hwritten : ∀ written content, .placeable written content ∈ ss → Text.Calm written) :
    Text.Calm (setOut block width ss) := by
  cases block with
  | true => exact calm_printScraps (by simpa using hreturn) (by simpa using hwritten)
  | false => exact (calm_cons (by decide)).2 (calm_printScraps hreturn hwritten)

theorem Printable.calm_print {es : List Element} (h : Printable es)
    (hwritten : ∀ e, .placeable e ∈ es → Text.Calm e.print) :
    Text.Calm (Pattern.print ⟨es⟩) := by
  rw [h.print_eq_setOut]
  refine calm_setOut (fun hm => ?_) fun written content hm => ?_
  · obtain ⟨v, hv, hc⟩ := char_mem_spell.1 (char_mem_flatten (char_mem_escape hm))
    have hno := h.noReturn _ hv
    simp [Element.hasReturn, hc] at hno
  · rcases placeable_mem_escape hm with hm | ⟨c, hc, hl⟩
    · obtain ⟨e, he, rfl, _⟩ := placeable_mem_flatten hm
      exact hwritten e he
    · cases hl
      have hc : c ≠ '\r' := ne_of_class hc rfl
      exact Text.calm_of_noReturn (by simp [quoted, hc.symm])

mutual

theorem calm_printInline (e : Inline) (h : e.WellFormed Printable) : Text.Calm e.print := by
  cases e with
  | string raw => exact calm_printLiteral h
  | number raw => exact calm_printLiteral h
  | «variable» id =>
    rw [Inline.print, calm_cons (by decide)]
    exact calm_of_identifier h
  | message id attr =>
    rw [Inline.print]
    exact (calm_of_identifier h.1).append (calm_accessorText h.2)
  | term id attr arguments =>
    rw [Inline.print]
    refine Text.Calm.append ?_ (calm_printOptional arguments h.2.2)
    refine Text.Calm.append ?_ (calm_accessorText h.2.1)
    exact (calm_cons (by decide)).2 (calm_of_identifier h.1)
  | function id arguments =>
    rw [Inline.print]
    exact (calm_of_identifier (identifier_of_callee h.1)).append (calm_printArguments arguments h.2)
  | placeable content =>
    rw [Inline.print]
    exact calm_printExpression content h
termination_by structural e

theorem calm_printOptional (arguments : Option Arguments)
    (h : OptionalWellFormed Printable arguments) : Text.Calm (printOptional arguments) := by
  cases arguments with
  | none => trivial
  | some arguments =>
    rw [printOptional]
    exact calm_printArguments arguments h
termination_by structural arguments

theorem calm_printArguments (arguments : Arguments) (h : arguments.WellFormed Printable) :
    Text.Calm arguments.print := by
  obtain ⟨positional, named⟩ := arguments
  rw [Arguments.print, parenthesized]
  have hjoin : Text.Calm (Text.join [',', ' '] (printInlines positional ++ printNamed named)) := by
    refine calm_join (Text.calm_of_noReturn (by decide)) fun w hw => ?_
    rcases List.mem_append.1 hw with hw | hw
    · exact calm_printInlines positional h.1 w hw
    · exact calm_printNamed h.2.1 w hw
  exact ((calm_cons (by decide)).2 hjoin).append (Text.calm_of_noReturn (by decide))
termination_by structural arguments

theorem calm_printInlines (es : List Inline) (h : InlinesWellFormed Printable es) :
    ∀ w ∈ printInlines es, Text.Calm w := by
  cases es with
  | nil => simp [printInlines]
  | cons e rest =>
    intro w hw
    rw [printInlines] at hw
    rcases List.mem_cons.1 hw with rfl | hw
    · exact calm_printInline e h.1
    · exact calm_printInlines rest h.2 w hw
termination_by structural es

theorem calm_printExpression (e : Expression) (h : e.WellFormed Printable) :
    Text.Calm e.print := by
  cases e with
  | select selector variants =>
    have hselector := calm_printInline selector h.2.1
    have hvariants := calm_printVariants variants h.2.2.2
    rw [Expression.print]
    refine Text.Calm.append (Text.Calm.append ?_ ?_) (Text.calm_of_noReturn (by decide))
    · rwa [calm_cons (by decide), calm_cons (by decide)]
    · rwa [calm_cons (by decide), calm_cons (by decide), calm_cons (by decide)]
  | inline content =>
    have hcontent := calm_printInline content h.2
    obtain ⟨gap, hgap, hprint⟩ := printExpression_inline content
    have hgap : Text.Calm gap := by
      rcases hgap with rfl | rfl <;> exact Text.calm_of_noReturn (by decide)
    rw [hprint, calm_cons (by decide)]
    exact hgap.append (hcontent.append (hgap.append (Text.calm_of_noReturn (by decide))))
termination_by structural e

theorem calm_printVariants (vs : List Variant) (h : VariantsWellFormed Printable vs) :
    Text.Calm (printVariants vs) := by
  cases vs with
  | nil => trivial
  | cons v rest =>
    rw [printVariants]
    exact (calm_printVariant v h.1).append (calm_printVariants rest h.2)
termination_by structural vs

theorem calm_printVariant (v : Variant) (h : v.WellFormed Printable) : Text.Calm v.print := by
  obtain ⟨key, value, isDefault⟩ := v
  have hkey := calm_key h.1
  have hvalue := calm_printPattern value h.2
  obtain ⟨elements⟩ := value
  rw [Variant.print, indentLines_eq_shiftLines h.2.1.getLast?_print]
  refine Text.Calm.append ?_ ((calm_cons (by decide)).2 (calm_shiftLines hvalue 4))
  have hmark : (if isDefault = true then '*' else ' ') ≠ '\r' := by split <;> decide
  rwa [calm_cons (by decide), calm_cons (by decide), calm_cons (by decide), calm_cons (by decide),
    calm_cons hmark, calm_cons (by decide)]
termination_by structural v

theorem calm_printPattern (p : Pattern) (h : p.WellFormed Printable) : Text.Calm p.print := by
  obtain ⟨elements⟩ := p
  exact Printable.calm_print h.1 (calm_printElements elements h.2)
termination_by structural p

theorem calm_printElements (es : List Element) (h : ElementsWellFormed Printable es) :
    ∀ e, .placeable e ∈ es → Text.Calm e.print := by
  cases es with
  | nil => simp
  | cons x rest =>
    cases x with
    | text v =>
      intro e he
      exact calm_printElements rest h e (by simpa using he)
    | placeable content =>
      intro e he
      rcases List.mem_cons.1 he with he | he
      · cases he
        exact calm_printExpression content h.1
      · exact calm_printElements rest h.2 e he
termination_by structural es

end

end Fluent
end FluentMigration
