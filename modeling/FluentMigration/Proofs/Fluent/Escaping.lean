import FluentMigration.Proofs.Fluent.ResourceReading
import FluentMigration.Proofs.Fluent.Trimmed
/-!
What serializing does to trees that were built rather than parsed. `Resource.escaped` says which
characters of text come back as string literals: every brace, and brackets, stars and points
directly after a line break. For tidy trees, whose texts neither run into each other nor into the
layout, this is all that changes (`parse_serialize_tidy`).
-/

namespace FluentMigration
namespace Fluent

/-- Whether a character of text comes back as a string literal; `afterBreak` tells whether it
directly follows a line break of its text. -/
def comesBackQuoted (afterBreak : Bool) (c : Char) : Bool :=
  c == '\x7b' || c == '\x7d' || afterBreak && (c == '[' || c == '*' || c == '.')

def consChar (c : Char) : List Element → List Element
  | .text v :: rest => .text (String.ofList (c :: v.toList)) :: rest
  | rest => .text (String.ofList [c]) :: rest

def escapedText (afterBreak : Bool) : List Char → List Element
  | [] => []
  | c :: r =>
    if comesBackQuoted afterBreak c then .literal (String.ofList [c]) :: escapedText false r
    else consChar c (escapedText (c == '\n') r)

mutual

def Inline.escaped : Inline → Inline
  | .string raw => .string raw
  | .number raw => .number raw
  | .variable id => .variable id
  | .message id attr => .message id attr
  | .term id attr arguments => .term id attr (escapedOptional arguments)
  | .function id arguments => .function id arguments.escaped
  | .placeable content => .placeable content.escaped
termination_by structural x => x

def escapedOptional : Option Arguments → Option Arguments
  | none => none
  | some arguments => some arguments.escaped
termination_by structural x => x

def Arguments.escaped : Arguments → Arguments
  | ⟨positional, named⟩ => ⟨escapedInlines positional, named⟩
termination_by structural x => x

def escapedInlines : List Inline → List Inline
  | [] => []
  | e :: rest => e.escaped :: escapedInlines rest
termination_by structural x => x

def Expression.escaped : Expression → Expression
  | .inline content => .inline content.escaped
  | .select selector variants => .select selector.escaped (escapedVariants variants)
termination_by structural x => x

def escapedVariants : List Variant → List Variant
  | [] => []
  | v :: rest => v.escaped :: escapedVariants rest
termination_by structural x => x

def Variant.escaped : Variant → Variant
  | ⟨key, value, isDefault⟩ => ⟨key, value.escaped, isDefault⟩
termination_by structural x => x

def Pattern.escaped : Pattern → Pattern
  | ⟨elements⟩ => ⟨escapedElements elements⟩
termination_by structural x => x

def escapedElements : List Element → List Element
  | [] => []
  | .text v :: rest => escapedText false v.toList ++ escapedElements rest
  | .placeable content :: rest => .placeable content.escaped :: escapedElements rest
termination_by structural x => x

end

def Attribute.escaped (a : Attribute) : Attribute := { a with value := a.value.escaped }

def Entry.escaped : Entry → Entry
  | .message m =>
    .message { m with
      value := m.value.map Pattern.escaped
      attributes := m.attributes.map Attribute.escaped }
  | .term t =>
    .term { t with
      value := t.value.escaped
      attributes := t.attributes.map Attribute.escaped }
  | e => e

def Resource.escaped (r : Resource) : Resource := ⟨r.body.map Entry.escaped⟩

/-- A text that is not empty, with no carriage return and no space directly after a line break. -/
def TidyText (v : List Char) : Prop := v ≠ [] ∧ '\r' ∉ v ∧ ¬['\n', ' '] <:+: v

/-- Texts do not stand side by side, and blanks are neither at the beginning nor at the end. -/
structure Tidy (elements : List Element) : Prop where
  nonempty : elements ≠ []
  texts : ∀ v, .text v ∈ elements → TidyText v.toList
  spaced : Spaced elements
  first : ∀ v, elements.head? = some (.text v) → v.toList.head?.all (!isSpaceOrNewline ·) = true
  last : ∀ v, elements.getLast? = some (.text v) →
    v.toList.getLast?.all (!isSpaceOrNewline ·) = true

theorem Tidy.head_spell {es : List Element} (h : Tidy es) : SolidStart (spell es) := by
  cases es with
  | nil => exact absurd rfl h.nonempty
  | cons e rest =>
    cases e with
    | placeable content => rfl
    | text v =>
      have hne := (h.texts v List.mem_cons_self).1
      have hfirst := h.first v rfl
      cases hv : v.toList with
      | nil => exact absurd hv hne
      | cons c r =>
        rw [hv] at hfirst
        simpa [SolidStart, Element.scraps, hv, Scrap.isBlank] using hfirst

theorem Tidy.last_spell {es : List Element} (h : Tidy es) : SolidEnd (spell es) := by
  rcases List.eq_nil_or_concat es with rfl | ⟨rest, e, rfl⟩
  · exact absurd rfl h.nonempty
  · rw [List.concat_eq_append] at h ⊢
    have hspell : spell (rest ++ [e]) = spell rest ++ e.scraps := by simp [spell]
    rw [SolidEnd, hspell]
    cases e with
    | placeable content => simp [Element.scraps, Scrap.isBlank]
    | text v =>
      have hne := (h.texts v (by simp)).1
      have hlast := h.last v (by simp)
      rcases List.eq_nil_or_concat v.toList with hv | ⟨a, c, hv⟩
      · exact absurd hv hne
      · rw [hv] at hlast
        simpa [Element.scraps, hv, Scrap.isBlank] using hlast

theorem Tidy.trimmed {es : List Element} (h : Tidy es) : Trimmed es where
  full := by
    intro e he
    cases e with
    | placeable content => rfl
    | text v =>
      simpa [Element.isEmptyText, String.isEmpty_iff] using (h.texts v he).1
  start := h.head_spell
  finish := h.last_spell

theorem Tidy.printable {es : List Element} (h : Tidy es) : Printable es := by
  refine h.trimmed.printable fun hm => ?_
  obtain ⟨v, hv, hreturn⟩ := char_mem_spell.1 hm
  exact (h.texts v hv).2.1 hreturn

/-- No space directly follows a line break; the first argument tells whether one was just written.
-/
def Flush : Bool → List Scrap → Prop
  | _, [] => True
  | afterBreak, .char c :: r => (afterBreak = true → c ≠ ' ') ∧ Flush (c == '\n') r
  | _, .placeable _ _ :: r => Flush false r

theorem Flush.tail {afterBreak : Bool} {c : Char} {r : List Scrap}
    (h : Flush afterBreak (.char c :: r)) (hc : c ≠ '\n') : Flush false r := by
  have hr := h.2
  rwa [beq_eq_false_iff_ne.2 hc] at hr

theorem flush_mono {ss : List Scrap} (h : Flush true ss) (afterBreak : Bool) :
    Flush afterBreak ss := by
  cases ss with
  | nil => trivial
  | cons s r =>
    cases s with
    | char c => exact ⟨fun _ => h.1 rfl, h.2⟩
    | placeable written content => exact h

theorem flush_of_solid {ss : List Scrap} (h : Flush false ss)
    (hhead : ss.head?.all (!·.isBlank) = true) (afterBreak : Bool) : Flush afterBreak ss := by
  cases ss with
  | nil => trivial
  | cons s r =>
    cases s with
    | placeable written content => exact h
    | char c =>
      refine ⟨fun _ hc => ?_, h.2⟩
      subst hc
      cases hhead

theorem flush_text {v : List Char} (hv : ¬['\n', ' '] <:+: v) {ss : List Scrap}
    (hss : Flush true ss) {afterBreak : Bool} (hhead : afterBreak = true → v.head? ≠ some ' ') :
    Flush afterBreak (v.map .char ++ ss) := by
  induction v generalizing afterBreak with
  | nil => exact flush_mono hss afterBreak
  | cons c r ih =>
    refine ⟨fun hb hc => hhead hb (by rw [hc]; rfl), ih (fun hr => hv ?_) fun hc hr => hv ?_⟩
    · exact hr.trans (List.suffix_cons c r).isInfix
    · obtain ⟨t, rfl⟩ := List.head?_eq_some_iff.1 hr
      have hc : c = '\n' := by simpa using hc
      exact ⟨[], t, by simp [hc]⟩

theorem flush_flatten {es : List Element} (htexts : ∀ v, .text v ∈ es → TidyText v.toList)
    (hspaced : Spaced es) :
    Flush false (flatten es) ∧ (startsWithText es = false → Flush true (flatten es)) := by
  induction es with
  | nil => exact ⟨trivial, fun _ => trivial⟩
  | cons e rest ih =>
    have htexts' := fun v hv => htexts v (List.mem_cons_of_mem _ hv)
    cases e with
    | placeable content =>
      have hrest := (ih htexts' hspaced).1
      rw [flatten]
      exact ⟨hrest, fun _ => hrest⟩
    | text v =>
      have hrest := (ih htexts' hspaced.2).2 hspaced.1
      rw [flatten]
      exact ⟨flush_text (htexts v List.mem_cons_self).2.2 hrest fun h => Bool.noConfusion h,
        fun h => Bool.noConfusion h⟩

theorem flush_escape {ss : List Scrap} {afterBreak atStart : Bool} (h : Flush afterBreak ss) :
    Flush afterBreak (escape atStart ss) := by
  induction ss generalizing afterBreak atStart with
  | nil => trivial
  | cons s r ih =>
    cases s with
    | placeable written content => exact ih h
    | char c =>
      by_cases hn : needsLiteral atStart c = true
      · have hc : (c == '\n') = false := by
          have hb := not_blank_of_needsLiteral hn
          simp only [isSpaceOrNewline, Bool.or_eq_false_iff] at hb
          exact hb.2
        have hr := h.2
        rw [hc] at hr
        simp only [escape, hn, if_true, literalScrap]
        exact ih hr
      · simp only [escape, hn]
        exact ⟨h.1, ih h.2⟩

theorem tidyLines_of_flush {ss : List Scrap} {afterBreak : Bool} (h : Flush afterBreak ss) :
    TidyLines (if afterBreak then some 0 else none) ss := by
  induction ss generalizing afterBreak with
  | nil => trivial
  | cons s r ih =>
    cases s with
    | placeable written content => exact ih h
    | char c =>
      simp only [TidyLines]
      split
      · next hc =>
        subst hc
        exact ⟨by cases afterBreak <;> rfl, ih h.2⟩
      · next hc =>
        have hr := h.tail hc
        split
        · next hs =>
          cases afterBreak with
          | true => exact absurd hs (h.1 rfl)
          | false => exact ih hr
        · exact ih hr

theorem widths_of_flush {ss : List Scrap} {afterBreak : Bool} (h : Flush afterBreak ss)
    (newlines : Nat) :
    ∀ w ∈ widths (if afterBreak then some (newlines, 0) else none) ss, w = 0 := by
  induction ss generalizing afterBreak newlines with
  | nil => cases afterBreak <;> exact nofun
  | cons s r ih =>
    have hnone : Flush false r → ∀ w ∈ ((if afterBreak then some (newlines, 0) else none).map
        (·.2)).toList ++ widths none r, w = 0 := by
      intro hr w hw
      rcases List.mem_append.1 hw with hw | hw
      · cases afterBreak <;> simp at hw
        exact hw
      · exact ih hr newlines w hw
    cases s with
    | placeable written content =>
      rw [widths_placeable]
      exact hnone h
    | char c =>
      by_cases hc : c = '\n'
      · subst hc
        obtain ⟨n, hn⟩ := widths_newline r (if afterBreak then some (newlines, 0) else none)
        rw [hn]
        exact ih h.2 n
      · have hr := h.tail hc
        by_cases hs : c = ' '
        · subst hs
          cases afterBreak with
          | true => exact absurd rfl (h.1 rfl)
          | false =>
            rw [if_neg nofun, widths_space]
            exact ih hr newlines
        · rw [widths_solid (by simp [isSpaceOrNewline, hs, hc])]
          exact hnone hr

theorem needsLiteral_eq (afterBreak : Bool) (c : Char) :
    needsLiteral afterBreak c = comesBackQuoted afterBreak c := by
  rw [needsLiteral, comesBackQuoted, Bool.and_comm]

theorem consChar_append (c : Char) {a b : List Element} (h : a = [] → startsWithText b = false) :
    consChar c (a ++ b) = consChar c a ++ b := by
  cases a with
  | nil =>
    cases b with
    | nil => rfl
    | cons e t =>
      cases e with
      | text v => cases h rfl
      | placeable content => rfl
  | cons e t => cases e <;> rfl

theorem unflatten_char (c : Char) (ss : List Scrap) :
    unflatten (.char c :: ss) = consChar c (unflatten ss) := by
  cases hu : unflatten ss with
  | nil => simp [unflatten, hu, consChar]
  | cons e t => cases e <;> simp [unflatten, hu, consChar]

theorem unflatten_escape_text {v : List Char} (hv : ¬['\n', ' '] <:+: v) {ss : List Scrap}
    (hss : ∀ atStart, unflatten (escape atStart ss) = unflatten (escape false ss))
    (htext : startsWithText (unflatten (escape false ss)) = false) {afterBreak : Bool}
    (hhead : afterBreak = true → v.head? ≠ some ' ') :
    unflatten (escape afterBreak (v.map .char ++ ss)) =
      escapedText afterBreak v ++ unflatten (escape false ss) := by
  induction v generalizing afterBreak with
  | nil => exact hss afterBreak
  | cons c r ih =>
    have hr : ¬['\n', ' '] <:+: r := fun hr => hv (hr.trans (List.suffix_cons c r).isInfix)
    rw [List.map_cons, List.cons_append, escape, escapedText, ← needsLiteral_eq]
    by_cases hn : needsLiteral afterBreak c = true
    · have hnext : false = true → r.head? ≠ some ' ' := fun h => Bool.noConfusion h
      rw [if_pos hn, if_pos hn, lineStartAfter_of_needsLiteral hn, literalScrap, unflatten,
        ih hr hnext]
      rfl
    · have hline : lineStartAfter afterBreak c = (c == '\n') := by
        cases afterBreak with
        | false => simp [lineStartAfter]
        | true =>
          have hc : c ≠ ' ' := fun hc => hhead rfl (by rw [hc]; rfl)
          simp [lineStartAfter, hc]
      have hnext : (c == '\n') = true → r.head? ≠ some ' ' := by
        intro hc hr
        obtain ⟨t, rfl⟩ := List.head?_eq_some_iff.1 hr
        have hc : c = '\n' := by simpa using hc
        exact hv ⟨[], t, by simp [hc]⟩
      rw [if_neg hn, if_neg hn, hline, unflatten_char, ih hr hnext, consChar_append]
      exact fun _ => htext

theorem unflatten_escape_flatten {es : List Element}
    (htexts : ∀ v, .text v ∈ es → TidyText v.toList) (hspaced : Spaced es)
    (hsame : ∀ e, .placeable e ∈ es → e.reread = e.escaped) :
    unflatten (escape false (flatten es)) = escapedElements es ∧
      (startsWithText es = false → ∀ atStart,
        unflatten (escape atStart (flatten es)) = unflatten (escape false (flatten es)) ∧
          startsWithText (unflatten (escape atStart (flatten es))) = false) := by
  induction es with
  | nil => exact ⟨rfl, fun _ _ => ⟨rfl, rfl⟩⟩
  | cons e rest ih =>
    have htexts' := fun v hv => htexts v (List.mem_cons_of_mem _ hv)
    have hsame' := fun e he => hsame e (List.mem_cons_of_mem _ he)
    cases e with
    | placeable content =>
      have hrest := (ih htexts' hspaced hsame').1
      rw [flatten, escapedElements, ← hrest, ← hsame content List.mem_cons_self]
      exact ⟨rfl, fun _ _ => ⟨rfl, rfl⟩⟩
    | text v =>
      obtain ⟨hrest, hstart⟩ := ih htexts' hspaced.2 hsame'
      have hstart := hstart hspaced.1
      refine ⟨?_, fun h => Bool.noConfusion h⟩
      rw [flatten, escapedElements, ← hrest]
      exact unflatten_escape_text (htexts v List.mem_cons_self).2.2 (fun b => (hstart b).1)
        (hstart false).2 fun h => Bool.noConfusion h

theorem Tidy.reread_eq {es : List Element} (h : Tidy es)
    (hsame : ∀ e, .placeable e ∈ es → e.reread = e.escaped) :
    Pattern.reread ⟨es⟩ = Pattern.escaped ⟨es⟩ := by
  have hhead : (escape false (flatten es)).head?.all (!·.isBlank) = true := by
    rw [all_head?_isBlank, map_isBlank_written, ← all_head?_isBlank]
    cases hs : (spell es).head? with
    | none => rfl
    | some s => simpa [SolidStart, hs] using h.head_spell
  have hflush := flush_of_solid (flush_escape (flush_flatten h.texts h.spaced).1) hhead
  have htext := (unflatten_escape_flatten h.texts h.spaced hsame).1
  apply Pattern.ext_elements
  rw [Pattern.reread, Pattern.escaped, ← htext]
  refine elements_settle h.printable.lastSolid (tidyLines_of_flush (hflush _))
    (fun _ hnewline => ?_) ?_
  · rw [hnewline] at hhead
    cases hhead
  · rw [commonIndent_pieces]
    cases startsBlock es with
    | true => exact min?_of_zeros (widths_of_flush (hflush true) 1)
    | false => exact min?_of_zeros (widths_of_flush (hflush false) 0)

mutual

theorem Inline.reread_eq_escaped (e : Inline) (h : e.WellFormed Tidy) : e.reread = e.escaped := by
  cases e with
  | term id attr arguments =>
    rw [Inline.reread, Inline.escaped, rereadOptional_eq_escaped arguments h.2.2]
  | function id arguments =>
    rw [Inline.reread, Inline.escaped, Arguments.reread_eq_escaped arguments h.2]
  | placeable content =>
    rw [Inline.reread, Inline.escaped, Expression.reread_eq_escaped content h]
  | _ => simp only [Inline.reread, Inline.escaped]
termination_by structural e

theorem rereadOptional_eq_escaped (arguments : Option Arguments)
    (h : OptionalWellFormed Tidy arguments) :
    rereadOptional arguments = escapedOptional arguments := by
  cases arguments with
  | none => rfl
  | some arguments =>
    rw [rereadOptional, escapedOptional, Arguments.reread_eq_escaped arguments h]
termination_by structural arguments

theorem Arguments.reread_eq_escaped (arguments : Arguments) (h : arguments.WellFormed Tidy) :
    arguments.reread = arguments.escaped := by
  obtain ⟨positional, named⟩ := arguments
  rw [Arguments.reread, Arguments.escaped, rereadInlines_eq_escaped positional h.1]
termination_by structural arguments

theorem rereadInlines_eq_escaped (es : List Inline) (h : InlinesWellFormed Tidy es) :
    rereadInlines es = escapedInlines es := by
  cases es with
  | nil => rfl
  | cons e rest =>
    rw [rereadInlines, escapedInlines, Inline.reread_eq_escaped e h.1,
      rereadInlines_eq_escaped rest h.2]
termination_by structural es

theorem Expression.reread_eq_escaped (e : Expression) (h : e.WellFormed Tidy) :
    e.reread = e.escaped := by
  cases e with
  | inline content =>
    rw [Expression.reread, Expression.escaped, Inline.reread_eq_escaped content h.2]
  | select selector variants =>
    rw [Expression.reread, Expression.escaped, Inline.reread_eq_escaped selector h.2.1,
      rereadVariants_eq_escaped variants h.2.2.2]
termination_by structural e

theorem rereadVariants_eq_escaped (vs : List Variant) (h : VariantsWellFormed Tidy vs) :
    rereadVariants vs = escapedVariants vs := by
  cases vs with
  | nil => rfl
  | cons v rest =>
    rw [rereadVariants, escapedVariants, Variant.reread_eq_escaped v h.1,
      rereadVariants_eq_escaped rest h.2]
termination_by structural vs

theorem Variant.reread_eq_escaped (v : Variant) (h : v.WellFormed Tidy) :
    v.reread = v.escaped := by
  obtain ⟨key, value, isDefault⟩ := v
  rw [Variant.reread, Variant.escaped, Pattern.reread_eq_escaped value h.2]
termination_by structural v

theorem Pattern.reread_eq_escaped (p : Pattern) (h : p.WellFormed Tidy) :
    p.reread = p.escaped := by
  obtain ⟨elements⟩ := p
  exact h.1.reread_eq (rereadElements_eq_escaped elements h.2)
termination_by structural p

theorem rereadElements_eq_escaped (es : List Element) (h : ElementsWellFormed Tidy es) :
    ∀ e, .placeable e ∈ es → e.reread = e.escaped := by
  cases es with
  | nil => simp
  | cons x rest =>
    cases x with
    | text v =>
      intro e he
      exact rereadElements_eq_escaped rest h e (by simpa using he)
    | placeable content =>
      intro e he
      rcases List.mem_cons.1 he with he | he
      · cases he
        exact Expression.reread_eq_escaped content h.1
      · exact rereadElements_eq_escaped rest h.2 e he
termination_by structural es

end

theorem Entry.reread_eq_escaped {e : Entry} (h : e.WellFormed Tidy) : e.reread = e.escaped := by
  have hattributes : ∀ l : List Attribute, (∀ a ∈ l, a.WellFormed Tidy) →
      l.map Attribute.reread = l.map Attribute.escaped := fun l hl =>
    List.map_congr_left fun a ha => by
      rw [Attribute.reread, Attribute.escaped, Pattern.reread_eq_escaped a.value (hl a ha).2]
  cases e with
  | message m =>
    obtain ⟨_, hvalue, hattr, _⟩ := h
    have hvalue : m.value.map Pattern.reread = m.value.map Pattern.escaped := by
      cases hv : m.value with
      | none => rfl
      | some p => rw [Option.map_some, Option.map_some, Pattern.reread_eq_escaped p (hvalue p hv)]
    rw [Entry.reread, Entry.escaped, hvalue, hattributes _ hattr]
  | term t =>
    rw [Entry.reread, Entry.escaped, Pattern.reread_eq_escaped t.value h.2.1,
      hattributes _ h.2.2.1]
  | comment level content => rfl
  | junk j => rfl

/-- A tidy resource is read back as it was built, but for the characters that were escaped. -/
theorem parse_serialize_tidy (r : Resource) (h : ∀ e ∈ r.body, e.WellFormed Tidy) :
    Resource.parse r.serialize = r.escaped := by
  have hbody := parse_serialize fun e he =>
    Entry.WellFormed.mono (fun _ => Tidy.printable) e (h e he)
  rw [hbody, Resource.escaped]
  exact congrArg Resource.mk (List.map_congr_left fun e he => Entry.reread_eq_escaped (h e he))

/-- A brace, a bracket after a line break, and a star at the start of a variant. -/
theorem parse_serialize_tidy_choice :
    (∀ e ∈ [Entry.message ⟨"a", some ⟨[.text "x\x7b\n[y ", .placeable (.select (.variable "n")
        [⟨.identifier "o", ⟨[.text "*\x7d"]⟩, true⟩])]⟩, [], some "c"⟩], e.WellFormed Tidy) ∧
      Resource.parse (Resource.serialize ⟨[.message ⟨"a", some ⟨[.text "x\x7b\n[y ",
        .placeable (.select (.variable "n") [⟨.identifier "o", ⟨[.text "*\x7d"]⟩, true⟩])]⟩, [],
          some "c"⟩]⟩) =
        ⟨[.message ⟨"a", some ⟨[.text "x", .literal "\x7b", .text "\n", .literal "[", .text "y ",
          .placeable (.select (.variable "n")
            [⟨.identifier "o", ⟨[.text "*", .literal "\x7d"]⟩, true⟩])]⟩, [], some "c"⟩]⟩ := by
  have hstar : Tidy [.text "*\x7d"] :=
    ⟨by decide, by simp [TidyText]; decide, ⟨rfl, trivial⟩, by simp; decide, by simp; decide⟩
  have hchoice : Tidy [.text "x\x7b\n[y ", .placeable (.select (.variable "n")
      [⟨.identifier "o", ⟨[.text "*\x7d"]⟩, true⟩])] :=
    ⟨by decide, by simp [TidyText]; decide, ⟨rfl, trivial⟩, by simp; decide, by simp⟩
  have hname : isIdentifier "n".toList = true ∧ isIdentifier "o".toList = true := by decide
  have hwf : ∀ e ∈ [Entry.message ⟨"a", some ⟨[.text "x\x7b\n[y ",
      .placeable (.select (.variable "n") [⟨.identifier "o", ⟨[.text "*\x7d"]⟩, true⟩])]⟩, [],
        some "c"⟩], e.WellFormed Tidy := by
    intro e he
    rw [List.mem_singleton.1 he]
    refine ⟨by decide, fun p hp => ?_, nofun, .inl rfl, fun c hc => ?_⟩
    · cases hp
      exact ⟨hchoice, ⟨rfl, hname.1, rfl, ⟨hname.2, hstar, trivial⟩, trivial⟩, trivial⟩
    · cases hc
      decide
  exact ⟨hwf, (parse_serialize_tidy ⟨_⟩ hwf).trans (by decide)⟩

end Fluent
end FluentMigration
