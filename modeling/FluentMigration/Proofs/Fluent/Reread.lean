import FluentMigration.Proofs.Fluent.PatternReading
import FluentMigration.Proofs.Fluent.WellFormed
/-!
What a tree is read back as. Only patterns change: text that would be syntax comes back as literals,
and the indentation that all lines share is gone. `Pattern.reread` says this without a reader, by
cutting the escaped scraps of the pattern anew, so whether a tree is a fixed point of it is a
question about trees.
-/

namespace FluentMigration
namespace Fluent

mutual

def Inline.reread : Inline → Inline
  | .string raw => .string raw
  | .number raw => .number raw
  | .variable id => .variable id
  | .message id attr => .message id attr
  | .term id attr arguments => .term id attr (rereadOptional arguments)
  | .function id arguments => .function id arguments.reread
  | .placeable content => .placeable content.reread
termination_by structural x => x

def rereadOptional : Option Arguments → Option Arguments
  | none => none
  | some arguments => some arguments.reread
termination_by structural x => x

/-- Named arguments are literals. -/
def Arguments.reread : Arguments → Arguments
  | ⟨positional, named⟩ => ⟨rereadInlines positional, named⟩
termination_by structural x => x

def rereadInlines : List Inline → List Inline
  | [] => []
  | e :: rest => e.reread :: rereadInlines rest
termination_by structural x => x

def Expression.reread : Expression → Expression
  | .inline content => .inline content.reread
  | .select selector variants => .select selector.reread (rereadVariants variants)
termination_by structural x => x

def rereadVariants : List Variant → List Variant
  | [] => []
  | v :: rest => v.reread :: rereadVariants rest
termination_by structural x => x

def Variant.reread : Variant → Variant
  | ⟨key, value, isDefault⟩ => ⟨key, value.reread, isDefault⟩
termination_by structural x => x

def Pattern.reread : Pattern → Pattern
  | ⟨elements⟩ => settle (startsBlock elements) (escape false (flatten elements))
termination_by structural x => x

/-- The scraps of elements, the placeables among them as they are read back. -/
def flatten : List Element → List Scrap
  | [] => []
  | .text v :: rest => v.toList.map .char ++ flatten rest
  | .placeable content :: rest => .placeable content.print content.reread :: flatten rest
termination_by structural x => x

end

def Attribute.reread (a : Attribute) : Attribute := { a with value := a.value.reread }

def Entry.reread : Entry → Entry
  | .message m =>
    .message { m with
      value := m.value.map Pattern.reread
      attributes := m.attributes.map Attribute.reread }
  | .term t =>
    .term { t with
      value := t.value.reread
      attributes := t.attributes.map Attribute.reread }
  | e => e

@[simp] theorem canStand_reread (e : Inline) : e.reread.canStand = e.canStand := by
  cases e with
  | term id attr arguments => cases attr <;> simp [Inline.reread, Inline.canStand]
  | _ => simp [Inline.reread, Inline.canStand]

@[simp] theorem canSelect_reread (e : Inline) : e.reread.canSelect = e.canSelect := by
  cases e with
  | term id attr arguments => cases attr <;> simp [Inline.reread, Inline.canSelect]
  | _ => simp [Inline.reread, Inline.canSelect]

/-- A character that begins a line of syntax, brackets apart that are escaped everywhere. -/
def Scrap.opensSyntax : Scrap → Bool
  | .char c => c == '[' || c == '*' || c == '.'
  | .placeable _ _ => false

def Element.hasReturn : Element → Bool
  | .text value => value.toList.contains '\r'
  | .placeable _ => false

/-- The elements of a pattern that is read back without junk where line endings are kept: it ends
with something solid, and begins with it unless it is set out in a block; then its first line must
not begin with syntax. -/
structure Legible (elements : List Element) : Prop where
  solidEnd : (spell elements).getLast?.any (!·.isBlank) = true
  opening : startsBlock elements = true →
    ((spell elements).dropWhile Scrap.isBlank).head?.all (!·.opensSyntax) = true
  solidHead : startsBlock elements = false → (spell elements).head?.all (!·.isBlank) = true

/-- Legible, and without the carriage returns that would be taken for line endings. -/
structure Printable (elements : List Element) : Prop extends Legible elements where
  noReturn : ∀ e ∈ elements, e.hasReturn = false

/-- Legible, and printable if it comes from plain text. -/
def Spelled (plain : Prop) (elements : List Element) : Prop :=
  Legible elements ∧ (plain → Printable elements)

/-- The same scrap, but for what is read back for a placeable. -/
def Scrap.mapContent (f : Expression → Expression) : Scrap → Scrap
  | .char c => .char c
  | .placeable written content => .placeable written (f content)

theorem flatten_eq_map_spell (es : List Element) :
    flatten es = (spell es).map (Scrap.mapContent Expression.reread) := by
  induction es with
  | nil => simp [flatten]
  | cons e rest ih =>
    cases e with
    | text v =>
      simp only [flatten, ih, spell_cons, Element.scraps, List.map_append, List.map_map]
      rfl
    | placeable content =>
      simp only [flatten, ih, spell_cons, Element.scraps, List.map_append]
      rfl

@[simp] theorem isBlank_mapContent (f : Expression → Expression) (s : Scrap) :
    (s.mapContent f).isBlank = s.isBlank := by
  cases s <;> rfl

@[simp] theorem opensSyntax_mapContent (f : Expression → Expression) (s : Scrap) :
    (s.mapContent f).opensSyntax = s.opensSyntax := by
  cases s <;> rfl

theorem printText_eq (atStart : Bool) (v : List Char) :
    printText atStart v = printScraps 0 (escape atStart (v.map .char)) := by
  induction v generalizing atStart with
  | nil => rfl
  | cons c r ih =>
    simp only [printText, List.map_cons, escape, ih]
    by_cases hbrace : (c == '\x7b' || c == '\x7d') = true
    · simp [needsLiteral, hbrace, literalScrap, printScraps]
    · by_cases hline : ((c == '[' || c == '*' || c == '.') && atStart) = true
      · rw [if_neg hbrace, if_pos hline]
        simp only [needsLiteral, hline, Bool.or_true, if_true, literalScrap, printScraps,
          shiftLines_zero]
      · rw [if_neg hbrace, if_neg hline]
        have hn : needsLiteral atStart c = false := by
          simp only [Bool.not_eq_true] at hbrace hline
          simp only [needsLiteral, hbrace, hline, Bool.or_false]
        simp [hn, printScraps]

theorem escape_append_chars (atStart : Bool) (v : List Char) (ss : List Scrap) :
    escape atStart (v.map .char ++ ss) =
      escape atStart (v.map .char) ++ escape (lineStartAfterText atStart v) ss := by
  induction v generalizing atStart with
  | nil => rfl
  | cons c r ih => simp [escape, ih, lineStartAfterText]

theorem printElements_eq (atStart : Bool) (es : List Element) :
    printElements atStart es = printScraps 0 (escape atStart (flatten es)) := by
  induction es generalizing atStart with
  | nil => simp [printElements, flatten, escape, printScraps]
  | cons e rest ih =>
    cases e with
    | text v =>
      rw [printElements, flatten, escape_append_chars, printScraps_append, printText_eq, ih]
    | placeable content => simp [printElements, flatten, escape, printScraps, ih]

/-- An inline expression has its braces directly around it, or a space away. -/
theorem printExpression_inline (e : Inline) : ∃ gap, (gap = [] ∨ gap = [' ']) ∧
    (Expression.inline e).print = '\x7b' :: (gap ++ (e.print ++ (gap ++ ['\x7d']))) := by
  cases e with
  | placeable content => exact ⟨[], .inl rfl, by simp [Expression.print, Inline.print]⟩
  | _ => exact ⟨[' '], .inr rfl, by simp [Expression.print]⟩

theorem getLast?_printExpression (e : Expression) : e.print.getLast? = some '\x7d' := by
  cases e with
  | select selector variants => simp [Expression.print, List.getLast?_cons]
  | inline content =>
    obtain ⟨gap, _, hprint⟩ := printExpression_inline content
    simp [hprint, List.getLast?_cons, List.getLast?_append]

theorem placeable_mem_escape {atStart : Bool} {ss : List Scrap} {written : List Char}
    {content : Expression} (h : .placeable written content ∈ escape atStart ss) :
    .placeable written content ∈ ss ∨
      ∃ c, needsLiteral true c = true ∧ .placeable written content = literalScrap c := by
  induction ss generalizing atStart with
  | nil => cases h
  | cons s r ih =>
    cases s with
    | placeable w e =>
      rcases List.mem_cons.1 h with h | h
      · exact .inl (by simp [h])
      · exact (ih h).imp_left (List.mem_cons_of_mem _)
    | char c =>
      rcases List.mem_cons.1 h with h | h
      · by_cases hn : needsLiteral atStart c = true
        · rw [if_pos hn] at h
          refine .inr ⟨c, ?_, h⟩
          simp only [needsLiteral] at hn ⊢
          cases atStart <;> simp_all
        · rw [if_neg hn] at h
          cases h
      · exact (ih h).imp_left (List.mem_cons_of_mem _)

theorem char_mem_flatten {es : List Element} {c : Char} (h : .char c ∈ flatten es) :
    .char c ∈ spell es := by
  rw [flatten_eq_map_spell] at h
  obtain ⟨s, hs, hc⟩ := List.mem_map.1 h
  cases s with
  | char d =>
    cases hc
    exact hs
  | placeable written content => cases hc

theorem placeable_mem_flatten {es : List Element} {written : List Char} {content : Expression}
    (h : .placeable written content ∈ flatten es) :
    ∃ e, .placeable e ∈ es ∧ written = e.print ∧ content = e.reread := by
  rw [flatten_eq_map_spell] at h
  obtain ⟨s, hs, hc⟩ := List.mem_map.1 h
  cases s with
  | char d => cases hc
  | placeable w e =>
    cases hc
    obtain ⟨he, hw⟩ := placeable_mem_spell.1 hs
    exact ⟨e, he, hw, rfl⟩

theorem getLast?_printScraps {width : Nat} {ss : List Scrap}
    (hlast : ss.getLast?.any (!·.isBlank) = true)
    (hwritten : ∀ written content, .placeable written content ∈ ss →
      written.getLast? = some '\x7d') : (printScraps width ss).getLast? ≠ some '\n' := by
  rcases List.eq_nil_or_concat ss with rfl | ⟨r, s, rfl⟩
  · cases hlast
  · cases s with
    | char c =>
      have hc : c ≠ '\n' := by
        rintro rfl
        simp [Scrap.isBlank, isSpaceOrNewline] at hlast
      simp [printScraps, shiftLines_cons hc, hc]
    | placeable written content =>
      obtain ⟨a, rfl⟩ := List.getLast?_eq_some_iff.1 (hwritten written content (by simp))
      simp [printScraps, shiftLines_cons]

theorem any_getLast?_isBlank (ss : List Scrap) :
    ss.getLast?.any (!·.isBlank) = (ss.map Scrap.isBlank).getLast?.any (!·) := by
  rw [List.getLast?_map]
  cases ss.getLast? <;> rfl

theorem all_head?_isBlank (ss : List Scrap) :
    ss.head?.all (!·.isBlank) = (ss.map Scrap.isBlank).head?.all (!·) := by
  cases ss <;> rfl

theorem map_isBlank_written (es : List Element) :
    (escape false (flatten es)).map Scrap.isBlank = (spell es).map Scrap.isBlank := by
  rw [map_isBlank_escape, flatten_eq_map_spell, List.map_map]
  exact List.map_congr_left fun s _ => isBlank_mapContent _ s

/-- Escaped scraps may begin a line if no syntax stands at its beginning. -/
theorem clean_true_escape {ss : List Scrap}
    (h : (ss.dropWhile Scrap.isBlank).head?.all (!·.opensSyntax) = true) :
    Clean true (escape false ss) := by
  induction ss with
  | nil => trivial
  | cons s r ih =>
    cases s with
    | placeable written content => exact clean_escape false r
    | char c =>
      by_cases hb : isSpaceOrNewline c = true
      · have hbrace : needsLiteral false c = false := by
          cases hn : needsLiteral false c with
          | false => rfl
          | true => exact absurd hb (by simp [not_blank_of_needsLiteral hn])
        have hr : (r.dropWhile Scrap.isBlank).head?.all (!·.opensSyntax) = true := by
          simpa [List.dropWhile_cons, Scrap.isBlank, hb] using h
        simp only [isSpaceOrNewline, Bool.or_eq_true, beq_iff_eq] at hb
        rcases hb with rfl | rfl
        · exact ⟨by decide, by decide, fun _ => rfl, ih hr⟩
        · exact ⟨by decide, by decide, fun _ => rfl, clean_escape true r⟩
      · have hline : lineStartAfter true c = false ∧ lineStartAfter false c = false := by
          simp only [isSpaceOrNewline, Bool.or_eq_true, beq_iff_eq, not_or] at hb
          simp [lineStartAfter, hb]
        have hopens : (Scrap.char c).opensSyntax = false := by
          simpa [List.dropWhile_cons, Scrap.isBlank, hb] using h
        have hr := clean_escape false r
        by_cases hn : needsLiteral false c = true
        · simp only [escape, hn, if_true, literalScrap, hline.2]
          exact hr
        · simp only [escape, hn, hline.2, if_false, Bool.false_eq_true]
          simp only [needsLiteral, Bool.and_false, Bool.or_false, Bool.or_eq_true, beq_iff_eq,
            not_or] at hn
          simp only [Scrap.opensSyntax, Bool.or_eq_false_iff, beq_eq_false_iff_ne] at hopens
          refine ⟨hn.1, hn.2, fun _ => ?_, by rwa [hline.1]⟩
          simp [isLineSyntax, hn, hopens]

theorem getLast?_written {es : List Element} {written : List Char}
    {content : Expression} (hm : .placeable written content ∈ escape false (flatten es)) :
    written.getLast? = some '\x7d' := by
  rcases placeable_mem_escape hm with hm | ⟨c, _, hc⟩
  · obtain ⟨e, _, rfl, _⟩ := placeable_mem_flatten hm
    exact getLast?_printExpression e
  · cases hc
    rfl

theorem getLast?_setOut {block : Bool} {width : Nat} {ss : List Scrap}
    (hlast : ss.getLast?.any (!·.isBlank) = true)
    (hwritten : ∀ written content, .placeable written content ∈ ss →
      written.getLast? = some '\x7d') : (setOut block width ss).getLast? ≠ some '\n' := by
  have hset : ∃ c, setOut block width ss = printScraps width (.char c :: ss) := by
    cases block with
    | true => exact ⟨'\n', rfl⟩
    | false => exact ⟨' ', rfl⟩
  obtain ⟨c, hset⟩ := hset
  rw [hset]
  refine getLast?_printScraps ?_ fun w e hm => hwritten w e (by simpa using hm)
  cases ss with
  | nil => cases hlast
  | cons s r => rwa [List.getLast?_cons_cons]

namespace Legible

variable {es : List Element} (h : Legible es)

include h

theorem lastSolid : (escape false (flatten es)).getLast?.any (!·.isBlank) = true := by
  rw [any_getLast?_isBlank, map_isBlank_written, ← any_getLast?_isBlank]
  exact h.solidEnd

theorem headSolid (hblock : startsBlock es = false) :
    (escape false (flatten es)).head?.all (!·.isBlank) = true := by
  rw [all_head?_isBlank, map_isBlank_written, ← all_head?_isBlank]
  exact h.solidHead hblock

theorem clean : Clean (startsBlock es) (escape false (flatten es)) := by
  cases hb : startsBlock es with
  | false => exact clean_escape false _
  | true =>
    apply clean_true_escape
    have hopening := h.opening hb
    rw [flatten_eq_map_spell, List.dropWhile_map, List.head?_map]
    have hfun : Scrap.isBlank ∘ Scrap.mapContent Expression.reread = Scrap.isBlank :=
      funext fun s => isBlank_mapContent _ s
    rw [hfun, Option.all_map]
    rw [← hopening]
    congr 1
    funext s
    simp

theorem print_eq_setOut :
    Pattern.print ⟨es⟩ = setOut (startsBlock es) 4 (escape false (flatten es)) := by
  have hlast : (printScraps 0 (escape false (flatten es))).getLast? ≠ some '\n' :=
    getLast?_printScraps h.lastSolid fun _ _ hm => getLast?_written hm
  rw [Pattern.print, layOut, printElements_eq, indentLines_eq_shiftLines hlast,
    shiftLines_printScraps]
  cases startsBlock es with
  | true => simp [setOut, printScraps, List.replicate]
  | false => rfl

theorem getLast?_print : (Pattern.print ⟨es⟩).getLast? ≠ some '\n' := by
  rw [h.print_eq_setOut]
  exact getLast?_setOut h.lastSolid fun _ _ hm => getLast?_written hm

end Legible

end Fluent
end FluentMigration
